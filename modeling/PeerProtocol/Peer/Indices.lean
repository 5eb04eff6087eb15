import PeerProtocol.Peer.Order

/-!
# peer — indices that come from outside

The index of a message is a 64-bit number that its sender chooses.
`queue_insert` refuses the negative ones, except `PEER_UNDEFINED`, which
stands for a message that is not saved. With all others it computes: a message
behind the end of the queue makes the queue grow up to its index, whatever
that is. The size to grow to is `index + 1`, which overflows for the largest
index, and the number of bytes is that size times the size of an entry, which
overflows much earlier.

What should happen is that the message is refused, or ignored because its
index is taken, or stored there, with holes below it, and that no arithmetic
on the way goes wrong (`IndexHandled`). The module says for which indices,
queues and allocators it does. The size of an entry is a parameter: a part of
it is kit's array header, which is not in the source.

## Plan

`queue_insert` is cut into its branches first, one equation for each:
negative, taken, a gap of the queue, behind the queue. Each branch is then
compared with the statement; only the last one has arithmetic in it.

## Results

* `IndexHandled` — refused, ignored, or stored there without an overflow.
* `IndexFits` — the indices, queues and allocators for which this is so, as a
  condition on the arguments.
* `indexHandled_iff` — for every other one it is not.
-/

namespace PeerProtocol

open Lib

-- ---------------------------------------------------------------------------
-- queue_insert, branch by branch
-- ---------------------------------------------------------------------------

variable {q : PeerQueue} {index time actor : Int} {data : List UInt8} {al : Allocator}

/-- There is memory for the data, or there is no data: the message is stored. -/
theorem queueStore_of_granted (h : data = [] ∨ al.outcomes 0 = true) (q : PeerQueue) (i : Nat)
    (time actor : Int) : ∃ al', queueStore q i time actor data al =
      (kitOk, q.set i { isReady := true, time, actor, data }, al') := by
  unfold queueStore Allocator.daInit Allocator.request
  rcases h with rfl | hGrant
  · exact ⟨al, rfl⟩
  · split
    · next hInit => split at hInit <;> simp_all
    · exact ⟨_, rfl⟩

/-- There is none: the entry stays as it is. -/
theorem queueStore_of_refused (h : ¬ (data = [] ∨ al.outcomes 0 = true)) (q : PeerQueue) (i : Nat)
    (time actor : Int) :
    ∃ al', queueStore q i time actor data al = (peerErrorBadAlloc, q, al') := by
  obtain ⟨hNe, hRefuse⟩ := not_or.mp h
  unfold queueStore Allocator.daInit Allocator.request
  rw [if_neg (by simpa using hNe), Bool.not_eq_true] at *
  rw [hRefuse]
  exact ⟨_, rfl⟩

/-- A negative index is ignored or refused, and nothing is allocated for it. -/
theorem queueInsert_of_neg (h : index < 0) : queueInsert q index time actor data al =
    .ok (if index = peerUndefined then kitOk else peerErrorInvalidMessageIndex, q, al) := by
  by_cases hUndefined : index = peerUndefined
  · rw [queueInsert, if_pos hUndefined, if_pos hUndefined]
  · rw [queueInsert, if_neg hUndefined, if_neg hUndefined, if_pos h]

/-- Where a message is ready, nothing changes, whatever the new one says. -/
theorem queueInsert_of_ready (h : 0 ≤ index) (hReady : (q[index.toNat]?).any (·.isReady) = true) :
    queueInsert q index time actor data al = .ok (kitOk, q, al) := by
  unfold queueInsert
  rw [if_neg (by rw [peerUndefined]; omega), if_neg (by omega), if_pos hReady]

/-- A gap of the queue is filled. -/
theorem queueInsert_of_gap (h : 0 ≤ index) (hGap : ¬ (q[index.toNat]?).any (·.isReady) = true)
    (hInside : index < q.length) :
    queueInsert q index time actor data al = .ok (queueStore q index.toNat time actor data al) := by
  unfold queueInsert
  rw [if_neg (by rw [peerUndefined]; omega), if_neg (by omega), if_neg hGap, if_pos (by omega)]

/-- Behind the queue: the size that it would grow to is computed first. -/
theorem queueInsert_of_past (hPast : (q.length : Int) ≤ index) :
    queueInsert q index time actor data al =
      if index = int64Max then .error .overflow
      else if al.outcomes 0 = true then
        .ok (queueStore (queueGrow q index.toNat) index.toNat time actor data al.request.2)
      else .ok (peerErrorBadAlloc, q, al.request.2) := by
  have hNone : q[index.toNat]? = none := List.getElem?_eq_none (by omega)
  unfold queueInsert
  rw [if_neg (by rw [peerUndefined]; omega), if_neg (by omega), hNone, Option.any_none,
    if_neg Bool.false_ne_true, if_neg (by omega)]
  unfold Allocator.request
  cases al.outcomes 0 <;> rfl

-- ---------------------------------------------------------------------------
-- The arithmetic
-- ---------------------------------------------------------------------------

/-- What `queue_insert` does with an index: it refuses it with an error and
leaves the queue, or ignores it, or it stores the message at it, and none of the
numbers that it computes for an index behind the queue overflows. -/
def IndexHandled (entrySize : Nat) (q : PeerQueue) (index time actor : Int) (data : List UInt8)
    (al : Allocator) : Prop :=
  ∃ s q' al', queueInsert q index time actor data al = .ok (s, q', al') ∧
    ((s ≠ kitOk ∧ q' = q) ∨
     (index = peerUndefined ∧ s = kitOk ∧ q' = q) ∨
     (s = kitOk ∧ 0 ≤ index ∧
      (q.length ≤ index → IsInt64 (index + 1) ∧ IsInt64 (index + 1 - q.length) ∧
        IsInt64 ((index + 1 - q.length) * entrySize)) ∧
      q'[index.toNat]? = some { isReady := true, time, actor, data }))

/-- The index is negative; or the same message is ready at it; or it is a gap
inside the queue; or it lies behind the queue and is not the last 64-bit one,
and the queue cannot grow, or its new entries have a size without overflow and
the message's data can be allocated. -/
def IndexFits (entrySize : Nat) (q : PeerQueue) (index time actor : Int) (data : List UInt8)
    (al : Allocator) : Prop :=
  index < 0 ∨
  q[index.toNat]? = some { isReady := true, time, actor, data } ∨
  (index < q.length ∧ ¬ (q[index.toNat]?).any (·.isReady) = true) ∨
  (q.length ≤ index ∧ index < int64Max ∧
    (al.outcomes 0 = false ∨
      ((index + 1 - q.length) * entrySize ≤ int64Max ∧ (data = [] ∨ al.outcomes 1 = true))))

/-- An index inside the queue needs no arithmetic: the message is stored unless its
data cannot be, or another is there. -/
theorem indexHandled_inside_iff {entrySize : Nat} (h : 0 ≤ index) (hInside : index < q.length) :
    IndexHandled entrySize q index time actor data al ↔
      q[index.toNat]? = some { isReady := true, time, actor, data } ∨
        ¬ (q[index.toNat]?).any (·.isReady) = true := by
  by_cases hReady : (q[index.toNat]?).any (·.isReady) = true
  · rw [or_iff_left (not_not.mpr hReady)]
    unfold IndexHandled
    rw [queueInsert_of_ready h hReady]
    constructor
    · rintro ⟨s, q', al', hEq, hCases⟩
      obtain ⟨rfl, rfl, rfl⟩ : kitOk = s ∧ q = q' ∧ al = al' := by simpa using hEq
      rcases hCases with ⟨hError, _⟩ | ⟨rfl, _⟩ | ⟨_, _, _, hStored⟩
      · exact absurd rfl hError
      · exact absurd h (by decide)
      · exact hStored
    · intro hStored
      exact ⟨_, _, _, rfl, Or.inr (Or.inr ⟨rfl, h, fun hPast => absurd hInside (by omega), hStored⟩)⟩
  -- a gap: the message is stored, or its data are refused
  · refine iff_of_true ?_ (Or.inr hReady)
    unfold IndexHandled
    rw [queueInsert_of_gap h hReady hInside]
    by_cases hData : data = [] ∨ al.outcomes 0 = true
    · obtain ⟨al', hStore⟩ := queueStore_of_granted hData q index.toNat time actor
      rw [hStore]
      refine ⟨_, _, _, rfl, Or.inr (Or.inr ⟨rfl, h, fun hPast => absurd hInside (by omega), ?_⟩)⟩
      exact List.getElem?_set_self (by omega)
    · obtain ⟨al', hStore⟩ := queueStore_of_refused hData q index.toNat time actor
      rw [hStore]
      exact ⟨_, _, _, rfl, Or.inl ⟨by decide, rfl⟩⟩

/-- An index behind the queue has to leave room for itself, and for the bytes of all
entries up to it, unless the first request is refused. -/
theorem indexHandled_past_iff {entrySize : Nat} (hIndex : IsInt64 index)
    (hPast : (q.length : Int) ≤ index) :
    IndexHandled entrySize q index time actor data al ↔ index < int64Max ∧
      (al.outcomes 0 = false ∨
        ((index + 1 - q.length) * entrySize ≤ int64Max ∧ (data = [] ∨ al.outcomes 1 = true))) := by
  have hLe := hIndex.2
  unfold IndexHandled
  rw [queueInsert_of_past hPast]
  by_cases hMax : index = int64Max
  · rw [if_pos hMax]
    refine iff_of_false ?_ fun h => absurd h.1 (by omega)
    rintro ⟨s, q', al', hEq, _⟩
    cases hEq
  rw [if_neg hMax, and_iff_right (show index < int64Max by omega)]
  by_cases hGrow : al.outcomes 0 = true
  swap
  · -- the queue cannot grow
    rw [if_neg hGrow]
    exact iff_of_true ⟨_, _, _, rfl, Or.inl ⟨by decide, rfl⟩⟩ (Or.inl (Bool.not_eq_true _ ▸ hGrow))
  rw [if_pos hGrow, or_iff_right (by simp [hGrow])]
  have hLength : (queueGrow q index.toNat).length = index.toNat + 1 := by
    rw [queueGrow, List.length_append, List.length_replicate]
    omega
  have hGrown : queueGrow q index.toNat ≠ q := by
    intro hEq
    rw [hEq] at hLength
    omega
  have hSize : 0 ≤ (index + 1 - q.length) * entrySize := Int.mul_nonneg (by omega) (by omega)
  by_cases hData : data = [] ∨ al.outcomes 1 = true
  · have hGranted : data = [] ∨ al.request.2.outcomes 0 = true := hData
    rw [and_iff_left hData]
    obtain ⟨al', hStore⟩ := queueStore_of_granted hGranted
      (queueGrow q index.toNat) index.toNat time actor
    rw [hStore]
    constructor
    · rintro ⟨s, q', al'', hEq, hCases⟩
      obtain ⟨rfl, rfl, rfl⟩ := by simpa using hEq
      rcases hCases with ⟨hError, _⟩ | ⟨rfl, _⟩ | ⟨_, _, hArith, _⟩
      · exact absurd rfl hError
      · exact absurd hPast (by rw [peerUndefined]; omega)
      · exact (hArith hPast).2.2.2
    · intro hFits
      refine ⟨_, _, _, rfl, Or.inr (Or.inr ⟨rfl, by omega, fun _ => ?_, ?_⟩)⟩
      · unfold IsInt64 at *
        rw [int64Max] at *
        omega
      · exact List.getElem?_set_self (by omega)
  · -- the queue has grown, and there it stays
    rw [and_iff_right_of_imp (fun h => absurd h hData)]
    refine iff_of_false ?_ hData
    have hRefused : ¬ (data = [] ∨ al.request.2.outcomes 0 = true) := hData
    obtain ⟨al', hStore⟩ := queueStore_of_refused hRefused
      (queueGrow q index.toNat) index.toNat time actor
    rw [hStore]
    rintro ⟨s, q', al'', hEq, hCases⟩
    obtain ⟨rfl, rfl, rfl⟩ := by simpa using hEq
    rcases hCases with ⟨_, hSame⟩ | ⟨rfl, _⟩ | ⟨hOk, _⟩
    · exact hGrown hSame
    · exact absurd hPast (by rw [peerUndefined]; omega)
    · exact absurd hOk (by decide)

/-- **Indices that come from outside.** For every queue, every index that can be
read from a chunk, every time and actor (those of a host's insertion or of a
client's), all data and every allocator, `queue_insert` handles the index
exactly when it fits. -/
theorem indexHandled_iff (entrySize : Nat) (q : PeerQueue) (chunk : Chunk) (index : Int)
    (hIndex : peerReadMessageIndex chunk = .ok index) (time actor : Int) (data : List UInt8)
    (al : Allocator) :
    IndexHandled entrySize q index time actor data al ↔
      IndexFits entrySize q index time actor data al := by
  have hRange : IsInt64 index := isInt64_of_peerReadMessageIndex hIndex
  unfold IndexFits
  rcases Int.lt_or_le index 0 with hNeg | hNonneg
  · refine iff_of_true ⟨_, _, _, queueInsert_of_neg hNeg, ?_⟩ (Or.inl hNeg)
    by_cases hUndefined : index = peerUndefined
    · rw [if_pos hUndefined]
      exact Or.inr (Or.inl ⟨hUndefined, rfl, rfl⟩)
    · rw [if_neg hUndefined]
      exact Or.inl ⟨by decide, rfl⟩
  -- Not negative: inside the queue, or past its end, where it has to grow.
  rw [or_iff_right (Int.not_lt.mpr hNonneg)]
  rcases Int.lt_or_le index q.length with hInside | hPast
  · rw [indexHandled_inside_iff hNonneg hInside, and_iff_right hInside,
      or_iff_left (show ¬ ((q.length : Int) ≤ index ∧ _) from fun h => absurd h.1 (by omega))]
  · have hNone : q[index.toNat]? = none := List.getElem?_eq_none (by omega)
    have hNotReady : ¬ none = some ({ isReady := true, time, actor, data } : PeerMessage) :=
      fun h => by cases h
    rw [indexHandled_past_iff hRange hPast, and_iff_right hPast, hNone, or_iff_right hNotReady,
      or_iff_right (show ¬ (index < q.length ∧ _) from fun h => absurd h.1 (Int.not_lt.mpr hPast))]

/-- The first message into an empty queue. -/
theorem indexHandled_first :
    IndexHandled 48 [] 0 0 1 [9] .reliable ↔ IndexFits 48 [] 0 0 1 [9] .reliable :=
  indexHandled_iff 48 [] (encode peerMessageModeApplication 0 0 1 [9]) 0 (by decide +kernel) 0 1 [9]
    .reliable

/-- A packet of the host's client with a message at the last 64-bit index. -/
def lastIndexMessage : PeerPacket :=
  ((PeerPacket.blank 5 2).copyChunk 15
    (encode peerMessageModeApplication int64Max 0 1 [9])).toOption.getD
      (PeerPacket.blank 5 2) |>.writeHeader 46

/-- The last 64-bit index is read from a packet, and `index + 1` overflows in
the input of it. -/
theorem not_indexHandled_last :
    peerReadMessageIndex (encode peerMessageModeApplication int64Max 0 1 [9]) = .ok int64Max ∧
      ¬ IndexHandled 48 [] int64Max 0 1 [9] .reliable ∧
      faultOf (peerInput (boundHost .reliable) [lastIndexMessage]) = some .overflow := by
  refine ⟨by decide +kernel, ?_, by decide +kernel⟩
  rintro ⟨s, q', al', hEq, _⟩
  rw [queueInsert_of_past (by decide), if_pos rfl] at hEq
  cases hEq

end PeerProtocol
