import PeerProtocol.Peer.Trail

/-!
# peer — the resend trail, whatever the allocator does

`chunks_append_trail` under every pattern of allocation failures, and which
messages its two parts take. `Peer.Trail` has the case that nothing is
refused.

Each loop of the function makes one chunk after the other and gives up at the
first that cannot be allocated; the chunks made so far are destroyed, and the
list is cut back. So a part is appended as a whole or not at all, and the
scatter part is only tried when the serial part was appended. `AllOrNone` is
that, for a loop: what it returns is its full list, or nothing and then some
request was refused.

The second half is about the indices. The serial part ends at the index, and
below 105 it is everything. The scatter part is picked from a window of a
hundred entries. The cutoff at 105 leaves room for a window in front of the
serial part, but the window is taken up to the index: its last five entries
are those of the serial part, and its first is not the hundredth before it. So
a message can be sent twice in one trail, and one of the hundred can never be
picked.

## Results

* `trail_outcomes` — the call appends both parts, or only the serial one, or
  nothing.
* `chunksAppendTrail_trail` — so it appends complete messages only, and all of
  the trail if nothing fails; `WholeTrail` says which messages these are.
* `scatterApart_iff` — the scatter part keeps apart from the serial one, and
  can reach its whole window, exactly while there is no scatter part; for a
  given generator, exactly where it picks none of the last five.
-/

namespace PeerProtocol

open Lib

-- ---------------------------------------------------------------------------
-- The parts of the trail
-- What the allocator can do to each of them.
-- ---------------------------------------------------------------------------

/-- The allocator refuses nothing from here on, whatever it has refused before. -/
def Allocator.GrantsAll (al : Allocator) : Prop := ∀ n, al.outcomes n = true

/-- It grants a request, and goes on so. -/
theorem Allocator.GrantsAll.request {al al' : Allocator} {b : Bool} (h : al.GrantsAll)
    (hRequest : al.request = (b, al')) : b = true ∧ al'.GrantsAll := by
  obtain ⟨rfl, rfl⟩ := Prod.mk.inj hRequest
  exact ⟨h 0, fun n => h (n + 1)⟩

theorem Allocator.GrantsAll.daInit {al al' : Allocator} {b : Bool} {n : Nat} (h : al.GrantsAll)
    (hInit : al.daInit n = (b, al')) : b = true ∧ al'.GrantsAll := by
  unfold Allocator.daInit at hInit
  split at hInit
  · obtain ⟨rfl, rfl⟩ := Prod.mk.inj hInit
    exact ⟨rfl, h⟩
  · exact h.request hInit

/-- A computation that gives up at the first refused request, or else results in
`a`. The loops of the trail are of this kind, so that their outcome is decided by
the requests alone. -/
structure AllOrNone {α : Type} (al al' : Allocator) (r : Option α) (a : α) : Prop where
  cases : r = none ∨ r = some a
  grants : al.GrantsAll → r ≠ none ∧ al'.GrantsAll

/-- What is built on a computation that gives up gives up. -/
theorem AllOrNone.none {α β : Type} {al al' : Allocator} {a : α}
    (h : AllOrNone al al' none a) (b : β) : AllOrNone al al' none b :=
  ⟨Or.inl rfl, fun hal => absurd rfl (h.grants hal).1⟩

theorem messageChunk_outcomes {q : PeerQueue} {k : Nat} {m : PeerMessage} (hm : q[k]? = some m)
    (al : Allocator) :
    ∃ r al', messageChunk q k al = .ok (r, al') ∧ AllOrNone al al' r (m.chunk k) := by
  unfold messageChunk
  rw [readAt_eq_ok.mpr hm, ok_bind]
  dsimp only
  rcases hInit : al.daInit (peerNMessageData + m.data.length) with ⟨b, al'⟩
  cases b with
  | false =>
    exact ⟨none, al', rfl, Or.inl rfl, fun hal => absurd (hal.daInit hInit).1 (by decide)⟩
  | true =>
    refine ⟨some (m.chunk k), al', ?_, Or.inr rfl, fun hal => ⟨by simp, (hal.daInit hInit).2⟩⟩
    dsimp only
    rw [peerWriteMessage_eq (by rw [List.length_replicate, peerNMessageData]), ok_bind,
      List.drop_eq_nil_of_le (by rw [List.length_replicate, peerNMessageData]), List.append_nil]
    rfl

/-- One chunk in front of the chunks of a loop. -/
theorem AllOrNone.cons {al al1 al2 : Allocator} {c : Chunk} {r : Option (List Chunk)}
    {cs : List Chunk} (hFirst : AllOrNone al al1 (some c) c) (h : AllOrNone al1 al2 r cs) :
    AllOrNone al al2 (r.map (c :: ·)) (c :: cs) := by
  constructor
  · rcases h.cases with rfl | rfl
    · exact Or.inl rfl
    · exact Or.inr rfl
  · intro hal
    obtain ⟨hSome, hal2⟩ := h.grants (hFirst.grants hal).2
    exact ⟨by simpa using hSome, hal2⟩

/-- The serial loop gives all its chunks, or none: where one of its requests is
refused, the source frees what it has, and the caller is given no list. -/
theorem serialChunks_outcomes {q : PeerQueue} {start count : Nat} (h : start + count ≤ q.length)
    (al : Allocator) :
    ∃ r al', serialChunks q start count al = .ok (r, al') ∧
      AllOrNone al al' r (chunksAt q (List.range' start count)) := by
  induction count generalizing start al with
  | zero => exact ⟨some [], al, rfl, Or.inr rfl, fun hal => ⟨by simp, hal⟩⟩
  | succ count ih =>
    have hm : q[start]? = some q[start] := List.getElem?_eq_getElem (by omega)
    obtain ⟨r1, al1, hChunk, hFirst⟩ := messageChunk_outcomes hm al
    rw [serialChunks, hChunk, ok_bind]
    -- The first chunk is refused, and so is the list; or the rest decides.
    rcases hFirst.cases with rfl | rfl
    · exact ⟨none, al1, rfl, hFirst.none _⟩
    · obtain ⟨r2, al2, hRest, hAll⟩ := ih (show start + 1 + count ≤ q.length by omega) al1
      refine ⟨r2.map (q[start].chunk start :: ·), al2, ?_, ?_⟩
      · dsimp only
        rw [hRest, ok_bind]
        cases r2 <;> rfl
      · rw [List.range'_succ, chunksAt_cons hm]
        exact hFirst.cons hAll

/-- So does the scatter loop, with the generator wherever it has come to. The
positions it picks are drawn before each request, so which numbers have been drawn
depends on where it stopped. -/
theorem scatterChunks_outcomes {q : PeerQueue} {start distance : Nat} (hPos : 0 < distance)
    (h : start + distance ≤ q.length) (count : Nat) (rng : Mt64) (al : Allocator) :
    ∃ r rng' al', scatterChunks q start distance count rng al = .ok (r, rng', al') ∧
      AllOrNone al al' r (chunksAt q (scatterIndices start distance count rng).1) := by
  induction count generalizing rng al with
  | zero => exact ⟨some [], rng, al, rfl, Or.inr rfl, fun hal => ⟨by simp, hal⟩⟩
  | succ count ih =>
    have hLt := Nat.mod_lt rng.generate.1.toNat hPos
    have hm : q[start + rng.generate.1.toNat % distance]? =
        some q[start + rng.generate.1.toNat % distance] := List.getElem?_eq_getElem (by omega)
    obtain ⟨r1, al1, hChunk, hFirst⟩ := messageChunk_outcomes hm al
    rw [scatterChunks]
    dsimp only
    rw [hChunk, ok_bind]
    -- the first chunk is refused, or the rest decides
    rcases hFirst.cases with rfl | rfl
    · exact ⟨none, rng.generate.2, al1, rfl, hFirst.none _⟩
    · obtain ⟨r2, rng2, al2, hRest, hAll⟩ := ih rng.generate.2 al1
      refine ⟨r2.map (q[start + rng.generate.1.toNat % distance].chunk
        (start + rng.generate.1.toNat % distance) :: ·), rng2, al2, ?_, ?_⟩
      · dsimp only
        rw [hRest, ok_bind]
        cases r2 <;> rfl
      · rw [scatterIndices, chunksAt_cons hm]
        exact hFirst.cons hAll

/-- The indices of the serial part, a range that ends at the index. -/
def serialIndices (index : Nat) : List Nat :=
  List.range' (index - trailSize index) (trailSize index)

/-- The message indices that `chunks_append_trail` chooses for the scatter part. -/
def scatterChosen (rng : Mt64) (index : Nat) : List Nat :=
  (scatterIndices (index - scatterTrailDistance index) (scatterTrailDistance index)
    (scatterTrailSize index) rng).1

/-- The two parts, one behind the other. -/
theorem trailIndices_eq (rng : Mt64) (index : Nat) :
    (trailIndices rng index).1 = serialIndices index ++ scatterChosen rng index := rfl

/-- The serial part is appended as a whole, or the call ends with
`PEER_ERROR_BAD_ALLOC` and the chunks that it was given are as they were. Where
nothing is refused it is the first of the two. -/
theorem appendSerialTrail_outcomes {q : PeerQueue} {index : Nat} (h : index ≤ q.length)
    (chunks : List Chunk) (al : Allocator) :
    ∃ s added al', appendSerialTrail q index chunks al = .ok (s, chunks ++ added, al') ∧
      (s = kitOk ∧ added = chunksAt q (serialIndices index) ∨ s = peerErrorBadAlloc ∧ added = []) ∧
      (al.GrantsAll → s = kitOk ∧ al'.GrantsAll) := by
  have hSize := trailSize_le index
  unfold appendSerialTrail
  split
  · next hZero =>
    refine ⟨kitOk, [], al, by rw [List.append_nil], Or.inl ⟨rfl, ?_⟩, fun hGrants => ⟨rfl, hGrants⟩⟩
    rw [serialIndices, hZero]
    rfl
  · rcases hRequest : al.request with ⟨b, al1⟩
    cases b with
    | false =>
      refine ⟨_, [], al1, by rw [List.append_nil], Or.inr ⟨rfl, rfl⟩, fun hGrants => ?_⟩
      exact absurd (hGrants.request hRequest).1 (by decide)
    | true =>
      obtain ⟨r, al2, hSerial, hAll⟩ :=
        serialChunks_outcomes (show index - trailSize index + trailSize index ≤ q.length by omega) al1
      dsimp only
      rw [hSerial, ok_bind]
      -- one refusal, and the whole part is given up
      rcases hAll.cases with rfl | rfl
      · refine ⟨_, [], al2, by rw [List.append_nil]; rfl, Or.inr ⟨rfl, rfl⟩, fun hal => ?_⟩
        exact absurd rfl (hAll.grants (hal.request hRequest).2).1
      · exact ⟨_, _, al2, rfl, Or.inl ⟨rfl, rfl⟩,
          fun hal => ⟨rfl, (hAll.grants (hal.request hRequest).2).2⟩⟩

/-- Where a scatter part is taken, it is taken from a window inside the queue. -/
theorem scatterTrailDistance_pos {index : Nat} (h : scatterTrailSize index ≠ 0) :
    0 < scatterTrailDistance index ∧ scatterTrailDistance index ≤ index := by
  unfold scatterTrailSize at h
  unfold scatterTrailDistance at h ⊢
  omega

theorem appendScatterTrail_outcomes {q : PeerQueue} {index : Nat} (h : index ≤ q.length)
    (rng : Mt64) (chunks : List Chunk) (al : Allocator) :
    ∃ s added rng' al', appendScatterTrail rng q index chunks al = .ok (s, chunks ++ added, rng', al') ∧
      (s = kitOk ∧ added = chunksAt q (scatterChosen rng index) ∨ s = peerErrorBadAlloc ∧ added = []) ∧
      (al.GrantsAll → s = kitOk) := by
  unfold appendScatterTrail
  split
  · next hZero =>
    refine ⟨kitOk, [], rng, al, by rw [List.append_nil], Or.inl ⟨rfl, ?_⟩, fun _ => rfl⟩
    rw [scatterChosen, hZero]
    rfl
  next hCount =>
  obtain ⟨hPos, hInside⟩ := scatterTrailDistance_pos hCount
  rcases hRequest : al.request with ⟨b, al1⟩
  cases b with
  | false =>
    refine ⟨_, [], rng, al1, by rw [List.append_nil], Or.inr ⟨rfl, rfl⟩, fun hGrants => ?_⟩
    exact absurd (hGrants.request hRequest).1 (by decide)
  | true =>
    obtain ⟨r, rng2, al2, hScatter, hAll⟩ := scatterChunks_outcomes hPos
      (show index - scatterTrailDistance index + scatterTrailDistance index ≤ q.length by omega)
      (scatterTrailSize index) rng al1
    dsimp only
    rw [hScatter, ok_bind]
    -- one refusal, and the whole part is given up
    rcases hAll.cases with rfl | rfl
    · refine ⟨_, [], rng2, al2, by rw [List.append_nil]; rfl, Or.inr ⟨rfl, rfl⟩, fun hal => ?_⟩
      exact absurd rfl (hAll.grants (hal.request hRequest).2).1
    · exact ⟨_, _, rng2, al2, rfl, Or.inl ⟨rfl, rfl⟩, fun _ => rfl⟩

/-- **What the trail leaves behind the chunks that were there**, whatever the
outcomes: nothing, the serial part, or both parts. Each part is there as a whole or
not at all. -/
theorem trail_outcomes {q : PeerQueue} {index : Nat} (h : index ≤ q.length) (rng : Mt64)
    (chunks : List Chunk) (al : Allocator) :
    ∃ s added rng' al', chunksAppendTrail rng q index chunks al = .ok (s, chunks ++ added, rng', al') ∧
      (s = kitOk ∧ added = chunksAt q (serialIndices index ++ scatterChosen rng index) ∨
        s = peerErrorBadAlloc ∧ (added = [] ∨ added = chunksAt q (serialIndices index))) ∧
      (al.GrantsAll → s = kitOk) := by
  obtain ⟨s1, added1, al1, hSerial, hCases1, hGrants1⟩ := appendSerialTrail_outcomes h chunks al
  rw [chunksAppendTrail, if_neg (by omega), hSerial, ok_bind]
  dsimp only
  -- The second part is only begun when the first was appended.
  rcases hCases1 with ⟨rfl, rfl⟩ | ⟨rfl, rfl⟩
  · obtain ⟨s2, added2, rng2, al2, hScatter, hCases2, hGrants2⟩ :=
      appendScatterTrail_outcomes h rng (chunks ++ chunksAt q (serialIndices index)) al1
    refine ⟨s2, chunksAt q (serialIndices index) ++ added2, rng2, al2, ?_, ?_,
      fun hal => hGrants2 (hGrants1 hal).2⟩
    · rw [if_neg (by simp), hScatter, List.append_assoc]
    · rcases hCases2 with ⟨rfl, rfl⟩ | ⟨rfl, rfl⟩
      · exact Or.inl ⟨rfl, (chunksAt_append ..).symm⟩
      · exact Or.inr ⟨rfl, Or.inr (List.append_nil _)⟩
  · exact ⟨_, [], rng, al1, rfl, Or.inr ⟨rfl, Or.inl rfl⟩, fun hal => (hGrants1 hal).1⟩

-- ---------------------------------------------------------------------------
-- Complete messages
-- What is appended, by its indices.
-- ---------------------------------------------------------------------------

/-- A complete encoding of message `k` of a queue: its size field is its length,
and its index field is its index. -/
structure CompleteChunk (q : PeerQueue) (k : Nat) (c : Chunk) : Prop where
  message : ∃ m, q[k]? = some m ∧ c = m.chunk k
  size : peerReadMessageSize c = .ok c.length
  index : IsInt64 k → peerReadMessageIndex c = .ok k

/-- The chunks of messages that fit a packet are complete. -/
theorem completeChunk_chunksAt {q : PeerQueue} (hSmall : ∀ m ∈ q, m.Small) {ks : List Nat}
    (hks : ∀ k ∈ ks, k < q.length) : List.Forall₂ (CompleteChunk q) ks (chunksAt q ks) := by
  induction ks with
  | nil => exact .nil
  | cons k ks ih =>
    obtain ⟨hk, hLater⟩ := List.forall_mem_cons.mp hks
    have hm : q[k]? = some q[k] := List.getElem?_eq_getElem hk
    rw [chunksAt_cons hm]
    refine .cons ⟨⟨q[k], hm, rfl⟩, (framed_chunk (hSmall _ (List.getElem_mem hk)) k).size, ?_⟩
      (ih hLater)
    intro hIndex
    rw [PeerMessage.chunk, encode, peerReadMessageIndex_header hIndex]

/-- The serial part as an interval. -/
theorem mem_serialIndices {index k : Nat} :
    k ∈ serialIndices index ↔ index - trailSize index ≤ k ∧ k < index := by
  have hSize := trailSize_le index
  rw [serialIndices, List.mem_range'_1]
  omega

/-- As many indices are picked as were asked for, with repetitions. -/
theorem length_scatterIndices (start distance count : Nat) (rng : Mt64) :
    (scatterIndices start distance count rng).1.length = count := by
  induction count generalizing rng with
  | zero => rfl
  | succ count ih => rw [scatterIndices, List.length_cons, ih]

/-- Below index 105 there is no scatter part, and from there on it is five
messages of the last hundred. -/
theorem scatterChosen_of_lt {index : Nat} (h : index < 105) (rng : Mt64) :
    scatterChosen rng index = [] := by
  have hSize : scatterTrailSize index = 0 := by
    rw [scatterTrailSize, scatterTrailDistance, trailSize_of_lt h, Nat.sub_self, Nat.min_zero,
      Nat.min_zero]
  rw [scatterChosen, hSize]
  rfl

/-- From 105 entries on, five are picked from the last hundred. -/
theorem scatterChosen_of_ge {index : Nat} (h : 105 ≤ index) (rng : Mt64) :
    scatterChosen rng index = (scatterIndices (index - 100) 100 5 rng).1 := by
  have hDistance : scatterTrailDistance index = 100 := by
    rw [scatterTrailDistance, trailSize_of_ge h, peerTrailScatterDistance, Nat.min_eq_left (by omega)]
  rw [scatterChosen, scatterTrailSize, hDistance]
  rfl

/-- There is a scatter part from 105 entries on, and it has five messages. -/
theorem length_scatterChosen (rng : Mt64) (index : Nat) :
    (scatterChosen rng index).length = if index < 105 then 0 else 5 := by
  split
  · next h => rw [scatterChosen_of_lt h, List.length_nil]
  · next h => rw [scatterChosen_of_ge (Nat.not_lt.mp h), length_scatterIndices]

/-- The serial part is as long as the index is low, and five from index 105 on. -/
def serialSize (index : Nat) : Nat :=
  if index < peerTrailSerialSize + peerTrailScatterDistance then index else peerTrailSerialSize

/-- The range by its size as the statement has it. -/
theorem serialIndices_eq (index : Nat) :
    serialIndices index = List.range' (index - serialSize index) (serialSize index) := by
  have hSize : trailSize index = serialSize index := by
    unfold serialSize
    split
    · next h => exact trailSize_of_lt h
    · next h => exact trailSize_of_ge (Nat.not_lt.mp h)
  rw [serialIndices, hSize]

/-- All of the trail behind an index: the messages just before it, in order, and
behind them, where these are not all that there is, five others that are not far. -/
def WholeTrail (q : PeerQueue) (index : Nat) (added : List Chunk) : Prop :=
  ∃ scatter : List Nat,
    List.Forall₂ (CompleteChunk q)
      (List.range' (index - serialSize index) (serialSize index) ++ scatter) added ∧
    scatter.length =
      (if index < peerTrailSerialSize + peerTrailScatterDistance then 0 else peerTrailScatterSize) ∧
    ∀ k ∈ scatter, k < index ∧ index ≤ k + (peerTrailSerialSize + peerTrailScatterDistance)

/-- All indices of the trail are below the index. -/
theorem lt_of_mem_trail {rng : Mt64} {index k : Nat}
    (h : k ∈ serialIndices index ++ scatterChosen rng index) : k < index :=
  (mem_trailIndices (trailIndices_eq rng index ▸ h)).1

/-- **Meaning of the resend trail**, for messages that fit a packet, an index
inside the queue, and every pattern of outcomes: behind the chunks that were
there come only complete encodings of messages before the index, and with
success all of the trail; and where no request is refused there is success. -/
theorem chunksAppendTrail_trail {q : PeerQueue} (hSmall : ∀ m ∈ q, m.data.length ≤ peerMaxMessageSize)
    {index : Nat} (hIndex : index ≤ q.length) (rng : Mt64) (outChunks : List Chunk) (al : Allocator) :
    ∃ s added rng' al',
      chunksAppendTrail rng q index outChunks al = .ok (s, outChunks ++ added, rng', al') ∧
      (∃ ks, List.Forall₂ (CompleteChunk q) ks added ∧ ∀ k ∈ ks, k < index) ∧
      (s = kitOk → WholeTrail q index added) ∧
      ((∀ n, al.outcomes n = true) → s = kitOk) := by
  obtain ⟨s, added, rng', al', hTrail, hCases, hGrants⟩ := trail_outcomes hIndex rng outChunks al
  have hComplete (ks : List Nat) (hks : ∀ k ∈ ks, k < index) :
      List.Forall₂ (CompleteChunk q) ks (chunksAt q ks) :=
    completeChunk_chunksAt hSmall fun k hk => Nat.lt_of_lt_of_le (hks k hk) hIndex
  have hWhole := hComplete (serialIndices index ++ scatterChosen rng index) fun k hk => lt_of_mem_trail hk
  refine ⟨s, added, rng', al', hTrail, ?_, ?_, hGrants⟩
  -- all of the trail, or nothing, or its serial part
  · rcases hCases with ⟨_, rfl⟩ | ⟨_, rfl | rfl⟩
    · exact ⟨_, hWhole, fun k hk => lt_of_mem_trail hk⟩
    · exact ⟨[], .nil, by simp⟩
    · have hks : ∀ k ∈ serialIndices index, k < index := fun k hk => (mem_serialIndices.mp hk).2
      exact ⟨_, hComplete _ hks, hks⟩
  · rintro rfl
    rcases hCases with ⟨_, rfl⟩ | ⟨hBad, _⟩
    · refine ⟨scatterChosen rng index, serialIndices_eq index ▸ hWhole, length_scatterChosen rng index, ?_⟩
      intro k hk
      have hTrailed : k ∈ (trailIndices rng index).1 := List.mem_append_right _ hk
      have hBehind := mem_trailIndices hTrailed
      refine ⟨hBehind.1, ?_⟩
      show index ≤ k + 105
      omega
    · exact absurd hBad (by decide)

/-- A queue of two short messages, and the second request refused. -/
theorem chunksAppendTrail_trail_refused :
    ∃ s added rng' al',
      chunksAppendTrail ⟨fun _ => 0⟩ [⟨true, 0, 0, [1]⟩, ⟨true, 0, 0, [2]⟩] 2 []
        ⟨fun n => n != 1, false⟩ = .ok (s, [] ++ added, rng', al') ∧
      (∃ ks, List.Forall₂ (CompleteChunk [⟨true, 0, 0, [1]⟩, ⟨true, 0, 0, [2]⟩]) ks added ∧
        ∀ k ∈ ks, k < 2) ∧
      (s = kitOk → WholeTrail [⟨true, 0, 0, [1]⟩, ⟨true, 0, 0, [2]⟩] 2 added) ∧
      ((∀ n : Nat, (n != 1) = true) → s = kitOk) :=
  chunksAppendTrail_trail (by decide) (by decide) ⟨fun _ => 0⟩ [] ⟨fun n => n != 1, false⟩

-- ---------------------------------------------------------------------------
-- The scatter part and the serial part
-- ---------------------------------------------------------------------------

/-- No message of the scatter part is one of the serial part, so none goes out twice
for that reason. -/
def ScatterApart (rng : Mt64) (index : Nat) : Prop :=
  ∀ k ∈ scatterChosen rng index, k ∉ serialIndices index

/-- The hundred messages just before the serial part can all be chosen, by some
generator. -/
def WindowReached (index : Nat) : Prop :=
  ∀ k, k < index - trailSize index → index - trailSize index ≤ k + peerTrailScatterDistance →
    ∃ rng, k ∈ scatterChosen rng index

/-- What is chosen, by the words of the generator. -/
theorem mem_scatterChosen_of_ge {index : Nat} (h : 105 ≤ index) {rng : Mt64} {k : Nat} :
    k ∈ scatterChosen rng index ↔ ∃ i < 5, k = index - 100 + (rng.words i).toNat % 100 := by
  rw [scatterChosen_of_ge h, mem_scatterIndices_iff]

/-- The parts are apart if no word picks one of the last five. -/
theorem scatterApart_of_ge {index : Nat} (h : 105 ≤ index) (rng : Mt64) :
    ScatterApart rng index ↔ ∀ i < 5, (rng.words i).toNat % 100 < 95 := by
  have hChosen (i : Nat) : index - 100 + (rng.words i).toNat % 100 ∉ serialIndices index ↔
      (rng.words i).toNat % 100 < 95 := by
    rw [mem_serialIndices, trailSize_of_ge h]
    omega
  constructor
  · intro hApart i hi
    exact (hChosen i).mp (hApart _ ((mem_scatterChosen_of_ge h).mpr ⟨i, hi, rfl⟩))
  · intro hWords k hk
    obtain ⟨i, hi, rfl⟩ := (mem_scatterChosen_of_ge h).mp hk
    exact (hChosen i).mpr (hWords i hi)

/-- The message a hundred before the serial part is never chosen. -/
theorem not_windowReached_of_ge {index : Nat} (h : 105 ≤ index) : ¬ WindowReached index := by
  intro hReached
  have hSize := trailSize_of_ge h
  obtain ⟨rng, hk⟩ := hReached (index - 105) (by omega)
    (by rw [peerTrailScatterDistance]; omega)
  obtain ⟨i, _, hEq⟩ := (mem_scatterChosen_of_ge h).mp hk
  omega

/-- **The two parts of the trail.** Without failures `chunks_append_trail`
appends the serial part and then the scatter part. These are apart, and the
scatter part is chosen from the window just before the serial one, exactly when
there is no scatter part; and they are apart exactly then, or when none of the
five words of the generator falls into the last five of a hundred. -/
theorem scatterApart_iff {q : PeerQueue} {index : Nat} (hIndex : index ≤ q.length) (rng : Mt64)
    (outChunks : List Chunk) :
    (∃ rng', chunksAppendTrail rng q index outChunks .reliable =
      .ok (kitOk, outChunks ++ (chunksAt q (serialIndices index) ++
        chunksAt q (scatterChosen rng index)), rng', .reliable)) ∧
    (ScatterApart rng index ∧ WindowReached index ↔
      index < peerTrailSerialSize + peerTrailScatterDistance) ∧
    (ScatterApart rng index ↔ index < peerTrailSerialSize + peerTrailScatterDistance ∨
      ∀ i < peerTrailScatterSize, (rng.words i).toNat % peerTrailScatterDistance <
        peerTrailScatterDistance - peerTrailSerialSize) := by
  refine ⟨⟨(trailIndices rng index).2, ?_⟩, ?_⟩
  · rw [chunksAppendTrail_reliable hIndex, trailIndices_eq, chunksAt_append]
  show (_ ↔ index < 105) ∧ (_ ↔ index < 105 ∨ ∀ i < 5, (rng.words i).toNat % 100 < 95)
  rcases Nat.lt_or_ge index 105 with hLt | hGe
  · have hApart : ScatterApart rng index := by
      intro k hk
      rw [scatterChosen_of_lt hLt] at hk
      cases hk
    refine ⟨⟨fun _ => hLt, fun _ => ⟨hApart, fun k hk => ?_⟩⟩, ⟨fun _ => Or.inl hLt, fun _ => hApart⟩⟩
    -- nothing lies before the serial part
    rw [trailSize_of_lt hLt, Nat.sub_self] at hk
    exact absurd hk (Nat.not_lt_zero k)
  · have hNotLt := Nat.not_lt.mpr hGe
    exact ⟨⟨fun h => absurd h.2 (not_windowReached_of_ge hGe), fun h => absurd h hNotLt⟩,
      (scatterApart_of_ge hGe rng).trans ⟨Or.inr, fun h => h.resolve_left hNotLt⟩⟩

/-- A generator of zeros picks the first of the window, five times. -/
theorem scatterApart_iff_zeros :
    (∃ rng', chunksAppendTrail ⟨fun _ => 0⟩ (List.replicate 105 PeerMessage.zero) 105 [] .reliable =
      .ok (kitOk, [] ++ (chunksAt (List.replicate 105 PeerMessage.zero) (serialIndices 105) ++
        chunksAt (List.replicate 105 PeerMessage.zero) (scatterChosen ⟨fun _ => 0⟩ 105)),
        rng', .reliable)) ∧
    (ScatterApart ⟨fun _ => 0⟩ 105 ∧ WindowReached 105 ↔
      105 < peerTrailSerialSize + peerTrailScatterDistance) ∧
    (ScatterApart ⟨fun _ => 0⟩ 105 ↔ 105 < peerTrailSerialSize + peerTrailScatterDistance ∨
      ∀ i < peerTrailScatterSize, ((⟨fun _ => 0⟩ : Mt64).words i).toNat % peerTrailScatterDistance <
        peerTrailScatterDistance - peerTrailSerialSize) :=
  scatterApart_iff (by rw [List.length_replicate]) ⟨fun _ => 0⟩ []

/-- At index 105 a generator of nines chooses the last message five times, which
the serial part has already; and no generator chooses the first message. -/
theorem not_scatterApart :
    scatterChosen ⟨fun _ => 99⟩ 105 = [104, 104, 104, 104, 104] ∧ 104 ∈ serialIndices 105 ∧
      ¬ (ScatterApart ⟨fun _ => 99⟩ 105 ∧ WindowReached 105) := by
  have hChosen : scatterChosen ⟨fun _ => 99⟩ 105 = [104, 104, 104, 104, 104] := by decide
  have hSerial : 104 ∈ serialIndices 105 := by decide
  refine ⟨hChosen, hSerial, fun h => ?_⟩
  exact h.1 104 (by rw [hChosen]; exact List.mem_cons_self ..) hSerial

end PeerProtocol
