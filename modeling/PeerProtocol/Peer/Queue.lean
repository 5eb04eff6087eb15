import PeerProtocol.Lib.GapLog
import PeerProtocol.Wire.Framing

/-!
# peer — queues as logs with gaps

A message queue is a log with gaps: an entry that is not ready is a gap. The
library knows such logs without queues (`Lib.GapLog`), and this module is the
step between the two. `entries` forgets everything of a queue but what is
ready in it; the queue operations without allocation failures are then the
log's: `queue_append` adds an entry at the end, `queue_insert` learns one, and
does nothing where one is known.

The first half holds whatever the allocator does. A refused request leaves the
queue as it was, or longer by gaps, so that even then a ready entry is never
changed and never lost: these facts are what the invariants of every run rest
on. The calls of an application, `peer_open`, `peer_connect` and `peer_queue`,
are described once here in the form "nothing happened, or this", which the
invariants take apart.

## Results

* `queueInsert_cases`, `peerQueue_queued`, `peerOpen_opens`,
  `peerConnect_modifies` — what a call can do, for every allocator.
* `queueAppend_reliable`, `queueInsert_reliable` — the operations in closed
  form where no request is refused.
* `entries_queueInsert` — `queue_insert` refines `GapLog.put`.
-/

namespace PeerProtocol

open Lib

/-- What a ready message says: the part of it that goes over the wire, but for the
index. -/
structure Entry where
  time : Int
  actor : Int
  data : List UInt8
deriving DecidableEq

/-- The entry of a message, if it is ready. What a hole has in its other fields is
lost. -/
def PeerMessage.entry (m : PeerMessage) : Option Entry :=
  if m.isReady then some { time := m.time, actor := m.actor, data := m.data } else none

/-- A ready message that says this. -/
def Entry.message (e : Entry) : PeerMessage where
  isReady := true
  time := e.time
  actor := e.actor
  data := e.data

/-- A queue as a log with gaps, position by position: what `Lib/GapLog.lean` is
about. The fields of a hole are lost, except that a heartbeat's trail sends them. -/
def entries (q : PeerQueue) : List (Option Entry) := q.map PeerMessage.entry

/-- A message made of an entry says it. -/
@[simp] theorem entry_message (e : Entry) : e.message.entry = some e := rfl

/-- A zeroed message is a gap. -/
@[simp] theorem entry_zero : PeerMessage.zero.entry = none := rfl

/-- The log is as long as the queue. -/
@[simp] theorem length_entries (q : PeerQueue) : (entries q).length = q.length :=
  List.length_map ..

/-- A message is ready exactly if it is no gap. -/
theorem isReady_iff_entry {m : PeerMessage} :
    m.isReady = true ↔ m.entry = some { time := m.time, actor := m.actor, data := m.data } := by
  unfold PeerMessage.entry
  split <;> simp_all

/-- The log holds an entry where the queue has a ready message. -/
theorem holds_entries_iff {q : PeerQueue} {i : Nat} {e : Entry} :
    GapLog.Holds (entries q) i e ↔ q[i]? = some e.message := by
  unfold GapLog.Holds entries
  rw [List.getElem?_map]
  cases hq : q[i]? with
  | none => simp
  | some m =>
    obtain ⟨isReady, time, actor, data⟩ := m
    obtain ⟨t, a, d⟩ := e
    cases isReady <;> simp [PeerMessage.entry, Entry.message]

/-- A position is filled where the code's test for a ready message is true. -/
theorem filled_entries_iff {q : PeerQueue} {i : Nat} :
    GapLog.Filled (entries q) i ↔ (q[i]?).any (·.isReady) = true := by
  unfold GapLog.Filled GapLog.Holds entries
  rw [List.getElem?_map]
  cases hq : q[i]? with
  | none => simp
  | some m => cases hm : m.isReady <;> simp [PeerMessage.entry, hm]

-- ---------------------------------------------------------------------------
-- The operations, whatever the allocator does
-- Each is followed by what it can have done, as a list of cases for the
-- proofs.
-- ---------------------------------------------------------------------------

/-- The queue once it has an entry at index `i`: longer by holes, if it was shorter. -/
def grown (q : PeerQueue) (i : Nat) : PeerQueue :=
  if i < q.length then q else queueGrow q i

/-- The queue after `queue_insert` stored a message. -/
def stored (q : PeerQueue) (i : Nat) (e : Entry) : PeerQueue := (grown q i).set i e.message

theorem mem_grown {q : PeerQueue} {i : Nat} {m : PeerMessage} (h : m ∈ grown q i) :
    m ∈ q ∨ m = PeerMessage.zero := by
  unfold grown at h
  split at h
  · exact Or.inl h
  · exact (List.mem_append.mp h).imp id List.eq_of_mem_replicate

/-- Storing adds the message, and holes below it. -/
theorem mem_stored {q : PeerQueue} {i : Nat} {e : Entry} {m : PeerMessage} (h : m ∈ stored q i e) :
    m ∈ q ∨ m = PeerMessage.zero ∨ m = e.message := by
  rcases List.mem_or_eq_of_mem_set h with hGrown | rfl
  · exact (mem_grown hGrown).imp id Or.inl
  · exact Or.inr (Or.inr rfl)

/-- A queue never shrinks by this. -/
theorem length_le_grown (q : PeerQueue) (i : Nat) : q.length ≤ (grown q i).length := by
  unfold grown
  split
  · exact Nat.le_refl _
  · rw [queueGrow, List.length_append]
    omega

/-- What `queue_insert` does at an index that the queue has: it stores the
message, or its data found no room and nothing changes. -/
theorem queueStore_cases {r q' : PeerQueue} {i : Nat} {time actor : Int} {data : List UInt8}
    {al al' : Allocator} {s : Status} (h : queueStore r i time actor data al = (s, q', al')) :
    (al = .reliable → al' = .reliable) ∧
      (q' = r ∨ q' = r.set i (Entry.message { time, actor, data })) := by
  unfold queueStore at h
  split at h
  · next al2 hInit =>
    obtain ⟨_, rfl, rfl⟩ : _ ∧ r = q' ∧ al2 = al' := by simpa using h
    exact ⟨Allocator.reliable_of_daInit hInit, Or.inl rfl⟩
  · next al2 hInit =>
    obtain ⟨_, rfl, rfl⟩ : _ ∧ r.set i _ = q' ∧ al2 = al' := by simpa using h
    exact ⟨Allocator.reliable_of_daInit hInit, Or.inr rfl⟩

/-- What `queue_insert` can do: leave the queue, grow it, or store the message;
the last two only where no message is ready. -/
theorem queueInsert_cases {q q' : PeerQueue} {index time actor : Int} {data : List UInt8}
    {al al' : Allocator} {s : Status}
    (h : queueInsert q index time actor data al = .ok (s, q', al')) :
    (al = .reliable → al' = .reliable) ∧
    (q' = q ∨ ∃ i : Nat, index = i ∧ (q[i]?).any (·.isReady) = false ∧
      (q' = grown q i ∨ q' = stored q i { time, actor, data })) := by
  have hSame : ∀ {s' : Status} {al1 : Allocator}, (al = .reliable → al1 = .reliable) →
      (.ok (s', q, al1) : Except Fault _) = .ok (s, q', al') →
      (al = .reliable → al' = .reliable) ∧ q' = q := by
    rintro s' al1 hReliable ⟨⟩
    exact ⟨hReliable, rfl⟩
  unfold queueInsert at h
  split at h
  · exact (hSame id h).imp id Or.inl
  split at h
  · exact (hSame id h).imp id Or.inl
  next hNonneg =>
  split at h
  · exact (hSame id h).imp id Or.inl
  next hFree =>
  rw [Bool.not_eq_true] at hFree
  have hIndex : index = (index.toNat : Nat) := by omega
  split at h
  · -- the queue has the index
    next hLt =>
    have hGrown : grown q index.toNat = q := if_pos hLt
    obtain ⟨hReliable, hCases⟩ := queueStore_cases (Except.ok.inj h)
    refine ⟨hReliable, Or.inr ⟨index.toNat, hIndex, hFree, ?_⟩⟩
    rw [stored, hGrown]
    exact hCases
  next hPast =>
  split at h
  · simp at h
  · split at h
    · next al1 hRequest => exact (hSame (Allocator.reliable_of_request hRequest) h).imp id Or.inl
    · -- the queue is grown up to the index first
      next al1 hRequest =>
      have hGrown : grown q index.toNat = queueGrow q index.toNat := if_neg hPast
      obtain ⟨hReliable, hCases⟩ := queueStore_cases (Except.ok.inj h)
      refine ⟨fun hal => hReliable (Allocator.reliable_of_request hRequest hal),
        Or.inr ⟨index.toNat, hIndex, hFree, ?_⟩⟩
      rw [stored, hGrown]
      exact hCases

/-- Nor by an insertion, with whatever status it ends. -/
theorem length_le_queueInsert {q q' : PeerQueue} {index time actor : Int} {data : List UInt8}
    {al al' : Allocator} {s : Status}
    (h : queueInsert q index time actor data al = .ok (s, q', al')) : q.length ≤ q'.length := by
  rcases (queueInsert_cases h).2 with rfl | ⟨i, _, _, rfl | rfl⟩
  · exact Nat.le_refl _
  · exact length_le_grown q i
  · rw [stored, List.length_set]
    exact length_le_grown q i

/-- `peer_open` opens slots behind the ones that are there, or none: a refused
request is the case of no ids. -/
theorem peerOpen_opens (peer : Peer) (ids : Option (List Int)) :
    ∃ (opened : List Int) (al : Allocator), (peerOpen peer ids).2 =
      { peer with alloc := al, slots := peer.slots ++ opened.mapIdx (openSlot peer.mode) } := by
  have hNone (al : Allocator) : ({ peer with alloc := al } : Peer) =
      { peer with alloc := al, slots := peer.slots ++ ([] : List Int).mapIdx (openSlot peer.mode) } := by
    rw [List.mapIdx_nil, List.append_nil]
  unfold peerOpen
  split
  · exact ⟨[], peer.alloc, hNone _⟩
  · exact ⟨[], peer.alloc, hNone _⟩
  · split
    · exact ⟨[], _, hNone _⟩
    · exact ⟨_, _, rfl⟩

/-- `peer_connect` sets the remote id of one slot at most: an index behind the
last slot is where no slot is free. -/
theorem peerConnect_modifies (peer : Peer) (serverId : Int) :
    ∃ i, (peerConnect peer serverId).2 =
      { peer with slots := peer.slots.modify i fun slot =>
        { slot with remoteEnd :=
          { slot.remoteEnd with id := serverId, isIdResolved := true, addressSize := 0 } } } := by
  unfold peerConnect
  split
  · exact ⟨peer.slots.length, by rw [List.modify_eq_self (Nat.le_refl _)]⟩
  · exact ⟨_, rfl⟩

/-- What `peer_queue` does: nothing, or it appends to the mutual queue of a host,
or to the queue of the first slot of a client. -/
inductive Queued (peer : Peer) (data : List UInt8) : Peer → Prop where
  | refused : Queued peer data peer
  | host (hMode : peer.mode = .host) : Queued peer data { peer with
      queue := (queueAppend peer.queue 0 peer.actor data peer.alloc).2.1
      alloc := (queueAppend peer.queue 0 peer.actor data peer.alloc).2.2 }
  | client {slot : PeerSlot} (hMode : peer.mode = .client) (hSlot : peer.slots[0]? = some slot) :
    Queued peer data { peer with
      slots := peer.slots.set 0
        { slot with queue := (queueAppend slot.queue 0 peer.actor data peer.alloc).2.1 }
      alloc := (queueAppend slot.queue 0 peer.actor data peer.alloc).2.2 }

/-- What `peer_queue` of some data does, in either mode: it is refused, or the
message is appended to the mutual queue of the host, or to the first slot's of the
client. -/
theorem peerQueue_some (peer : Peer) (data : List UInt8) :
    Queued peer data (peerQueue peer (some data)).2 := by
  unfold peerQueue
  dsimp only
  split
  · next hMode => exact .host hMode
  · next hMode =>
    split
    · exact .refused
    · next slot slots hSlots =>
      have hSet (slot' : PeerSlot) : slot' :: slots = peer.slots.set 0 slot' := by
        rw [hSlots]
        rfl
      dsimp only
      rw [hSet]
      exact .client hMode (by rw [hSlots]; rfl)

/-- And of no data, which queues nothing. -/
theorem peerQueue_queued (peer : Peer) (messageData : Option (List UInt8)) :
    ∃ data, Queued peer data (peerQueue peer messageData).2 := by
  cases messageData with
  | none => exact ⟨[], .refused⟩
  | some data => exact ⟨data, peerQueue_some peer data⟩

-- ---------------------------------------------------------------------------
-- The operations without allocation failures
-- ---------------------------------------------------------------------------

@[simp] theorem queueAppend_reliable (q : PeerQueue) (time actor : Int) (data : List UInt8) :
    queueAppend q time actor data .reliable =
      (kitOk, q ++ [Entry.message { time, actor, data }], .reliable) := by
  simp [queueAppend, Entry.message]

/-- `peer_open` opens a slot for each id. -/
theorem peerOpen_reliable {peer : Peer} (h : peer.alloc = .reliable) (ids : Option (List Int)) :
    (peerOpen peer ids).2 =
      { peer with slots := peer.slots ++ (ids.getD []).mapIdx (openSlot peer.mode) } := by
  unfold peerOpen
  split
  · simp
  · simp
  · rw [h]
    rfl

/-- The host appends to the mutual queue, under its own actor id. -/
theorem peerQueue_host {peer : Peer} (hMode : peer.mode = .host) (hAlloc : peer.alloc = .reliable)
    (data : List UInt8) :
    peerQueue peer (some data) = (kitOk,
      { peer with queue := peer.queue ++ [Entry.message { time := 0, actor := peer.actor, data }] }) := by
  simp only [peerQueue, hMode]
  rw [hAlloc, queueAppend_reliable]

/-- A client appends to the queue of its first slot, under the actor id that it has
so far. -/
theorem peerQueue_client {peer : Peer} {slot : PeerSlot} {slots : List PeerSlot}
    (hMode : peer.mode = .client) (hAlloc : peer.alloc = .reliable)
    (hSlots : peer.slots = slot :: slots) (data : List UInt8) :
    peerQueue peer (some data) = (kitOk, { peer with slots := { slot with
      queue := slot.queue ++ [Entry.message { time := 0, actor := peer.actor, data }] } :: slots }) := by
  simp only [peerQueue, hMode, hSlots]
  rw [hAlloc, queueAppend_reliable]

/-- `queue_insert` at an index that is neither negative nor the last 64-bit one: the
message is stored unless one is ready there. -/
theorem queueInsert_reliable (q : PeerQueue) {i : Nat} (hi : (i : Int) < int64Max) (e : Entry) :
    queueInsert q i e.time e.actor e.data .reliable =
      .ok (kitOk, if (q[i]?).any (·.isReady) then q else stored q i e, .reliable) := by
  unfold queueInsert
  rw [peerUndefined, if_neg (by omega), if_neg (by omega), Int.toNat_natCast]
  by_cases hReady : (q[i]?).any (·.isReady) = true
  · rw [if_pos hReady, if_pos hReady]
  · rw [if_neg hReady, if_neg hReady, stored, grown]
    by_cases hLt : i < q.length
    · rw [if_pos hLt, if_pos hLt]
      simp [queueStore, Entry.message]
    · rw [if_neg hLt, if_neg hLt, if_neg (by omega)]
      simp [queueStore, Entry.message]

theorem entries_queueGrow (q : PeerQueue) (i : Nat) :
    entries (queueGrow q i) = GapLog.grow (entries q) i := by
  simp [entries, queueGrow, GapLog.grow]

/-- The queue with a message inserted, unless one is ready at its index. -/
def inserted (q : PeerQueue) (i : Nat) (e : Entry) : PeerQueue :=
  if (q[i]?).any (·.isReady) then q else stored q i e

/-- Inserting a message is learning its entry. -/
theorem entries_inserted (q : PeerQueue) (i : Nat) (e : Entry) :
    entries (inserted q i e) = GapLog.put (entries q) i e := by
  by_cases hReady : (q[i]?).any (·.isReady) = true
  · obtain ⟨b, hb⟩ := filled_entries_iff.mpr hReady
    rw [inserted, if_pos hReady, GapLog.put_of_holds hb]
  · rw [inserted, if_neg hReady, GapLog.put_of_not_filled (mt filled_entries_iff.mp hReady),
      ← entries_queueGrow, stored, grown, entries, List.map_set]
    by_cases hLt : i < q.length
    · have hNone : i + 1 - q.length = 0 := by omega
      rw [if_pos hLt, queueGrow, hNone, List.replicate_zero, List.append_nil]
      rfl
    · rw [if_neg hLt]
      rfl

/-- **Refinement**: where nothing is refused, `queue_insert` does to the entries
what `put` does to a log with gaps. It learns the entry, or leaves the one that is
there. -/
theorem entries_queueInsert (q : PeerQueue) {i : Nat} (hi : (i : Int) < int64Max) (e : Entry) :
    ∃ q', queueInsert q i e.time e.actor e.data .reliable = .ok (kitOk, q', .reliable) ∧
      entries q' = GapLog.put (entries q) i e :=
  ⟨_, queueInsert_reliable q hi e, entries_inserted q i e⟩

end PeerProtocol
