import PeerProtocol.Lib.Lists
import PeerProtocol.Peer.Trail

/-!
# peer — the host's tick

What one tick of a host does: it moves the clocks, merges the slot queues into
the mutual queue, and then sends to every slot above the listening slot, one
after the other.

Each of the two loops is put in a closed form before anything is proved about
it. The merge is a concatenation: the stamped queue, and behind it what each
slot contributes, which is its pending messages under its actor id and the
time of the tick (`Peer.merged`). Sending is a relation for each slot:
`SlotSent` is what it may change in the slot, whatever the allocator does, and
`SlotSends` are the packets that go out to it when nothing is refused and
every message fits.

## Plan

* `mergeMessages_reliable`, `mergeSlots_reliable`, `hostMerge_reliable` — the
  merge from the inner loop outwards; `hostMerge_frame` — what is left of that
  when requests may be refused: the queue only grows, and only merge cursors
  move.
* `sendSlot_sent`, `sendSlot_alloc`, `sendSlot_small` — a slot's turn: what it
  changes, that a reliable allocator stays one, and that a cursor only moves
  past messages that fit. `sendSlots_reliable` collects them over the loop.
* `sendSlot_sends`, `sendSlots_sends` — what goes out, slot by slot.
* a group of `simp` lemmas says what the clocks and the merge leave of a slot.

## Results

* `HostTicked`, `peerTick_host_ticked` — what the tick does to the host,
  whatever the sizes of the messages. This is the spec that the invariants of
  a host use.
* `HostSends`, `peerTick_host_sends` — what goes out, when all messages fit a
  packet.
-/

namespace PeerProtocol

open Lib

-- ---------------------------------------------------------------------------
-- Merging
-- ---------------------------------------------------------------------------

/-- The messages of a slot that the merge will take: those ready from the
cursor on, up to the first that is not. -/
def PeerSlot.pending (slot : PeerSlot) : List PeerMessage :=
  (slot.queue.drop slot.inIndex).takeWhile (·.isReady)

/-- The slot after the merge: its cursor has passed what was pending. -/
def PeerSlot.merged (slot : PeerSlot) : PeerSlot :=
  { slot with inIndex := slot.inIndex + slot.pending.length }

/-- What the merge appends to the mutual queue for a slot: the data of its pending
messages, under the slot's actor id and the time of the tick. -/
def PeerSlot.contribution (slot : PeerSlot) (time : Int) : PeerQueue :=
  slot.pending.map fun m => Entry.message { time, actor := slot.actor, data := m.data }

/-- The host after the merge. The listening slot has no part in it. -/
def Peer.merged (peer : Peer) : Peer :=
  let queue := stampQueue peer.queueIndex peer.timeLocal peer.queue ++
    peer.slots.tail.flatMap (·.contribution peer.timeLocal)
  { peer with
    time := peer.timeLocal
    slots := peer.slots.take 1 ++ peer.slots.tail.map (·.merged)
    queue := queue
    queueIndex := queue.length }

/-- The inner loop takes the ready messages up to the first hole. What is behind a
hole waits, however many ticks it takes until the hole is filled, so a client's
messages are merged in their order. -/
theorem mergeMessages_reliable (time actor : Int) (messages : List PeerMessage) (i : Nat)
    (queue : PeerQueue) :
    mergeMessages time actor messages i queue .reliable =
      (kitOk, i + (messages.takeWhile (·.isReady)).length,
        queue ++ (messages.takeWhile (·.isReady)).map
          (fun m => Entry.message { time, actor, data := m.data }), .reliable) := by
  induction messages generalizing i queue with
  | nil => simp [mergeMessages]
  | cons m messages ih =>
    rw [mergeMessages]
    split
    · next hReady =>
      rw [queueAppend_reliable]
      dsimp only
      rw [ih, List.takeWhile_cons_of_pos hReady, List.length_cons, List.map_cons, List.append_assoc,
        Nat.add_assoc, Nat.add_comm 1]
      simp only [kitOk, UInt32.or_zero, List.singleton_append]
    · next hReady =>
      -- The first hole ends the loop, whatever is behind it.
      rw [List.takeWhile_cons_of_neg hReady]
      simp

/-- The outer loop appends the contributions of the slots in their order. -/
theorem mergeSlots_reliable (time : Int) (slots : List PeerSlot) (queue : PeerQueue) :
    mergeSlots time slots queue .reliable =
      (kitOk, slots.map (·.merged), queue ++ slots.flatMap (·.contribution time), .reliable) := by
  induction slots generalizing queue with
  | nil => simp [mergeSlots]
  | cons slot slots ih =>
    rw [mergeSlots, mergeMessages_reliable]
    dsimp only
    rw [ih, List.map_cons, List.flatMap_cons, List.append_assoc]
    simp only [kitOk, UInt32.or_zero]
    rfl

/-- **The merge in closed form**: without refused requests, the mutual queue has
grown by what is pending in the slots, slot by slot, and each cursor has moved to
the first gap. -/
theorem hostMerge_reliable {peer : Peer} (hAlloc : peer.alloc = .reliable) :
    hostMerge peer = (kitOk, peer.merged) := by
  rw [hostMerge, hAlloc]
  dsimp only
  rw [mergeSlots_reliable]
  dsimp only
  rw [Peer.merged, ← hAlloc]

@[simp] theorem length_stampQueue (n : Nat) (time : Int) (q : PeerQueue) :
    (stampQueue n time q).length = q.length := by
  simp only [stampQueue, List.length_append, List.length_take, List.length_map, List.length_drop]
  omega

/-- An entry after stamping: those below the index keep their time, and those at or
above it get the time of the tick; neither actor ids nor data are written. -/
theorem getElem?_stampQueue (n : Nat) (time : Int) (q : PeerQueue) (k : Nat) :
    (stampQueue n time q)[k]? = (q[k]?).map fun m => if k < n then m else { m with time := time } := by
  unfold stampQueue
  rw [List.getElem?_append, List.length_take]
  by_cases hk : k < n
  -- Below the index: the front that is kept.
  · by_cases hLen : k < q.length
    · rw [if_pos (by omega), List.getElem?_take_of_lt hk]
      simp [hk]
    · rw [List.getElem?_eq_none (l := q) (by omega)]
      split
      · rw [List.getElem?_take_of_lt hk, List.getElem?_eq_none (by omega)]
        rfl
      · rw [List.getElem?_eq_none]
        · rfl
        · rw [List.length_map, List.length_drop]
          omega
  -- At the index or above: the rest that is stamped.
  · rw [if_neg (by omega), List.getElem?_map, List.getElem?_drop]
    by_cases hLen : n ≤ q.length
    · rw [Nat.min_eq_left hLen, Nat.add_sub_cancel' (by omega)]
      simp [hk]
    · rw [List.getElem?_eq_none (l := q) (by omega), List.getElem?_eq_none (by omega)]
      rfl

/-- A pending message is a ready one of the queue. -/
theorem mem_pending {slot : PeerSlot} {m : PeerMessage} (h : m ∈ slot.pending) :
    m ∈ slot.queue ∧ m.isReady = true :=
  ⟨List.mem_of_mem_drop ((List.takeWhile_prefix _).subset h), List.all_eq_true.mp List.all_takeWhile m h⟩

/-- Whatever the allocator does, merging appends to the queue: a refused request
leaves out a message, and what was in the queue before is its front in any case. -/
theorem mergeMessages_frame (time actor : Int) (messages : List PeerMessage) (i : Nat)
    (queue : PeerQueue) (al : Allocator) :
    queue <+: (mergeMessages time actor messages i queue al).2.2.1 := by
  induction messages generalizing i queue al with
  | nil => exact List.prefix_rfl
  | cons m messages ih =>
    rw [mergeMessages]
    split
    · refine List.IsPrefix.trans ?_ (ih _ _ _)
      unfold queueAppend
      split
      · exact List.prefix_rfl
      · split
        · exact List.prefix_rfl
        · exact List.prefix_append _ _
    · exact List.prefix_rfl

/-- And moves the merge cursors of the slots, and nothing else of them. -/
theorem mergeSlots_frame (time : Int) (slots : List PeerSlot) (queue : PeerQueue) (al : Allocator) :
    queue <+: (mergeSlots time slots queue al).2.2.1 ∧
    List.Forall₂ (fun slot slot' => ∃ i, slot' = { slot with inIndex := i }) slots
      (mergeSlots time slots queue al).2.1 := by
  induction slots generalizing queue al with
  | nil => exact ⟨List.prefix_rfl, .nil⟩
  | cons slot slots ih =>
    have hFirst := mergeMessages_frame time slot.actor (slot.queue.drop slot.inIndex) slot.inIndex
      queue al
    rw [mergeSlots]
    exact ⟨hFirst.trans (ih _ _).1, .cons ⟨_, rfl⟩ (ih _ _).2⟩

/-- The same for the host's first phase: the listening slot and the lengths stay,
and of each other slot nothing but the merge cursor changes. -/
theorem hostMerge_frame (peer : Peer) :
    peer.queue.length ≤ (hostMerge peer).2.queue.length ∧
    (hostMerge peer).2.slots.take 1 = peer.slots.take 1 ∧
    List.Forall₂ (fun slot slot' => ∃ i, slot' = { slot with inIndex := i }) peer.slots.tail
      (hostMerge peer).2.slots.tail := by
  obtain ⟨hPrefix, hMerged⟩ := mergeSlots_frame peer.timeLocal peer.slots.tail
    (stampQueue peer.queueIndex peer.timeLocal peer.queue) peer.alloc
  refine ⟨?_, ?_, ?_⟩
  -- Stamping keeps the length, and merging appends.
  · refine Nat.le_trans ?_ hPrefix.length_le
    simp only [stampQueue, List.length_append, List.length_take, List.length_map, List.length_drop]
    omega
  · cases hSlots : peer.slots with
    | nil =>
      simp [hostMerge, hSlots, mergeSlots]
    | cons first slots => simp [hostMerge, hSlots]
  · cases hSlots : peer.slots with
    | nil =>
      simp [hostMerge, hSlots, mergeSlots]
    | cons first slots =>
      rw [hSlots] at hMerged
      simpa [hostMerge, hSlots] using hMerged

-- ---------------------------------------------------------------------------
-- Sending: what may change
-- One slot's turn, by its state, and then the loop.
-- ---------------------------------------------------------------------------

/-- What sending to a slot may change in it: the clock, the state, unless it is
empty, and the cursor, which stays or goes to the end of the queue. -/
structure SlotSent (q : PeerQueue) (slot slot' : PeerSlot) : Prop where
  localEnd : slot'.localEnd = slot.localEnd
  remoteEnd : slot'.remoteEnd = slot.remoteEnd
  queue : slot'.queue = slot.queue
  actor : slot'.actor = slot.actor
  inIndex : slot'.inIndex = slot.inIndex
  outIndex : slot'.outIndex = slot.outIndex ∨
    (slot.outIndex < q.length ∧ slot'.outIndex = q.length)
  state : slot'.state = .empty ↔ slot.state = .empty

/-- A slot's turn changes no more than that, for every allocator. The cursor goes to
the end of the queue only where there are new messages and packing them went well. -/
theorem sendSlot_sent {listenId time actor : Int} {queue : PeerQueue} {slot slot' : PeerSlot}
    {out out' : TickOutput} (h : sendSlot listenId time actor queue slot out = .ok (slot', out')) :
    SlotSent queue slot slot' := by
  unfold sendSlot at h
  split at h
  · obtain ⟨rfl, _⟩ : slot = slot' ∧ _ := by simpa using h
    exact ⟨rfl, rfl, rfl, rfl, rfl, Or.inl rfl, Iff.rfl⟩
  · next hState =>
    obtain ⟨out1, _, h⟩ := bind_eq_ok.mp h
    obtain ⟨rfl, _⟩ := Prod.mk.inj (Except.ok.inj h)
    exact ⟨rfl, rfl, rfl, rfl, rfl, Or.inl rfl, by simp [hState]⟩
  · split at h
    · next hNew =>
      obtain ⟨⟨s, out1⟩, _, h⟩ := bind_eq_ok.mp h
      obtain ⟨rfl, _⟩ := Prod.mk.inj (Except.ok.inj h)
      refine ⟨rfl, rfl, rfl, rfl, rfl, ?_, Iff.rfl⟩
      dsimp only
      -- the cursor moves to the end of the queue only where the packing succeeds
      split
      · exact Or.inr ⟨hNew, rfl⟩
      · exact Or.inl rfl
    split at h
    · obtain ⟨⟨started, out1⟩, _, h⟩ := bind_eq_ok.mp h
      obtain ⟨rfl, _⟩ := Prod.mk.inj (Except.ok.inj h)
      cases started <;> exact ⟨rfl, rfl, rfl, rfl, rfl, Or.inl rfl, Iff.rfl⟩
    · obtain ⟨rfl, _⟩ : slot = slot' ∧ _ := by simpa using h
      exact ⟨rfl, rfl, rfl, rfl, rfl, Or.inl rfl, Iff.rfl⟩

theorem sendSlots_sent {listenId time actor : Int} {queue : PeerQueue} {slots slots' : List PeerSlot}
    {out out' : TickOutput}
    (h : sendSlots listenId time actor queue slots out = .ok (slots', out')) :
    List.Forall₂ (SlotSent queue) slots slots' := by
  induction slots generalizing out out' slots' with
  | nil =>
    obtain ⟨rfl, _⟩ : [] = slots' ∧ _ := by simpa [sendSlots] using h
    exact .nil
  | cons slot slots ih =>
    obtain ⟨⟨slot1, out1⟩, hFirst, h⟩ := bind_eq_ok.mp h
    obtain ⟨⟨slots1, out2⟩, hRest, h⟩ := bind_eq_ok.mp h
    obtain ⟨rfl, _⟩ := Prod.mk.inj (Except.ok.inj h)
    exact .cons (sendSlot_sent hFirst) (ih hRest)

/-- Sending keeps a reliable allocator, if the cursor is inside: past the end there
is no result to speak of. -/
theorem sendSlot_alloc {listenId time actor : Int} {queue : PeerQueue} {slot slot' : PeerSlot}
    {out out' : TickOutput} (hCursor : slot.outIndex ≤ queue.length)
    (h : sendSlot listenId time actor queue slot out = .ok (slot', out'))
    (hAlloc : out.alloc = .reliable) : out'.alloc = .reliable := by
  unfold sendSlot at h
  split at h
  · obtain ⟨_, rfl⟩ : _ ∧ out = out' := by simpa using h
    exact hAlloc
  -- a session response, then messages, then a heartbeat: each ends in `peer_pack`
  · obtain ⟨out1, hSend, h⟩ := bind_eq_ok.mp h
    obtain ⟨_, rfl⟩ := Prod.mk.inj (Except.ok.inj h)
    obtain ⟨address, _, hSend⟩ := bind_eq_ok.mp hSend
    obtain ⟨message, _, hSend⟩ := bind_eq_ok.mp hSend
    obtain ⟨⟨s, packets, al⟩, hPack, hSend⟩ := bind_eq_ok.mp hSend
    rw [← Except.ok.inj hSend]
    exact (peerPack_ok hPack).2 hAlloc
  · split at h
    · next hNew =>
      obtain ⟨⟨s, out1⟩, hSend, h⟩ := bind_eq_ok.mp h
      obtain ⟨_, rfl⟩ := Prod.mk.inj (Except.ok.inj h)
      rw [queuePack_reliable hNew _ _ hAlloc] at hSend
      obtain ⟨⟨s1, packets, al⟩, hPack, hSend⟩ := bind_eq_ok.mp hSend
      obtain ⟨_, rfl⟩ := Prod.mk.inj (Except.ok.inj hSend)
      exact (peerPack_ok hPack).2 rfl
    split at h
    · obtain ⟨⟨started, out1⟩, hSend, h⟩ := bind_eq_ok.mp h
      obtain ⟨_, rfl⟩ := Prod.mk.inj (Except.ok.inj h)
      rw [sendHeartbeat_reliable hCursor _ _ _ _ hAlloc] at hSend
      obtain ⟨⟨s1, packets, al⟩, hPack, hSend⟩ := bind_eq_ok.mp hSend
      obtain ⟨_, rfl⟩ := Prod.mk.inj (Except.ok.inj hSend)
      exact (peerPack_ok hPack).2 rfl
    · obtain ⟨_, rfl⟩ : _ ∧ out = out' := by simpa using h
      exact hAlloc

/-- The cursor of a slot moves only past messages that fit, since the call that
sends them has then succeeded. -/
theorem sendSlot_small {listenId time actor : Int} {queue : PeerQueue} {slot slot' : PeerSlot}
    {out out' : TickOutput} (hAlloc : out.alloc = .reliable)
    (h : sendSlot listenId time actor queue slot out = .ok (slot', out'))
    (hMoved : slot'.outIndex ≠ slot.outIndex) :
    ∀ k m, slot.outIndex ≤ k → queue[k]? = some m → m.Small := by
  unfold sendSlot at h
  split at h
  · obtain ⟨rfl, _⟩ : slot = slot' ∧ _ := by simpa using h
    exact absurd rfl hMoved
  · obtain ⟨out1, _, h⟩ := bind_eq_ok.mp h
    obtain ⟨rfl, _⟩ := Prod.mk.inj (Except.ok.inj h)
    exact absurd rfl hMoved
  · split at h
    · next hNew =>
      obtain ⟨⟨s, out1⟩, hSend, h⟩ := bind_eq_ok.mp h
      obtain ⟨rfl, _⟩ := Prod.mk.inj (Except.ok.inj h)
      dsimp only at hMoved
      -- the cursor moves only if everything was packed
      split at hMoved
      · next hOk =>
        subst hOk
        exact small_of_queuePack hNew hAlloc hSend
      · exact absurd rfl hMoved
    split at h
    · obtain ⟨⟨started, out1⟩, _, h⟩ := bind_eq_ok.mp h
      obtain ⟨rfl, _⟩ := Prod.mk.inj (Except.ok.inj h)
      cases started <;> exact absurd rfl hMoved
    · obtain ⟨rfl, _⟩ : slot = slot' ∧ _ := by simpa using h
      exact absurd rfl hMoved

/-- The loop over the slots without allocation failures: what may change in
each slot, and that its cursor moves only past messages that fit. -/
theorem sendSlots_reliable {listenId time actor : Int} {queue : PeerQueue}
    {slots slots' : List PeerSlot} {out out' : TickOutput}
    (hCursor : ∀ slot ∈ slots, slot.outIndex ≤ queue.length)
    (h : sendSlots listenId time actor queue slots out = .ok (slots', out'))
    (hAlloc : out.alloc = .reliable) :
    out'.alloc = .reliable ∧
    List.Forall₂ (fun slot slot' => SlotSent queue slot slot' ∧ (slot'.outIndex ≠ slot.outIndex →
      ∀ k m, slot.outIndex ≤ k → queue[k]? = some m → m.Small)) slots slots' := by
  induction slots generalizing out out' slots' with
  | nil =>
    obtain ⟨rfl, rfl⟩ : [] = slots' ∧ out = out' := by simpa [sendSlots] using h
    exact ⟨hAlloc, .nil⟩
  | cons slot slots ih =>
    obtain ⟨⟨slot1, out1⟩, hFirst, h⟩ := bind_eq_ok.mp h
    obtain ⟨⟨slots1, out2⟩, hRest, h⟩ := bind_eq_ok.mp h
    obtain ⟨rfl, rfl⟩ := Prod.mk.inj (Except.ok.inj h)
    -- The next slot is sent to with what this one has left of the allocator.
    have hAlloc1 := sendSlot_alloc (hCursor slot (List.mem_cons_self ..)) hFirst hAlloc
    obtain ⟨hAlloc2, hAll⟩ := ih (fun s hs => hCursor s (List.mem_cons_of_mem _ hs)) hRest hAlloc1
    exact ⟨hAlloc2, .cons ⟨sendSlot_sent hFirst, sendSlot_small hAlloc hFirst⟩ hAll⟩

-- ---------------------------------------------------------------------------
-- Sending: what goes out
-- ---------------------------------------------------------------------------

/-- The packets that go out to a slot, and the slot after sending. The generator of
the trail is left open: results hold whichever entries it picks. -/
inductive SlotSends (listenId time actor : Int) (queue : PeerQueue) (slot : PeerSlot) :
    PeerSlot → List PeerPacket → Prop where
  /-- nothing to send: the slot is empty, or has neither new messages nor a heartbeat due -/
  | idle (hIdle : slot.state = .empty ∨
      (slot.state = .ready ∧ queue.length ≤ slot.outIndex ∧ 0 < slot.clockHeartbeat)) :
      SlotSends listenId time actor queue slot slot []
  | response {ps : List PeerPacket} (hState : slot.state = .sessionRequest)
      (hCarried : Carried listenId slot.remoteEnd.id ps [sessionResponseChunk time slot]) :
      SlotSends listenId time actor queue slot
        { slot with clockHeartbeat := peerTimeoutHeartbeat, state := .ready } ps
  | messages {ps : List PeerPacket} (rng : Mt64) (hState : slot.state = .ready)
      (hNew : slot.outIndex < queue.length)
      (hCarried : Carried slot.localEnd.id slot.remoteEnd.id ps
        (chunksAt queue (packIndices rng queue.length slot.outIndex))) :
      SlotSends listenId time actor queue slot
        { slot with outIndex := queue.length, clockHeartbeat := peerTimeoutHeartbeat } ps
  | heartbeat {ps : List PeerPacket} (rng : Mt64) (hState : slot.state = .ready)
      (hCursor : slot.outIndex = queue.length) (hClock : slot.clockHeartbeat ≤ 0)
      (hCarried : Carried slot.localEnd.id slot.remoteEnd.id ps
        (heartbeatChunk time actor :: chunksAt queue (trailIndices rng slot.outIndex).1)) :
      SlotSends listenId time actor queue slot
        { slot with clockHeartbeat := peerTimeoutHeartbeat } ps

/-- A ready slot that is not ahead of the queue has then been sent all of it. -/
theorem SlotSends.caughtUp {listenId time actor : Int} {queue : PeerQueue} {slot slot' : PeerSlot}
    {ps : List PeerPacket} (h : SlotSends listenId time actor queue slot slot' ps)
    (hReady : slot.state = .ready) (hCursor : slot.outIndex ≤ queue.length) :
    slot'.outIndex = queue.length := by
  cases h with
  | idle hIdle =>
    rcases hIdle with hEmpty | ⟨_, hNone, _⟩
    · rw [hReady] at hEmpty
      cases hEmpty
    · exact Nat.le_antisymm hCursor hNone
  | response hState =>
    rw [hReady] at hState
    cases hState
  | messages => rfl
  | heartbeat _ _ hEq => exact hEq

/-- A slot's turn sends one of these, and reports no error. The hypotheses are what
keeps it from faulting: the cursor is inside the queue, the address in its array,
and every message fits a packet. -/
theorem sendSlot_sends {queue : PeerQueue} {slot : PeerSlot}
    (hCursor : slot.outIndex ≤ queue.length) (hAddress : slot.localEnd.AddressFits)
    (hSmall : ∀ m ∈ queue, m.Small) (listenId time actor : Int)
    {out : TickOutput} (hAlloc : out.alloc = .reliable) :
    ∃ slot' ps rng, sendSlot listenId time actor queue slot out =
        .ok (slot', { out with packets := out.packets ++ ps, mt64 := rng }) ∧
      SlotSends listenId time actor queue slot slot' ps := by
  have hNone : (out : TickOutput) = { out with packets := out.packets ++ [], mt64 := out.mt64 } := by
    rw [List.append_nil]
  cases hState : slot.state with
  | empty =>
    refine ⟨slot, [], out.mt64, ?_, .idle (Or.inl hState)⟩
    rw [sendSlot, hState, ← hNone]
  | sessionRequest =>
    obtain ⟨ps, hSend, hCarried⟩ := sendSessionResponse_carried hAddress listenId time hAlloc
    refine ⟨{ slot with clockHeartbeat := peerTimeoutHeartbeat, state := .ready }, ps, out.mt64, ?_,
      .response hState hCarried⟩
    rw [sendSlot, hState]
    dsimp only
    rw [hSend, ok_bind]
    rfl
  | ready =>
    -- new messages come before a heartbeat
    by_cases hNew : slot.outIndex < queue.length
    · obtain ⟨ps, hSend, hCarried⟩ := queuePack_carried hNew hSmall slot.localEnd.id
        slot.remoteEnd.id out hAlloc
      refine ⟨{ slot with outIndex := queue.length, clockHeartbeat := peerTimeoutHeartbeat }, ps,
        (trailIndices out.mt64 slot.outIndex).2, ?_, .messages out.mt64 hState hNew hCarried⟩
      rw [sendSlot, hState]
      dsimp only
      rw [if_pos hNew, hSend, ok_bind]
      simp
    · have hEq : slot.outIndex = queue.length := by omega
      by_cases hClock : slot.clockHeartbeat ≤ 0
      · obtain ⟨ps, hSend, hCarried⟩ := sendHeartbeat_carried hCursor hSmall time actor
          slot.localEnd.id slot.remoteEnd.id out hAlloc
        refine ⟨{ slot with clockHeartbeat := peerTimeoutHeartbeat }, ps,
          (trailIndices out.mt64 slot.outIndex).2, ?_, .heartbeat out.mt64 hState hEq hClock hCarried⟩
        rw [sendSlot, hState]
        dsimp only
        rw [if_neg hNew, if_pos hClock, hSend, ok_bind]
        rfl
      · refine ⟨slot, [], out.mt64, ?_, .idle (Or.inr ⟨hState, by omega, by omega⟩)⟩
        rw [sendSlot, hState]
        dsimp only
        rw [if_neg hNew, if_neg hClock, ← hNone]

/-- The loop over the slots: what goes out to each of them, one after another. The
generator is handed on from slot to slot, so the trails of a later slot depend on
how many numbers the earlier ones drew. -/
theorem sendSlots_sends {queue : PeerQueue} {slots : List PeerSlot}
    (hCursor : ∀ slot ∈ slots, slot.outIndex ≤ queue.length)
    (hAddress : ∀ slot ∈ slots, slot.localEnd.AddressFits)
    (hSmall : ∀ m ∈ queue, m.Small) (listenId time actor : Int)
    (out : TickOutput) (hAlloc : out.alloc = .reliable) :
    ∃ (sent : List (PeerSlot × List PeerPacket)) (rng : Mt64),
      sendSlots listenId time actor queue slots out = .ok (sent.map Prod.fst,
        { out with packets := out.packets ++ (sent.map Prod.snd).flatten, mt64 := rng }) ∧
      List.Forall₂ (fun slot r => SlotSends listenId time actor queue slot r.1 r.2) slots sent := by
  induction slots generalizing out with
  | nil => exact ⟨[], out.mt64, by simp [sendSlots], .nil⟩
  | cons slot slots ih =>
    obtain ⟨slot', ps, rng1, hFirst, hSends⟩ := sendSlot_sends (hCursor slot (List.mem_cons_self ..))
      (hAddress slot (List.mem_cons_self ..)) hSmall listenId time actor hAlloc
    -- The next slot draws from the generator that this one has left.
    obtain ⟨sent, rng, hRest, hAll⟩ := ih (fun s hs => hCursor s (List.mem_cons_of_mem _ hs))
      (fun s hs => hAddress s (List.mem_cons_of_mem _ hs))
      { out with packets := out.packets ++ ps, mt64 := rng1 } hAlloc
    refine ⟨(slot', ps) :: sent, rng, ?_, .cons hSends hAll⟩
    rw [sendSlots, hFirst, ok_bind]
    dsimp only
    rw [hRest, ok_bind]
    simp

-- ---------------------------------------------------------------------------
-- The tick
-- ---------------------------------------------------------------------------

/-- An elapsed time that `peer_tick` accepts: not negative, and no more than is
left. -/
def ValidElapsed (peer : Peer) (timeElapsed : Int) : Prop :=
  0 ≤ timeElapsed ∧ peer.timeLocal ≤ int64Max - timeElapsed

instance (peer : Peer) (timeElapsed : Int) : Decidable (ValidElapsed peer timeElapsed) :=
  inferInstanceAs (Decidable (_ ∧ _))

/-- A time that is not accepted is reported, and nothing else happens. -/
theorem peerTick_invalid {peer : Peer} {e : Int} (h : ¬ ValidElapsed peer e) :
    ∃ s, s ≠ kitOk ∧ peerTick peer e = .ok (s, [], peer) := by
  unfold peerTick
  by_cases hNegative : e < 0
  · exact ⟨_, by decide, if_pos hNegative⟩
  · refine ⟨peerErrorTimeOverflow, by decide, ?_⟩
    rw [if_neg hNegative, if_pos]
    unfold ValidElapsed at h
    omega

/-- The same from the result of such a tick. -/
theorem eq_of_peerTick_invalid {peer peer' : Peer} {e : Int} {s : Status} {ps : List PeerPacket}
    (h : ¬ ValidElapsed peer e) (hTick : peerTick peer e = .ok (s, ps, peer')) :
    s ≠ kitOk ∧ ps = [] ∧ peer' = peer := by
  obtain ⟨s', hBad, hInvalid⟩ := peerTick_invalid h
  rw [hInvalid, Except.ok.injEq, Prod.mk.injEq, Prod.mk.injEq] at hTick
  obtain ⟨rfl, rfl, rfl⟩ := hTick
  exact ⟨hBad, rfl, rfl⟩

/-- A tick that ends well was not refused. -/
theorem validElapsed_of_kitOk {peer peer' : Peer} {e : Int} {ps : List PeerPacket}
    (hTick : peerTick peer e = .ok (kitOk, ps, peer')) : ValidElapsed peer e := by
  by_contra hInvalid
  exact (eq_of_peerTick_invalid hInvalid hTick).1 rfl

/-- A tick of a host: the clocks, then its two phases. -/
theorem peerTick_host_eq {peer : Peer} {e : Int} (hValid : ValidElapsed peer e)
    (hMode : peer.mode = .host) :
    peerTick peer e = (do
      let (out, peer') ← hostSend (hostMerge (peer.tickClock e)).1 (hostMerge (peer.tickClock e)).2
      .ok (out.status, out.packets, peer')) := by
  obtain ⟨hLo, hHi⟩ := hValid
  have hClock : (peer.tickClock e).mode = .host := hMode
  rw [peerTick, if_neg (by omega), if_neg (by omega)]
  dsimp only
  rw [hClock]
  rfl

/-- A tick of a client: the clocks, then its sending. -/
theorem peerTick_client_eq {peer : Peer} {e : Int} (hValid : ValidElapsed peer e)
    (hMode : peer.mode = .client) :
    peerTick peer e = (do
      let (out, peer') ← clientSend (peer.tickClock e)
      .ok (out.status, out.packets, peer')) := by
  obtain ⟨hLo, hHi⟩ := hValid
  have hClock : (peer.tickClock e).mode = .client := hMode
  rw [peerTick, if_neg (by omega), if_neg (by omega)]
  dsimp only
  rw [hClock]
  rfl

/-- The clocks of all slots are moved. -/
theorem tickClock_slots (peer : Peer) (e : Int) :
    (peer.tickClock e).slots = peer.slots.map (·.tickClock e) := rfl

/-- The clock is all that its update changes in a slot. -/
theorem PeerSlot.tickClock_eq (slot : PeerSlot) (e : Int) :
    slot.tickClock e = { slot with clockHeartbeat := (slot.tickClock e).clockHeartbeat } := by
  unfold PeerSlot.tickClock
  split <;> rfl

section

variable (slot : PeerSlot) (e : Int)

/-- Field by field, for `simp`: the clocks leave everything else, and the merge
everything but its cursor. -/
@[simp] theorem tickClock_localEnd : (slot.tickClock e).localEnd = slot.localEnd := by
  rw [PeerSlot.tickClock_eq]

@[simp] theorem tickClock_remoteEnd : (slot.tickClock e).remoteEnd = slot.remoteEnd := by
  rw [PeerSlot.tickClock_eq]

@[simp] theorem tickClock_queue : (slot.tickClock e).queue = slot.queue := by
  rw [PeerSlot.tickClock_eq]

@[simp] theorem tickClock_actor : (slot.tickClock e).actor = slot.actor := by
  rw [PeerSlot.tickClock_eq]

@[simp] theorem tickClock_inIndex : (slot.tickClock e).inIndex = slot.inIndex := by
  rw [PeerSlot.tickClock_eq]

@[simp] theorem tickClock_outIndex : (slot.tickClock e).outIndex = slot.outIndex := by
  rw [PeerSlot.tickClock_eq]

@[simp] theorem tickClock_state : (slot.tickClock e).state = slot.state := by
  rw [PeerSlot.tickClock_eq]

@[simp] theorem tickClock_pending : (slot.tickClock e).pending = slot.pending := by
  rw [PeerSlot.tickClock_eq]
  rfl

@[simp] theorem merged_localEnd : slot.merged.localEnd = slot.localEnd := rfl

@[simp] theorem merged_remoteEnd : slot.merged.remoteEnd = slot.remoteEnd := rfl

@[simp] theorem merged_slot_queue : slot.merged.queue = slot.queue := rfl

@[simp] theorem merged_actor : slot.merged.actor = slot.actor := rfl

@[simp] theorem merged_inIndex : slot.merged.inIndex = slot.inIndex + slot.pending.length := rfl

@[simp] theorem merged_outIndex : slot.merged.outIndex = slot.outIndex := rfl

@[simp] theorem merged_state : slot.merged.state = slot.state := rfl

@[simp] theorem merged_clock : slot.merged.clockHeartbeat = slot.clockHeartbeat := rfl

end

/-- Sending in the host's tick, after the merge: the loop over the slots, from the
listening slot's id. -/
theorem hostSend_eq (status : Status) (peer : Peer) :
    hostSend status peer = (do
      let (slots, out) ← sendSlots ((peer.slots.head?.map (·.localEnd.id)).getD 0) peer.time
        peer.actor peer.queue peer.slots.tail
        { status := status, packets := [], mt64 := peer.mt64, alloc := peer.alloc }
      .ok (out, { peer with
        slots := peer.slots.take 1 ++ slots, mt64 := out.mt64, alloc := out.alloc })) := by
  unfold hostSend
  cases hSlots : peer.slots with
  | nil =>
    simp only [sendSlots, List.tail_nil, ok_bind, List.take_nil, List.append_nil]
    rw [← hSlots]
  | cons first slots => rfl

/-- A slot of the merged host, above the listening slot. -/
theorem merged_slots_getElem? (peer : Peer) (e : Int) {j : Nat} (hj : 1 ≤ j) :
    (peer.tickClock e).merged.slots.tail[j - 1]? =
      (peer.slots[j]?).map fun slot => (slot.tickClock e).merged := by
  have hTail : (peer.tickClock e).merged.slots.tail =
      peer.slots.tail.map fun slot => (slot.tickClock e).merged := by
    simp only [Peer.merged, tickClock_slots]
    cases peer.slots <;> simp
  rw [hTail, List.getElem?_map, List.getElem?_tail, Nat.sub_add_cancel hj]

theorem merged_slots_take (peer : Peer) (e : Int) :
    (peer.tickClock e).merged.slots.take 1 = (peer.slots.take 1).map (·.tickClock e) := by
  simp only [Peer.merged, tickClock_slots]
  cases peer.slots <;> simp

/-- A slot of the merged host comes from a slot of the host, with its cursor
for sending and its endpoints. -/
theorem exists_slot_of_mem_merged {peer : Peer} {e : Int} {slot' : PeerSlot}
    (h : slot' ∈ (peer.tickClock e).merged.slots.tail) :
    ∃ slot ∈ peer.slots, slot'.outIndex = slot.outIndex ∧ slot'.localEnd = slot.localEnd := by
  obtain ⟨i, hi⟩ := List.mem_iff_getElem?.mp h
  have hMerged := merged_slots_getElem? peer e (j := i + 1) (by omega)
  rw [Nat.add_sub_cancel, hi] at hMerged
  obtain ⟨slot, hSlot, rfl⟩ := Option.map_eq_some_iff.mp hMerged.symm
  exact ⟨slot, List.mem_of_getElem? hSlot, by simp, by simp⟩

/-- What a slot contributes does not depend on its clock. -/
theorem contribution_tickClock (slot : PeerSlot) (e time : Int) :
    (slot.tickClock e).contribution time = slot.contribution time := by
  rw [PeerSlot.tickClock_eq]
  rfl

/-- The mutual queue after the merge, with the time of the tick. -/
theorem merged_queue (peer : Peer) (e : Int) :
    (peer.tickClock e).merged.queue =
      stampQueue peer.queueIndex (peer.timeLocal + e) peer.queue ++
        peer.slots.tail.flatMap (·.contribution (peer.timeLocal + e)) := by
  have hTail : (peer.tickClock e).slots.tail = peer.slots.tail.map (·.tickClock e) := by
    rw [tickClock_slots, List.map_tail]
  simp only [Peer.merged, hTail, List.flatMap_map, contribution_tickClock]
  rfl

/-- The merge stamps the entries that were not sent yet, and leaves the others. -/
theorem getElem?_merged_queue {peer : Peer} {e : Int} {k : Nat} (hk : k < peer.queue.length) :
    (peer.tickClock e).merged.queue[k]? = (peer.queue[k]?).map fun m =>
      if k < peer.queueIndex then m else { m with time := peer.timeLocal + e } := by
  rw [merged_queue, List.getElem?_append_left (by rw [length_stampQueue]; exact hk),
    getElem?_stampQueue]

/-- An entry after the merge has the actor and the data of an entry before it,
or comes from a ready message of a slot. -/
theorem mem_merged_queue {peer : Peer} {e : Int} {m' : PeerMessage}
    (h : m' ∈ (peer.tickClock e).merged.queue) :
    (∃ m ∈ peer.queue, m' = m ∨ m' = { m with time := peer.timeLocal + e }) ∨
    ∃ slot ∈ peer.slots.tail, ∃ m ∈ slot.queue, m.isReady = true ∧
      m' = Entry.message { time := peer.timeLocal + e, actor := slot.actor, data := m.data } := by
  rw [merged_queue] at h
  rcases List.mem_append.mp h with hOld | hNew
  · obtain ⟨k, hk⟩ := List.mem_iff_getElem?.mp hOld
    rw [getElem?_stampQueue] at hk
    obtain ⟨m, hm, rfl⟩ := Option.map_eq_some_iff.mp hk
    refine Or.inl ⟨m, List.mem_of_getElem? hm, ?_⟩
    split
    · exact Or.inl rfl
    · exact Or.inr rfl
  · obtain ⟨slot, hSlot, hm'⟩ := List.mem_flatMap.mp hNew
    obtain ⟨m, hm, rfl⟩ := List.mem_map.mp hm'
    obtain ⟨hQueue, hReady⟩ := mem_pending hm
    exact Or.inr ⟨slot, hSlot, m, hQueue, hReady, rfl⟩

/-- The mutual queue never becomes shorter. -/
theorem length_le_merged (peer : Peer) (e : Int) :
    peer.queue.length ≤ (peer.tickClock e).merged.queue.length := by
  simp only [Peer.merged, stampQueue, List.length_append, List.length_take, List.length_map,
    List.length_drop, Peer.tickClock]
  omega

/-- What the tick of a host does to it, field by field, and slot by slot above the
listening one, of which only the clock moves. -/
structure HostTicked (peer : Peer) (e : Int) (peer' : Peer) : Prop where
  mode : peer'.mode = .host
  alloc : peer'.alloc = .reliable
  actor : peer'.actor = peer.actor
  time : peer'.time = peer.timeLocal + e
  timeLocal : peer'.timeLocal = peer.timeLocal + e
  queue : peer'.queue = (peer.tickClock e).merged.queue
  queueIndex : peer'.queueIndex = peer'.queue.length
  length : peer'.slots.length = peer.slots.length
  first : peer'.slots[0]? = (peer.slots[0]?).map (·.tickClock e)
  slot : ∀ j slot slot', 1 ≤ j → peer.slots[j]? = some slot → peer'.slots[j]? = some slot' →
    SlotSent peer'.queue (slot.tickClock e).merged slot' ∧ (slot'.outIndex ≠ slot.outIndex →
      ∀ k m, slot.outIndex ≤ k → peer'.queue[k]? = some m → m.Small)

/-- The slots are put together of the listening slot and the others. -/
theorem first_of_merged {peer : Peer} {e : Int} {slots' : List PeerSlot}
    (hLen : slots'.length = (peer.tickClock e).merged.slots.tail.length) :
    ((peer.tickClock e).merged.slots.take 1 ++ slots')[0]? = (peer.slots[0]?).map (·.tickClock e) ∧
    ((peer.tickClock e).merged.slots.take 1 ++ slots').length = peer.slots.length := by
  rw [List.length_append, hLen, merged_slots_take]
  cases hSlots : peer.slots with
  | nil =>
    have : slots' = [] := by
      refine List.eq_nil_of_length_eq_zero ?_
      rw [hLen]
      simp [Peer.merged, tickClock_slots, hSlots]
    simp [Peer.merged, tickClock_slots, hSlots, this]
  | cons first slots =>
    simp [Peer.merged, tickClock_slots, hSlots]
    omega

/-- **The host's tick**, without allocation failures, whatever the sizes of the
messages: what it does to times, queue and cursors. What it sends is in `SlotSends`. -/
theorem peerTick_host_ticked {peer peer' : Peer} {e : Int} {s : Status} {ps : List PeerPacket}
    (hMode : peer.mode = .host) (hAlloc : peer.alloc = .reliable) (hValid : ValidElapsed peer e)
    (hCursor : ∀ slot ∈ peer.slots, slot.outIndex ≤ peer.queue.length)
    (h : peerTick peer e = .ok (s, ps, peer')) : HostTicked peer e peer' := by
  rw [peerTick_host_eq hValid hMode, hostMerge_reliable (show (peer.tickClock e).alloc = _ from hAlloc),
    hostSend_eq] at h
  obtain ⟨⟨out, peer1⟩, hSend, h⟩ := bind_eq_ok.mp h
  obtain ⟨⟨slots', out1⟩, hSlots, hSend⟩ := bind_eq_ok.mp hSend
  obtain ⟨rfl, rfl⟩ := Prod.mk.inj (Except.ok.inj hSend)
  obtain ⟨_, hPeer⟩ := Prod.mk.inj (Except.ok.inj h)
  obtain ⟨_, rfl⟩ := Prod.mk.inj hPeer
  obtain ⟨hReliable, hAll⟩ := sendSlots_reliable (by
    intro slot' hSlot'
    obtain ⟨slot, hSlot, hOut, _⟩ := exists_slot_of_mem_merged hSlot'
    rw [hOut]
    exact Nat.le_trans (hCursor slot hSlot) (length_le_merged peer e)) hSlots hAlloc
  -- what was sent stands behind the listening slot
  obtain ⟨hFirst, hLen⟩ := first_of_merged hAll.length_eq.symm
  refine ⟨hMode, hReliable, rfl, rfl, rfl, rfl, rfl, hLen, hFirst, ?_⟩
  intro j slot slot' hj hSlot hSlot'
  dsimp only at hSlot'
  rw [getElem?_head_append hAll.length_eq.symm hj] at hSlot'
  obtain ⟨merged, hMerged, hSent, hSmall⟩ := getElem?_of_forall₂_right hAll hSlot'
  rw [merged_slots_getElem? peer e hj, hSlot, Option.map_some, Option.some.injEq] at hMerged
  subst hMerged
  refine ⟨hSent, ?_⟩
  rw [PeerSlot.tickClock_eq] at hSmall
  exact hSmall

/-- The id that the session responses come from: the listening slot's own. -/
def Peer.listenId (peer : Peer) : Int := (peer.slots.head?.map (·.localEnd.id)).getD 0

/-- What goes out in a tick of a host: to each slot above the listening slot
what `SlotSends` says, and nothing else. -/
structure HostSends (peer : Peer) (e : Int) (packets : List PeerPacket) (peer' : Peer) : Prop where
  toSlot : ∀ j slot, 1 ≤ j → peer.slots[j]? = some slot → ∃ slot' ps,
    peer'.slots[j]? = some slot' ∧ (∀ p ∈ ps, p ∈ packets) ∧
    SlotSends peer.listenId peer'.time peer'.actor peer'.queue (slot.tickClock e).merged slot' ps
  ofSlot : ∀ p ∈ packets, ∃ j slot slot' ps, 1 ≤ j ∧ peer.slots[j]? = some slot ∧ p ∈ ps ∧
    SlotSends peer.listenId peer'.time peer'.actor peer'.queue (slot.tickClock e).merged slot' ps

/-- The clocks and the merge do not change it. -/
theorem listenId_merged (peer : Peer) (e : Int) :
    ((peer.tickClock e).merged.slots.head?.map (·.localEnd.id)).getD 0 = peer.listenId := by
  unfold Peer.listenId
  simp only [Peer.merged, tickClock_slots]
  cases peer.slots with
  | nil => rfl
  | cons first slots =>
    simp

/-- **What the host sends.** When its cursors, addresses and messages are in
range and no allocation fails, the tick ends well and sends to every slot. -/
theorem peerTick_host_sends {peer : Peer} {e : Int} (hMode : peer.mode = .host)
    (hAlloc : peer.alloc = .reliable) (hValid : ValidElapsed peer e)
    (hCursor : ∀ slot ∈ peer.slots, slot.outIndex ≤ peer.queue.length)
    (hAddress : ∀ slot ∈ peer.slots, slot.localEnd.AddressFits)
    (hSmall : ∀ m ∈ (peer.tickClock e).merged.queue, m.Small) :
    ∃ packets peer', peerTick peer e = .ok (kitOk, packets, peer') ∧
      HostSends peer e packets peer' := by
  obtain ⟨sent, rng, hSend, hAll⟩ := sendSlots_sends
    (show ∀ slot' ∈ (peer.tickClock e).merged.slots.tail,
        slot'.outIndex ≤ (peer.tickClock e).merged.queue.length by
      intro slot' hSlot'
      obtain ⟨slot, hSlot, hOut, _⟩ := exists_slot_of_mem_merged hSlot'
      rw [hOut]
      exact Nat.le_trans (hCursor slot hSlot) (length_le_merged peer e))
    (by
      intro slot' hSlot'
      obtain ⟨slot, hSlot, _, hLocal⟩ := exists_slot_of_mem_merged hSlot'
      rw [hLocal]
      exact hAddress slot hSlot)
    hSmall peer.listenId (peer.tickClock e).merged.time peer.actor
    { status := kitOk, packets := [], mt64 := peer.mt64, alloc := peer.alloc } hAlloc
  refine ⟨(sent.map Prod.snd).flatten, { (peer.tickClock e).merged with
    slots := (peer.tickClock e).merged.slots.take 1 ++ sent.map Prod.fst, mt64 := rng }, ?_, ?_, ?_⟩
  · rw [peerTick_host_eq hValid hMode,
      hostMerge_reliable (show (peer.tickClock e).alloc = _ from hAlloc), hostSend_eq, listenId_merged]
    have hArgs : (peer.tickClock e).merged.actor = peer.actor ∧
        (peer.tickClock e).merged.mt64 = peer.mt64 ∧
        (peer.tickClock e).merged.alloc = peer.alloc := ⟨rfl, rfl, rfl⟩
    rw [hArgs.1, hArgs.2.1, hArgs.2.2, hSend, ok_bind, ok_bind]
    rfl
  · -- slot j sends at place j - 1 of the loop, which skips the listening slot
    intro j slot hj hSlot
    have hMerged := merged_slots_getElem? peer e hj
    rw [hSlot, Option.map_some] at hMerged
    obtain ⟨⟨slot', ps⟩, hSent, hSends⟩ := getElem?_of_forall₂ hAll hMerged
    refine ⟨slot', ps, ?_, ?_, hSends⟩
    · dsimp only
      rw [getElem?_head_append (by rw [List.length_map, hAll.length_eq]) hj, List.getElem?_map, hSent]
      rfl
    · intro p hp
      exact List.mem_flatten.mpr ⟨ps, List.mem_map.mpr ⟨_, List.mem_of_getElem? hSent, rfl⟩, hp⟩
  · -- and every packet is of one such place
    intro p hp
    obtain ⟨ps, hPs, hMem⟩ := List.mem_flatten.mp hp
    obtain ⟨⟨slot', ps'⟩, hSent, rfl⟩ := List.mem_map.mp hPs
    obtain ⟨i, hi⟩ := List.mem_iff_getElem?.mp hSent
    obtain ⟨merged, hMerged, hSends⟩ := getElem?_of_forall₂_right hAll hi
    have hSlot := merged_slots_getElem? peer e (j := i + 1) (by omega)
    rw [Nat.add_sub_cancel, hMerged] at hSlot
    obtain ⟨slot, hOld, rfl⟩ := Option.map_eq_some_iff.mp hSlot.symm
    exact ⟨i + 1, slot, slot', ps', by omega, hOld, hMem, hSends⟩

end PeerProtocol
