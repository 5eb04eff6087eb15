import PeerProtocol.Peer.HostTick

/-!
# peer — the client's tick

What one tick of a client does: it sends the new messages of its slot, or,
when there are none and its clock has run out, a heartbeat. The heartbeat's
trail comes from the mutual queue, at the cursor of the slot's own queue.

That is where a client differs from a host, and where its tick can go wrong:
the cursor counts what the client has sent, and the mutual queue holds what it
has received. If less was received than sent, the trail is asked for past the
end of its queue. `TrailInside` is the condition under which it is not, and
every result about a client's tick has it as a hypothesis or shows it. The
other difference is smaller: new messages leave the client's clock as it is.

A client only ever sends from its first slot, whatever others have been
opened.

## Results

* `clientSend_sent` — what the tick may change, whatever the allocator does.
* `sendHeartbeat_trail` — where the trail does not exist, the heartbeat
  faults, once its chunk list could be allocated.
* `ClientSends` — without allocation failures, the packets that go out;
  `ClientSends.caughtUp`, `ClientSends.covers` — the cursor behind them, and
  the entries that they carry for certain.
* `peerTick_client` — the tick of a client whose messages all fit a packet.
* `ClientTicked`, `peerTick_client_ticked` — what the tick does to the client,
  whatever the sizes of the messages.
-/

namespace PeerProtocol

open Lib

-- ---------------------------------------------------------------------------
-- What may change
-- ---------------------------------------------------------------------------

/-- Sending changes the first slot as it does a host's slot, and no other. A client
without slots sends nothing and is left as it is. -/
theorem clientSend_sent {peer peer' : Peer} {out : TickOutput}
    (h : clientSend peer = .ok (out, peer')) :
    (peer.slots = [] ∧ peer' = peer) ∨
    ∃ slot slot' slots, peer.slots = slot :: slots ∧ SlotSent slot.queue slot slot' ∧
      peer' = { peer with slots := slot' :: slots, mt64 := out.mt64, alloc := out.alloc } := by
  unfold clientSend at h
  cases hSlots : peer.slots with
  | nil =>
    rw [hSlots] at h
    obtain ⟨_, rfl⟩ := Prod.mk.inj (Except.ok.inj h)
    exact Or.inl ⟨rfl, rfl⟩
  | cons slot slots =>
    refine Or.inr ⟨slot, ?_⟩
    simp only [hSlots] at h
    split at h
    · next hNew =>
      obtain ⟨⟨s, out1⟩, _, h⟩ := bind_eq_ok.mp h
      obtain ⟨rfl, rfl⟩ := Prod.mk.inj (Except.ok.inj h)
      refine ⟨_, slots, rfl, ?_, rfl⟩
      refine ⟨rfl, rfl, rfl, rfl, rfl, ?_, Iff.rfl⟩
      dsimp only
      split
      · exact Or.inr ⟨hNew, rfl⟩
      · exact Or.inl rfl
    split at h
    · obtain ⟨⟨started, out1⟩, _, h⟩ := bind_eq_ok.mp h
      obtain ⟨rfl, rfl⟩ := Prod.mk.inj (Except.ok.inj h)
      refine ⟨_, slots, rfl, ?_, rfl⟩
      -- the clock starts again, unless the chunk of the heartbeat was refused
      cases started <;> exact ⟨rfl, rfl, rfl, rfl, rfl, Or.inl rfl, Iff.rfl⟩
    · obtain ⟨rfl, rfl⟩ := Prod.mk.inj (Except.ok.inj h)
      exact ⟨slot, slots, rfl, ⟨rfl, rfl, rfl, rfl, rfl, Or.inl rfl, Iff.rfl⟩, by rw [← hSlots]⟩

-- ---------------------------------------------------------------------------
-- The trail of a heartbeat
-- ---------------------------------------------------------------------------

/-- Past the end of its queue, the trail stops the heartbeat, if its list of
chunks could be allocated at all. -/
theorem sendHeartbeat_trail {q : PeerQueue} {index : Nat} (hIndex : q.length < index)
    (time actor src dst : Int) {out : TickOutput} (hAlloc : out.alloc.outcomes 0 = true) :
    sendHeartbeat q index time actor src dst out = .error (.trail index q.length) := by
  have hTrail (rng : Mt64) (chunks : List Chunk) (al : Allocator) :
      chunksAppendTrail rng q index chunks al = .error (.trail index q.length) := by
    rw [chunksAppendTrail, if_pos hIndex]
  -- With the list granted the trail is asked for, whether or not the heartbeat's own chunk was.
  obtain ⟨s0, chunks, al, hChunks⟩ : ∃ s0 chunks al,
      heartbeatChunks time actor out.alloc = .ok (s0, some chunks, al) := by
    unfold heartbeatChunks
    rw [show out.alloc.request = (true, out.alloc.request.2) from Prod.ext hAlloc rfl]
    dsimp only
    rcases hRequest : out.alloc.request.2.request with ⟨b, al⟩
    cases b with
    | false => exact ⟨_, _, _, rfl⟩
    | true =>
      dsimp only
      rw [peerNMessageData, peerWriteMessage_eq (by simp)]
      exact ⟨_, _, _, rfl⟩
  rw [sendHeartbeat, hChunks, ok_bind]
  dsimp only
  rw [hTrail, error_bind]

/-- When a heartbeat of the client is due, its trail lies inside the mutual queue.
The source asks for the trail with the cursor of the client's own queue, and does
not compare it with the queue that it gives. -/
def TrailInside (peer : Peer) (slot : PeerSlot) : Prop :=
  slot.queue.length ≤ slot.outIndex → slot.clockHeartbeat ≤ 0 → slot.outIndex ≤ peer.queue.length

instance (peer : Peer) (slot : PeerSlot) : Decidable (TrailInside peer slot) :=
  inferInstanceAs (Decidable (_ → _ → _))

/-- A client whose heartbeat is due without a trail faults there. -/
theorem clientSend_trail {peer : Peer} {slot : PeerSlot} {slots : List PeerSlot}
    (hSlots : peer.slots = slot :: slots) (hAlloc : peer.alloc.outcomes 0 = true)
    (hTrail : ¬ TrailInside peer slot) :
    clientSend peer = .error (.trail slot.outIndex peer.queue.length) := by
  unfold TrailInside at hTrail
  push Not at hTrail
  obtain ⟨hCursor, hClock, hPast⟩ := hTrail
  rw [clientSend, hSlots]
  dsimp only
  rw [if_neg (by omega), if_pos hClock, sendHeartbeat_trail hPast _ _ _ _ hAlloc, error_bind]

-- ---------------------------------------------------------------------------
-- What goes out
-- ---------------------------------------------------------------------------

/-- The packets that go out of a client with a slot, and the slot after sending:
nothing, new messages with the trail of its own queue, or a heartbeat with one of
the mutual queue. -/
inductive ClientSends (peer : Peer) (slot : PeerSlot) : PeerSlot → List PeerPacket → Prop where
  | idle (hCursor : slot.queue.length ≤ slot.outIndex) (hClock : 0 < slot.clockHeartbeat) :
      ClientSends peer slot slot []
  | messages {ps : List PeerPacket} (rng : Mt64) (hNew : slot.outIndex < slot.queue.length)
      (hCarried : Carried slot.localEnd.id slot.remoteEnd.id ps
        (chunksAt slot.queue (packIndices rng slot.queue.length slot.outIndex))) :
      ClientSends peer slot { slot with outIndex := slot.queue.length } ps
  | heartbeat {ps : List PeerPacket} (rng : Mt64) (hCursor : slot.queue.length ≤ slot.outIndex)
      (hClock : slot.clockHeartbeat ≤ 0) (hTrail : slot.outIndex ≤ peer.queue.length)
      (hCarried : Carried slot.localEnd.id slot.remoteEnd.id ps
        (heartbeatChunk 0 peer.actor :: chunksAt peer.queue (trailIndices rng slot.outIndex).1)) :
      ClientSends peer slot { slot with clockHeartbeat := peerTimeoutHeartbeat } ps

theorem ClientSends.queue_eq {peer : Peer} {slot slot' : PeerSlot} {ps : List PeerPacket}
    (h : ClientSends peer slot slot' ps) : slot'.queue = slot.queue := by
  cases h <;> rfl

/-- A slot that is not ahead of its queue has then sent all of it. -/
theorem ClientSends.caughtUp {peer : Peer} {slot slot' : PeerSlot} {ps : List PeerPacket}
    (h : ClientSends peer slot slot' ps) (hCursor : slot.outIndex ≤ slot.queue.length) :
    slot'.outIndex = slot'.queue.length := by
  cases h with
  | idle hNone => exact Nat.le_antisymm hCursor hNone
  | messages => rfl
  | heartbeat _ hNone => exact Nat.le_antisymm hCursor hNone

/-- With new messages, what the trail takes of the old ones goes out, too. -/
theorem ClientSends.covers {peer : Peer} {slot slot' : PeerSlot} {ps : List PeerPacket}
    (h : ClientSends peer slot slot' ps) (hNew : slot.outIndex < slot.queue.length) {k : Nat}
    {m : PeerMessage} (hm : slot.queue[k]? = some m)
    (hk : slot.outIndex ≤ k + peerTrailSerialSize ∨
      slot.outIndex < peerTrailSerialSize + peerTrailScatterDistance) :
    ∃ p ∈ ps, ∃ cs, Sealed slot.localEnd.id slot.remoteEnd.id p cs ∧ m.chunk k ∈ cs := by
  have hLt := (List.getElem?_eq_some_iff.mp hm).1
  cases h with
  | idle hNone => omega
  | messages rng _ hCarried =>
    exact hCarried.exists_packet (mem_chunksAt.mpr ⟨k, m, mem_packIndices hLt hk rng, hm, rfl⟩)
  | heartbeat _ hNone => omega

/-- What goes out, when all messages of both queues fit: one of these, without an
error. The client's own messages come from the slot's queue, and the trail of its
heartbeat from the mutual queue, which is why both are asked for. -/
theorem clientSend_sends {peer : Peer} {slot : PeerSlot} {slots : List PeerSlot}
    (hSlots : peer.slots = slot :: slots) (hAlloc : peer.alloc = .reliable)
    (hOwn : ∀ m ∈ slot.queue, m.Small)
    (hMutual : ∀ m ∈ peer.queue, m.Small)
    (hTrail : TrailInside peer slot) :
    ∃ slot' ps rng, clientSend peer =
        .ok ({ status := kitOk, packets := ps, mt64 := rng, alloc := .reliable },
          { peer with slots := slot' :: slots, mt64 := rng }) ∧
      ClientSends peer slot slot' ps := by
  by_cases hNew : slot.outIndex < slot.queue.length
  · obtain ⟨ps, hSend, hCarried⟩ := queuePack_carried hNew hOwn slot.localEnd.id slot.remoteEnd.id
      { status := kitOk, packets := [], mt64 := peer.mt64, alloc := peer.alloc } hAlloc
    refine ⟨{ slot with outIndex := slot.queue.length }, ps, (trailIndices peer.mt64 slot.outIndex).2,
      ?_, .messages peer.mt64 hNew hCarried⟩
    rw [clientSend, hSlots]
    dsimp only
    rw [if_pos hNew, hSend, ok_bind, hAlloc]
    simp
  · by_cases hClock : slot.clockHeartbeat ≤ 0
    -- the heartbeat takes the trail of the mutual queue at the cursor of the slot
    · have hInside := hTrail (by omega) hClock
      obtain ⟨ps, hSend, hCarried⟩ := sendHeartbeat_carried hInside hMutual 0 peer.actor
        slot.localEnd.id slot.remoteEnd.id
        { status := kitOk, packets := [], mt64 := peer.mt64, alloc := peer.alloc } hAlloc
      refine ⟨{ slot with clockHeartbeat := peerTimeoutHeartbeat }, ps,
        (trailIndices peer.mt64 slot.outIndex).2, ?_,
        .heartbeat peer.mt64 (by omega) hClock hInside hCarried⟩
      rw [clientSend, hSlots]
      dsimp only
      rw [if_neg hNew, if_pos hClock, hSend, ok_bind, hAlloc]
      rfl
    · refine ⟨slot, [], peer.mt64, ?_, .idle (by omega) (by omega)⟩
      rw [clientSend, hSlots]
      dsimp only
      rw [if_neg hNew, if_neg hClock, ← hSlots, hAlloc]
      simp only [← hAlloc]

-- ---------------------------------------------------------------------------
-- The tick
-- ---------------------------------------------------------------------------

/-- **The client's tick.** When its messages are in range, the trail of a
heartbeat exists and no allocation fails, it sends from its slot. -/
theorem peerTick_client {peer : Peer} {slot : PeerSlot} {slots : List PeerSlot} {e : Int}
    (hMode : peer.mode = .client) (hSlots : peer.slots = slot :: slots)
    (hAlloc : peer.alloc = .reliable) (hValid : ValidElapsed peer e)
    (hOwn : ∀ m ∈ slot.queue, m.Small)
    (hMutual : ∀ m ∈ peer.queue, m.Small)
    (hTrail : TrailInside peer (slot.tickClock e)) :
    ∃ slot' ps rng, peerTick peer e = .ok (kitOk, ps, { peer.tickClock e with
        slots := slot' :: slots.map (·.tickClock e), mt64 := rng }) ∧
      ClientSends peer (slot.tickClock e) slot' ps := by
  have hSlots' : (peer.tickClock e).slots = slot.tickClock e :: slots.map (·.tickClock e) := by
    rw [tickClock_slots, hSlots, List.map_cons]
  have hQueue : (slot.tickClock e).queue = slot.queue := by
    rw [PeerSlot.tickClock_eq]
  obtain ⟨slot', ps, rng, hSend, hSends⟩ := clientSend_sends hSlots' hAlloc
    (by rw [hQueue]; exact hOwn) hMutual hTrail
  refine ⟨slot', ps, rng, ?_, ?_⟩
  · rw [peerTick_client_eq hValid hMode, hSend]
    rfl
  -- The same case, said of the peer before its clocks were moved.
  · cases hSends with
    | idle hCursor hClock => exact .idle hCursor hClock
    | messages rng hNew hCarried => exact .messages rng hNew hCarried
    | heartbeat rng hCursor hClock hTrail hCarried => exact .heartbeat rng hCursor hClock hTrail hCarried

/-- A tick of a client that ends well has a trail inside the mutual queue. -/
theorem trailInside_of_peerTick {peer peer' : Peer} {slot : PeerSlot} {slots : List PeerSlot}
    {e : Int} {s : Status} {ps : List PeerPacket} (hMode : peer.mode = .client)
    (hSlots : peer.slots = slot :: slots) (hAlloc : peer.alloc = .reliable)
    (hValid : ValidElapsed peer e) (h : peerTick peer e = .ok (s, ps, peer')) :
    TrailInside peer (slot.tickClock e) := by
  by_contra hTrail
  have hSlots' : (peer.tickClock e).slots = slot.tickClock e :: slots.map (·.tickClock e) := by
    rw [tickClock_slots, hSlots, List.map_cons]
  rw [peerTick_client_eq hValid hMode, clientSend_trail hSlots' (by
    show peer.alloc.outcomes 0 = true
    rw [hAlloc]
    rfl) hTrail] at h
  simp at h

/-- Whatever the allocator does, a client's tick changes its clocks, its
generator, its allocator and its first slot. -/
theorem peerTick_client_sent {peer peer' : Peer} {e : Int} {s : Status} {ps : List PeerPacket}
    (hMode : peer.mode = .client) (hValid : ValidElapsed peer e)
    (h : peerTick peer e = .ok (s, ps, peer')) :
    (peer.slots = [] ∧ peer' = peer.tickClock e) ∨
    ∃ slot slot' slots rng al, peer.slots = slot :: slots ∧
      SlotSent slot.queue (slot.tickClock e) slot' ∧
      peer' = { peer.tickClock e with
        slots := slot' :: slots.map (·.tickClock e), mt64 := rng, alloc := al } := by
  rw [peerTick_client_eq hValid hMode] at h
  obtain ⟨⟨out, peer1⟩, hSend, h⟩ := bind_eq_ok.mp h
  obtain ⟨_, hPeer⟩ := Prod.mk.inj (Except.ok.inj h)
  obtain ⟨_, rfl⟩ := Prod.mk.inj hPeer
  -- No slot to send from, or the first one is sent to.
  rcases clientSend_sent hSend with ⟨hNil, rfl⟩ | ⟨slot1, slot', slots1, hCons, hSent, rfl⟩
  · rw [tickClock_slots, List.map_eq_nil_iff] at hNil
    exact Or.inl ⟨hNil, rfl⟩
  · rw [tickClock_slots] at hCons
    obtain ⟨slot, slots, hSlots, rfl, rfl⟩ := List.map_eq_cons_iff.mp hCons
    have hQueue : (slot.tickClock e).queue = slot.queue := by
      rw [PeerSlot.tickClock_eq]
    rw [hQueue] at hSent
    exact Or.inr ⟨slot, slot', slots, _, _, hSlots, hSent, rfl⟩

/-- What the tick of a client does to it, field by field. Its mutual time is not
touched: only messages of the host move it. -/
structure ClientTicked (peer : Peer) (e : Int) (peer' : Peer) : Prop where
  mode : peer'.mode = .client
  alloc : peer'.alloc = .reliable
  actor : peer'.actor = peer.actor
  time : peer'.time = peer.time
  timeLocal : peer'.timeLocal = peer.timeLocal + e
  queue : peer'.queue = peer.queue
  slots : (peer.slots = [] ∧ peer'.slots = []) ∨ ∃ slot slot' slots, peer.slots = slot :: slots ∧
    peer'.slots = slot' :: slots.map (·.tickClock e) ∧
    SlotSent slot.queue (slot.tickClock e) slot' ∧ (slot'.outIndex ≠ slot.outIndex →
      ∀ k m, slot.outIndex ≤ k → slot.queue[k]? = some m → m.Small)

/-- The same for a client that has a slot. -/
theorem ClientTicked.cons {peer peer' : Peer} {e : Int} (h : ClientTicked peer e peer')
    {slot : PeerSlot} {slots : List PeerSlot} (hSlots : peer.slots = slot :: slots) :
    ∃ slot', peer'.slots = slot' :: slots.map (·.tickClock e) ∧
      SlotSent slot.queue (slot.tickClock e) slot' ∧ (slot'.outIndex ≠ slot.outIndex →
        ∀ k m, slot.outIndex ≤ k → slot.queue[k]? = some m → m.Small) := by
  rcases h.slots with ⟨hNil, _⟩ | ⟨slot1, slot', slots1, hCons, hSlots', hSent⟩
  · rw [hSlots] at hNil
    cases hNil
  · rw [hSlots] at hCons
    obtain ⟨rfl, rfl⟩ := List.cons.inj hCons
    exact ⟨slot', hSlots', hSent⟩

/-- Without allocation failures, the cursor only moves past messages that fit. A
longer one faults, which the hypothesis excludes, or makes the packing return an
error, and then the cursor is left where it was. -/
theorem clientSend_reliable {peer peer' : Peer} {out : TickOutput}
    (hAlloc : peer.alloc = .reliable) (h : clientSend peer = .ok (out, peer')) :
    out.alloc = .reliable ∧ ∀ slot slot', peer.slots.head? = some slot →
      peer'.slots.head? = some slot' → slot'.outIndex ≠ slot.outIndex →
      ∀ k m, slot.outIndex ≤ k → slot.queue[k]? = some m → m.Small := by
  unfold clientSend at h
  cases hSlots : peer.slots with
  | nil =>
    rw [hSlots] at h
    obtain ⟨rfl, _⟩ := Prod.mk.inj (Except.ok.inj h)
    exact ⟨hAlloc, by simp⟩
  | cons slot slots =>
    simp only [hSlots] at h
    split at h
    · next hNew =>
      obtain ⟨⟨s, out1⟩, hSend, h⟩ := bind_eq_ok.mp h
      obtain ⟨rfl, rfl⟩ := Prod.mk.inj (Except.ok.inj h)
      have hResult := hSend
      rw [queuePack_reliable hNew _ _ (by exact hAlloc)] at hResult
      obtain ⟨⟨s1, packets, al⟩, hPack, hEq⟩ := bind_eq_ok.mp hResult
      obtain ⟨_, rfl⟩ := Prod.mk.inj (Except.ok.inj hEq)
      refine ⟨(peerPack_ok hPack).2 rfl, ?_⟩
      rintro _ _ ⟨⟩ ⟨⟩ hMoved
      dsimp only at hMoved
      -- the cursor moves only when the whole trail was packed
      split at hMoved
      · next hOk =>
        subst hOk
        exact small_of_queuePack hNew (by exact hAlloc) hSend
      · exact absurd rfl hMoved
    next hNew =>
    split at h
    · next hClock =>
      obtain ⟨⟨started, out1⟩, hSend, h⟩ := bind_eq_ok.mp h
      obtain ⟨rfl, rfl⟩ := Prod.mk.inj (Except.ok.inj h)
      -- from a cursor behind the mutual queue the trail would fault
      have hIndex : slot.outIndex ≤ peer.queue.length := by
        by_contra hPast
        rw [sendHeartbeat_trail (by omega) _ _ _ _ (by
          show peer.alloc.outcomes 0 = true
          rw [hAlloc]
          rfl)] at hSend
        simp at hSend
      rw [sendHeartbeat_reliable hIndex _ _ _ _ (by exact hAlloc)] at hSend
      obtain ⟨⟨s1, packets, al⟩, hPack, hEq⟩ := bind_eq_ok.mp hSend
      obtain ⟨_, rfl⟩ := Prod.mk.inj (Except.ok.inj hEq)
      refine ⟨(peerPack_ok hPack).2 rfl, ?_⟩
      rintro _ _ ⟨⟩ ⟨⟩ hMoved
      -- and a heartbeat leaves the cursor where it is
      cases started <;> exact absurd rfl hMoved
    · obtain ⟨rfl, rfl⟩ := Prod.mk.inj (Except.ok.inj h)
      refine ⟨hAlloc, ?_⟩
      intro slot1 slot2 h1 h2 hMoved
      rw [hSlots, h1, Option.some.injEq] at h2
      exact absurd (by rw [h2]) hMoved

/-- **The client's tick**, without allocation failures, whatever the sizes of the
messages. A client sends from its first slot, and the others only get their clocks
moved. -/
theorem peerTick_client_ticked {peer peer' : Peer} {e : Int} {s : Status} {ps : List PeerPacket}
    (hMode : peer.mode = .client) (hAlloc : peer.alloc = .reliable) (hValid : ValidElapsed peer e)
    (h : peerTick peer e = .ok (s, ps, peer')) : ClientTicked peer e peer' := by
  have hEq := h
  rw [peerTick_client_eq hValid hMode] at hEq
  obtain ⟨⟨out, peer1⟩, hSend, hEq⟩ := bind_eq_ok.mp hEq
  obtain ⟨_, hPeer⟩ := Prod.mk.inj (Except.ok.inj hEq)
  obtain ⟨_, rfl⟩ := Prod.mk.inj hPeer
  obtain ⟨hReliable, hSmall⟩ := clientSend_reliable (show (peer.tickClock e).alloc = _ from hAlloc) hSend
  -- No slot to send from, or the first one is sent to, and then its cursor needs a reason to
  -- move.
  rcases clientSend_sent hSend with ⟨hNil, rfl⟩ | ⟨slot1, slot', slots1, hCons, hSent, rfl⟩
  · refine ⟨hMode, hAlloc, rfl, rfl, rfl, rfl, Or.inl ⟨?_, hNil⟩⟩
    rw [tickClock_slots, List.map_eq_nil_iff] at hNil
    exact hNil
  · have hClocks := hCons
    rw [tickClock_slots] at hClocks
    obtain ⟨slot, slots, hSlots, rfl, rfl⟩ := List.map_eq_cons_iff.mp hClocks
    have hMoved := hSmall (slot.tickClock e) slot' (by rw [hCons]; rfl) rfl
    rw [tickClock_queue] at hSent hMoved
    rw [tickClock_outIndex] at hMoved
    exact ⟨hMode, hReliable, rfl, rfl, rfl, rfl,
      Or.inr ⟨slot, slot', slots, hSlots, rfl, hSent, hMoved⟩⟩

end PeerProtocol
