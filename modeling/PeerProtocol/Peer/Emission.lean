import PeerProtocol.Peer.ClientTick
import PeerProtocol.Peer.Input
import PeerProtocol.Wire.Posting

/-!
# peer — what a tick emits, whatever its messages

The packets of a tick that ends, without a bound on the size of the messages:
where a message does not fit, the packets to its slot stop there.
`Peer.HostTick` says what goes out when everything fits; the results about
sessions, ids and addresses do not need that, and are about every host that an
application can have brought about.

A tick ends unless it faults, and a message that is too large for a packet but
has a right size field faults when it is copied. So in a tick that ends, each
call of `peer_pack` has stopped at such a message or before, and left packets
between the two ids it was given, which yield a first part of its chunks
(`Wire.Posting`). For a session response that part is everything, since its
one chunk always fits.

For a client the ids are enough, and they hold for every allocator: a packet
list that is empty before the only call of `peer_pack` leaves no room for the
packet with unknown ids.

## Results

* `SlotPosts` — the packets that a host sends to a slot, and the slot after
  it; `SlotPosts.answer` — those to a session request carry the answer.
* `peerTick_host_posts` — the packets of a host's tick, slot after slot.
* `peerTick_client_between` — the ids of what a client sends, whatever its
  allocator does; and that it sends only when something is due.
-/

namespace PeerProtocol

open Lib

-- ---------------------------------------------------------------------------
-- The host
-- ---------------------------------------------------------------------------

/-- The packets that go out to a slot, and the slot after sending. A response
always fits; new messages and trails are posted up to the first that does not. -/
inductive SlotPosts (listenId time actor : Int) (queue : PeerQueue) (slot : PeerSlot) :
    PeerSlot → List PeerPacket → Prop where
  | idle (hIdle : slot.state = .empty ∨
      (slot.state = .ready ∧ queue.length ≤ slot.outIndex ∧ 0 < slot.clockHeartbeat)) :
      SlotPosts listenId time actor queue slot slot []
  | response {ps : List PeerPacket} (hState : slot.state = .sessionRequest)
      (hAddress : slot.localEnd.AddressFits)
      (hCarried : Carried listenId slot.remoteEnd.id ps [sessionResponseChunk time slot]) :
      SlotPosts listenId time actor queue slot
        { slot with clockHeartbeat := peerTimeoutHeartbeat, state := .ready } ps
  | messages {ps : List PeerPacket} {outIndex : Nat} (rng : Mt64) (hState : slot.state = .ready)
      (hNew : slot.outIndex < queue.length)
      (hPosted : Posted slot.localEnd.id slot.remoteEnd.id ps
        (chunksAt queue (packIndices rng queue.length slot.outIndex))) :
      SlotPosts listenId time actor queue slot
        { slot with outIndex := outIndex, clockHeartbeat := peerTimeoutHeartbeat } ps
  | heartbeat {ps : List PeerPacket} (rng : Mt64) (hState : slot.state = .ready)
      (hCursor : slot.outIndex = queue.length) (hClock : slot.clockHeartbeat ≤ 0)
      (hPosted : Posted slot.localEnd.id slot.remoteEnd.id ps
        (heartbeatChunk time actor :: chunksAt queue (trailIndices rng slot.outIndex).1)) :
      SlotPosts listenId time actor queue slot
        { slot with clockHeartbeat := peerTimeoutHeartbeat } ps

/-- Packets that carry chunks have the ids they were packed with. -/
theorem Carried.between {src dst : Int} {ps : List PeerPacket} {cs : List Chunk}
    (h : Carried src dst ps cs) : Between src dst ps := by
  intro p hp
  obtain ⟨_, hSealed, _⟩ := h.of_mem hp
  exact ⟨hSealed.sourceId, hSealed.destinationId⟩

/-- What goes out to a session request, in full: one session response with the
slot's address, from the listening slot's id to the client's, and the slot is ready
behind it. -/
theorem SlotPosts.answer {listenId time actor : Int} {queue : PeerQueue} {slot slot' : PeerSlot}
    {ps : List PeerPacket} (h : SlotPosts listenId time actor queue slot slot' ps)
    (hRequest : slot.state = .sessionRequest) :
    Carried listenId slot.remoteEnd.id ps [sessionResponseChunk time slot] := by
  cases h with
  | idle hIdle =>
    rcases hIdle with hEmpty | ⟨hReady, _⟩
    · rw [hRequest] at hEmpty
      cases hEmpty
    · rw [hRequest] at hReady
      cases hReady
  | response _ _ hCarried => exact hCarried
  | messages _ hReady =>
    rw [hRequest] at hReady
    cases hReady
  | heartbeat _ hReady =>
    rw [hRequest] at hReady
    cases hReady

/-- Every slot's packets go to its remote id, and an empty slot is sent nothing. -/
theorem SlotPosts.destinationId {listenId time actor : Int} {queue : PeerQueue}
    {slot slot' : PeerSlot} {ps : List PeerPacket}
    (h : SlotPosts listenId time actor queue slot slot' ps) :
    ∀ p ∈ ps, slot.state ≠ .empty ∧ p.destinationId = slot.remoteEnd.id := by
  intro p hp
  cases h with
  | idle => simp at hp
  | response hState _ hCarried => exact ⟨by rw [hState]; nofun, (hCarried.between p hp).2⟩
  | messages _ hState _ hPosted => exact ⟨by rw [hState]; nofun, (hPosted.1 p hp).2⟩
  | heartbeat _ hState _ _ hPosted => exact ⟨by rw [hState]; nofun, (hPosted.1 p hp).2⟩

/-- The chunk of a message has room for a header. -/
theorem length_of_mem_chunksAt {q : PeerQueue} {ks : List Nat} {c : Chunk} (h : c ∈ chunksAt q ks) :
    30 ≤ c.length := by
  obtain ⟨k, m, _, _, rfl⟩ := mem_chunksAt.mp h
  rw [length_chunk]
  omega

/-- There is something to pack where a message is new. -/
theorem packIndices_ne_nil {q : PeerQueue} {index : Nat} (hNew : index < q.length) (rng : Mt64) :
    chunksAt q (packIndices rng q.length index) ≠ [] := by
  have hFirst : q[index]? = some q[index] := List.getElem?_eq_getElem hNew
  refine List.ne_nil_of_mem (mem_chunksAt.mpr ⟨index, _, ?_, hFirst, rfl⟩)
  exact List.mem_append_left _ (List.mem_range'_1.mpr (by omega))

/-- The session response of a slot whose address could be read. -/
theorem sendSessionResponse_posts {listenId time : Int} {slot : PeerSlot} {out out' : TickOutput}
    (hAlloc : out.alloc = .reliable) (h : sendSessionResponse listenId time slot out = .ok out') :
    slot.localEnd.AddressFits ∧ ∃ ps, out'.packets = out.packets ++ ps ∧
      Carried listenId slot.remoteEnd.id ps [sessionResponseChunk time slot] := by
  have hAddress : slot.localEnd.AddressFits := by
    obtain ⟨address, hRead, _⟩ := bind_eq_ok.mp h
    obtain ⟨hSize, hInside⟩ := length_of_chunkData hRead
    rw [slot.localEnd.addressData.length_eq] at hInside
    exact ⟨by omega, by omega⟩
  obtain ⟨ps, hSend, hCarried⟩ := sendSessionResponse_carried hAddress listenId time hAlloc
  rw [hSend] at h
  refine ⟨hAddress, ps, ?_, hCarried⟩
  rw [← Except.ok.inj h]

/-- One slot, by its state; the size of the messages only decides where the packets
stop. A slot that is free sends nothing, one with a request is answered, and a ready
one sends its new messages or, once its clock has run out, a heartbeat. -/
theorem sendSlot_posts {listenId time actor : Int} {queue : PeerQueue} {slot slot' : PeerSlot}
    {out out' : TickOutput} (hCursor : slot.outIndex ≤ queue.length) (hAlloc : out.alloc = .reliable)
    (h : sendSlot listenId time actor queue slot out = .ok (slot', out')) :
    ∃ ps, out'.packets = out.packets ++ ps ∧ SlotPosts listenId time actor queue slot slot' ps := by
  unfold sendSlot at h
  split at h
  · next hState =>
    obtain ⟨rfl, rfl⟩ := Prod.mk.inj (Except.ok.inj h)
    exact ⟨[], (List.append_nil _).symm, .idle (Or.inl hState)⟩
  · next hState =>
    obtain ⟨out1, hSend, h⟩ := bind_eq_ok.mp h
    obtain ⟨rfl, rfl⟩ := Prod.mk.inj (Except.ok.inj h)
    obtain ⟨hAddress, ps, hPackets, hCarried⟩ := sendSessionResponse_posts hAlloc hSend
    exact ⟨ps, hPackets, .response hState hAddress hCarried⟩
  next hState =>
  split at h
  · next hNew =>
    obtain ⟨⟨s, out1⟩, hSend, h⟩ := bind_eq_ok.mp h
    obtain ⟨rfl, rfl⟩ := Prod.mk.inj (Except.ok.inj h)
    rw [queuePack_reliable hNew _ _ hAlloc] at hSend
    obtain ⟨⟨s1, packets, al⟩, hPack, hSend⟩ := bind_eq_ok.mp hSend
    obtain ⟨_, rfl⟩ := Prod.mk.inj (Except.ok.inj hSend)
    obtain ⟨ps, rfl, hPosted⟩ := peerPack_posted (packIndices_ne_nil hNew out.mt64)
      (fun c hc => length_of_mem_chunksAt hc) hPack
    exact ⟨ps, rfl, .messages out.mt64 hState hNew hPosted⟩
  next hNoNew =>
  split at h
  · next hClock =>
    obtain ⟨⟨started, out1⟩, hSend, h⟩ := bind_eq_ok.mp h
    obtain ⟨rfl, rfl⟩ := Prod.mk.inj (Except.ok.inj h)
    rw [sendHeartbeat_reliable hCursor _ _ _ _ hAlloc] at hSend
    obtain ⟨⟨s1, packets, al⟩, hPack, hSend⟩ := bind_eq_ok.mp hSend
    obtain ⟨rfl, rfl⟩ := Prod.mk.inj (Except.ok.inj hSend)
    -- the heartbeat is the first chunk, in front of the trail
    have hMin : ∀ c ∈ heartbeatChunk time actor :: chunksAt queue
        (trailIndices out.mt64 slot.outIndex).1, 30 ≤ c.length := by
      intro c hc
      rcases List.mem_cons.mp hc with rfl | hTrail
      · rw [heartbeatChunk, length_encode]
        omega
      · exact length_of_mem_chunksAt hTrail
    obtain ⟨ps, rfl, hPosted⟩ := peerPack_posted (List.cons_ne_nil _ _) hMin hPack
    exact ⟨ps, rfl, .heartbeat out.mt64 hState (by omega) hClock hPosted⟩
  · obtain ⟨rfl, rfl⟩ := Prod.mk.inj (Except.ok.inj h)
    exact ⟨[], (List.append_nil _).symm, .idle (Or.inr ⟨hState, by omega, by omega⟩)⟩

/-- The loop over the slots: the packets of one slot after those of another, each
slot described with its own packets. An error of one slot does not keep those behind
it from sending. -/
theorem sendSlots_posts {listenId time actor : Int} {queue : PeerQueue}
    {slots slots' : List PeerSlot} {out out' : TickOutput}
    (hCursor : ∀ slot ∈ slots, slot.outIndex ≤ queue.length) (hAlloc : out.alloc = .reliable)
    (h : sendSlots listenId time actor queue slots out = .ok (slots', out')) :
    ∃ sent : List (PeerSlot × List PeerPacket), slots' = sent.map Prod.fst ∧
      out'.packets = out.packets ++ (sent.map Prod.snd).flatten ∧
      List.Forall₂ (fun slot r => SlotPosts listenId time actor queue slot r.1 r.2) slots sent := by
  induction slots generalizing out out' slots' with
  | nil =>
    obtain ⟨rfl, rfl⟩ := Prod.mk.inj (Except.ok.inj h)
    exact ⟨[], rfl, (List.append_nil _).symm, .nil⟩
  | cons slot slots ih =>
    obtain ⟨⟨slot1, out1⟩, hFirst, h⟩ := bind_eq_ok.mp h
    obtain ⟨⟨slots1, out2⟩, hRest, h⟩ := bind_eq_ok.mp h
    obtain ⟨rfl, rfl⟩ := Prod.mk.inj (Except.ok.inj h)
    obtain ⟨hHead, hTail⟩ := List.forall_mem_cons.mp hCursor
    obtain ⟨ps, hPackets, hPosts⟩ := sendSlot_posts hHead hAlloc hFirst
    -- The slots behind it start with the packets that this one has left.
    obtain ⟨sent, rfl, hRestPackets, hAll⟩ :=
      ih hTail (sendSlot_alloc hHead hFirst hAlloc) hRest
    refine ⟨(slot1, ps) :: sent, rfl, ?_, .cons hPosts hAll⟩
    rw [hRestPackets, hPackets, List.map_cons, List.flatten_cons, List.append_assoc]

/-- **The packets of a host's tick**, slot after slot above the listening slot. Each
slot is described after its clocks and the merge, which come first, and the queue
that it sends from is the mutual queue that the tick leaves. -/
theorem peerTick_host_posts {peer peer' : Peer} {e : Int} {s : Status} {packets : List PeerPacket}
    (hMode : peer.mode = .host) (hAlloc : peer.alloc = .reliable) (hValid : ValidElapsed peer e)
    (hCursor : ∀ slot ∈ peer.slots, slot.outIndex ≤ peer.queue.length)
    (h : peerTick peer e = .ok (s, packets, peer')) :
    ∃ sent : List (PeerSlot × List PeerPacket), peer'.slots.tail = sent.map Prod.fst ∧
      packets = (sent.map Prod.snd).flatten ∧
      List.Forall₂ (fun slot r => SlotPosts peer.listenId peer'.time peer'.actor peer'.queue slot r.1 r.2)
        (peer.slots.tail.map fun slot => (slot.tickClock e).merged) sent := by
  rw [peerTick_host_eq hValid hMode, hostMerge_reliable (show (peer.tickClock e).alloc = _ from hAlloc),
    hostSend_eq, listenId_merged] at h
  obtain ⟨⟨out, peer1⟩, hSend, h⟩ := bind_eq_ok.mp h
  obtain ⟨⟨slots', out1⟩, hSlots, hSend⟩ := bind_eq_ok.mp hSend
  obtain ⟨rfl, rfl⟩ := Prod.mk.inj (Except.ok.inj hSend)
  obtain ⟨_, hPeer⟩ := Prod.mk.inj (Except.ok.inj h)
  obtain ⟨rfl, rfl⟩ := Prod.mk.inj hPeer
  obtain ⟨sent, rfl, hPackets, hAll⟩ := sendSlots_posts (by
    intro slot' hSlot'
    obtain ⟨slot, hSlot, hOut, _⟩ := exists_slot_of_mem_merged hSlot'
    rw [hOut]
    exact Nat.le_trans (hCursor slot hSlot) (length_le_merged peer e)) hAlloc hSlots
  -- the loop runs over all slots but the listening one
  have hTail : (peer.tickClock e).merged.slots.tail =
      peer.slots.tail.map fun slot => (slot.tickClock e).merged := by
    simp only [Peer.merged, tickClock_slots]
    cases peer.slots <;> simp
  rw [hTail] at hAll
  refine ⟨sent, ?_, hPackets, hAll⟩
  dsimp only
  rw [merged_slots_take]
  cases hSlots : peer.slots with
  | nil =>
    rw [hSlots] at hAll
    cases hAll
    rfl
  | cons first slots => rfl

-- ---------------------------------------------------------------------------
-- The client
-- ---------------------------------------------------------------------------

section Client

variable {q : PeerQueue} {index : Nat} {src dst : Int} {out out' : TickOutput}

/-- The first packets of a tick, from one call of `peer_pack`: no packet was there
before, so all have the ids of the call. -/
theorem queuePack_between {s : Status} (hFirst : out.packets = [])
    (h : queuePack q index src dst out = .ok (s, out')) : Between src dst out'.packets := by
  -- every early end leaves the list of packets empty
  have hNone {o : TickOutput} (hSame : o.packets = out.packets) : Between src dst o.packets := by
    rw [hSame, hFirst]
    exact between_nil
  unfold queuePack at h
  split at h
  · obtain ⟨_, rfl⟩ := Prod.mk.inj (Except.ok.inj h)
    exact hNone rfl
  split at h
  · obtain ⟨_, rfl⟩ := Prod.mk.inj (Except.ok.inj h)
    exact hNone rfl
  split at h
  · obtain ⟨_, rfl⟩ := Prod.mk.inj (Except.ok.inj h)
    exact hNone rfl
  obtain ⟨⟨messages, al1⟩, _, h⟩ := bind_eq_ok.mp h
  split at h
  · obtain ⟨_, rfl⟩ := Prod.mk.inj (Except.ok.inj h)
    exact hNone rfl
  obtain ⟨⟨result, chunks, rng, al2⟩, _, h⟩ := bind_eq_ok.mp h
  dsimp only at h
  split at h
  · obtain ⟨_, rfl⟩ := Prod.mk.inj (Except.ok.inj h)
    exact hNone rfl
  · obtain ⟨⟨s1, packets, al3⟩, hPack, h⟩ := bind_eq_ok.mp h
    obtain ⟨_, rfl⟩ := Prod.mk.inj (Except.ok.inj h)
    rw [hFirst] at hPack
    obtain ⟨ps, rfl, hps⟩ := peerPack_between (Or.inr rfl) hPack
    exact hps

/-- The same for a heartbeat, also where its chunks could not be allocated: then it
sends nothing, and a list without packets is between any two ids. -/
theorem sendHeartbeat_between {time actor : Int} {started : Bool} (hFirst : out.packets = [])
    (h : sendHeartbeat q index time actor src dst out = .ok (started, out')) :
    Between src dst out'.packets := by
  obtain ⟨⟨s0, chunks, al⟩, _, h⟩ := bind_eq_ok.mp h
  dsimp only at h
  split at h
  · obtain ⟨_, rfl⟩ := Prod.mk.inj (Except.ok.inj h)
    show Between src dst out.packets
    rw [hFirst]
    exact between_nil
  · obtain ⟨⟨s1, chunks1, rng, al1⟩, _, h⟩ := bind_eq_ok.mp h
    obtain ⟨⟨s3, packets, al3⟩, hPack, h⟩ := bind_eq_ok.mp h
    obtain ⟨_, rfl⟩ := Prod.mk.inj (Except.ok.inj h)
    rw [hFirst] at hPack
    obtain ⟨ps, rfl, hps⟩ := peerPack_between (Or.inr rfl) hPack
    exact hps

end Client

/-- A client has something to send from its slot: new messages, or a heartbeat. -/
def PeerSlot.Due (slot : PeerSlot) : Prop :=
  slot.outIndex < slot.queue.length ∨ slot.clockHeartbeat ≤ 0

instance (slot : PeerSlot) : Decidable slot.Due := inferInstanceAs (Decidable (_ ∨ _))

/-- **The packets of a client's tick** go from its first slot to the remote id
of that slot, if something is due there. -/
theorem peerTick_client_between {peer peer' : Peer} {e : Int} {s : Status} {ps : List PeerPacket}
    (hMode : peer.mode = .client) (h : peerTick peer e = .ok (s, ps, peer')) :
    ps = [] ∨ ∃ slot, peer.slots.head? = some slot ∧ ValidElapsed peer e ∧ (slot.tickClock e).Due ∧
      Between slot.localEnd.id slot.remoteEnd.id ps := by
  by_cases hValid : ValidElapsed peer e
  · rw [peerTick_client_eq hValid hMode] at h
    obtain ⟨⟨out, peer1⟩, hSend, h⟩ := bind_eq_ok.mp h
    obtain ⟨_, hPeer⟩ := Prod.mk.inj (Except.ok.inj h)
    obtain ⟨rfl, _⟩ := Prod.mk.inj hPeer
    unfold clientSend at hSend
    cases hSlots : peer.slots with
    | nil =>
      simp only [tickClock_slots, hSlots, List.map_nil] at hSend
      obtain ⟨rfl, _⟩ := Prod.mk.inj (Except.ok.inj hSend)
      exact Or.inl rfl
    | cons slot slots =>
      simp only [tickClock_slots, hSlots, List.map_cons, tickClock_localEnd, tickClock_remoteEnd] at hSend
      -- whatever is sent goes from the slot to its remote end
      split at hSend
      · next hNew =>
        obtain ⟨⟨s1, out1⟩, hPack, hSend⟩ := bind_eq_ok.mp hSend
        obtain ⟨rfl, _⟩ := Prod.mk.inj (Except.ok.inj hSend)
        have hIds : Between slot.localEnd.id slot.remoteEnd.id out1.packets :=
          queuePack_between rfl hPack
        exact Or.inr ⟨slot, rfl, hValid, Or.inl hNew, hIds⟩
      split at hSend
      · next hClock =>
        obtain ⟨⟨started, out1⟩, hPack, hSend⟩ := bind_eq_ok.mp hSend
        obtain ⟨rfl, _⟩ := Prod.mk.inj (Except.ok.inj hSend)
        exact Or.inr ⟨slot, rfl, hValid, Or.inr hClock, sendHeartbeat_between rfl hPack⟩
      · obtain ⟨rfl, _⟩ := Prod.mk.inj (Except.ok.inj hSend)
        exact Or.inl rfl
  · exact Or.inl (eq_of_peerTick_invalid hValid h).2.1

end PeerProtocol
