import PeerProtocol.Peer.Arrival
import PeerProtocol.Peer.Handshake
import PeerProtocol.World.Times

/-!
# peer — uplink integrity

What the host records under the actor id of a client should be what the client
has queued, at the indices at which it has queued it. This module says when it
is, over a network that loses, repeats and reorders packets.

New messages carry the index that they have in the client's own queue, and
their trail is from that queue, too. A heartbeat is different: its trail comes
from the mutual queue, with the indices there. The host stores whatever has
the actor id of the slot and a time of zero. An entry of the mutual queue with
a stamp of zero and the client's own actor id passes for a new message, at an
index where the client may have queued something else or nothing at all.

* `UplinkChunk` — the chunks in flight that cannot harm: each says what its
  sender has queued at its index, or is refused by every slot that it can
  reach. Both last, since clients keep what they have queued and slots keep
  what they are bound to;
* `HostHolds` — what a host holds, its clients have queued;
* `OwnTrail` — a heartbeat that repeats nothing else under the slot's actor id
  with a stamp of zero. This is a condition on the state before the tick;
* `UplinkSetting` and `UplinkMove` — the runs that this and other modules are
  about: each client has one slot and an id that no other has, messages fit a
  packet, and sizes are in range;
* `Uplink.step` and `uplink_of_reaches` — the step lemma, and the run lemma.

At the end there is a run in which a heartbeat makes the host record, under
the actor id of a client and at index 1, a message that the client queued at
index 0.
-/

namespace PeerProtocol

open Lib

-- ---------------------------------------------------------------------------
-- What the clients have queued
-- ---------------------------------------------------------------------------

/-- The client with the id has queued the data at the index. The index is that of
the client's own queue, which is the one that its messages are sent under. -/
def HasQueued (clients : List Peer) (id : Int) (k : Nat) (data : List UInt8) : Prop :=
  ∃ client ∈ clients, ∃ box, client.outbox = some box ∧ box.id = id ∧ box.data[k]? = some data

/-- What was queued stays queued, at its index and under its id. Clients come with
no way to take a message back. -/
def QueuedKept (clients clients' : List Peer) : Prop :=
  ∀ id k data, HasQueued clients id k data → HasQueued clients' id k data

/-- An action of one client: it queues at the end, or leaves its outbox. -/
theorem queuedKept_set {clients : List Peer} {c : Nat} {client client' : Peer} {a : PeerAction}
    (hClient : clients[c]? = some client) (hStep : OutboxStep a client.outbox client'.outbox) :
    QueuedKept clients (clients.set c client') := by
  rintro id k data ⟨other, hOther, box, hBox, hId, hData⟩
  obtain ⟨d, hd⟩ := List.mem_iff_getElem?.mp hOther
  by_cases hcd : c = d
  · subst hcd
    rw [hClient, Option.some.injEq] at hd
    subst hd
    obtain ⟨new, hNew, hSame, hPrefix⟩ := hStep.keeps hBox
    refine ⟨client', List.mem_set (List.getElem?_eq_some_iff.mp hClient).1 _, new, hNew,
      hSame.trans hId, getElem?_of_isPrefix hPrefix hData⟩
  · refine ⟨other, List.mem_of_getElem? (i := d) ?_, box, hBox, hId, hData⟩
    rw [List.getElem?_set_ne hcd, hd]

-- ---------------------------------------------------------------------------
-- What is in flight
-- ---------------------------------------------------------------------------

/-- No slot takes a message with the actor id at the index from the source at
the destination: the actor id is no slot's, or that of a slot that is bound to
another source, or has another id, or holds a message there. -/
def Refused (host : Peer) (src dst : Int) (k : Nat) (actor : Int) : Prop :=
  actor = 0 ∨ ∃ (a : Nat) (slot : PeerSlot), actor = a ∧ host.slots[a]? = some slot ∧
    slot.remoteEnd.id ≠ peerUndefined ∧
    (slot.remoteEnd.id = src → slot.localEnd.id = dst → (slot.queue[k]?).any (·.isReady) = true)

/-- A chunk that cannot harm. Heartbeats are not stored, and a message with a time
is refused by every host. A message without one is what its source has queued at its
index, or is refused by the slot it would come to. -/
inductive UplinkChunk (clients : List Peer) (host : Peer) (src dst : Int) : Chunk → Prop where
  | heartbeat (actor : Int) : UplinkChunk clients host src dst (heartbeatChunk 0 actor)
  | message {k : Nat} {m : PeerMessage} (hIndex : IsInt64 k) (hTime : IsInt64 m.time)
      (hSmall : m.Small)
      (hSafe : m.time = 0 → HasQueued clients src k m.data ∨
        (ActorFits m.actor ∧ Refused host src dst k m.actor)) :
      UplinkChunk clients host src dst (m.chunk k)

/-- A packet of such chunks, from a client with an id. -/
def UplinkPacket (clients : List Peer) (host : Peer) (p : PeerPacket) : Prop :=
  ∃ src dst cs, src ≠ peerUndefined ∧ Sealed src dst p cs ∧
    ∀ c ∈ cs, UplinkChunk clients host src dst c

/-- A slot that refuses a chunk keeps refusing it, whatever the host does. -/
theorem Refused.kept {host host' : Peer} {src dst actor : Int} {k : Nat}
    (h : Refused host src dst k actor) (hKept : SlotsKept host host') :
    Refused host' src dst k actor := by
  rcases h with hZero | ⟨a, slot, hActor, hSlot, hBound, hTaken⟩
  · exact Or.inl hZero
  · obtain ⟨slot', hSlot', hSlotKept⟩ := hKept a slot hSlot
    have hRemote := hSlotKept.remoteId hBound
    refine Or.inr ⟨a, slot', hActor, hSlot', by rw [hRemote]; exact hBound, fun hSrc hDst => ?_⟩
    rw [hRemote] at hSrc
    rw [hSlotKept.localId] at hDst
    exact any_isReady_of_keeps hSlotKept.ready (hTaken hSrc hDst)

/-- A packet that cannot harm never can. -/
theorem UplinkPacket.mono {clients clients' : List Peer} {host host' : Peer} {p : PeerPacket}
    (h : UplinkPacket clients host p) (hClients : QueuedKept clients clients')
    (hHost : SlotsKept host host') : UplinkPacket clients' host' p := by
  obtain ⟨src, dst, cs, hSrc, hSealed, hChunks⟩ := h
  refine ⟨src, dst, cs, hSrc, hSealed, fun c hc => ?_⟩
  cases hChunks c hc with
  | heartbeat actor => exact .heartbeat actor
  | message hIndex hTime hSmall hSafe =>
    refine .message hIndex hTime hSmall fun hZero => ?_
    rcases hSafe hZero with hQueued | ⟨hFits, hRefused⟩
    · exact Or.inl (hClients _ _ _ hQueued)
    · exact Or.inr ⟨hFits, hRefused.kept hHost⟩

-- ---------------------------------------------------------------------------
-- What the host takes
-- ---------------------------------------------------------------------------

/-- What is ready in a slot, the client that it is bound to has queued, at this
index. For a slot that is not bound there is nothing to say, since it holds nothing. -/
def HostHolds (clients : List Peer) (host : Peer) : Prop :=
  ∀ (j : Nat) (slot : PeerSlot), host.slots[j]? = some slot → ∀ (i : Nat) (m : PeerMessage),
    slot.queue[i]? = some m → m.isReady = true → HasQueued clients slot.remoteEnd.id i m.data

/-- **What a slot stores** from such a chunk, it may hold. `start` is the host
before the input, when the chunk was in flight. -/
theorem UplinkChunk.store {clients : List Peer} {start host : Peer} {src dst : Int} {c : Chunk}
    (hc : UplinkChunk clients start src dst c) (hKept : SlotsKept start host) {j : Nat}
    {slot : PeerSlot} (hj : 1 ≤ j) (hSlot : host.slots[j]? = some slot) (hActorId : slot.actor = j)
    (hSrc : slot.remoteEnd.id = src) (hDst : slot.localEnd.id = dst) {header : MessageHeader}
    (hHeader : readHeader c = .ok header) (hTime : header.time = 0)
    (hActor : (header.actor : Int) = slot.actor) (hApplication : header.mode ≠ peerMessageModeService)
    {data : List UInt8} (hData : chunkData c peerNMessageData header.dataSize = .ok data)
    {al al' : Allocator} {s : Status} {q : PeerQueue}
    (hInsert : queueInsert slot.queue header.index 0 slot.actor data al = .ok (s, q, al'))
    {i : Nat} {m : PeerMessage} (hm : q[i]? = some m) (hReady : m.isReady = true) :
    slot.queue[i]? = some m ∨ HasQueued clients src i m.data := by
  cases hc with
  | heartbeat actor =>
    -- a heartbeat is a service message and is not stored
    rw [heartbeatChunk, readHeader_encode (by decide) isInt64_peerUndefined isInt64_zero (by simp),
      Except.ok.injEq] at hHeader
    rw [← hHeader] at hApplication
    exact absurd rfl hApplication
  | @message k sent hIndex hSentTime hSmall hSafe =>
    rw [readHeader_message hIndex hSentTime hSmall, Except.ok.injEq] at hHeader
    subst hHeader
    dsimp only at hTime hActor hInsert hData
    obtain rfl : sent.data = data := by
      rw [PeerMessage.chunk, chunkData_encode, Except.ok.injEq] at hData
      exact hData
    -- either the entry was there before, or it is the one of this chunk
    rcases ready_of_queueInsert hInsert hm hReady with hOld | ⟨hAt, hFree, hSame⟩
    · exact Or.inl hOld
    obtain rfl : k = i := Int.ofNat.inj hAt
    refine Or.inr ?_
    rw [hSame]
    rcases hSafe hTime with hQueued | ⟨⟨hLo, hHi⟩, hRefused⟩
    · exact hQueued
    -- the actor id is that of the slot, so the slot would have refused the message
    exfalso
    have hSlotActor : sent.actor = j := by
      rw [hActorId, toU32] at hActor
      omega
    rcases hRefused with hZero | ⟨a, before, hBefore, hAtA, hBound, hTaken⟩
    · omega
    · obtain rfl : a = j := by omega
      obtain ⟨slot', hSlot', hSlotKept⟩ := hKept a before hAtA
      rw [hSlot, Option.some.injEq] at hSlot'
      subst hSlot'
      have hWas := hTaken ((hSlotKept.remoteId hBound).symm.trans hSrc)
        (hSlotKept.localId.symm.trans hDst)
      rw [any_isReady_of_keeps hSlotKept.ready hWas] at hFree
      cases hFree

/-- **An input of the host** keeps what it holds, and takes only what was queued. By
induction on the packets: each is harmless in the state that the ones before have
left, since slots keep what makes a chunk refused. -/
theorem HostHolds.input {clients : List Peer} {host host' : Peer} {packets : List PeerPacket}
    {s : Status} (h : HostHolds clients host) (hInv : SessionInv host)
    (hPackets : ∀ p ∈ packets, UplinkPacket clients host p)
    (hInput : peerInput host packets = .ok (s, host')) :
    HostHolds clients host' ∧ SlotsKept host host' := by
  have hSource : ∀ p ∈ packets, p.sourceId ≠ peerUndefined := by
    intro p hp
    obtain ⟨src, dst, cs, hSrc, hSealed, _⟩ := hPackets p hp
    rw [hSealed.sourceId]
    exact hSrc
  have hAll : SessionInv host' ∧ SlotsTaken host host' ∧ SlotsReady host host' ∧
      HostHolds clients host' := by
    -- the bindings and what is ready travel along: the packets were sealed for the host before
    refine peerInput_invariant (I := fun p => SessionInv p ∧ SlotsTaken host p ∧
      SlotsReady host p ∧ HostHolds clients p) ?_ ?_ ?_ hInput
      ⟨hInv, fun j slot hSlot => ⟨slot, hSlot, rfl, Or.inl ⟨rfl, rfl⟩⟩,
        fun j slot hSlot => ⟨slot, hSlot, keepsReady_refl _⟩, h⟩
    · rintro p packet s cs al _ ⟨hp, hTaken, hReady, hHolds⟩ hCs
      exact ⟨hp.unpack hCs, hTaken, hReady, hHolds⟩
    · rintro start p p' packet j s cs al c hPacket ⟨hStart, _⟩ hCs hMem
        ⟨hp, hTaken, hReady, hHolds⟩ hMatch hStep
      obtain ⟨hp', hTakes⟩ :=
        hp.chunk ((unpackPacket_keeps hCs).1 c hMem) (hSource packet hPacket) hMatch hStep
      refine ⟨hp', hTakes host hTaken, hReady.chunk hp.mode hStep, ?_⟩
      cases hStep.onHost hp.mode with
      | skip => exact hHolds
      | @store slot header data s1 q al1 hSlot hHeader hTime hActor hApplication hData hInsert =>
        refine slots_set hHolds fun i m hm hmReady => ?_
        obtain ⟨src, dst, cs', hSrc, hSealed, hChunks⟩ := hPackets packet hPacket
        -- the allocator is reliable, so what is unpacked is all that was packed
        have hc : UplinkChunk clients host src dst c := by
          refine hChunks c ?_
          rw [← hSealed.yields.packetChunks_eq, packetChunks, ← hStart.alloc, hCs]
          exact hMem
        obtain ⟨again, hAgain, hIds⟩ := hMatch
        rw [hSlot, Option.some.injEq] at hAgain
        subst hAgain
        have hBound := bound_of_matchesPacket (hSource packet hPacket) hIds
        simp only [PeerSlot.matchesPacket, Bool.and_eq_true, beq_iff_eq] at hIds
        rw [hSealed.sourceId, hSealed.destinationId] at hIds
        obtain ⟨hj, hActorId⟩ := (hp.session j slot hSlot).bound hBound
        rcases hc.store (hReady.kept (hTaken.moved hInv)) hj hSlot hActorId hIds.2 hIds.1 hHeader
          hTime hActor hApplication hData hInsert hm hmReady with hOld | hQueued
        · exact hHolds j slot hSlot i m hOld hmReady
        · exact hIds.2 ▸ hQueued
    · rintro p packet hPacket ⟨hp, hTaken, hReady, hHolds⟩ _ _
      obtain ⟨hp', hTakes⟩ := hp.assign (hSource packet hPacket)
      refine ⟨hp', hTakes host hTaken, hReady.assign packet, ?_⟩
      rcases assignSlot_cases p packet with hSame | ⟨j, _, slot, _, _, _, _, _, hSlot, hFree, hSet⟩
      · rw [hSame]
        exact hHolds
      · rw [hSet]
        refine slots_set hHolds fun i m hm _ => ?_
        -- a free slot holds nothing
        simp only [PeerSlot.isFree, Bool.and_eq_true, beq_iff_eq] at hFree
        rw [PeerSlot.assign, (hp.slots j slot hSlot).unbound hFree.1] at hm
        cases hm
  obtain ⟨_, hTaken, hReady, hHolds⟩ := hAll
  exact ⟨hHolds, hReady.kept (hTaken.moved hInv)⟩

-- ---------------------------------------------------------------------------
-- What a client sends
-- ---------------------------------------------------------------------------

/-- If the client's tick sends a heartbeat, then what it repeats with time zero
under the actor id of a slot that it reaches, that slot holds already, or it is
what the client has queued at that index itself. A tick whose elapsed time
`peer_tick` refuses sends nothing, and so may be any. -/
def OwnTrail (host client : Peer) (e : Int) : Prop :=
  ValidElapsed client e → ∀ own, client.slots[0]? = some own → own.queue.length ≤ own.outIndex →
    (own.tickClock e).clockHeartbeat ≤ 0 →
    ∀ k ∈ (trailIndices client.mt64 own.outIndex).1, ∀ m, client.queue[k]? = some m → m.time = 0 →
      ∀ (j : Nat) (slot : PeerSlot), host.slots[j]? = some slot → m.actor = j →
        slot.remoteEnd.id = own.localEnd.id → slot.localEnd.id = own.remoteEnd.id →
          (slot.queue[k]?).any (·.isReady) = true ∨ (own.queue[k]?).map (·.data) = some m.data

/-- A client whose messages fit packets, and whose gaps in the mutual queue are
filled with zeros. The gaps matter: a trail sends them like messages, with actor id
0 and time 0. -/
structure UplinkClient (client : Peer) : Prop extends ClientSendInv client where
  own : OwnQueue client
  gaps : ZeroGaps client.queue
  small : SmallOutbox client.outbox

theorem uplinkClient_peerInit (rng : Mt64) : UplinkClient (peerInit .client .reliable rng) where
  mode := rfl
  alloc := rfl
  received := by simp [peerInit]
  slot := by simp [peerInit]
  own := ownQueue_peerInit ..
  gaps := by simp [ZeroGaps, peerInit]
  small := by simp [SmallOutbox, Peer.outbox, peerInit]

/-- Every action of its application keeps it such a client. -/
theorem UplinkClient.act {log : List Entry} {client client' : Peer} {a : PeerAction} {s : Status}
    {ps : List PeerPacket} (h : UplinkClient client) (hFollows : Follows log client)
    (hQueues : a.QueuesSmall) (hAct : client.act a = .ok (s, ps, client')) :
    UplinkClient client' where
  toClientSendInv := h.toClientSendInv.step (Peer.step_eq_ok.mpr ⟨s, ps, hAct⟩)
  own := h.own.act hAct
  gaps := by
    by_cases hCall : a.isClientCall = true
    · rw [(clientCall_keeps hFollows hCall hAct).2]
      exact h.gaps
    · cases a with
      | input packets => exact zeroGaps_input h.gaps (Peer.act_cases hAct).2
      | _ => exact absurd rfl hCall
  small := (outbox_act h.mode h.alloc hAct).small hQueues h.small

/-- What a client that follows a host's log has at an index: an entry of the
log, which can be sent, or a zero message. -/
theorem UplinkClient.mutual_cases {host client : Peer} (h : UplinkClient client)
    (hHost : WireHost host) (hFollows : Follows host.log client) {k : Nat} {m : PeerMessage}
    (hm : client.queue[k]? = some m) :
    IsInt64 m.time ∧ ActorFits m.actor ∧ (m ∈ host.queue ∨ m.actor = 0) := by
  rcases h.gaps m (List.mem_of_getElem? hm) with hReady | rfl
  · have hEntry : host.log[k]? = some m.content := by
      refine hFollows.agrees.entry k _ ?_
      rw [holds_entries_iff, message_content hReady]
      exact hm
    have hWire := hHost.wire.entry _ (List.mem_of_getElem? hEntry)
    exact ⟨hWire.time, hWire.actor,
      Or.inl (List.mem_of_getElem? (hFollows.getElem?_host hHost.toHostInv hm hReady))⟩
  · exact ⟨isInt64_zero, ⟨Int.le_refl 0, by decide⟩, Or.inr rfl⟩

/-- The messages of the client's slot fit packets. -/
theorem UplinkClient.ownSmall {client : Peer} (h : UplinkClient client) {own : PeerSlot}
    (hOwn : client.slots[0]? = some own) : ∀ m ∈ own.queue, m.Small := by
  intro m hm
  have hBox : client.outbox = some own.outbox := outbox_of_slot hOwn
  exact h.small _ hBox _ (List.mem_map_of_mem hm)

/-- A tick of a client that has a slot, in terms of what it sends. -/
theorem UplinkClient.tick {client client' : Peer} (h : UplinkClient client) {own : PeerSlot}
    (hOwn : client.slots[0]? = some own) {e : Int} (hValid : ValidElapsed client e) {s : Status}
    {ps : List PeerPacket} (hTick : peerTick client e = .ok (s, ps, client')) :
    s = kitOk ∧ ∃ own', client'.slots[0]? = some own' ∧
      ClientSends client (own.tickClock e) own' ps := by
  obtain ⟨slots, hSlots⟩ : ∃ slots, client.slots = own :: slots := by
    rw [← List.head?_eq_getElem?] at hOwn
    exact List.head?_eq_some_iff.mp hOwn
  obtain ⟨own', packets, rng, hTick', hSends⟩ := peerTick_client h.mode hSlots h.alloc hValid
    (h.ownSmall hOwn) h.received (trailInside_of_peerTick h.mode hSlots h.alloc hValid hTick)
  rw [hTick, Except.ok.injEq, Prod.mk.injEq, Prod.mk.injEq] at hTick'
  obtain ⟨rfl, rfl, rfl⟩ := hTick'
  exact ⟨rfl, own', rfl, hSends⟩

section ClientChunks

variable {clients : List Peer} {host client client' : Peer} {own : PeerSlot}

/-- What is in the slot's queue was queued under the slot's id. -/
theorem UplinkClient.hasQueued (hMem : client ∈ clients) (hOwn : client.slots[0]? = some own) {k : Nat}
    {data : List UInt8} (hData : (own.queue[k]?).map (·.data) = some data) :
    HasQueued clients own.localEnd.id k data := by
  refine ⟨client, hMem, own.outbox, outbox_of_slot hOwn, rfl, ?_⟩
  rw [PeerSlot.outbox, List.getElem?_map, hData]

/-- A message of the client's own queue cannot harm. -/
theorem UplinkClient.ownChunk (h : UplinkClient client) (hMem : client ∈ clients)
    (hSingle : client.slots.length ≤ 1) (hOwn : client.slots[0]? = some own)
    (hSize : (own.queue.length : Int) ≤ int64Max) {k : Nat} {m : PeerMessage}
    (hm : own.queue[k]? = some m) :
    UplinkChunk clients host own.localEnd.id own.remoteEnd.id (m.chunk k) := by
  have hEntry := h.own.entry hSingle own (List.mem_of_getElem? hOwn) m (List.mem_of_getElem? hm)
  have hk : k < own.queue.length := (List.getElem?_eq_some_iff.mp hm).1
  refine .message ⟨by omega, by omega⟩ ?_ (h.ownSmall hOwn m (List.mem_of_getElem? hm)) fun _ =>
    Or.inl (UplinkClient.hasQueued hMem hOwn (by rw [hm]; rfl))
  rw [hEntry.time]
  exact isInt64_zero

/-- A message of the mutual queue, which a heartbeat repeats: the host refuses
it, or the client has queued the same at its index. -/
theorem UplinkClient.trailChunk (h : UplinkClient client) (hMem : client ∈ clients)
    (hHost : WireHost host) (hOrigins : ∀ m ∈ host.queue, HasOrigin host m.actor)
    (hFollows : Follows host.log client) (hOwn : client.slots[0]? = some own)
    (hSize : (own.queue.length : Int) ≤ int64Max) {e : Int} (hTrail : OwnTrail host client e)
    (hValid : ValidElapsed client e) (hNone : own.queue.length ≤ own.outIndex) (hClock : (own.tickClock e).clockHeartbeat ≤ 0) {k : Nat}
    (hk : k ∈ (trailIndices client.mt64 own.outIndex).1) {m : PeerMessage}
    (hm : client.queue[k]? = some m) :
    UplinkChunk clients host own.localEnd.id own.remoteEnd.id (m.chunk k) := by
  obtain ⟨hTime, hActor, hFrom⟩ := h.mutual_cases hHost hFollows hm
  have hkOwn : k < own.queue.length :=
    Nat.lt_of_lt_of_le (mem_trailIndices hk).1 (h.slot own (List.mem_of_getElem? hOwn)).1
  refine .message ⟨by omega, by omega⟩ hTime (h.received m (List.mem_of_getElem? hm)) fun hZero => ?_
  have hOrigin : HasOrigin host m.actor := hFrom.elim (hOrigins m) Or.inl
  rcases hOrigin with hHostActor | ⟨a, slot, hSlotActor, hSlot, hBound⟩
  · exact Or.inr ⟨hActor, Or.inl hHostActor⟩
  -- only the slot that the client reaches could take it
  by_cases hReaches : slot.remoteEnd.id = own.localEnd.id ∧ slot.localEnd.id = own.remoteEnd.id
  · rcases hTrail hValid own hOwn hNone hClock k hk m hm hZero a slot hSlot hSlotActor hReaches.1
      hReaches.2 with hHeld | hSame
    · exact Or.inr ⟨hActor, Or.inr ⟨a, slot, hSlotActor, hSlot, hBound, fun _ _ => hHeld⟩⟩
    · exact Or.inl (UplinkClient.hasQueued hMem hOwn hSame)
  · exact Or.inr ⟨hActor, Or.inr ⟨a, slot, hSlotActor, hSlot, hBound,
      fun hSrc hDst => absurd ⟨hSrc, hDst⟩ hReaches⟩⟩

/-- **What leaves a client** in a tick cannot harm, if its heartbeats do not: new
messages and their trail are from its own queue. -/
theorem UplinkClient.packets (h : UplinkClient client) (hMem : client ∈ clients) (hHost : WireHost host)
    (hOrigins : ∀ m ∈ host.queue, HasOrigin host m.actor) (hFollows : Follows host.log client)
    (hSingle : client.slots.length ≤ 1)
    (hDefined : ∀ own ∈ client.slots, own.localEnd.id ≠ peerUndefined)
    (hSize : ∀ own ∈ client.slots, (own.queue.length : Int) ≤ int64Max) {e : Int}
    (hTrail : OwnTrail host client e) {s : Status} {ps : List PeerPacket}
    (hTick : peerTick client e = .ok (s, ps, client')) : ∀ p ∈ ps, UplinkPacket clients host p := by
  rcases peerTick_client_between h.mode hTick with rfl | ⟨own, hHead, hValid, _, _⟩
  · intro p hp
    cases hp
  obtain ⟨slots, hSlots⟩ : ∃ slots, client.slots = own :: slots := List.head?_eq_some_iff.mp hHead
  have hOwn : client.slots[0]? = some own := by
    rw [hSlots]
    rfl
  have hOwnMem : own ∈ client.slots := List.mem_of_getElem? hOwn
  obtain ⟨_, _, _, hSends⟩ := h.tick hOwn hValid hTick
  -- the chunks go from the client's id to its remote id
  have hCarries {cs : List Chunk} (hCarried : Carried own.localEnd.id own.remoteEnd.id ps cs)
      (hcs : ∀ c ∈ cs, UplinkChunk clients host own.localEnd.id own.remoteEnd.id c) :
      ∀ p ∈ ps, UplinkPacket clients host p := by
    intro p hp
    obtain ⟨some, hSealed, hSub⟩ := hCarried.of_mem hp
    exact ⟨_, _, some, hDefined own hOwnMem, hSealed, fun c hc => hcs c (hSub c hc)⟩
  cases hSends with
  | idle =>
    intro p hp
    cases hp
  | messages rng _ hCarried =>
    rw [tickClock_localEnd, tickClock_remoteEnd, tickClock_queue, tickClock_outIndex] at hCarried
    refine hCarries hCarried fun c hc => ?_
    obtain ⟨k, m, _, hm, rfl⟩ := mem_chunksAt.mp hc
    exact h.ownChunk hMem hSingle hOwn (hSize own hOwnMem) hm
  | heartbeat _ hNone hClock _ _ =>
    rw [tickClock_queue, tickClock_outIndex] at hNone
    refine hCarries (peerTick_heartbeat h.mode hSlots h.alloc hValid h.received hNone hClock hTick)
      fun c hc => ?_
    -- behind the heartbeat comes the trail, of messages from the mutual queue
    rcases List.mem_cons.mp hc with rfl | hTrailChunk
    · exact .heartbeat _
    · obtain ⟨k, m, hk, hm, rfl⟩ := mem_chunksAt.mp hTrailChunk
      exact h.trailChunk hMem hHost hOrigins hFollows hOwn (hSize own hOwnMem) hTrail hValid hNone hClock
        hk hm

end ClientChunks

-- ---------------------------------------------------------------------------
-- The setting
-- ---------------------------------------------------------------------------

/-- The ids of the clients. -/
def World.clientIds (w : World) : List Int :=
  w.clients.filterMap fun client => client.outbox.map (·.id)

/-- Each client has one slot, with an id of its own, and the queues have sizes that
`ptrdiff_t` has. None of this is checked by the code. It is how clients are set up,
and what an index can express. -/
structure UplinkSetting (w : World) : Prop where
  single : ∀ client ∈ w.clients, client.slots.length ≤ 1
  ids : w.clientIds.Nodup
  defined : peerUndefined ∉ w.clientIds
  hostSize : (w.host.queue.length : Int) ≤ int64Max
  clientSize : ∀ client ∈ w.clients, ∀ own ∈ client.slots, (own.queue.length : Int) ≤ int64Max

instance (w : World) : Decidable (UplinkSetting w) :=
  decidable_of_iff ((∀ client ∈ w.clients, client.slots.length ≤ 1) ∧ w.clientIds.Nodup ∧
      peerUndefined ∉ w.clientIds ∧ (w.host.queue.length : Int) ≤ int64Max ∧
      ∀ client ∈ w.clients, ∀ own ∈ client.slots, (own.queue.length : Int) ≤ int64Max)
    ⟨fun h => ⟨h.1, h.2.1, h.2.2.1, h.2.2.2.1, h.2.2.2.2⟩,
      fun h => ⟨h.single, h.ids, h.defined, h.hostSize, h.clientSize⟩⟩

/-- The host is given packets of the clients and the clients packets of the
host, any of them, any number of times, in any order; messages fit packets. -/
def UplinkMove (_ : World) (a : WorldAction) (w' : World) : Prop :=
  UplinkSetting w' ∧
    match a with
    | .host a => a.isHostCall = true ∧ a.QueuesSmall
    | .client _ a => a.isClientCall = true ∧ a.QueuesSmall
    | .toHost _ => True
    | .toClient _ _ => True

instance (w : World) (a : WorldAction) (w' : World) : Decidable (UplinkMove w a w') := by
  unfold UplinkMove
  cases a <;> infer_instance

/-- If the move is a tick of a client, its heartbeat cannot harm. Other moves send
nothing that was not queued by the sender, so nothing is asked of them. -/
def OwnHeartbeat (w : World) (a : WorldAction) : Prop :=
  ∀ c e client, a = .client c (.tick e) → w.clients[c]? = some client → OwnTrail w.host client e

/-- A client that has an outbox has an id. -/
theorem mem_clientIds {w : World} {client : Peer} (hMem : client ∈ w.clients) {box : Outbox}
    (hBox : client.outbox = some box) : box.id ∈ w.clientIds :=
  List.mem_filterMap.mpr ⟨client, hMem, by rw [hBox]; rfl⟩

/-- The id tells which client it is. -/
theorem UplinkSetting.client_unique {w : World} (h : UplinkSetting w) {client other : Peer}
    (hClient : client ∈ w.clients) (hOther : other ∈ w.clients) {box box' : Outbox}
    (hBox : client.outbox = some box) (hBox' : other.outbox = some box') (hId : box.id = box'.id) :
    client = other := by
  refine eq_of_nodup_filterMap h.ids hClient hOther (k := box.id) ?_ ?_
  · rw [hBox]
    rfl
  · rw [hBox', hId]
    rfl

-- ---------------------------------------------------------------------------
-- The invariant
-- ---------------------------------------------------------------------------

/-- Nothing in flight can harm, and the host holds nothing that was not queued. The
other fields are what the two rest on: who is who, and what clients send. -/
structure Uplink (w : World) : Prop extends Agreement w where
  setting : UplinkSetting w
  session : SessionInv w.host
  origins : ∀ m ∈ w.host.queue, HasOrigin w.host m.actor
  client : ∀ client ∈ w.clients, UplinkClient client
  inFlight : ∀ p ∈ w.clientSent, UplinkPacket w.clients w.host p
  holds : HostHolds w.clients w.host

/-- At the beginning nothing is queued, sent or held: the peers have no slots, and
no packet is on its way. -/
theorem uplink_of_initialized {w : World} (h : ReliablyInitialized w) : Uplink w := by
  have hAgreement := agreement_of_initialized h
  obtain ⟨rng, clients, rfl, hClients⟩ := h
  -- no client has a slot yet
  have hNone : ∀ client ∈ clients, client.outbox = none := by
    intro client hClient
    obtain ⟨r, rfl⟩ := hClients client hClient
    rfl
  have hIds : (World.start (peerInit .host .reliable rng) clients).clientIds = [] := by
    rw [World.clientIds, List.filterMap_eq_nil_iff]
    intro client hClient
    rw [hNone client hClient]
    rfl
  refine ⟨hAgreement, ⟨?_, ?_, ?_, ?_, ?_⟩, sessionInv_peerInit rng, ?_, ?_, ?_, ?_⟩
  · intro client hClient
    obtain ⟨r, rfl⟩ := hClients client hClient
    exact Nat.zero_le _
  · rw [hIds]
    exact List.nodup_nil
  · rw [hIds]
    simp
  · simp [World.start, peerInit, int64Max]
  · intro client hClient own hOwn
    obtain ⟨r, rfl⟩ := hClients client hClient
    cases hOwn
  · simp [World.start, peerInit]
  · intro client hClient
    obtain ⟨r, rfl⟩ := hClients client hClient
    exact uplinkClient_peerInit r
  · simp [World.start]
  · simp [HostHolds, World.start, peerInit]

/-- The packets in flight come from sources with an id. -/
theorem Uplink.source {w : World} (h : Uplink w) (positions : List Nat) :
    ∀ p ∈ delivered w.clientSent positions, p.sourceId ≠ peerUndefined := by
  intro p hp
  obtain ⟨src, dst, cs, hSrc, hSealed, _⟩ := h.inFlight p (mem_of_mem_delivered hp)
  rw [hSealed.sourceId]
  exact hSrc

/-- Such packets are among those that agreement allows. -/
theorem Uplink.agreementMove {w w' : World} {a : WorldAction} (h : Uplink w)
    (hMove : UplinkMove w a w') : AgreementMove w a w' := by
  obtain ⟨hSetting, hMove⟩ := hMove
  cases a with
  | host a => exact ⟨hMove.2, hSetting.hostSize, Or.inl (isHostStep_of_isHostCall hMove.1)⟩
  | client c a => exact hMove.1
  | toHost positions => exact ⟨trivial, hSetting.hostSize, Or.inl (h.source positions)⟩
  | toClient c positions => trivial

/-- A call of the host stores nothing in a slot: its tick takes messages out of
slots into the mutual queue by moving a cursor, and leaves the slots' queues as they
are. -/
theorem Uplink.hostCall {w : World} (h : Uplink w) {a : PeerAction} {s : Status}
    {ps : List PeerPacket} {host : Peer} (hCall : a.isHostCall = true)
    (hAct : w.host.act a = .ok (s, ps, host))
    (hAgreement : Agreement { w with host := host, hostSent := w.hostSent ++ ps })
    (hSetting : UplinkSetting { w with host := host, hostSent := w.hostSent ++ ps }) :
    Uplink { w with host := host, hostSent := w.hostSent ++ ps } where
  toAgreement := hAgreement
  setting := hSetting
  session := (h.session.act (isHostStep_of_isHostCall hCall) hAct).1
  origins := h.session.origins (isHostStep_of_isHostCall hCall) h.origins hAct
  client := h.client
  inFlight := fun p hp => (h.inFlight p hp).mono (fun _ _ _ => id) (h.session.kept_call hCall hAct)
  holds := by
    intro j slot' hSlot' i m hm hReady
    -- A call of the host opens empty slots, and keeps the queue and the remote end of the
    -- others.
    rcases slot_of_hostCall h.session.mode h.session.alloc hCall hAct hSlot' with
      ⟨_, hNil⟩ | ⟨slot, hSlot, hQueue, hRemote⟩
    · rw [hNil] at hm
      cases hm
    · rw [hQueue] at hm
      rw [hRemote]
      exact h.holds j slot hSlot i m hm hReady

/-- The input of packets in flight, none of which can harm. -/
theorem Uplink.hostInput {w : World} (h : Uplink w) {positions : List Nat} {s : Status} {host : Peer}
    (hInput : peerInput w.host (delivered w.clientSent positions) = .ok (s, host))
    (hAgreement : Agreement { w with host := host })
    (hSetting : UplinkSetting { w with host := host }) : Uplink { w with host := host } := by
  obtain ⟨hHolds, hKept⟩ := h.holds.input h.session
    (fun p hp => h.inFlight p (mem_of_mem_delivered hp)) hInput
  have hAct := Peer.act_input hInput
  exact ⟨hAgreement, hSetting, (h.session.input (h.source positions) hInput).1,
    h.session.origins (a := .input _) (h.source positions) h.origins hAct, h.client,
    fun p hp => (h.inFlight p hp).mono (fun _ _ _ => id) hKept, hHolds⟩

/-- An action of a client, or its input. Its outbox keeps what was queued at each
index, so a message that a slot holds is still the one that its client has there. -/
theorem Uplink.clientAct {w : World} (h : Uplink w) {c : Nat} {client client' : Peer} {a : PeerAction}
    {s : Status} {ps sent : List PeerPacket} (hClient : w.clients[c]? = some client)
    (hQueues : a.QueuesSmall) (hAct : client.act a = .ok (s, ps, client'))
    (hSent : ∀ p ∈ sent, UplinkPacket w.clients w.host p)
    (hAgreement : Agreement { w with clients := w.clients.set c client', clientSent := sent })
    (hSetting : UplinkSetting { w with clients := w.clients.set c client', clientSent := sent }) :
    Uplink { w with clients := w.clients.set c client', clientSent := sent } := by
  have hMem := List.mem_of_getElem? hClient
  have hOld := h.client client hMem
  have hKept := queuedKept_set hClient (outbox_act hOld.mode hOld.alloc hAct)
  refine ⟨hAgreement, hSetting, h.session, h.origins, fun other hOther => ?_,
    fun p hp => (hSent p hp).mono hKept (slotsKept_refl _),
    fun j slot hSlot i m hm hReady => hKept _ _ _ (h.holds j slot hSlot i m hm hReady)⟩
  rcases List.mem_or_eq_of_mem_set hOther with hBefore | rfl
  · exact h.client other hBefore
  · exact hOld.act (h.clients client hMem) hQueues hAct

/-- The one slot of a client has an id. -/
theorem UplinkSetting.ownId {w : World} (h : UplinkSetting w) {client : Peer} (hMem : client ∈ w.clients) :
    ∀ own ∈ client.slots, own.localEnd.id ≠ peerUndefined := by
  intro own hOwn hNone
  have hSingle := h.single client hMem
  obtain ⟨i, hi⟩ := List.mem_iff_getElem?.mp hOwn
  obtain rfl : i = 0 := by
    have := (List.getElem?_eq_some_iff.mp hi).1
    omega
  have hBox : client.outbox = some own.outbox := outbox_of_slot hi
  exact h.defined (hNone ▸ mem_clientIds hMem hBox)

/-- **Step lemma**, with a case for each kind of move. A move of a client may make
more chunks harmless and none less, and a move of the host as well. -/
theorem Uplink.step {w w' : World} {a : WorldAction} (h : Uplink w) (hStep : w.step a = .ok w')
    (hMove : UplinkMove w a w') (hOwn : OwnHeartbeat w a) : Uplink w' := by
  have hAgreement := h.toAgreement.step hStep (h.agreementMove hMove)
  obtain ⟨hSetting, hMove⟩ := hMove
  cases worldStep_of_step hStep with
  | host hAct => exact h.hostCall hMove.1 hAct hAgreement hSetting
  | @client c a client client' s ps hClient hAct =>
    have hMem := List.mem_of_getElem? hClient
    refine h.clientAct hClient hMove.2 hAct (fun p hp => ?_) hAgreement hSetting
    rcases List.mem_append.mp hp with hOld | hNew
    · exact h.inFlight p hOld
    -- only a tick sends
    cases a with
    | tick e =>
      exact (h.client client hMem).packets hMem h.host h.origins (h.clients client hMem)
        (h.setting.single client hMem) (h.setting.ownId hMem) (h.setting.clientSize client hMem)
        (hOwn c e client rfl hClient) hAct p hNew
    | _ =>
      obtain ⟨rfl, _⟩ := Peer.act_cases hAct
      cases hNew
  | toHost hInput => exact h.hostInput hInput hAgreement hSetting
  | toClient hClient hInput =>
    exact h.clientAct (a := .input _) hClient trivial (Peer.act_input hInput) h.inFlight hAgreement
      hSetting

-- ---------------------------------------------------------------------------
-- Runs
-- ---------------------------------------------------------------------------

/-- What a host holds in a slot that a client is in session with, the client
has queued, each message at its index. -/
def UplinkIntegrity (w : World) : Prop :=
  ∀ (j : Nat) (slot : PeerSlot) (client : Peer) (own : PeerSlot), 1 ≤ j → w.host.slots[j]? = some slot →
    client ∈ w.clients → client.slots[0]? = some own → slot.remoteEnd.id = own.localEnd.id →
    own.remoteEnd.id = slot.localEnd.id → ∀ (i : Nat) (m : PeerMessage), slot.queue[i]? = some m →
      m.isReady = true → ∃ n, own.queue[i]? = some n ∧ n.data = m.data

/-- The invariant, in terms of the queues of a client and of its slot. -/
theorem Uplink.integrity {w : World} (h : Uplink w) : UplinkIntegrity w := by
  intro j slot client own _ hSlot hMem hOwn hBound _ i m hm hReady
  obtain ⟨other, hOther, box, hBox, hId, hData⟩ := h.holds j slot hSlot i m hm hReady
  have hOwnBox : client.outbox = some own.outbox := outbox_of_slot hOwn
  obtain rfl : client = other :=
    h.setting.client_unique hMem hOther hOwnBox hBox (hBound.symm.trans hId.symm)
  rw [hOwnBox, Option.some.injEq] at hBox
  subst hBox
  rw [PeerSlot.outbox, List.getElem?_map] at hData
  obtain ⟨n, hn, hSame⟩ := Option.map_eq_some_iff.mp hData
  exact ⟨n, hn, hSame⟩

/-- **Uplink integrity**, in every run whose heartbeats repeat nothing but what
the host holds or the client has queued there. -/
theorem uplink_of_reaches {w w' : World} (hStart : ReliablyInitialized w)
    (hReach : Reaches World.step (fun w a w' => UplinkMove w a w' ∧ OwnHeartbeat w a) w w') :
    UplinkIntegrity w' := by
  have h : Uplink w' := hReach.invariant
    (fun _ _ _ hInv hOk hGuard => hInv.step hOk hGuard.1 hGuard.2) (uplink_of_initialized hStart)
  exact h.integrity

/-- A session, a message of the host, and a message of the client that the host
merges and sends back, all at time zero; then a second one. -/
def sessionRun : List WorldAction :=
  [.host (.openSlots (some [1, 2])),
   .host (.setAddress 1 oneByte (byteAddress 2)),
   .client 0 (.openSlots (some [3])), .client 0 (.connect 1), .client 0 (.tick 0), .toHost [0],
   .host (.tick 0), .toClient 0 [0], .client 0 (.resolve 0 2), .host (.queue (some [72])),
   .client 0 (.queue (some [97])), .client 0 (.tick 0), .toHost [1], .host (.tick 0), .toClient 0 [1],
   .client 0 (.queue (some [98])), .client 0 (.tick 0)]

/-- A test for runs in which no tick of a client repeats anything but its own
messages. -/
def isUplinkTrace (w : World) (a : WorldAction) (w' : World) : Bool :=
  decide (UplinkMove w a w') &&
    match a with
    | .client c (.tick _) => (w.clients[c]?).all fun client => (client.slots[0]?).all fun own =>
        decide (own.outIndex < own.queue.length ∨ own.outIndex = 0)
    | _ => true

/-- It accepts only moves that the theorem is about. -/
theorem uplinkMove_of_isUplinkTrace (w : World) (a : WorldAction) (w' : World)
    (h : isUplinkTrace w a w' = true) : UplinkMove w a w' ∧ OwnHeartbeat w a := by
  obtain ⟨hMove, hTicks⟩ := Bool.and_eq_true_iff.mp h
  refine ⟨of_decide_eq_true hMove, ?_⟩
  rintro c e client rfl hClient _ own hOwn hNone _ k hk
  dsimp only at hTicks
  rw [hClient, Option.all_some, hOwn, Option.all_some, decide_eq_true_eq] at hTicks
  have := (mem_trailIndices hk).1
  omega

/-- The second message arrives, and the slot has both. -/
theorem uplink_of_reaches_session : ∃ w, Reaches World.step
    (fun w a w' => UplinkMove w a w' ∧ OwnHeartbeat w a) pairStart w ∧
      w.host.slots.map (fun slot => slot.queue.map (·.data)) = [[], [[97], [98]]] ∧
      UplinkIntegrity w := by
  obtain ⟨w, hReach, hTest⟩ : ∃ w, Reaches World.step
      (fun w a w' => UplinkMove w a w' ∧ OwnHeartbeat w a) pairStart w ∧
        decide (w.host.slots.map (fun slot => slot.queue.map (·.data)) = [[], [[97], [98]]]) = true :=
    exists_reaches_of_runGuarded isUplinkTrace uplinkMove_of_isUplinkTrace
      (sessionRun ++ [.toHost [2]]) _ (fun w : World => decide
        (w.host.slots.map (fun slot => slot.queue.map (·.data)) = [[], [[97], [98]]]))
      (by decide +kernel)
  exact ⟨w, hReach, of_decide_eq_true hTest, uplink_of_reaches reliablyInitialized_pairStart hReach⟩

/-- The host holds something else at index 1 than the client has queued there. -/
def isSecondForeign (w : World) : Bool :=
  (w.host.slots[1]?).any fun slot => (w.clients[0]?).any fun client =>
    (client.slots[0]?).any fun own => (slot.queue[1]?).any fun m =>
      decide (slot.remoteEnd.id = own.localEnd.id ∧ own.remoteEnd.id = slot.localEnd.id ∧
        m.isReady = true ∧ (own.queue[1]?).map (·.data) ≠ some m.data)

/-- It is lost, and a heartbeat repeats the first one, which is at its index in
the mutual queue: the host records the first message twice. -/
theorem not_uplink_of_reaches : ¬ ∀ w w' : World, ReliablyInitialized w →
    Reaches World.step UplinkMove w w' → UplinkIntegrity w' := by
  intro hAll
  obtain ⟨w, hReach, hTest⟩ : ∃ w, Reaches World.step UplinkMove pairStart w ∧
      isSecondForeign w = true :=
    exists_reaches_of_runGuarded (fun w a w' => decide (UplinkMove w a w'))
      (fun _ _ _ h => of_decide_eq_true h)
      (sessionRun ++ [.client 0 (.tick peerTimeoutHeartbeat), .toHost [3]]) _ isSecondForeign
      (by decide +kernel)
  obtain ⟨slot, hSlot, hTest⟩ := (Option.any_eq_true _ _).mp hTest
  obtain ⟨client, hClient, hTest⟩ := (Option.any_eq_true _ _).mp hTest
  obtain ⟨own, hOwn, hTest⟩ := (Option.any_eq_true _ _).mp hTest
  obtain ⟨m, hm, hTest⟩ := (Option.any_eq_true _ _).mp hTest
  obtain ⟨hBound, hConnected, hReady, hForeign⟩ := of_decide_eq_true hTest
  obtain ⟨n, hn, hSame⟩ := hAll _ _ reliablyInitialized_pairStart hReach 1 slot client own (by decide)
    hSlot (List.mem_of_getElem? hClient) hOwn hBound hConnected 1 m hm hReady
  rw [hn, Option.map_some, hSame] at hForeign
  exact hForeign rfl

end PeerProtocol
