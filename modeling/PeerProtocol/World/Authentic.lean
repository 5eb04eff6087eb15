import PeerProtocol.World.Broadcast

/-!
# peer — who wrote what

The host gives each slot an actor id and accepts, from the client that the
slot is bound to, messages of this id only. A client learns of its id in the
session response. What it sends before is under none, and what its heartbeats
repeat are entries of its mutual queue, which are other peers' for the most
part (`World/Uplink.lean` says what this does to the order). So there are
packets under way with messages that their sender did not write, under ids
that are not its own.

The result of this module is that none of them is ever recorded under the name
of somebody who did not write it. Whatever the heartbeats repeat, every entry
of the mutual queue was queued by the client of its actor id, or by the host's
application under the host's; and so was every ready entry of a client's.

* `ClientPacket` — what leaves a client in a tick: heartbeats, messages of its
  own queue, and entries of the mutual queue;
* `AuthenticChunk` — the invariant of a chunk in flight, in terms of its
  source: the client with this id has written the message, or its actor id is
  lent to another client (`NotItsOwn`). The second is stable since a slot that
  is bound stays bound, and with it a chunk is refused by every slot that the
  source has;
* `SlotsWritten` and `EntryWritten` — the same of what the host has stored,
  and of what it has merged;
* `Authentic.step` and `authentic_of_reaches` — the step lemma, and the run
  lemma.

The clients have one slot each and different ids, no request for memory is
refused, and messages fit a packet; the packets that the host is given are
those that the clients have sent. `Pool/Speakers.lean` has no such
assumptions, and speaks of addresses instead of clients.
-/

namespace PeerProtocol

open Lib

-- ---------------------------------------------------------------------------
-- What leaves a client
-- ---------------------------------------------------------------------------

/-- The packets of a client: heartbeats, messages of its own queue, and messages
of the mutual queue behind the cursor of its own. -/
def ClientPacket (client : Peer) (own : PeerSlot) (p : PeerPacket) : Prop :=
  ∃ cs, Sealed own.localEnd.id own.remoteEnd.id p cs ∧ ∀ c ∈ cs,
    c = heartbeatChunk 0 client.actor ∨
    (∃ (k : Nat) (m : PeerMessage), own.queue[k]? = some m ∧ c = m.chunk k) ∨
    (∃ (k : Nat) (m : PeerMessage), k < own.outIndex ∧ client.queue[k]? = some m ∧ c = m.chunk k)

/-- **What leaves a client in a tick** are such packets, whichever index the trail
of a heartbeat is taken from. -/
theorem UplinkClient.clientPackets {client client' : Peer} (h : UplinkClient client) {e : Int}
    {s : Status} {ps : List PeerPacket} (hTick : peerTick client e = .ok (s, ps, client')) :
    ∀ p ∈ ps, ∃ own, client.slots[0]? = some own ∧ ClientPacket client own p := by
  intro p hp
  rcases peerTick_client_between h.mode hTick with rfl | ⟨own, hHead, hValid, _, _⟩
  · cases hp
  obtain ⟨slots, hSlots⟩ : ∃ slots, client.slots = own :: slots := List.head?_eq_some_iff.mp hHead
  have hOwn : client.slots[0]? = some own := by
    rw [hSlots]
    rfl
  refine ⟨own, hOwn, ?_⟩
  obtain ⟨_, _, _, hSends⟩ := h.tick hOwn hValid hTick
  cases hSends with
  | idle => cases hp
  | messages rng _ hCarried =>
    rw [tickClock_localEnd, tickClock_remoteEnd, tickClock_queue, tickClock_outIndex] at hCarried
    obtain ⟨cs, hSealed, hSub⟩ := hCarried.of_mem hp
    refine ⟨cs, hSealed, fun c hc => Or.inr (Or.inl ?_)⟩
    obtain ⟨k, m, _, hm, rfl⟩ := mem_chunksAt.mp (hSub c hc)
    exact ⟨k, m, hm, rfl⟩
  | heartbeat _ hNone hClock _ _ =>
    rw [tickClock_queue, tickClock_outIndex] at hNone
    obtain ⟨cs, hSealed, hSub⟩ := (peerTick_heartbeat h.mode hSlots h.alloc hValid h.received hNone
      hClock hTick).of_mem hp
    refine ⟨cs, hSealed, fun c hc => ?_⟩
    -- behind the heartbeat comes the trail, of messages from the mutual queue
    rcases List.mem_cons.mp (hSub c hc) with rfl | hTrail
    · exact Or.inl rfl
    · obtain ⟨k, m, hk, hm, rfl⟩ := mem_chunksAt.mp hTrail
      exact Or.inr (Or.inr ⟨k, m, (mem_trailIndices hk).1, hm, rfl⟩)

-- ---------------------------------------------------------------------------
-- What is in flight
-- ---------------------------------------------------------------------------

/-- An actor id that fits its field is read back. -/
theorem eq_of_toU32 {actor : Int} (h : ActorFits actor) {j : Nat}
    (hEq : ((toU32 actor : Nat) : Int) = j) : actor = j := by
  obtain ⟨hLo, hHi⟩ := h
  unfold toU32 at hEq
  omega

/-- The client with the id has queued the data, at some index. A heartbeat's trail
repeats messages at other indices than those at which they were queued, so the index
is left out here. -/
def Wrote (clients : List Peer) (id : Int) (data : List UInt8) : Prop :=
  ∃ k, HasQueued clients id k data

/-- Clients keep what they have queued. -/
theorem Wrote.kept {clients clients' : List Peer} {id : Int} {data : List UInt8}
    (h : Wrote clients id data) (hKept : QueuedKept clients clients') : Wrote clients' id data :=
  let ⟨k, hk⟩ := h
  ⟨k, hKept id k data hk⟩

/-- The actor id is not the source's: it is the host's, or that of a slot that is
bound to another source. -/
def NotItsOwn (host : Peer) (src actor : Int) : Prop :=
  ActorFits actor ∧ (actor = 0 ∨ ∃ (a : Nat) (slot : PeerSlot), actor = a ∧
    host.slots[a]? = some slot ∧ slot.remoteEnd.id ≠ peerUndefined ∧ slot.remoteEnd.id ≠ src)

/-- A slot that is bound stays bound to the same source, so the id stays another's. -/
theorem NotItsOwn.moved {host host' : Peer} {src actor : Int} (h : NotItsOwn host src actor)
    (hMoved : SlotsMoved host host') : NotItsOwn host' src actor := by
  refine ⟨h.1, ?_⟩
  rcases h.2 with hZero | ⟨a, slot, hActor, hSlot, hBound, hOther⟩
  · exact Or.inl hZero
  · obtain ⟨slot', hSlot', hSlotMoved⟩ := hMoved a slot hSlot
    have hSame := hSlotMoved.remoteId hBound
    exact Or.inr ⟨a, slot', hActor, hSlot', hSame ▸ hBound, hSame ▸ hOther⟩

/-- A chunk under a source: a heartbeat, or a message that the source wrote, or
that no slot of the source takes. -/
inductive AuthenticChunk (clients : List Peer) (host : Peer) (src : Int) : Chunk → Prop where
  | heartbeat (actor : Int) : AuthenticChunk clients host src (heartbeatChunk 0 actor)
  | message {k : Nat} {m : PeerMessage} (hIndex : (k : Int) < int64Max) (hTime : IsInt64 m.time)
      (hSmall : m.Small)
      (hFrom : m.time = 0 → Wrote clients src m.data ∨ NotItsOwn host src m.actor) :
      AuthenticChunk clients host src (m.chunk k)

/-- A packet of such chunks, from a source with an id. -/
def AuthenticPacket (clients : List Peer) (host : Peer) (p : PeerPacket) : Prop :=
  ∃ src dst cs, src ≠ peerUndefined ∧ Sealed src dst p cs ∧
    ∀ c ∈ cs, AuthenticChunk clients host src c

/-- A packet stays authentic while clients queue more and the host binds more slots. -/
theorem AuthenticPacket.mono {clients clients' : List Peer} {host host' : Peer} {p : PeerPacket}
    (h : AuthenticPacket clients host p) (hClients : QueuedKept clients clients')
    (hHost : SlotsMoved host host') : AuthenticPacket clients' host' p := by
  obtain ⟨src, dst, cs, hSrc, hSealed, hChunks⟩ := h
  refine ⟨src, dst, cs, hSrc, hSealed, fun c hc => ?_⟩
  cases hChunks c hc with
  | heartbeat actor => exact .heartbeat actor
  | message hIndex hTime hSmall hFrom =>
    exact .message hIndex hTime hSmall fun hZero =>
      (hFrom hZero).imp (·.kept hClients) (·.moved hHost)

-- ---------------------------------------------------------------------------
-- What the host takes
-- ---------------------------------------------------------------------------

/-- What is ready in a slot, the client that it is bound to wrote. A slot that is
not bound holds nothing, so for those the statement is empty. -/
def SlotsWritten (clients : List Peer) (host : Peer) : Prop :=
  ∀ (j : Nat) (slot : PeerSlot), host.slots[j]? = some slot → ∀ m ∈ slot.queue,
    m.isReady = true → Wrote clients slot.remoteEnd.id m.data

/-- An entry of the mutual queue is the host's own, or was written by the client
that is bound to the slot of its actor id. The slot is named by its position, which
is what the actor id is. -/
def EntryWritten (clients : List Peer) (host : Peer) (m : PeerMessage) : Prop :=
  m.actor = 0 ∨ ∃ (a : Nat) (slot : PeerSlot), m.actor = a ∧ host.slots[a]? = some slot ∧
    slot.remoteEnd.id ≠ peerUndefined ∧ Wrote clients slot.remoteEnd.id m.data

/-- An entry that is stamped or moved keeps its writer. -/
theorem EntryWritten.mono {clients clients' : List Peer} {host host' : Peer} {m m' : PeerMessage}
    (h : EntryWritten clients host m) (hClients : QueuedKept clients clients')
    (hHost : SlotsMoved host host') (hActor : m'.actor = m.actor) (hData : m'.data = m.data) :
    EntryWritten clients' host' m' := by
  rcases h with hZero | ⟨a, slot, hSlotActor, hSlot, hBound, hWrote⟩
  · exact Or.inl (hActor.trans hZero)
  · obtain ⟨slot', hSlot', hSlotMoved⟩ := hHost a slot hSlot
    have hSame := hSlotMoved.remoteId hBound
    exact Or.inr ⟨a, slot', hActor.trans hSlotActor, hSlot', hSame ▸ hBound,
      by rw [hSame, hData]; exact hWrote.kept hClients⟩

/-- **What a slot stores** from such a chunk, its source wrote: the other messages
have an actor id that is not the slot's. -/
theorem AuthenticChunk.store {clients : List Peer} {start host : Peer} {src : Int} {c : Chunk}
    (hc : AuthenticChunk clients start src c) (hMoved : SlotsMoved start host) {j : Nat}
    {slot : PeerSlot} (hSlot : host.slots[j]? = some slot) (hActorId : slot.actor = j) (hj : 1 ≤ j)
    (hSrc : slot.remoteEnd.id = src) {header : MessageHeader}
    (hHeader : readHeader c = .ok header) (hTime : header.time = 0)
    (hActor : (header.actor : Int) = slot.actor) (hApplication : header.mode ≠ peerMessageModeService)
    {data : List UInt8} (hData : chunkData c peerNMessageData header.dataSize = .ok data) :
    Wrote clients src data := by
  cases hc with
  | heartbeat actor =>
    -- a heartbeat is a service message and is not stored
    rw [heartbeatChunk, readHeader_encode (by decide) isInt64_peerUndefined isInt64_zero (by simp),
      Except.ok.injEq] at hHeader
    rw [← hHeader] at hApplication
    exact absurd rfl hApplication
  | @message k sent hIndex hSentTime hSmall hFrom =>
    rw [readHeader_message ⟨by omega, by omega⟩ hSentTime hSmall, Except.ok.injEq] at hHeader
    subst hHeader
    dsimp only at hTime hActor hData
    obtain rfl : sent.data = data := by
      rw [PeerMessage.chunk, chunkData_encode, Except.ok.injEq] at hData
      exact hData
    rcases hFrom hTime with hWrote | ⟨hFits, hOther⟩
    · exact hWrote
    -- the actor id is that of the slot, which is bound to the source
    exfalso
    have hSlotActor : sent.actor = j := eq_of_toU32 hFits (hActor.trans hActorId)
    rcases hOther with hZero | ⟨a, before, hBefore, hAtA, hBound, hOther⟩
    · omega
    · obtain rfl : a = j := by omega
      obtain ⟨slot', hSlot', hSlotMoved⟩ := hMoved a before hAtA
      rw [hSlot, Option.some.injEq] at hSlot'
      subst hSlot'
      exact hOther ((hSlotMoved.remoteId hBound).symm.trans hSrc)

/-- **An input of the host** takes only what the clients of its slots wrote: by
induction on the packets, and on the chunks of each. A packet that matches no slot
may bind one, which holds nothing yet. -/
theorem SlotsWritten.input {clients : List Peer} {host host' : Peer} {packets : List PeerPacket}
    {s : Status} (h : SlotsWritten clients host) (hInv : SessionInv host)
    (hPackets : ∀ p ∈ packets, AuthenticPacket clients host p)
    (hInput : peerInput host packets = .ok (s, host')) : SlotsWritten clients host' := by
  have hSource : ∀ p ∈ packets, p.sourceId ≠ peerUndefined := by
    intro p hp
    obtain ⟨src, dst, cs, hSrc, hSealed, _⟩ := hPackets p hp
    rw [hSealed.sourceId]
    exact hSrc
  have hAll : SessionInv host' ∧ SlotsTaken host host' ∧ SlotsWritten clients host' := by
    -- the bindings travel along: the packets were sealed for the host before
    refine peerInput_invariant (I := fun p => SessionInv p ∧ SlotsTaken host p ∧ SlotsWritten clients p)
      ?_ ?_ ?_ hInput ⟨hInv, fun j slot hSlot => ⟨slot, hSlot, rfl, Or.inl ⟨rfl, rfl⟩⟩, h⟩
    · rintro p packet s cs al _ ⟨hp, hTaken, hWritten⟩ hCs
      exact ⟨hp.unpack hCs, hTaken, hWritten⟩
    · rintro start p p' packet j s cs al c hPacket ⟨hStart, _⟩ hCs hMem ⟨hp, hTaken, hWritten⟩ hMatch
        hStep
      obtain ⟨hp', hTakes⟩ :=
        hp.chunk ((unpackPacket_keeps hCs).1 c hMem) (hSource packet hPacket) hMatch hStep
      refine ⟨hp', hTakes host hTaken, ?_⟩
      cases hStep.onHost hp.mode with
      | skip => exact hWritten
      | @store slot header data s1 q al1 hSlot hHeader hTime hActor hApplication hData hInsert =>
        refine slots_set hWritten fun m hm hmReady => ?_
        obtain ⟨src, dst, cs', hSrc, hSealed, hChunks⟩ := hPackets packet hPacket
        -- the allocator is reliable, so what is unpacked is all that was packed
        have hc : AuthenticChunk clients host src c := by
          refine hChunks c ?_
          rw [← hSealed.yields.packetChunks_eq, packetChunks, ← hStart.alloc, hCs]
          exact hMem
        obtain ⟨again, hAgain, hIds⟩ := hMatch
        rw [hSlot, Option.some.injEq] at hAgain
        subst hAgain
        have hBound := bound_of_matchesPacket (hSource packet hPacket) hIds
        simp only [PeerSlot.matchesPacket, Bool.and_eq_true, beq_iff_eq] at hIds
        rw [hSealed.sourceId] at hIds
        obtain ⟨hj, hActorId⟩ := (hp.session j slot hSlot).bound hBound
        obtain ⟨i, hi⟩ := List.mem_iff_getElem?.mp hm
        rcases ready_of_queueInsert hInsert hi hmReady with hOld | ⟨_, _, hSame⟩
        · exact hWritten j slot hSlot m (List.mem_of_getElem? hOld) hmReady
        · rw [hSame]
          exact hIds.2 ▸ hc.store (hTaken.moved hInv) hSlot hActorId hj hIds.2 hHeader hTime hActor
            hApplication hData
    · rintro p packet hPacket ⟨hp, hTaken, hWritten⟩ _ _
      obtain ⟨hp', hTakes⟩ := hp.assign (hSource packet hPacket)
      refine ⟨hp', hTakes host hTaken, ?_⟩
      rcases assignSlot_cases p packet with hSame | ⟨j, _, slot, _, _, _, _, _, hSlot, hFree, hSet⟩
      · rw [hSame]
        exact hWritten
      · rw [hSet]
        refine slots_set hWritten fun m hm _ => ?_
        -- a free slot holds nothing
        simp only [PeerSlot.isFree, Bool.and_eq_true, beq_iff_eq] at hFree
        rw [PeerSlot.assign, (hp.slots j slot hSlot).unbound hFree.1] at hm
        cases hm
  exact hAll.2.2

-- ---------------------------------------------------------------------------
-- The invariant
-- ---------------------------------------------------------------------------

/-- Nothing in flight is attributed to a client that did not write it, and nothing
that the host holds. What clients hold needs no field of its own: by `Agreement` it
is the host's. -/
structure Authentic (w : World) : Prop extends Agreement w where
  setting : UplinkSetting w
  session : SessionInv w.host
  client : ∀ client ∈ w.clients, UplinkClient client
  inFlight : ∀ p ∈ w.clientSent, AuthenticPacket w.clients w.host p
  slots : SlotsWritten w.clients w.host
  written : ∀ m ∈ w.host.queue, EntryWritten w.clients w.host m

/-- At the beginning there is nothing. -/
theorem authentic_of_initialized {w : World} (h : ReliablyInitialized w) : Authentic w := by
  have hUplink := uplink_of_initialized h
  obtain ⟨rng, clients, rfl, _⟩ := h
  exact ⟨hUplink.toAgreement, hUplink.setting, hUplink.session, hUplink.client, by simp [World.start],
    by simp [SlotsWritten, World.start, peerInit], by simp [World.start, peerInit]⟩

/-- Every packet in flight to the host has a source. -/
theorem Authentic.source {w : World} (h : Authentic w) (positions : List Nat) :
    ∀ p ∈ delivered w.clientSent positions, p.sourceId ≠ peerUndefined := by
  intro p hp
  obtain ⟨src, dst, cs, hSrc, hSealed, _⟩ := h.inFlight p (mem_of_mem_delivered hp)
  rw [hSealed.sourceId]
  exact hSrc

/-- Such packets are among the moves that agreement allows. -/
theorem Authentic.agreementMove {w w' : World} {a : WorldAction} (h : Authentic w)
    (hMove : UplinkMove w a w') : AgreementMove w a w' := by
  obtain ⟨hSetting, hMove⟩ := hMove
  cases a with
  | host a => exact ⟨hMove.2, hSetting.hostSize, Or.inl (isHostStep_of_isHostCall hMove.1)⟩
  | client c a => exact hMove.1
  | toHost positions => exact ⟨trivial, hSetting.hostSize, Or.inl (h.source positions)⟩
  | toClient c positions => trivial

/-- What the host's mutual queue holds after one of its calls: what it held, and
from the slots what their clients wrote. -/
theorem Authentic.written_hostCall {w : World} (h : Authentic w) {a : PeerAction} {s : Status}
    {ps : List PeerPacket} {host : Peer} (hCall : a.isHostCall = true)
    (hAct : w.host.act a = .ok (s, ps, host)) : ∀ m ∈ host.queue, EntryWritten w.clients host m := by
  have hMoved := (h.session.act (isHostStep_of_isHostCall hCall) hAct).2
  have hKept : QueuedKept w.clients w.clients := fun _ _ _ => id
  have hOld : ∀ m ∈ w.host.queue, EntryWritten w.clients host m :=
    fun m hm => (h.written m hm).mono hKept hMoved rfl rfl
  have hCase := Peer.act_cases hAct
  cases a with
  | openSlots ids =>
    obtain ⟨_, rfl⟩ := hCase
    intro m hm
    refine hOld m ?_
    rw [peerOpen_reliable h.host.alloc] at hm
    exact hm
  | queue messageData =>
    obtain ⟨_, rfl⟩ := hCase
    cases messageData with
    | none => exact hOld
    | some data =>
      intro m hm
      rw [peerQueue_host h.host.mode h.host.alloc] at hm
      rcases List.mem_append.mp hm with hBefore | hNew
      · exact hOld m hBefore
      · rw [List.mem_singleton.mp hNew]
        exact Or.inl h.host.actor
  | tick e =>
    by_cases hValid : ValidElapsed w.host e
    swap
    · obtain ⟨_, _, rfl⟩ := eq_of_peerTick_invalid hValid hCase
      exact hOld
    intro m' hm'
    rw [(h.host.ticked hValid hCase).queue] at hm'
    rcases mem_merged_queue hm' with ⟨m, hm, rfl | rfl⟩ | ⟨slot, hSlot, m, hm, hReady, rfl⟩
    · exact hOld _ hm
    · exact (h.written m hm).mono hKept hMoved rfl rfl
    · -- merged from a slot that is bound, since it has a message
      obtain ⟨i, hi⟩ := List.mem_iff_getElem?.mp hSlot
      rw [List.getElem?_tail] at hi
      have hActor := (h.session.actor_of_mem hi hm).2
      have hBound : slot.remoteEnd.id ≠ peerUndefined := by
        intro hNone
        rw [(h.session.slots (i + 1) slot hi).unbound hNone] at hm
        cases hm
      have hWritten : EntryWritten w.clients w.host
          (Entry.message { time := w.host.timeLocal + e, actor := slot.actor, data := m.data }) :=
        Or.inr ⟨i + 1, slot, hActor, hi, hBound, h.slots (i + 1) slot hi m hm hReady⟩
      exact hWritten.mono hKept hMoved rfl rfl
  | setAddress j size data =>
    obtain ⟨_, rfl⟩ := hCase
    exact hOld
  | connect serverId => cases hCall
  | input packets => cases hCall
  | resolve j id => cases hCall

/-- A call of the host's application: what it merges were messages of slots, and
their authors are known already. What it queues itself is added to the history that
is kept beside the world. -/
theorem Authentic.hostCall {w : World} (h : Authentic w) {a : PeerAction} {s : Status}
    {ps : List PeerPacket} {host : Peer} (hCall : a.isHostCall = true)
    (hAct : w.host.act a = .ok (s, ps, host))
    (hAgreement : Agreement { w with host := host, hostSent := w.hostSent ++ ps })
    (hSetting : UplinkSetting { w with host := host, hostSent := w.hostSent ++ ps }) :
    Authentic { w with host := host, hostSent := w.hostSent ++ ps } := by
  obtain ⟨hSession, hMoved⟩ := h.session.act (isHostStep_of_isHostCall hCall) hAct
  refine ⟨hAgreement, hSetting, hSession, h.client,
    fun p hp => (h.inFlight p hp).mono (fun _ _ _ => id) hMoved, ?_, h.written_hostCall hCall hAct⟩
  intro j slot' hSlot' m hm hReady
  rcases slot_of_hostCall h.session.mode h.session.alloc hCall hAct hSlot' with
    ⟨_, hNil⟩ | ⟨slot, hSlot, hQueue, hRemote⟩
  · rw [hNil] at hm
    cases hm
  · rw [hQueue] at hm
    rw [hRemote]
    exact h.slots j slot hSlot m hm hReady

/-- The input of packets in flight: what a slot stores was written by its source. -/
theorem Authentic.hostInput {w : World} (h : Authentic w) {positions : List Nat} {s : Status}
    {host : Peer} (hInput : peerInput w.host (delivered w.clientSent positions) = .ok (s, host))
    (hAgreement : Agreement { w with host := host })
    (hSetting : UplinkSetting { w with host := host }) : Authentic { w with host := host } := by
  obtain ⟨hSession, hTaken⟩ := h.session.input (h.source positions) hInput
  have hMoved := hTaken.moved h.session
  refine ⟨hAgreement, hSetting, hSession, h.client,
    fun p hp => (h.inFlight p hp).mono (fun _ _ _ => id) hMoved,
    h.slots.input h.session (fun p hp => h.inFlight p (mem_of_mem_delivered hp)) hInput, ?_⟩
  -- the input of a host goes to its slots
  rw [(peerInput_host_queue h.session.mode hInput).1]
  exact fun m hm => (h.written m hm).mono (fun _ _ _ => id) hMoved rfl rfl

/-- An action of a client, or its input: what it has queued, it keeps, so whoever
was an author before is one after; and the packets that it emits have to be
authentic as they are. -/
theorem Authentic.clientAct {w : World} (h : Authentic w) {c : Nat} {client client' : Peer}
    {a : PeerAction} {s : Status} {ps sent : List PeerPacket} (hClient : w.clients[c]? = some client)
    (hQueues : a.QueuesSmall) (hAct : client.act a = .ok (s, ps, client'))
    (hSent : ∀ p ∈ sent, AuthenticPacket w.clients w.host p)
    (hAgreement : Agreement { w with clients := w.clients.set c client', clientSent := sent })
    (hSetting : UplinkSetting { w with clients := w.clients.set c client', clientSent := sent }) :
    Authentic { w with clients := w.clients.set c client', clientSent := sent } := by
  have hMem := List.mem_of_getElem? hClient
  have hOld := h.client client hMem
  have hKept := queuedKept_set hClient (outbox_act hOld.mode hOld.alloc hAct)
  refine ⟨hAgreement, hSetting, h.session, fun other hOther => ?_,
    fun p hp => (hSent p hp).mono hKept (slotsMoved_refl _),
    fun j slot hSlot m hm hReady => (h.slots j slot hSlot m hm hReady).kept hKept,
    fun m hm => (h.written m hm).mono hKept (slotsMoved_refl _) rfl rfl⟩
  rcases List.mem_or_eq_of_mem_set hOther with hBefore | rfl
  · exact h.client other hBefore
  · exact hOld.act (h.clients client hMem) hQueues hAct

/-- **What leaves a client** was written by it, or is under an actor id that is
not its own: whatever a heartbeat repeats, the mutual queue says who wrote it. -/
theorem Authentic.clientPackets {w : World} (h : Authentic w) {client client' : Peer}
    (hMem : client ∈ w.clients) {e : Int} {s : Status} {ps : List PeerPacket}
    (hTick : peerTick client e = .ok (s, ps, client')) :
    ∀ p ∈ ps, AuthenticPacket w.clients w.host p := by
  have hClient := h.client client hMem
  intro p hp
  obtain ⟨own, hOwn, cs, hSealed, hcs⟩ := hClient.clientPackets hTick p hp
  have hOwnMem := List.mem_of_getElem? hOwn
  have hSize := h.setting.clientSize client hMem own hOwnMem
  have hSingle := h.setting.single client hMem
  refine ⟨_, _, cs, h.setting.ownId hMem own hOwnMem, hSealed, fun c hc => ?_⟩
  rcases hcs c hc with rfl | ⟨k, m, hm, rfl⟩ | ⟨k, m, hk, hm, rfl⟩
  · exact .heartbeat _
  · have hEntry := hClient.own.entry hSingle own hOwnMem m (List.mem_of_getElem? hm)
    have hLt := (List.getElem?_eq_some_iff.mp hm).1
    refine .message (by omega) ?_ (hClient.ownSmall hOwn m (List.mem_of_getElem? hm))
      fun _ => Or.inl ⟨k, UplinkClient.hasQueued hMem hOwn (by rw [hm]; rfl)⟩
    rw [hEntry.time]
    exact isInt64_zero
  · -- a message of the mutual queue has an author
    obtain ⟨hTime, hActor, hFrom⟩ := hClient.mutual_cases h.host (h.clients client hMem) hm
    have hCursor := (hClient.slot own hOwnMem).1
    refine .message (by omega) hTime (hClient.received m (List.mem_of_getElem? hm))
      fun _ => ?_
    have hWritten : EntryWritten w.clients w.host m := hFrom.elim (h.written m) Or.inl
    rcases hWritten with hZero | ⟨a, slot, hSlotActor, hSlot, hBound, hWrote⟩
    · exact Or.inr ⟨hActor, Or.inl hZero⟩
    · by_cases hSource : slot.remoteEnd.id = own.localEnd.id
      · exact Or.inl (hSource ▸ hWrote)
      · exact Or.inr ⟨hActor, Or.inr ⟨a, slot, hSlotActor, hSlot, hBound, hSource⟩⟩

/-- **Step lemma.** The host's calls merge what slots hold, its input stores what is
in flight, and a client's tick sends what it has queued or received; each of the
three turns one field into another. -/
theorem Authentic.step {w w' : World} {a : WorldAction} (h : Authentic w) (hStep : w.step a = .ok w')
    (hMove : UplinkMove w a w') : Authentic w' := by
  have hAgreement := h.toAgreement.step hStep (h.agreementMove hMove)
  obtain ⟨hSetting, hMove⟩ := hMove
  cases worldStep_of_step hStep with
  | host hAct => exact h.hostCall hMove.1 hAct hAgreement hSetting
  | @client c a client client' s ps hClient hAct =>
    refine h.clientAct hClient hMove.2 hAct (fun p hp => ?_) hAgreement hSetting
    rcases List.mem_append.mp hp with hOld | hNew
    · exact h.inFlight p hOld
    -- only a tick sends
    cases a with
    | tick e => exact h.clientPackets (List.mem_of_getElem? hClient) hAct p hNew
    | _ =>
      obtain ⟨rfl, _⟩ := Peer.act_cases hAct
      cases hNew
  | toHost hInput => exact h.hostInput hInput hAgreement hSetting
  | toClient hClient hInput =>
    exact h.clientAct (a := .input _) hClient trivial (Peer.act_input hInput) h.inFlight hAgreement
      hSetting

-- ---------------------------------------------------------------------------
-- Runs
-- ---------------------------------------------------------------------------

/-- A client that is bound to the slot of the actor id has queued the data: the
author of an entry, which the entry itself does not name. -/
def HasAuthor (w : World) (m : PeerMessage) : Prop :=
  ∃ (j : Nat) (slot : PeerSlot) (client : Peer) (own : PeerSlot), 1 ≤ j ∧ m.actor = j ∧
    w.host.slots[j]? = some slot ∧ client ∈ w.clients ∧ client.slots[0]? = some own ∧
    slot.remoteEnd.id = own.localEnd.id ∧ m.data ∈ own.queue.map (·.data)

/-- An entry that is not the host's own has an author. -/
theorem Authentic.hasAuthor {w : World} (h : Authentic w) {m : PeerMessage} (hm : m ∈ w.host.queue)
    (hActor : m.actor ≠ 0) : HasAuthor w m := by
  rcases h.written m hm with hZero | ⟨j, slot, hSlotActor, hSlot, hBound, k, client, hMem, box, hBox, hId,
    hData⟩
  · exact absurd hZero hActor
  obtain ⟨own, hOwn, rfl⟩ := Option.map_eq_some_iff.mp hBox
  exact ⟨j, slot, client, own, ((h.session.session j slot hSlot).bound hBound).1, hSlotActor, hSlot, hMem,
    hOwn, hId.symm, List.mem_of_getElem? hData⟩

/-- A move of `World/Uplink.lean`, beside which the messages of the host's own
application are recorded. Unlike `BroadcastMove` it asks nothing of heartbeats. -/
def RecordedMove (r : World × List (List UInt8)) (a : WorldAction) (r' : World × List (List UInt8)) :
    Prop :=
  UplinkMove r.1 a r'.1

instance (r : World × List (List UInt8)) (a : WorldAction) (r' : World × List (List UInt8)) :
    Decidable (RecordedMove r a r') :=
  inferInstanceAs (Decidable (UplinkMove r.1 a r'.1))

/-- **Nothing is put into another's mouth.** In every state of every run of a
host and its clients, whatever their heartbeats repeat: an entry of the host's
mutual queue, and a ready entry of a client's, is a message that the host's
application queued, or that the client bound to the slot of its actor id did. -/
theorem authentic_of_reaches {w w' : World} {accepted : List (List UInt8)}
    (hStart : ReliablyInitialized w)
    (hReach : Reaches World.recordedStep RecordedMove (w, []) (w', accepted)) :
    ∀ peer ∈ w'.host :: w'.clients, ∀ m ∈ peer.queue, m.isReady = true →
      (m.actor = 0 ∧ m.data ∈ accepted) ∨ HasAuthor w' m := by
  obtain ⟨h, hMerged⟩ : Authentic w' ∧ Merged w'.host accepted := by
    refine hReach.invariant (I := fun r => Authentic r.1 ∧ Merged r.1.host r.2) ?_
      ⟨authentic_of_initialized hStart, (broadcasting_of_initialized hStart).merged⟩
    rintro ⟨t, before⟩ a ⟨t', after⟩ ⟨hInv, hMerged⟩ hOk hMove
    obtain ⟨hStep, rfl⟩ := recordedStep_eq_ok hOk
    exact ⟨hInv.step hStep hMove, merged_recordedStep hMerged hInv.source hStep hMove⟩
  -- a client holds entries of the host
  have hHost : ∀ peer ∈ w'.host :: w'.clients, ∀ m ∈ peer.queue, m.isReady = true →
      m ∈ w'.host.queue := by
    intro peer hPeer m hm hReady
    rcases List.mem_cons.mp hPeer with rfl | hClient
    · exact hm
    · obtain ⟨i, hi⟩ := List.mem_iff_getElem?.mp hm
      exact List.mem_of_getElem? ((h.clients peer hClient).getElem?_host h.host.toHostInv hi hReady)
  intro peer hPeer m hm hReady
  have hMem := hHost peer hPeer m hm hReady
  by_cases hActor : m.actor = 0
  · left
    refine ⟨hActor, ?_⟩
    rw [← hMerged.own]
    exact List.mem_map_of_mem (List.mem_filter.mpr ⟨hMem, by simpa using hActor⟩)
  · exact Or.inr (h.hasAuthor hMem hActor)

/-- A heartbeat makes the host record a message at an index of another, and the
host merges it again: its client wrote it. -/
theorem authentic_of_reaches_repeated : ∃ r : World × List (List UInt8),
    logData r.1 = [(0, [72]), (1, [97]), (1, [97])] ∧
      ∀ peer ∈ r.1.host :: r.1.clients, ∀ m ∈ peer.queue, m.isReady = true →
        (m.actor = 0 ∧ m.data ∈ r.2) ∨ HasAuthor r.1 m := by
  obtain ⟨r, hReach, hTest⟩ : ∃ r, Reaches World.recordedStep RecordedMove (pairStart, []) r ∧
      decide (logData r.1 = [(0, [72]), (1, [97]), (1, [97])]) = true :=
    exists_reaches_of_runGuarded (fun r a r' => decide (RecordedMove r a r'))
      (fun _ _ _ h => of_decide_eq_true h)
      (sessionRun ++ [.client 0 (.tick peerTimeoutHeartbeat), .toHost [3], .host (.tick 0)]) _
      (fun r => decide (logData r.1 = [(0, [72]), (1, [97]), (1, [97])])) (by decide +kernel)
  exact ⟨r, of_decide_eq_true hTest, authentic_of_reaches reliablyInitialized_pairStart hReach⟩

end PeerProtocol
