import PeerProtocol.Peer.Provenance
import PeerProtocol.Peer.Responses
import PeerProtocol.World.Uplink

/-!
# peer — the actor ids of clients

A client learns its actor id from a session response. The response is a
service message with the address of a port and an actor id in its header, and
says nothing of the client but the id that the packet goes to. A client that
took another client's response would speak under that client's actor id.

In every run of a host and its clients this does not happen: the id that a
client has learned is that of a slot of the host which is in session with it.
So clients with different ids never act under one actor id, whatever else the
host is given, and although responses are repeated and come late.

* `packetChunks_eq` — what can be read from an unpacked chunk is in the
  packet, whatever the allocator does. Hence allocators of clients may refuse
  anything here, that of the host may not;
* `LocalKept` — a peer keeps its slots and their local ids, in every call. A
  session is with a local id of the client, so it must not be lost;
* `InSession` — slot `j` of the host is ready, bound to the id, and has its
  position as actor id. By `Peer/Handshake.lean` a session response in flight
  is that of such a slot, with its actor id, and to its client;
* `Identified` — a client without an actor id, or with that of a session;
* `Identities.step` and `identity_of_reaches` — the step lemma, and the run
  lemma.

The field of an actor id has 32 bits and positions are not bounded, so the
host's slots are no more than it can tell apart.
-/

namespace PeerProtocol

open Lib

-- ---------------------------------------------------------------------------
-- Chunks of packets
-- ---------------------------------------------------------------------------

/-- Without allocation failures, the messages of the packet are what is unpacked:
the definition that the invariant speaks of has no allocator, and the loop of the
source agrees with it. -/
theorem unpackMessages_reliable (data : Buffer UInt8 peerPacketSize) {size : Int} (hSize : size ≤ 400)
    (fuel o : Nat) (acc : List Chunk) :
    ∃ s, unpackMessages data size fuel o acc .reliable =
      .ok (s, acc ++ messagesFrom data size fuel o, .reliable) := by
  induction fuel generalizing o acc with
  | zero => exact ⟨kitOk, by rw [unpackMessages, messagesFrom, List.append_nil]⟩
  | succ fuel ih =>
    by_cases hLeft : (o : Int) + 30 ≤ size
    swap
    · refine ⟨kitOk, ?_⟩
      rw [messagesFrom_done hLeft, List.append_nil, unpackMessages,
        if_neg (show ¬ (o : Int) + peerNMessageData ≤ size from hLeft)]
    obtain ⟨n, hRead⟩ : ∃ n, peerReadMessageSize (data.elems.drop o) = .ok n :=
      readSize_isOk hSize hLeft
    -- A size of zero, or one that leaves the packet, ends both loops at the same place.
    by_cases hStep : n = 0 ∨ 400 < o + n
    · rw [messagesFrom_refuse hLeft hRead hStep, List.append_nil, unpackMessages,
        if_pos (show (o : Int) + peerNMessageData ≤ size from hLeft), hRead, ok_bind]
      by_cases hZero : n = 0
      · exact ⟨kitOk, by rw [if_pos hZero]; rfl⟩
      · refine ⟨peerErrorInvalidMessageSize, ?_⟩
        rw [if_neg hZero, if_pos (show o + n > peerPacketSize from hStep.resolve_left hZero)]
        rfl
    -- Both requests of a turn are granted, and the loop goes on behind the message.
    · obtain ⟨s, hRest⟩ := ih (o + n) (acc ++ [(data.elems.drop o).take n])
      refine ⟨s, ?_⟩
      have hGranted : Allocator.reliable.outcomes 0 = true ∧ Allocator.reliable.outcomes 1 = true :=
        ⟨rfl, rfl⟩
      rw [messagesFrom_step hLeft hRead hStep, unpackMessages_turn hLeft hRead hStep,
        if_pos hGranted.1, if_pos hGranted.2]
      rw [List.append_assoc, List.singleton_append] at hRest
      exact hRest

/-- The two ways to say which chunks are in a packet: by unpacking it with an
allocator that refuses nothing, and by its bytes. -/
theorem packetChunks_eq (packet : PeerPacket) : packetChunks packet = messagesOf packet := by
  unfold packetChunks messagesOf unpackPacket
  by_cases hRefuse : packet.size < peerNPacketMessages ∨ packet.size > peerPacketSize
  · rw [if_pos hRefuse, if_pos hRefuse]
    by_cases hZero : packet.size = 0
    · rw [if_pos hZero]
    · rw [if_neg hZero]
  · have hNonzero : ¬ packet.size = 0 := by
      intro hZero
      rw [hZero] at hRefuse
      exact hRefuse (Or.inl (by decide))
    obtain ⟨s, hUnpack⟩ := unpackMessages_reliable packet.data
      (Int.not_lt.mp (not_or.mp hRefuse).2) peerPacketSize peerNPacketMessages []
    rw [if_neg hRefuse, if_neg hNonzero, if_neg hRefuse, hUnpack]
    rfl

/-- The actor id that is read from a message is the one that was written. -/
theorem actor_of_readHeader {mode : UInt8} {index time actor : Int} {data : List UInt8}
    {header : MessageHeader} (h : readHeader (encode mode index time actor data) = .ok header) :
    header.actor = toU32 actor := by
  obtain ⟨_, _, h⟩ := bind_eq_ok.mp h
  obtain ⟨_, _, h⟩ := bind_eq_ok.mp h
  obtain ⟨_, _, h⟩ := bind_eq_ok.mp h
  obtain ⟨_, _, h⟩ := bind_eq_ok.mp h
  obtain ⟨read, hRead, h⟩ := bind_eq_ok.mp h
  rw [← Except.ok.inj h]
  rw [encode, peerReadMessageActor_header, Except.ok.injEq] at hRead
  rw [← hRead]
  split
  · next hUndefined => rw [hUndefined]; rfl
  · exact toU32_natCast (toU32_lt actor)

-- ---------------------------------------------------------------------------
-- Slots stay
-- ---------------------------------------------------------------------------

/-- The peer keeps its slots and their local ids: there may be more slots
afterwards, but those that were there have the positions and the ids that they had. -/
def LocalKept (peer peer' : Peer) : Prop :=
  ∀ (i : Nat) (slot : PeerSlot), peer.slots[i]? = some slot →
    ∃ slot', peer'.slots[i]? = some slot' ∧ slot'.localEnd.id = slot.localEnd.id

theorem localKept_refl (peer : Peer) : LocalKept peer peer := fun _ slot hSlot => ⟨slot, hSlot, rfl⟩

/-- One part of a call after another. -/
theorem LocalKept.trans {peer peer' peer'' : Peer} (h : LocalKept peer peer')
    (h' : LocalKept peer' peer'') : LocalKept peer peer'' := by
  intro i slot hSlot
  obtain ⟨slot', hSlot', hSame⟩ := h i slot hSlot
  obtain ⟨slot'', hSlot'', hSame'⟩ := h' i slot' hSlot'
  exact ⟨slot'', hSlot'', hSame'.trans hSame⟩

/-- One slot is replaced by one with its local id. -/
theorem localKept_set {peer : Peer} {j : Nat} {slot slot' : PeerSlot}
    (hSlot : peer.slots[j]? = some slot) (hSame : slot'.localEnd.id = slot.localEnd.id) :
    LocalKept peer { peer with slots := peer.slots.set j slot' } := by
  intro i before hBefore
  dsimp only
  by_cases hij : j = i
  · subst hij
    rw [hSlot, Option.some.injEq] at hBefore
    exact ⟨slot', List.getElem?_set_self (List.getElem?_eq_some_iff.mp hSlot).1, hBefore ▸ hSame⟩
  · exact ⟨before, (List.getElem?_set_ne hij).trans hBefore, rfl⟩

theorem localKept_modify (peer : Peer) (j : Nat) {f : PeerSlot → PeerSlot}
    (hSame : ∀ slot, (f slot).localEnd.id = slot.localEnd.id) :
    LocalKept peer { peer with slots := peer.slots.modify j f } := by
  intro i slot hSlot
  refine ⟨_, (List.getElem?_modify ..).trans (by rw [hSlot]; rfl), ?_⟩
  dsimp only
  split
  · exact hSame slot
  · rfl

theorem ChunkStep.localKept {j : Nat} {c : Chunk} {peer peer' : Peer} (h : ChunkStep j c peer peer') :
    LocalKept peer peer' := by
  cases h with
  | hostSkip => exact localKept_refl peer
  | hostStore _ hSlot => exact localKept_set hSlot rfl
  | clientSkip => exact localKept_refl peer
  | clientRespond _ hSlot => exact localKept_set hSlot rfl
  | clientLearn => exact localKept_refl peer

theorem localKept_input {peer peer' : Peer} {packets : List PeerPacket} {s : Status}
    (h : peerInput peer packets = .ok (s, peer')) : LocalKept peer peer' := by
  refine peerInput_invariant (I := LocalKept peer) ?_ ?_ ?_ h (localKept_refl peer)
  · intro p packet s cs al _ hp _
    exact hp
  · intro start p p' packet j s cs al c _ _ _ _ hp _ hStep
    exact hp.trans hStep.localKept
  · intro p packet _ hp _ _
    rcases assignSlot_cases p packet with hSame | ⟨_, _, _, _, _, _, _, _, hSlot, _, hSet⟩
    · rw [hSame]
      exact hp
    · rw [hSet]
      exact hp.trans (localKept_set hSlot rfl)

/-- **Every action** of any peer keeps its slots and their local ids: a local id is
written when the slot is opened, and no action writes one again or removes a slot. -/
theorem localKept_act {peer peer' : Peer} {a : PeerAction} {s : Status} {ps : List PeerPacket}
    (hAct : peer.act a = .ok (s, ps, peer')) : LocalKept peer peer' := by
  have hCase := Peer.act_cases hAct
  cases a with
  | openSlots ids =>
    obtain ⟨_, rfl⟩ := hCase
    obtain ⟨opened, al, hOpen⟩ := peerOpen_opens peer ids
    rw [hOpen]
    -- New slots come behind the old, whose local ends stay.
    intro i slot hSlot
    exact ⟨slot, (List.getElem?_append_left (List.getElem?_eq_some_iff.mp hSlot).1).trans hSlot, rfl⟩
  | connect serverId =>
    obtain ⟨_, rfl⟩ := hCase
    obtain ⟨i, hConnect⟩ := peerConnect_modifies peer serverId
    rw [hConnect]
    exact localKept_modify peer i fun _ => rfl
  | queue messageData =>
    obtain ⟨_, rfl⟩ := hCase
    obtain ⟨data, hQueued⟩ := peerQueue_queued peer messageData
    generalize (peerQueue peer messageData).2 = peer' at hQueued
    cases hQueued with
    | refused => exact localKept_refl peer
    | host => exact localKept_refl peer
    | client _ hSlot => exact localKept_set hSlot rfl
  | input packets => exact localKept_input hCase.2
  | tick e =>
    intro i slot hSlot
    obtain ⟨slot', hSlot', hTicked⟩ := getElem?_of_forall₂ (peerTick_frame hCase).slots hSlot
    exact ⟨slot', hSlot', by rw [hTicked.localEnd]⟩
  | setAddress j size data =>
    obtain ⟨_, rfl⟩ := hCase
    exact localKept_modify peer j fun _ => rfl
  | resolve j id =>
    obtain ⟨_, rfl⟩ := hCase
    exact localKept_modify peer j fun _ => rfl

-- ---------------------------------------------------------------------------
-- Sessions
-- ---------------------------------------------------------------------------

/-- The slot at position `j` of the host is ready, bound to the id, and has its
position as actor id. What makes a session one is the slot and not the packet that
started it, so that it can be read off the host's state. -/
def InSession (host : Peer) (j : Nat) (id : Int) : Prop :=
  ∃ slot, 1 ≤ j ∧ host.slots[j]? = some slot ∧ slot.state = .ready ∧ slot.actor = j ∧
    slot.remoteEnd.id = id

/-- A slot that is ready is in session with the source that it is bound to. -/
theorem SessionInv.inSession {host : Peer} (h : SessionInv host) {j : Nat} {slot : PeerSlot}
    (hSlot : host.slots[j]? = some slot) (hReady : slot.state = .ready) :
    InSession host j slot.remoteEnd.id := by
  have hBound : slot.remoteEnd.id ≠ peerUndefined := by
    intro hNone
    have hEmpty := (h.session j slot hSlot).empty_iff.mpr hNone
    rw [hReady] at hEmpty
    cases hEmpty
  obtain ⟨hj, hActor⟩ := (h.session j slot hSlot).bound hBound
  exact ⟨slot, hj, hSlot, hReady, hActor, rfl⟩

/-- A session stays one: a ready slot stays ready, bound and numbered. -/
theorem InSession.moved {host host' : Peer} {j : Nat} {id : Int} (h : InSession host j id)
    (hInv : SessionInv host) (hInv' : SessionInv host') (hMoved : SlotsMoved host host') :
    InSession host' j id := by
  obtain ⟨slot, _, hSlot, hReady, _, rfl⟩ := h
  obtain ⟨slot', hSlot', hSlotMoved⟩ := hMoved j slot hSlot
  have hBound : slot.remoteEnd.id ≠ peerUndefined := by
    intro hNone
    have hEmpty := (hInv.session j slot hSlot).empty_iff.mpr hNone
    rw [hReady] at hEmpty
    cases hEmpty
  rw [← hSlotMoved.remoteId hBound]
  exact hInv'.inSession hSlot' (hSlotMoved.ready hReady)

/-- **A session response** that the host has sent is for the session of its actor
id. By the invariant of `Peer/Responses.lean` there is one response for each ready
slot, so a response in flight leads back to its slot. -/
theorem SessionsAnswered.inSession {host : Peer} {sent : List PeerPacket}
    (h : SessionsAnswered host sent) (hInv : SessionInv host) (hSlots : host.slots.length ≤ 0x100000000)
    {p : PeerPacket} (hp : p ∈ sent) {c : Chunk} (hc : c ∈ messagesOf p) {header : MessageHeader}
    (hHeader : readHeader c = .ok header)
    (hResponse : readServiceId c header = .ok (some peerMSessionResponse)) :
    InSession host header.actor p.destinationId := by
  rw [← packetChunks_eq] at hc
  have hIs : isSessionResponse p = true :=
    List.any_eq_true.mpr ⟨c, hc, beq_iff_eq.mpr (serviceOf_eq hHeader hResponse)⟩
  obtain ⟨owners, _, _, hAnswers⟩ := h
  obtain ⟨j, _, slot, time, address, hSlot, hReady, _, hDestination, hChunks⟩ :=
    exists_of_forall₂_right hAnswers (List.mem_filter.mpr ⟨hp, hIs⟩)
  rw [hChunks, List.mem_singleton] at hc
  subst hc
  -- the field has room for the position of any slot
  have hLt := (List.getElem?_eq_some_iff.mp hSlot).1
  have hActor : header.actor = j := by
    rw [actor_of_readHeader hHeader, toU32]
    omega
  rw [hActor, hDestination]
  exact hInv.inSession hSlot hReady

-- ---------------------------------------------------------------------------
-- Clients
-- ---------------------------------------------------------------------------

/-- A client that has no actor id yet, or that of a session with it: one of the
client's slots has the local id that the host's slot is bound to. -/
structure Identified (host client : Peer) : Prop where
  mode : client.mode = .client
  actor : client.actor = peerUndefined ∨ ∃ (j : Nat) (own : PeerSlot), own ∈ client.slots ∧
    InSession host j own.localEnd.id ∧ client.actor = j

/-- A call that leaves the client's actor id and its local ids. -/
theorem Identified.kept {host client client' : Peer} (h : Identified host client)
    (hMode : client'.mode = .client) (hActor : client'.actor = client.actor)
    (hKept : LocalKept client client') : Identified host client' := by
  refine ⟨hMode, ?_⟩
  rcases h.actor with hNone | ⟨j, own, hOwn, hSession, hSame⟩
  · exact Or.inl (hActor.trans hNone)
  · obtain ⟨i, hi⟩ := List.mem_iff_getElem?.mp hOwn
    obtain ⟨own', hOwn', hId⟩ := hKept i own hi
    exact Or.inr ⟨j, own', List.mem_of_getElem? hOwn', hId ▸ hSession, hActor.trans hSame⟩

/-- What the host does ends no session. -/
theorem Identified.moved {host host' client : Peer} (h : Identified host client)
    (hInv : SessionInv host) (hInv' : SessionInv host') (hMoved : SlotsMoved host host') :
    Identified host' client :=
  ⟨h.mode, h.actor.imp id fun ⟨j, own, hOwn, hSession, hSame⟩ =>
    ⟨j, own, hOwn, hSession.moved hInv hInv' hMoved, hSame⟩⟩

/-- A client changes its actor id in an input only, where a session response tells
it; what its own application calls may use the id, and does not write it. -/
theorem actor_of_clientCall {client client' : Peer} {a : PeerAction} {s : Status}
    {ps : List PeerPacket} (hMode : client.mode = .client) (hCall : a.isClientCall = true)
    (hAct : client.act a = .ok (s, ps, client')) : client'.actor = client.actor := by
  have hCase := Peer.act_cases hAct
  cases a with
  | openSlots ids =>
    obtain ⟨_, rfl⟩ := hCase
    obtain ⟨opened, al, hOpen⟩ := peerOpen_opens client ids
    rw [hOpen]
  | connect serverId =>
    obtain ⟨_, rfl⟩ := hCase
    obtain ⟨i, hConnect⟩ := peerConnect_modifies client serverId
    rw [hConnect]
  | queue messageData =>
    obtain ⟨_, rfl⟩ := hCase
    obtain ⟨data, hQueued⟩ := peerQueue_queued client messageData
    generalize (peerQueue client messageData).2 = client' at hQueued
    cases hQueued <;> rfl
  | input packets => cases hCall
  | tick e =>
    by_cases hValid : ValidElapsed client e
    -- A client's tick writes its slots, its clocks and its generator, never its actor.
    · rcases peerTick_client_sent hMode hValid hCase with
        ⟨_, rfl⟩ | ⟨slot, slot', slots, rng, al, _, _, rfl⟩
      · rfl
      · rfl
    · rw [(eq_of_peerTick_invalid hValid hCase).2.2]
  | setAddress j size data =>
    obtain ⟨_, rfl⟩ := hCase
    rfl
  | resolve j id =>
    obtain ⟨_, rfl⟩ := hCase
    rfl

/-- **An input** of packets of the host gives a client the actor id of a session
with it, or none. A response that one of its slots takes was sent to that slot's
local id, and the session it answers is with this id. -/
theorem Identified.input {host client client' : Peer} {sent packets : List PeerPacket} {s : Status}
    (h : Identified host client) (hAnswered : SessionsAnswered host sent) (hInv : SessionInv host)
    (hSlots : host.slots.length ≤ 0x100000000) (hSent : packets ⊆ sent)
    (hInput : peerInput client packets = .ok (s, client')) : Identified host client' := by
  refine peerInput_invariant (I := Identified host) ?_ ?_ ?_ hInput h
  · intro p packet s cs al _ hp _
    exact ⟨hp.mode, hp.actor⟩
  · rintro start p p' packet j s cs al c hPacket _ hCs hMem hp ⟨slot, hSlot, hMatch⟩ hStep
    have hKept := hStep.localKept
    cases hStep with
    | hostSkip => exact hp
    | hostStore hMode => exact absurd hMode (by rw [hp.mode]; decide)
    | clientSkip => exact ⟨hp.mode, hp.actor⟩
    | @clientRespond same header address _ hSame hHeader _ hId _ hRoom =>
      rw [hSlot, Option.some.injEq] at hSame
      subst hSame
      -- the response went to the id of the slot that takes it
      simp only [PeerSlot.matchesPacket, Bool.and_eq_true, beq_iff_eq] at hMatch
      have hSession := hAnswered.inSession hInv hSlots (hSent hPacket)
        (mem_messagesOf hCs hMem (ne_nil_of_readHeader hHeader)) hHeader hId
      have hLt := (List.getElem?_eq_some_iff.mp hSlot).1
      refine ⟨hp.mode, Or.inr ⟨header.actor, slot.respond header.actor address hRoom,
        List.mem_set hLt _, ?_, rfl⟩⟩
      rw [PeerSlot.respond, hMatch.1]
      exact hSession
    | clientLearn => exact ⟨hp.mode, hp.actor⟩
  · intro p packet _ hp _ _
    rw [assignSlot, if_pos (Or.inl (by rw [hp.mode]; decide))]
    exact hp

-- ---------------------------------------------------------------------------
-- The invariant
-- ---------------------------------------------------------------------------

/-- A host that never runs out of memory, and clients, just initialized. -/
def HostInitialized (w : World) : Prop :=
  ∃ rng clients, w = World.start (peerInit .host .reliable rng) clients ∧
    ∀ client ∈ clients, ∃ al r, client = peerInit .client al r

/-- The host is given any packets from sources with an id, those of the clients
among them, and the clients are given packets of the host. The host's slots are
no more than an actor id can tell apart. -/
def IdentityMove (w : World) (a : WorldAction) (w' : World) : Prop :=
  w'.host.slots.length ≤ 0x100000000 ∧
    match a with
    | .host a => a.IsHostStep
    | .client _ a => a.isClientCall = true
    | .toHost positions => ∀ p ∈ delivered w.clientSent positions, p.sourceId ≠ peerUndefined
    | .toClient _ _ => True

instance (w : World) (a : WorldAction) (w' : World) : Decidable (IdentityMove w a w') :=
  match a with
  | .host a => inferInstanceAs (Decidable (w'.host.slots.length ≤ 0x100000000 ∧ a.IsHostStep))
  | .client _ a =>
    inferInstanceAs (Decidable (w'.host.slots.length ≤ 0x100000000 ∧ a.isClientCall = true))
  | .toHost positions => inferInstanceAs (Decidable (w'.host.slots.length ≤ 0x100000000 ∧
      ∀ p ∈ delivered w.clientSent positions, p.sourceId ≠ peerUndefined))
  | .toClient _ _ => inferInstanceAs (Decidable (w'.host.slots.length ≤ 0x100000000 ∧ True))

/-- The session responses in flight are those of the sessions, and the clients know
only what these say. The bound on the slots makes the 32 bits of an actor id enough. -/
structure Identities (w : World) : Prop where
  session : SessionInv w.host
  answered : SessionsAnswered w.host w.hostSent
  slots : w.host.slots.length ≤ 0x100000000
  client : ∀ client ∈ w.clients, Identified w.host client

/-- At the beginning no client has an actor id. -/
theorem identities_of_initialized {w : World} (h : HostInitialized w) : Identities w := by
  obtain ⟨rng, clients, rfl, hClients⟩ := h
  refine ⟨sessionInv_peerInit rng, ⟨[], List.nodup_nil, fun j => ?_, .nil⟩, Nat.zero_le _, ?_⟩
  · simp [ReadyAt, World.start, peerInit]
  · intro client hClient
    obtain ⟨al, r, rfl⟩ := hClients client hClient
    exact ⟨rfl, Or.inl rfl⟩

/-- An action of the host, which sends responses of its sessions only. -/
theorem Identities.hostAct {w : World} (h : Identities w) {a : PeerAction} {s : Status}
    {ps : List PeerPacket} {host : Peer} (hMay : a.IsHostStep)
    (hAct : w.host.act a = .ok (s, ps, host)) (hSlots : host.slots.length ≤ 0x100000000) :
    Identities { w with host := host, hostSent := w.hostSent ++ ps } := by
  obtain ⟨hSession, hMoved⟩ := h.session.act hMay hAct
  exact ⟨hSession, h.answered.act h.session hMay hAct, hSlots,
    fun client hClient => (h.client client hClient).moved h.session hSession hMoved⟩

theorem Identities.setClient {w : World} (h : Identities w) {client' : Peer}
    (hClient' : Identified w.host client') (c : Nat) (sent : List PeerPacket) :
    Identities { w with clients := w.clients.set c client', clientSent := sent } := by
  refine ⟨h.session, h.answered, h.slots, fun client hClient => ?_⟩
  rcases List.mem_or_eq_of_mem_set hClient with hOld | rfl
  · exact h.client client hOld
  · exact hClient'

/-- **Step lemma.** A host's action may add responses and sessions, a client's call
changes no actor id, and an input of a client is the only place where one is
learned. -/
theorem Identities.step {w w' : World} {a : WorldAction} (h : Identities w)
    (hStep : w.step a = .ok w') (hMove : IdentityMove w a w') : Identities w' := by
  obtain ⟨hSlots, hMove⟩ := hMove
  cases worldStep_of_step hStep with
  | host hAct => exact h.hostAct hMove hAct hSlots
  | @client c a client client' s ps hClient hAct =>
    have hOld := h.client client (List.mem_of_getElem? hClient)
    exact h.setClient (hOld.kept ((Peer.mode_of_step (Peer.step_eq_ok.mpr ⟨s, ps, hAct⟩)).trans hOld.mode)
      (actor_of_clientCall hOld.mode hMove hAct) (localKept_act hAct)) _ _
  | toHost hInput =>
    have hNew := h.hostAct (a := .input _) hMove (Peer.act_input hInput) hSlots
    rw [List.append_nil] at hNew
    exact hNew
  | @toClient c positions client client' s hClient hInput =>
    have hOld := h.client client (List.mem_of_getElem? hClient)
    exact h.setClient (hOld.input h.answered h.session h.slots
      (fun p hp => mem_of_mem_delivered hp) hInput) _ _

-- ---------------------------------------------------------------------------
-- Runs
-- ---------------------------------------------------------------------------

/-- **Who a client is.** In every state of every run, a client has no actor id
yet, or that of a slot of the host in session with one of its ids; so clients
without an id in common never have an actor id in common. -/
theorem identity_of_reaches {w w' : World} (hStart : HostInitialized w)
    (hReach : Reaches World.step IdentityMove w w') :
    (∀ client ∈ w'.clients, client.actor = peerUndefined ∨
      ∃ (j : Nat) (own : PeerSlot), own ∈ client.slots ∧ InSession w'.host j own.localEnd.id ∧
        client.actor = j) ∧
    ∀ client ∈ w'.clients, ∀ other ∈ w'.clients,
      (∀ own ∈ client.slots, ∀ own' ∈ other.slots, own.localEnd.id ≠ own'.localEnd.id) →
        client.actor = other.actor → client.actor = peerUndefined := by
  have h : Identities w' := hReach.invariant (fun _ _ _ hInv hOk hMove => hInv.step hOk hMove)
    (identities_of_initialized hStart)
  refine ⟨fun client hClient => (h.client client hClient).actor, ?_⟩
  intro client hClient other hOther hApart hSame
  rcases (h.client client hClient).actor with hNone | ⟨j, own, hOwn, hSession, hActor⟩
  · exact hNone
  rcases (h.client other hOther).actor with hNone | ⟨k, own', hOwn', hSession', hActor'⟩
  · exact hSame.trans hNone
  -- a slot is bound to one id
  obtain rfl : j = k := by omega
  obtain ⟨slot, _, hSlot, _, _, hId⟩ := hSession
  obtain ⟨slot', _, hSlot', _, _, hId'⟩ := hSession'
  rw [hSlot, Option.some.injEq] at hSlot'
  subst hSlot'
  exact absurd (hId.symm.trans hId') (hApart own hOwn own' hOwn')

/-- Two clients, of which the second one asked first: their actor ids are those of
the slots that they were given, not of the order in which they were opened. -/
theorem identity_of_reaches_two : ∃ w : World, w.clients.map (·.actor) = [2, 1] ∧
    (∀ client ∈ w.clients, client.actor = peerUndefined ∨
      ∃ (j : Nat) (own : PeerSlot), own ∈ client.slots ∧ InSession w.host j own.localEnd.id ∧
        client.actor = j) ∧
    ∀ client ∈ w.clients, ∀ other ∈ w.clients,
      (∀ own ∈ client.slots, ∀ own' ∈ other.slots, own.localEnd.id ≠ own'.localEnd.id) →
        client.actor = other.actor → client.actor = peerUndefined := by
  obtain ⟨w, hReach, hTest⟩ : ∃ w, Reaches World.step IdentityMove twoStart w ∧
      decide (w.clients.map (·.actor) = [2, 1]) = true :=
    exists_reaches_of_runGuarded (fun w a w' => decide (IdentityMove w a w'))
      (fun _ _ _ h => of_decide_eq_true h) twoSessions _
      (fun w : World => decide (w.clients.map (·.actor) = [2, 1])) (by decide +kernel)
  have hStart : HostInitialized twoStart := by
    refine ⟨⟨fun _ => 0⟩, _, rfl, fun client hClient => ?_⟩
    rcases List.mem_cons.mp hClient with rfl | hSecond
    · exact ⟨_, _, rfl⟩
    · exact ⟨_, _, List.mem_singleton.mp hSecond⟩
  exact ⟨w, of_decide_eq_true hTest, identity_of_reaches hStart hReach⟩

end PeerProtocol
