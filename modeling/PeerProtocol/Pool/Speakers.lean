import PeerProtocol.Pool.Deployment

/-!
# peer — nobody speaks for another endpoint

A host gives each slot an actor id, and binds the slot to the endpoint from
which the session request came. `World/Authentic.lean` shows, for worlds of
honest clients, that what the host records under an actor id was queued by
that client. Here nothing is assumed about the senders: any datagrams arrive,
from any address and port, and the question is what the binding is worth.

It is worth the address. What the host records under a slot's actor id was in
a datagram from the address and the port of the slot's endpoint, so that in
order to speak for a client one has to send from its address.

`Peer/Provenance.lean` has the part of it that is about `peer.c`: the messages
that a slot holds came in packets whose source is the slot's remote id. What
is left is about the pool, and about time:

* `RemoteFixed` — the remote end of a slot of a host: resolved, or unbound and
  without an address. For neither does a lookup change the remote id, so the
  provenance survives a tick's lookups (`Provenance.resolve`);
* `HeardHost` — a deployed host together with all datagrams it has received,
  and all that its application has queued;
* `Spoke` — a datagram from the endpoint of a slot carried the message;
* `SpokenFor` — the invariant, which relates the history of the peer's own
  calls to the datagrams.

`speakers_of_reaches` is the run lemma. The allocators of host and pool may
refuse anything.
-/

namespace PeerProtocol

open Lib

-- ---------------------------------------------------------------------------
-- Lookups of a host
-- ---------------------------------------------------------------------------

/-- The remote end of a slot of a host: it has an id that was received with a
packet, or no id and no address. What is known of the ids of packets is known of
such an id. -/
def RemoteFixed (known : Int → Prop) (slot : PeerSlot) : Prop :=
  (slot.remoteEnd.isIdResolved = true ∧ known slot.remoteEnd.id) ∨
    (slot.remoteEnd.id = peerUndefined ∧ slot.remoteEnd.addressSize ≤ 3)

/-- Nothing is looked up for a slot that is not bound: the third and the fourth part
ask for an id or for an address. -/
theorem remoteEnd_of_unbound {pool pool' : PeerSocketPool} {slot slot' : PeerSlot} {s : Status}
    (hNone : slot.remoteEnd.id = peerUndefined) (hSize : slot.remoteEnd.addressSize ≤ 3)
    (h : resolveSlot pool slot = .ok (s, pool', slot')) : slot'.remoteEnd = slot.remoteEnd := by
  have hEnd := resolveLocalAddress_remoteEnd slot pool.nodes
  unfold resolveSlot at h
  generalize slot.resolveLocalAddress pool.nodes = first at h hEnd
  obtain ⟨s1, slot1⟩ := first
  dsimp only at h hEnd
  -- without an id neither the address nor the id is looked up
  rw [PeerSlot.resolveRemoteAddress, if_neg (by rw [hEnd]; exact fun hDue => hDue.2 hNone), ok_bind] at h
  dsimp only at h
  rw [resolveIdByPort, if_neg (by rw [hEnd]; exact fun hDue => hDue.2.2 hNone), ok_bind] at h
  dsimp only at h
  rw [resolveIdByAddress_skip (Or.inr (by rw [hEnd]; exact hSize)), ok_bind] at h
  obtain ⟨_, hRest⟩ := Prod.mk.inj (Except.ok.inj h)
  obtain ⟨_, rfl⟩ := Prod.mk.inj hRest
  exact hEnd

/-- **A lookup** leaves the remote id of such a slot, and the slot such a slot. -/
theorem RemoteFixed.resolve {known : Int → Prop} {pool pool' : PeerSocketPool} {slot slot' : PeerSlot}
    {s : Status} (h : RemoteFixed known slot)
    (hResolve : resolveSlot pool slot = .ok (s, pool', slot')) :
    RemoteFixed known slot' ∧ slot'.remoteEnd.id = slot.remoteEnd.id := by
  rcases h with ⟨hResolved, hKnown⟩ | ⟨hNone, hSize⟩
  -- an id that is resolved is never looked up again
  · obtain ⟨hStill, hId⟩ := (slotLooked_resolveSlot hResolve).resolved hResolved
    exact ⟨Or.inl ⟨hStill, hId.symm ▸ hKnown⟩, hId⟩
  · have hEnd := remoteEnd_of_unbound hNone hSize hResolve
    exact ⟨Or.inr (by rw [hEnd]; exact ⟨hNone, hSize⟩), by rw [hEnd]⟩

/-- What a lookup leaves of a slot of a host: its ids, and what it holds. Addresses
may be written, but nothing of `Provenance` is about them. -/
structure HeldEnds (known : Int → Prop) (slot slot' : PeerSlot) : Prop
    extends EndsWritten slot slot' where
  fixed : RemoteFixed known slot'
  remoteId : slot'.remoteEnd.id = slot.remoteEnd.id

/-- What a turn does to a slot of a host, for the loop. -/
theorem heldEnds_resolveSlot {known : Int → Prop} {pool pool' : PeerSocketPool} {slot slot' : PeerSlot}
    {s : Status} (hFixed : RemoteFixed known slot)
    (hResolve : resolveSlot pool slot = .ok (s, pool', slot')) : HeldEnds known slot slot' := by
  obtain ⟨hStill, hId⟩ := hFixed.resolve hResolve
  exact ⟨endsWritten_resolveSlot hResolve, hStill, hId⟩

/-- A host all of whose slots are of this kind. What is known of the ids is a
parameter: here nothing is, and in `Pool/Faults.lean` it is that their addresses
have room. -/
def RemotesFixed (known : Int → Prop) (host : Peer) : Prop :=
  ∀ slot ∈ host.slots, RemoteFixed known slot

/-- What is known of ids only gets more. -/
theorem RemotesFixed.mono {known known' : Int → Prop} {host : Peer} (h : RemotesFixed known host)
    (hMore : ∀ id, known id → known' id) : RemotesFixed known' host :=
  fun slot hSlot => (h slot hSlot).imp (And.imp id (hMore _)) id

/-- **A lookup of a host** keeps the ids of its slots, and what they hold. -/
theorem RemotesFixed.lookup {known : Int → Prop} {pool pool' : PeerSocketPool} {host host' : Peer}
    {s : Status} (h : RemotesFixed known host)
    (hResolve : resolveAddressAndId pool host = .ok (s, pool', host')) :
    ∃ slots, host' = { host with slots := slots } ∧ List.Forall₂ (HeldEnds known) host.slots slots := by
  obtain ⟨slots, hHost, hSlots⟩ := resolveSlots_of_resolve hResolve
  exact ⟨slots, hHost,
    resolveSlots_forall₂ (fun slot hSlot => heldEnds_resolveSlot (h slot hSlot)) hSlots⟩

/-- The loop over the slots keeps it. -/
theorem RemotesFixed.resolve {known : Int → Prop} {pool pool' : PeerSocketPool} {host host' : Peer}
    {s : Status} (h : RemotesFixed known host)
    (hResolve : resolveAddressAndId pool host = .ok (s, pool', host')) : RemotesFixed known host' := by
  obtain ⟨slots, rfl, hSlots⟩ := h.lookup hResolve
  intro slot' hSlot'
  obtain ⟨slot, _, hEnds⟩ := exists_of_forall₂_right hSlots hSlot'
  exact hEnds.fixed

/-- **The slots still hold** what came in for them: neither their queues nor their
remote ids were changed. -/
theorem Provenance.resolve {known : Int → Prop} {pool pool' : PeerSocketPool} {host host' : Peer}
    {history : List PeerAction} {s : Status} (h : Provenance host history)
    (hFixed : RemotesFixed known host)
    (hResolve : resolveAddressAndId pool host = .ok (s, pool', host')) : Provenance host' history := by
  obtain ⟨slots, rfl, hSlots⟩ := hFixed.lookup hResolve
  have hKept : SlotIdsKept host { host with slots := slots } := by
    intro j slot hSlot
    obtain ⟨slot', hSlot', hEnds⟩ := getElem?_of_forall₂ hSlots hSlot
    exact ⟨slot', hSlot', hEnds.localId, fun _ => hEnds.remoteId⟩
  refine ⟨h.mode, h.actor, fun j slot' hSlot' => ?_, fun m hm => (h.entry m hm).kept hKept rfl rfl⟩
  obtain ⟨slot, hSlot, hEnds⟩ := getElem?_of_forall₂_right hSlots hSlot'
  exact (h.slot j slot hSlot).mono (List.Subset.refl _) hEnds.localId hEnds.remoteId hEnds.queue
    hEnds.actor

/-- A call of the peer, other than a lookup: an input binds slots, with a resolved
id and to the source of a packet. -/
theorem RemotesFixed.act {known : Int → Prop} {host host' : Peer} {a : PeerAction} {s : Status}
    {ps : List PeerPacket} (h : RemotesFixed known host) (hMode : host.mode = .host)
    (hMay : a.IsHostStep) (hKnown : ∀ p ∈ inputsOf [a], known p.sourceId)
    (hAct : host.act a = .ok (s, ps, host')) : RemotesFixed known host' := by
  have hCase := Peer.act_cases hAct
  cases a with
  | openSlots ids =>
    obtain ⟨_, rfl⟩ := hCase
    obtain ⟨opened, al, hOpen⟩ := peerOpen_opens host ids
    rw [hOpen]
    intro slot' hSlot'
    obtain ⟨j, hj⟩ := List.mem_iff_getElem?.mp hSlot'
    -- a new slot has no remote end
    exact slots_open (P := fun _ slot => RemoteFixed known slot)
      (fun _ slot hSlot => h slot (List.mem_of_getElem? hSlot))
      (fun _ _ _ _ _ => Or.inr ⟨rfl, show (0 : Int) ≤ 3 by decide⟩) j slot' hj
  | queue messageData =>
    obtain ⟨_, rfl⟩ := hCase
    obtain ⟨data, hQueued⟩ := peerQueue_queued host messageData
    generalize (peerQueue host messageData).2 = host' at hQueued
    cases hQueued with
    | refused => exact h
    | host => exact h
    | client hClient =>
      rw [hMode] at hClient
      cases hClient
  | input packets =>
    rw [show inputsOf [.input packets] = packets from List.append_nil _] at hKnown
    intro slot' hSlot'
    obtain ⟨j, hj⟩ := List.mem_iff_getElem?.mp hSlot'
    -- a slot that is assigned gets the id that the packet was received with
    exact slots_input (P := fun _ slot => RemoteFixed known slot)
      (fun _ slot hSlot => h slot (List.mem_of_getElem? hSlot)) hMode (fun _ _ _ _ _ _ hOld => hOld)
      (fun _ _ p hp _ _ _ => Or.inl ⟨rfl, hKnown p hp⟩) hCase.2 j slot' hj
  | tick e =>
    intro slot' hSlot'
    obtain ⟨j, hj⟩ := List.mem_iff_getElem?.mp hSlot'
    obtain ⟨slot, hSlot, hTicked⟩ := getElem?_of_forall₂_right (peerTick_frame hCase).slots hj
    unfold RemoteFixed
    rw [hTicked.remoteEnd]
    exact h slot (List.mem_of_getElem? hSlot)
  | setAddress j size data =>
    obtain ⟨_, rfl⟩ := hCase
    intro slot' hSlot'
    obtain ⟨k, hk⟩ := List.mem_iff_getElem?.mp hSlot'
    obtain ⟨slot, hSlot, rfl | rfl⟩ := exists_of_getElem?_modify hk
    · exact h slot' (List.mem_of_getElem? hSlot)
    · exact h slot (List.mem_of_getElem? hSlot)
  | connect serverId => cases hMay
  | resolve j id => cases hMay

-- ---------------------------------------------------------------------------
-- A host that is heard of
-- ---------------------------------------------------------------------------

/-- A deployed host, the datagrams that it has received, and the messages that
its application has queued. -/
structure HeardHost where
  deployed : Deployed
  heard : List Datagram
  queued : List (List UInt8)

/-- The datagrams that a call receives. A tick that is refused receives none. -/
def heardBy (d : Deployed) : DeployedAction → List Datagram
  | .tick timeElapsed received _ =>
    if timeElapsed < 0 then [] else datagramsOf received 0 d.pool.nodes
  | _ => []

/-- What a call of the application queues. -/
def queuedBefore : DeployedAction → List (List UInt8)
  | .queue messageData => messageData.toList
  | _ => []

/-- A call of the host, with its datagrams and its messages written down. -/
def HeardHost.step (r : HeardHost) (a : DeployedAction) : Except Fault HeardHost := do
  let deployed ← r.deployed.step a
  return { deployed, heard := r.heard ++ heardBy deployed a, queued := r.queued ++ queuedBefore a }

/-- A new host with a new pool. Neither the pool's allocator nor the host's needs to
be reliable. -/
def HeardHost.start (alloc hostAlloc : Allocator) (inPlace : Nat → Bool) (rng : Mt64) : HeardHost where
  deployed := { Deployed.start alloc inPlace rng with host := peerInit .host hostAlloc rng }
  heard := []
  queued := []

/-- A packet with these bytes, between no ids in particular. -/
def packetOfBytes (data : List UInt8) : PeerPacket :=
  receivedPacket 0 0 (data.take peerPacketSize) (List.length_take_le _ _)

/-- The messages in a datagram. -/
def Datagram.messages (d : Datagram) : List Chunk := messagesOf (packetOfBytes d.data)

/-- A datagram from the endpoint that the slot is bound to carried the message, with
the slot's actor id, at this index. The endpoint is found by the slot's remote id,
in the table of nodes. -/
def Spoke (nodes : List PeerNode) (heard : List Datagram) (slot : PeerSlot) (i : Nat) (actor : Int)
    (data : List UInt8) : Prop :=
  ∃ node, nodeAt nodes slot.remoteEnd.id = some node ∧
    ∃ d ∈ heard, d.address = node.remoteAddress ∧ d.port = node.remotePort ∧
      ∃ m ∈ d.messages, IsMessage m i actor data

/-- Only the bytes of a packet matter for its messages, not the ids that the pool
gives it. -/
theorem PacketOf.messages {nodes : List PeerNode} {d : Datagram} {p : PeerPacket}
    (h : PacketOf nodes d p) : messagesOf p = d.messages := by
  obtain ⟨hLe, hBytes⟩ := h.bytes
  have hData : d.data.take peerPacketSize = d.data := List.take_of_length_le hLe
  rw [hBytes, Datagram.messages, packetOfBytes]
  simp only [hData]
  rfl

-- ---------------------------------------------------------------------------
-- The invariant
-- ---------------------------------------------------------------------------

/-- The host holds what came in, and what came in are the datagrams: each packet of
the history has the bytes and the sender of one of them. -/
structure SpokenFor (nodes : List PeerNode) (heard : List Datagram) (queued : List (List UInt8))
    (host : Peer) (history : List PeerAction) : Prop where
  provenance : Provenance host history
  fixed : RemotesFixed (fun _ => True) host
  inputs : ∀ p ∈ inputsOf history, ∃ d ∈ heard, PacketOf nodes d p
  queued : queuedOf history ⊆ queued

section Spoken

variable {nodes nodes' : List PeerNode} {heard heard' : List Datagram}
  {queued queued' : List (List UInt8)} {host host' : Peer} {history : List PeerAction} {s : Status}

/-- What came in for a slot was in a datagram from its endpoint. -/
theorem SpokenFor.spoke (h : SpokenFor nodes heard queued host history) {slot : PeerSlot} {i : Nat}
    {actor : Int} {data : List UInt8} (hCameIn : CameIn (inputsOf history) slot i actor data) :
    Spoke nodes heard slot i actor data := by
  obtain ⟨p, hp, hSource, _, m, hm, hMessage⟩ := hCameIn
  obtain ⟨d, hd, hPacket⟩ := h.inputs p hp
  obtain ⟨node, hNode, hAddress, hPort⟩ := hPacket.source
  rw [hSource] at hNode
  exact ⟨node, hNode, d, hd, hAddress.symm, hPort.symm, m, hPacket.messages ▸ hm, hMessage⟩

/-- Nodes, datagrams and messages only get more. -/
theorem SpokenFor.mono (h : SpokenFor nodes heard queued host history) (hNodes : nodes <+: nodes')
    (hHeard : heard ⊆ heard') (hQueued : queued ⊆ queued') :
    SpokenFor nodes' heard' queued' host history where
  provenance := h.provenance
  fixed := h.fixed
  inputs p hp := by
    obtain ⟨d, hd, hPacket⟩ := h.inputs p hp
    exact ⟨d, hHeard hd, hPacket.mono hNodes⟩
  queued := List.Subset.trans h.queued hQueued

/-- **A lookup.** It appends nodes, and the history stays as it is. -/
theorem SpokenFor.resolve {pool pool' : PeerSocketPool}
    (h : SpokenFor pool.nodes heard queued host history)
    (hResolve : resolveAddressAndId pool host = .ok (s, pool', host')) :
    SpokenFor pool'.nodes heard queued host' history := by
  have hMore := h.mono (resolveAddressAndId_grows hResolve).isPrefix (List.Subset.refl heard)
    (List.Subset.refl queued)
  exact ⟨h.provenance.resolve h.fixed hResolve, h.fixed.resolve hResolve, hMore.inputs, h.queued⟩

/-- **A call of the peer**: what it inputs are datagrams, and what it queues is
queued. The call is appended to the history, and everything about the history so far
stays. -/
theorem SpokenFor.act (h : SpokenFor nodes heard queued host history) {a : PeerAction}
    {ps : List PeerPacket} (hMay : a.IsHostStep) (hAct : host.act a = .ok (s, ps, host'))
    (hInputs : ∀ p ∈ inputsOf [a], ∃ d ∈ heard, PacketOf nodes d p) (hQueued : queuedOf [a] ⊆ queued) :
    SpokenFor nodes heard queued host' (history ++ [a]) where
  provenance := h.provenance.act hMay hAct
  fixed := h.fixed.act h.provenance.mode hMay (fun _ _ => trivial) hAct
  inputs p hp := by
    rw [inputsOf_append] at hp
    exact (List.mem_append.mp hp).elim (h.inputs p) (hInputs p)
  queued := by
    rw [queuedOf_append]
    exact List.append_subset.mpr ⟨h.queued, hQueued⟩

/-- **A tick with sockets**: a lookup, an input of the datagrams, and a tick. The
sources of the packets are ids in the table as it is after receiving. -/
theorem SpokenFor.tick {pool pool' : PeerSocketPool} {e : Int} {received : Nat → ReceiveCall}
    {calls : Nat → SendCalls} {packets : List PeerPacket}
    (h : SpokenFor pool.nodes heard queued host history)
    (hTick : peerPoolTick pool host e received calls = .ok (s, packets, pool', host')) :
    ∃ history', SpokenFor pool'.nodes
      (heard ++ if e < 0 then [] else datagramsOf received 0 pool'.nodes) queued host' history' := by
  rcases peerPoolTick_cases hTick with ⟨hTime, _, rfl, rfl⟩ | ⟨s1, s2, s3, s4, pool1, host1, host2,
    incoming, hTime, hResolve, hReceive, hInput, hPeerTick⟩
  · exact ⟨history, h.mono List.prefix_rfl (List.subset_append_left _ _) (List.Subset.refl _)⟩
  rw [if_neg hTime]
  have hGrows := (receiveNodes_grows hReceive).isPrefix
  have hLooked := (h.resolve hResolve).mono hGrows
    (List.subset_append_left heard (datagramsOf received 0 pool'.nodes)) (List.Subset.refl queued)
  have hNew : ∀ p ∈ incoming, ∃ d ∈ datagramsOf received 0 pool'.nodes, PacketOf pool'.nodes d p := by
    intro p hp
    obtain ⟨d, hd, hPacket⟩ := (receiveNodes_datagrams hReceive p hp).resolve_left List.not_mem_nil
    exact ⟨d, datagramsOf_subset received 0 hGrows hd, hPacket⟩
  -- the input is part of the history now, and the datagrams are heard
  have hHeld := hLooked.act (a := .input incoming) (fun p hp => ?_) (Peer.act_input hInput)
    (fun p hp => ?_) (List.nil_subset _)
  · exact ⟨_, hHeld.act (a := .tick e) rfl hPeerTick (by simp [inputsOf]) (List.nil_subset _)⟩
  · obtain ⟨_, _, hPacket⟩ := hNew p hp
    exact hPacket.sourceId_ne
  · rw [show inputsOf [.input incoming] = incoming from List.append_nil _] at hp
    obtain ⟨d, hd, hPacket⟩ := hNew p hp
    exact ⟨d, List.mem_append_right _ hd, hPacket⟩

end Spoken

-- ---------------------------------------------------------------------------
-- Runs
-- ---------------------------------------------------------------------------

/-- **Step lemma**, whatever the host's application does, and other peers do with
the pool. A tick adds its datagrams to what was heard, and the packets that it is
given to the history; the other moves add nothing that is heard. -/
theorem SpokenFor.step {r r' : HeardHost} {a : DeployedAction} {history : List PeerAction}
    (h : SpokenFor r.deployed.pool.nodes r.heard r.queued r.deployed.host history)
    (hStep : r.step a = .ok r') :
    ∃ history', SpokenFor r'.deployed.pool.nodes r'.heard r'.queued r'.deployed.host history' := by
  obtain ⟨d, hDeployed, hEq⟩ := bind_eq_ok.mp hStep
  obtain rfl := Except.ok.inj hEq
  cases a with
  | openSockets protocol count calls =>
    obtain ⟨opened, hOpen, hEq⟩ := bind_eq_ok.mp hDeployed
    obtain ⟨_, rfl⟩ := peerPoolOpenCall_eq_ok.mp hOpen
    obtain rfl := Except.ok.inj hEq
    have hGrows := peerPoolOpen_grows r.deployed.pool r.deployed.host protocol count calls
    have hMore := h.mono hGrows.isPrefix
      (List.subset_append_left r.heard []) (List.subset_append_left r.queued [])
    -- without sockets for them no slots are opened
    rcases peerPoolOpen_host r.deployed.pool r.deployed.host protocol count calls with
      hSame | ⟨ids, hIds⟩
    · exact ⟨history, hSame.symm ▸ hMore⟩
    · refine ⟨history ++ [.openSlots (some ids)], ?_⟩
      have hAct : r.deployed.host.act (.openSlots (some ids)) =
        .ok (_, [], (peerOpen r.deployed.host (some ids)).2) := rfl
      exact hIds.symm ▸ hMore.act rfl hAct (by simp [inputsOf]) (List.nil_subset _)
  | queue messageData =>
    obtain rfl := Except.ok.inj hDeployed
    have hMore := h.mono List.prefix_rfl (List.subset_append_left r.heard [])
      (List.subset_append_left r.queued messageData.toList)
    refine ⟨history ++ [.queue messageData], ?_⟩
    have hAct : r.deployed.host.act (.queue messageData) =
      .ok (_, [], (peerQueue r.deployed.host messageData).2) := rfl
    refine hMore.act rfl hAct (by simp [inputsOf]) ?_
    have hOwn : queuedOf [.queue messageData] = messageData.toList := by cases messageData <;> rfl
    rw [hOwn]
    exact List.subset_append_right _ _
  | tick e received calls =>
    obtain ⟨⟨s, packets, pool, host⟩, hTick, hEq⟩ := bind_eq_ok.mp hDeployed
    obtain rfl := Except.ok.inj hEq
    obtain ⟨history', hTicked⟩ := h.tick hTick
    exact ⟨history', hTicked.mono List.prefix_rfl (List.Subset.refl _) (List.subset_append_left _ _)⟩
  | other a =>
    obtain ⟨pool, hPool, hEq⟩ := bind_eq_ok.mp hDeployed
    obtain rfl := Except.ok.inj hEq
    exact ⟨history, h.mono (PeerSocketPool.step_grows hPool).isPrefix (List.subset_append_left _ _)
      (List.subset_append_left _ _)⟩

/-- **Nobody speaks for another endpoint.** In every state that a deployed host
reaches, whatever datagrams it receives from wherever and whatever is refused by
the allocators, the messages that a slot holds were in datagrams from the
address and port of the endpoint that the slot is bound to, for the slot's actor
id; and the messages of the mutual queue are those, under that actor id, or what
the host's application has queued, under its own. -/
theorem speakers_of_reaches {alloc hostAlloc : Allocator} {inPlace : Nat → Bool} {rng : Mt64}
    {r : HeardHost}
    (hReach : Reaches HeardHost.step (fun _ _ _ => True)
      (HeardHost.start alloc hostAlloc inPlace rng) r) :
    (∀ (j : Nat) (slot : PeerSlot), r.deployed.host.slots[j]? = some slot →
      ∀ (i : Nat) (m : PeerMessage), slot.queue[i]? = some m → m.isReady = true →
        Spoke r.deployed.pool.nodes r.heard slot i j m.data) ∧
    ∀ m ∈ r.deployed.host.queue, (m.actor = 0 ∧ m.data ∈ r.queued) ∨
      ∃ (j : Nat) (slot : PeerSlot) (i : Nat), 1 ≤ j ∧ m.actor = j ∧
        r.deployed.host.slots[j]? = some slot ∧ Spoke r.deployed.pool.nodes r.heard slot i j m.data := by
  -- The history of inputs is no part of the state, so the invariant is that there is one.
  obtain ⟨history, h⟩ : ∃ history,
      SpokenFor r.deployed.pool.nodes r.heard r.queued r.deployed.host history := by
    refine hReach.invariant (I := fun r => ∃ history,
      SpokenFor r.deployed.pool.nodes r.heard r.queued r.deployed.host history) ?_ ?_
    · rintro _ _ _ ⟨history, hBefore⟩ hStep _
      exact hBefore.step hStep
    · exact ⟨[], provenance_peerInit hostAlloc rng, by simp [RemotesFixed, HeardHost.start, peerInit],
        by simp [inputsOf], List.nil_subset _⟩
  refine ⟨fun j slot hSlot i m hm hReady => ?_, fun m hm => ?_⟩
  · exact h.spoke ((h.provenance.slot j slot hSlot).entry i m hm hReady)
  rcases h.provenance.entry m hm with ⟨hZero, hQueued⟩ | ⟨j, slot, i, hj, hActor, hSlot, _, hCameIn⟩
  · exact Or.inl ⟨hZero, h.queued hQueued⟩
  · exact Or.inr ⟨j, slot, i, hj, hActor, hSlot, h.spoke hCameIn⟩

/-- The bytes of a message under the actor id 1, which a client has not stamped. -/
def firstMessageBytes : List UInt8 := firstMessage.data.elems.take firstMessage.size.toNat

/-- The host lends its second slot, which speaks at node 1, to the endpoint with
port 9. The same message arrives there from another port, and then from it. -/
def impostorRun : List DeployedAction :=
  [.openSockets peerUdpIPv4 2 hostCalls, .tick 0 (arrivesAt 0 [1] 9) sendsAll,
    .tick 0 (arrivesAt 1 firstMessageBytes 8) sendsAll,
    .tick 0 (arrivesAt 1 firstMessageBytes 9) sendsAll, .queue (some [72])]

/-- An impostor sends the same message from another port: it is merged once, as a
message of the endpoint with port 9. -/
theorem speakers_of_reaches_impostor : ∃ r : HeardHost,
    (r.heard.map (·.port) = [9, 8, 9] ∧
      r.deployed.host.queue.map (fun m => (m.actor, m.data)) = [(1, [9]), (0, [72])]) ∧
    (∀ (j : Nat) (slot : PeerSlot), r.deployed.host.slots[j]? = some slot →
      ∀ (i : Nat) (m : PeerMessage), slot.queue[i]? = some m → m.isReady = true →
        Spoke r.deployed.pool.nodes r.heard slot i j m.data) ∧
    ∀ m ∈ r.deployed.host.queue, (m.actor = 0 ∧ m.data ∈ r.queued) ∨
      ∃ (j : Nat) (slot : PeerSlot) (i : Nat), 1 ≤ j ∧ m.actor = j ∧
        r.deployed.host.slots[j]? = some slot ∧ Spoke r.deployed.pool.nodes r.heard slot i j m.data := by
  obtain ⟨r, hReach, hTest⟩ : ∃ r, Reaches HeardHost.step (fun _ _ _ => True)
      (HeardHost.start .reliable .reliable (fun _ => true) ⟨fun _ => 0⟩) r ∧
        decide (r.heard.map (·.port) = [9, 8, 9] ∧
          r.deployed.host.queue.map (fun m => (m.actor, m.data)) = [(1, [9]), (0, [72])]) = true :=
    exists_reaches_of_runGuarded (fun _ _ _ => true) (fun _ _ _ _ => trivial) impostorRun _
      (fun r : HeardHost => decide (r.heard.map (·.port) = [9, 8, 9] ∧
        r.deployed.host.queue.map (fun m => (m.actor, m.data)) = [(1, [9]), (0, [72])]))
      (by decide +kernel)
  exact ⟨r, of_decide_eq_true hTest, speakers_of_reaches hReach⟩

end PeerProtocol
