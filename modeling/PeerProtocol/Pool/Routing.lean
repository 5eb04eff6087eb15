import PeerProtocol.Peer.Provenance
import PeerProtocol.Pool.SessionAddress

/-!
# peer — where a host sends

A host knows its clients by ids only. The pool turns ids into calls of
`sendto`, and it turns the sender of a datagram into an id. This module
follows an id through both: from the datagram, through the binding of a slot,
to the packets of a tick, and to the address that the pool sends them to.

The setting is `Deployed`: a host with its pool, what it has sent, the senders
and the datagrams so far. Between the calls of the host other peers may use
the pool with any calls, since an application can run several over one pool.

The invariant is `Routed`. Every slot of the host that is in use is bound, its
remote id is resolved, and it is the id of an endpoint from which a datagram
has come (`HeardId`). What keeps it in each call:

* a turn of `resolve_address_and_id` looks up an id only for a slot that has
  none, and so leaves the remote end of a bound slot alone (`SlotLooked`);
* `peer_input` binds a slot to the source of a packet, and these packets are
  datagrams whose sources the pool has looked up (`receiveNodes_datagrams`);
* `peer_tick` sends for slots in use only, from their own ids, and begins to
  use none;
* `peer_pool_open` adds slots that are not in use.

`routing_of_reaches` is the result: every call of `sendto` that the host has
made, in any run, names a socket of one of its own slots and an endpoint that
a datagram has come from. The host answers, and never sends on its own.

The host's allocator is the reliable one. After a refused request a packet can
be sent whose ids were never written, and those may name any node.
-/

namespace PeerProtocol

open Lib

-- ---------------------------------------------------------------------------
-- Calls of sendto
-- ---------------------------------------------------------------------------

/-- What a call says, in terms of the nodes: the socket of the packet's source, the
address and the port of its destination. -/
theorem sendTo_eq_some {calls : SendCalls} {nodes : List PeerNode} {packet : PeerPacket}
    {call : SendTo} (h : sendTo calls nodes packet = some call) :
    ∃ src dst, nodeAt nodes packet.sourceId = some src ∧
      nodeAt nodes packet.destinationId = some dst ∧ call.socket = src.socket ∧
      call.address = dst.addressArray ∧ call.port = dst.remotePort := by
  unfold sendTo at h
  split at h
  · next src dst hSrc hDst =>
    split at h
    · cases h
    · obtain rfl := Option.some.inj h
      exact ⟨src, dst, hSrc, hDst, rfl, rfl, rfl⟩
  · cases h

/-- Each call of a tick is made for one of its packets. -/
theorem mem_sendTos {calls : Nat → SendCalls} {nodes : List PeerNode} {k : Nat}
    {packets : List PeerPacket} {call : SendTo} (h : call ∈ sendTos calls nodes k packets) :
    ∃ p ∈ packets, ∃ i, sendTo (calls i) nodes p = some call := by
  induction packets generalizing k with
  | nil => cases h
  | cons p packets ih =>
    rcases List.mem_append.mp h with hFirst | hRest
    · exact ⟨p, List.mem_cons_self .., k, Option.mem_toList.mp hFirst⟩
    · obtain ⟨q, hq, hCall⟩ := ih hRest
      exact ⟨q, List.mem_cons_of_mem _ hq, hCall⟩

-- ---------------------------------------------------------------------------
-- Endpoints that were heard
-- From a datagram to the source id of its packet.
-- ---------------------------------------------------------------------------

/-- The id of an endpoint from which a datagram has come: the node at the id has the
address and the port of one of the senders. -/
def HeardId (nodes : List PeerNode) (senders : List (List UInt8 × UInt16)) (id : Int) : Prop :=
  ∃ node, nodeAt nodes id = some node ∧ (node.remoteAddress, node.remotePort) ∈ senders

/-- Nodes are only appended and senders only added, so such an id stays one. -/
theorem HeardId.mono {nodes nodes' : List PeerNode} {senders senders' : List (List UInt8 × UInt16)}
    {id : Int} (h : HeardId nodes senders id) (hNodes : nodes <+: nodes')
    (hSenders : senders ⊆ senders') : HeardId nodes' senders' id := by
  obtain ⟨node, hNode, hSender⟩ := h
  exact ⟨node, nodeAt_of_isPrefix hNodes hNode, hSenders hSender⟩

/-- It is an id of a node, and −1 is none. -/
theorem HeardId.ne_undefined {nodes : List PeerNode} {senders : List (List UInt8 × UInt16)} {id : Int}
    (h : HeardId nodes senders id) : id ≠ peerUndefined := by
  rintro rfl
  obtain ⟨node, hNode, _⟩ := h
  cases hNode

/-- The senders that a loop over the nodes takes note of are those of its datagrams. -/
theorem sendersOf_eq_map (received : Nat → ReceiveCall) (i : Nat) (nodes : List PeerNode) :
    sendersOf received i nodes = (datagramsOf received i nodes).map fun d => (d.address, d.port) := by
  induction nodes generalizing i with
  | nil => rfl
  | cons node nodes ih =>
    rw [sendersOf, datagramsOf, List.map_append, ih]
    cases received i with
    | again => rfl
    | failed => rfl
    | datagram data _ address port =>
      dsimp only
      split <;> rfl

/-- The loop over the nodes is over those that there were at its beginning; with the
new ones behind them, there could only be more datagrams. -/
theorem datagramsOf_subset (received : Nat → ReceiveCall) {nodes nodes' : List PeerNode} (i : Nat)
    (h : nodes <+: nodes') : datagramsOf received i nodes ⊆ datagramsOf received i nodes' := by
  obtain ⟨more, rfl⟩ := h
  induction nodes generalizing i with
  | nil => exact List.nil_subset _
  | cons node nodes ih =>
    rw [List.cons_append, datagramsOf, datagramsOf]
    exact List.append_subset.mpr ⟨List.subset_append_left _ _,
      List.Subset.trans (ih (i + 1)) (List.subset_append_right _ _)⟩

/-- A packet with the bytes of a datagram, whose source is the node of its sender.
Its destination is the node of the socket that the datagram came to, which plays no
part here. -/
structure PacketOf (nodes : List PeerNode) (d : Datagram) (p : PeerPacket) : Prop where
  source : ∃ node, nodeAt nodes p.sourceId = some node ∧ node.remoteAddress = d.address ∧
    node.remotePort = d.port
  bytes : ∃ h : d.data.length ≤ peerPacketSize,
    p = receivedPacket p.sourceId p.destinationId d.data h

/-- A lookup for a later datagram appends, so what a packet's source id stands for
stays. -/
theorem PacketOf.mono {nodes nodes' : List PeerNode} {d : Datagram} {p : PeerPacket}
    (h : PacketOf nodes d p) (hNodes : nodes <+: nodes') : PacketOf nodes' d p := by
  obtain ⟨⟨node, hNode, hSender⟩, hBytes⟩ := h
  exact ⟨⟨node, nodeAt_of_isPrefix hNodes hNode, hSender⟩, hBytes⟩

/-- One turn of the loop over the nodes adds a packet of a datagram at most. Its
source is the node of the sender, which the turn finds or appends, and the nodes
that were there keep their places. -/
theorem receiveNode_datagrams {received : Nat → ReceiveCall} {pool pool' : PeerSocketPool} {i : Nat}
    {node : PeerNode} (nodes : List PeerNode) {packets packets' : List PeerPacket} {s : Status}
    (h : receiveNode (received i) pool i node packets = .ok (s, pool', packets')) :
    ∀ p ∈ packets', p ∈ packets ∨
      ∃ d ∈ datagramsOf received i (node :: nodes), PacketOf pool'.nodes d p := by
  have hEnd {s1 : Status} {pool1 : PeerSocketPool}
      (hEq : (.ok (s1, pool1, packets) : Except Fault _) = .ok (s, pool', packets')) :
      ∀ p ∈ packets', p ∈ packets ∨
        ∃ d ∈ datagramsOf received i (node :: nodes), PacketOf pool'.nodes d p := by
    obtain ⟨_, hRest⟩ := Prod.mk.inj (Except.ok.inj hEq)
    obtain ⟨_, rfl⟩ := Prod.mk.inj hRest
    exact fun p hp => Or.inl hp
  unfold receiveNode at h
  split at h
  · exact hEnd h
  next hSocket =>
  split at h
  · exact hEnd h
  · exact hEnd h
  next data data_le address port hReceived =>
  split at h
  · exact hEnd h
  next hData =>
  obtain ⟨⟨s1, id, pool1⟩, hFind, h⟩ := bind_eq_ok.mp h
  dsimp only at h
  split at h
  · exact hEnd h
  next hOk =>
  obtain rfl : s1 = kitOk := not_not.mp hOk
  split at h
  · exact hEnd h
  · obtain ⟨_, hRest⟩ := Prod.mk.inj (Except.ok.inj h)
    obtain ⟨rfl, rfl⟩ := Prod.mk.inj hRest
    intro p hp
    rcases List.mem_append.mp hp with hOld | hNew
    · exact Or.inl hOld
    -- the node that was found is the sender's
    · obtain ⟨found, hNode, hEndpoint⟩ := nodeAt_of_findPoolNode hFind
      obtain ⟨_, hPort, hAddress⟩ := remote_of_isEndpoint hEndpoint
      rw [List.mem_singleton.mp hNew]
      refine Or.inr ⟨⟨data, address, port⟩, ?_, ⟨found, hNode, hAddress, hPort⟩, data_le, rfl⟩
      rw [datagramsOf, hReceived]
      dsimp only
      rw [if_neg (by tauto)]
      exact List.mem_append_left _ (List.mem_singleton_self _)

/-- **What is received** are the datagrams: each packet of the loop, by induction on
the nodes, was there before or has the bytes and the sender of a datagram. -/
theorem receiveNodes_datagrams {received : Nat → ReceiveCall} {i : Nat} {nodes : List PeerNode}
    {pool pool' : PeerSocketPool} {packets packets' : List PeerPacket} {s : Status}
    (h : receiveNodes received i nodes pool packets = .ok (s, pool', packets')) :
    ∀ p ∈ packets', p ∈ packets ∨ ∃ d ∈ datagramsOf received i nodes, PacketOf pool'.nodes d p := by
  induction nodes generalizing i pool packets s with
  | nil =>
    obtain ⟨_, hRest⟩ := Prod.mk.inj (Except.ok.inj h)
    obtain ⟨_, rfl⟩ := Prod.mk.inj hRest
    exact fun p hp => Or.inl hp
  | cons node nodes ih =>
    obtain ⟨⟨s1, pool1, packets1⟩, hFirst, h⟩ := bind_eq_ok.mp h
    obtain ⟨⟨s2, pool2, packets2⟩, hRest, h⟩ := bind_eq_ok.mp h
    obtain ⟨_, hEq⟩ := Prod.mk.inj (Except.ok.inj h)
    obtain ⟨rfl, rfl⟩ := Prod.mk.inj hEq
    intro p hp
    -- The packet was there before the rest of the loop, or one of its datagrams gave it.
    rcases ih hRest p hp with hBefore | ⟨d, hd, hPacket⟩
    · refine (receiveNode_datagrams nodes hFirst p hBefore).imp id ?_
      rintro ⟨d, hd, hPacket⟩
      exact ⟨d, hd, hPacket.mono (receiveNodes_grows hRest).isPrefix⟩
    · refine Or.inr ⟨d, ?_, hPacket⟩
      rw [datagramsOf]
      exact List.mem_append_right _ hd

/-- The source id of a packet from a socket is never `PEER_UNDEFINED`. -/
theorem PacketOf.sourceId_ne {nodes : List PeerNode} {d : Datagram} {p : PeerPacket}
    (h : PacketOf nodes d p) : p.sourceId ≠ peerUndefined := by
  obtain ⟨⟨node, hNode, _⟩, _⟩ := h
  rintro hNone
  rw [hNone] at hNode
  cases hNode

/-- It is the id of an endpoint that was heard, once the sender is taken note of. -/
theorem PacketOf.heardId {nodes : List PeerNode} {d : Datagram} {p : PeerPacket}
    (h : PacketOf nodes d p) {senders : List (List UInt8 × UInt16)}
    (hSender : (d.address, d.port) ∈ senders) : HeardId nodes senders p.sourceId := by
  obtain ⟨⟨node, hNode, hAddress, hPort⟩, _⟩ := h
  exact ⟨node, hNode, by rw [hAddress, hPort]; exact hSender⟩

-- ---------------------------------------------------------------------------
-- Slots
-- What a turn of resolve_address_and_id can do to a slot that is in use.
-- ---------------------------------------------------------------------------

/-- What a turn of `resolve_address_and_id` leaves of a slot: its ids, unless it had
no resolved one, its state, and all that a tick reads to make packets. -/
structure SlotLooked (slot slot' : PeerSlot) : Prop where
  localId : slot'.localEnd.id = slot.localEnd.id
  address : slot.localEnd.AddressFits → slot'.localEnd.AddressFits
  state : slot'.state = slot.state
  queue : slot'.queue = slot.queue
  outIndex : slot'.outIndex = slot.outIndex
  resolved : slot.remoteEnd.isIdResolved = true →
    slot'.remoteEnd.isIdResolved = true ∧ slot'.remoteEnd.id = slot.remoteEnd.id

/-- A part that is skipped leaves everything. -/
theorem slotLooked_refl (slot : PeerSlot) : SlotLooked slot slot :=
  ⟨rfl, id, rfl, rfl, rfl, fun h => ⟨h, rfl⟩⟩

/-- Two parts of a turn, one after the other. -/
theorem SlotLooked.trans {slot slot' slot'' : PeerSlot} (h : SlotLooked slot slot')
    (h' : SlotLooked slot' slot'') : SlotLooked slot slot'' where
  localId := h'.localId.trans h.localId
  address hFits := h'.address (h.address hFits)
  state := h'.state.trans h.state
  queue := h'.queue.trans h.queue
  outIndex := h'.outIndex.trans h.outIndex
  resolved hResolved := by
    obtain ⟨hFirst, hId⟩ := h.resolved hResolved
    exact (h'.resolved hFirst).imp id fun hId' => hId'.trans hId

/-- What a slot is able to send is left as it is, so the invariants of sending carry
over a lookup. -/
theorem SlotLooked.sendInv {q : PeerQueue} {slot slot' : PeerSlot} (h : SlotLooked slot slot')
    (hOld : SlotSendInv q slot) : SlotSendInv q slot' where
  cursor := h.outIndex ▸ hOld.cursor
  address := h.address hOld.address
  received := h.queue ▸ hOld.received
  sent := h.outIndex ▸ hOld.sent

/-- The first part writes the local address. -/
theorem slotLooked_localAddress (slot : PeerSlot) (nodes : List PeerNode) :
    SlotLooked slot (slot.resolveLocalAddress nodes).2 := by
  unfold PeerSlot.resolveLocalAddress
  split
  · split
    · exact slotLooked_refl slot
    · exact ⟨rfl, fun _ => ⟨by simp, by simp⟩, rfl, rfl, rfl, fun h => ⟨h, rfl⟩⟩
  · exact slotLooked_refl slot

/-- The second one the remote address, which a host does not read. -/
theorem slotLooked_remoteAddress {slot slot' : PeerSlot} {nodes : List PeerNode} {s : Status}
    (h : slot.resolveRemoteAddress nodes = .ok (s, slot')) : SlotLooked slot slot' := by
  unfold PeerSlot.resolveRemoteAddress at h
  split at h
  · split at h
    · obtain ⟨_, rfl⟩ := Prod.mk.inj (Except.ok.inj h)
      exact slotLooked_refl slot
    split at h
    · obtain ⟨_, rfl⟩ := Prod.mk.inj (Except.ok.inj h)
      exact ⟨rfl, id, rfl, rfl, rfl, fun h => ⟨h, rfl⟩⟩
    · cases h
  · obtain ⟨_, rfl⟩ := Prod.mk.inj (Except.ok.inj h)
    exact slotLooked_refl slot

/-- The other two write the remote id, of a slot that has none. -/
theorem IdLookup.looked {pool pool' : PeerSocketPool} {slot slot' : PeerSlot}
    (h : IdLookup pool slot pool' slot') : SlotLooked slot slot' := by
  cases h with
  | skip => exact slotLooked_refl slot
  | found hUnresolved =>
    unfold PeerSlot.found
    split
    -- only an id that was not resolved is looked up
    · refine ⟨rfl, id, rfl, rfl, rfl, fun hResolved => ?_⟩
      rw [hUnresolved] at hResolved
      cases hResolved
    · exact slotLooked_refl slot

/-- A whole turn, from its parts. -/
theorem slotLooked_resolveSlot {pool pool' : PeerSocketPool} {slot slot' : PeerSlot} {s : Status}
    (h : resolveSlot pool slot = .ok (s, pool', slot')) : SlotLooked slot slot' := by
  obtain ⟨_, _, _, _, hRemote, hPort, hAddress⟩ := resolveSlot_cases h
  exact (((slotLooked_localAddress slot pool.nodes).trans (slotLooked_remoteAddress hRemote)).trans
    hPort.looked).trans hAddress.looked

/-- **The loop over the slots** does to each slot what a turn does, whichever pools
the turns find: a relation that every turn establishes holds slot by slot. -/
theorem resolveSlots_forall₂ {Q : PeerSlot → PeerSlot → Prop} {pool pool' : PeerSocketPool}
    {slots slots' : List PeerSlot} {s : Status}
    (hTurn : ∀ slot ∈ slots, ∀ {pool pool' : PeerSocketPool} {slot' : PeerSlot} {s : Status},
      resolveSlot pool slot = .ok (s, pool', slot') → Q slot slot')
    (h : resolveSlots pool slots = .ok (s, pool', slots')) : List.Forall₂ Q slots slots' := by
  induction slots generalizing pool slots' s with
  | nil =>
    obtain ⟨_, hRest⟩ := Prod.mk.inj (Except.ok.inj h)
    obtain ⟨_, rfl⟩ := Prod.mk.inj hRest
    exact .nil
  | cons slot slots ih =>
    obtain ⟨⟨s1, pool1, slot1⟩, hFirst, h⟩ := bind_eq_ok.mp h
    obtain ⟨⟨s2, pool2, slots2⟩, hRest, h⟩ := bind_eq_ok.mp h
    obtain ⟨_, hEq⟩ := Prod.mk.inj (Except.ok.inj h)
    obtain ⟨rfl, rfl⟩ := Prod.mk.inj hEq
    exact .cons (hTurn slot (List.mem_cons_self ..) hFirst)
      (ih (fun later hLater => hTurn later (List.mem_cons_of_mem _ hLater)) hRest)

/-- Each slot after the loop is one before it, as a turn leaves it. -/
theorem resolveSlots_looked {pool pool' : PeerSocketPool} {slots slots' : List PeerSlot} {s : Status}
    (h : resolveSlots pool slots = .ok (s, pool', slots')) :
    ∀ slot' ∈ slots', ∃ slot ∈ slots, SlotLooked slot slot' :=
  fun _ hSlot' => exists_of_forall₂_right
    (resolveSlots_forall₂ (fun _ _ => slotLooked_resolveSlot) h) hSlot'

/-- A lookup of a peer is the loop over its slots, and changes nothing else of the
peer. -/
theorem resolveSlots_of_resolve {pool pool' : PeerSocketPool} {peer peer' : Peer} {s : Status}
    (h : resolveAddressAndId pool peer = .ok (s, pool', peer')) :
    ∃ slots, peer' = { peer with slots := slots } ∧
      resolveSlots pool peer.slots = .ok (s, pool', slots) := by
  obtain ⟨⟨s1, pool1, slots⟩, hSlots, hEq⟩ := bind_eq_ok.mp h
  obtain ⟨rfl, hRest⟩ := Prod.mk.inj (Except.ok.inj hEq)
  obtain ⟨rfl, rfl⟩ := Prod.mk.inj hRest
  exact ⟨slots, rfl, hSlots⟩

-- ---------------------------------------------------------------------------
-- The host
-- What each call of the host does to Routed.
-- ---------------------------------------------------------------------------

/-- A host whose slots in use are bound to endpoints that it has heard. That their
ids are resolved is part of it, since a lookup would otherwise change them. -/
structure Routed (nodes : List PeerNode) (senders : List (List UInt8 × UInt16)) (host : Peer) : Prop
    extends HostSendInv host where
  bound : ∀ slot ∈ host.slots, slot.state ≠ .empty →
    slot.remoteEnd.isIdResolved = true ∧ HeardId nodes senders slot.remoteEnd.id

/-- The host has a slot with this local id, which `peer_pool_open` has given it. -/
def OwnId (host : Peer) (id : Int) : Prop := ∃ slot ∈ host.slots, slot.localEnd.id = id

/-- Local ids are never changed, so an id that is the host's own stays so. -/
theorem SlotIdsKept.ownId {host host' : Peer} (h : SlotIdsKept host host') {id : Int}
    (hOwn : OwnId host id) : OwnId host' id := by
  obtain ⟨slot, hSlot, rfl⟩ := hOwn
  obtain ⟨j, hj⟩ := List.mem_iff_getElem?.mp hSlot
  obtain ⟨slot', hSlot', hKept⟩ := h j slot hj
  exact ⟨slot', List.mem_of_getElem? hSlot', hKept.localId⟩

section Host

variable {nodes nodes' : List PeerNode} {senders senders' : List (List UInt8 × UInt16)}
  {host host' : Peer} {s : Status}

/-- What happens elsewhere, to the pool or to the senders, keeps the invariant. -/
theorem Routed.mono (h : Routed nodes senders host) (hNodes : nodes <+: nodes')
    (hSenders : senders ⊆ senders') : Routed nodes' senders' host where
  toHostSendInv := h.toHostSendInv
  bound slot hSlot hState := (h.bound slot hSlot hState).imp id fun hHeard =>
    hHeard.mono hNodes hSenders

/-- A lookup of a peer grows the table of nodes. -/
theorem resolveAddressAndId_grows {pool pool' : PeerSocketPool}
    (hResolve : resolveAddressAndId pool host = .ok (s, pool', host')) :
    NodesGrow pool.nodes pool'.nodes := by
  obtain ⟨slots, _, hSlots⟩ := resolveSlots_of_resolve hResolve
  exact resolveSlots_grows hSlots

/-- **Looking up** leaves the slots in use alone: their remote ids are resolved
already, so neither of the two lookups is made, and only their addresses may be
written. -/
theorem Routed.resolve {pool pool' : PeerSocketPool} (h : Routed pool.nodes senders host)
    (hResolve : resolveAddressAndId pool host = .ok (s, pool', host')) :
    Routed pool'.nodes senders host' ∧ ∀ id, OwnId host id → OwnId host' id := by
  obtain ⟨slots, rfl, hSlots⟩ := resolveSlots_of_resolve hResolve
  refine ⟨⟨⟨h.mode, h.alloc, fun slot' hSlot' => ?_⟩, fun slot' hSlot' hState => ?_⟩, ?_⟩
  · obtain ⟨slot, hSlot, hLooked⟩ := resolveSlots_looked hSlots slot' hSlot'
    exact hLooked.sendInv (h.slot slot hSlot)
  · obtain ⟨slot, hSlot, hLooked⟩ := resolveSlots_looked hSlots slot' hSlot'
    rw [hLooked.state] at hState
    obtain ⟨hResolved, hHeard⟩ := h.bound slot hSlot hState
    -- its remote id was received with a packet, and is not looked up
    obtain ⟨hStill, hId⟩ := hLooked.resolved hResolved
    rw [hId]
    exact ⟨hStill, hHeard.mono (resolveSlots_grows hSlots).isPrefix (List.Subset.refl _)⟩
  · rintro id ⟨slot, hSlot, rfl⟩
    obtain ⟨j, hj⟩ := List.mem_iff_getElem?.mp hSlot
    obtain ⟨_, _, _, slot', _, hTurn, hSlot'⟩ := turn_of_resolveSlots hSlots hj
    exact ⟨slot', List.mem_of_getElem? hSlot', (slotLooked_resolveSlot hTurn).localId⟩

/-- **An input** of packets from endpoints that were heard: the slot that such a
packet binds takes its source, and the others keep theirs. -/
theorem Routed.input {packets : List PeerPacket} (h : Routed nodes senders host)
    (hHeard : ∀ p ∈ packets, HeardId nodes senders p.sourceId)
    (hInput : peerInput host packets = .ok (s, host')) : Routed nodes senders host' := by
  have hSend : HostSendInv host' :=
    h.toHostSendInv.step (Peer.step_eq_ok.mpr ⟨s, [], Peer.act_input hInput⟩)
  refine ⟨hSend, fun slot' hSlot' => ?_⟩
  obtain ⟨j, hj⟩ := List.mem_iff_getElem?.mp hSlot'
  refine slots_input (P := fun _ slot => slot.state ≠ .empty →
    slot.remoteEnd.isIdResolved = true ∧ HeardId nodes senders slot.remoteEnd.id)
    (fun _ slot hSlot => h.bound slot (List.mem_of_getElem? hSlot)) h.mode ?_ ?_ hInput j slot' hj
  · exact fun _ _ _ _ _ _ hOld => hOld
  -- a slot that is assigned is bound to the packet's source
  · exact fun _ _ packet hPacket _ _ _ _ => ⟨rfl, hHeard packet hPacket⟩

/-- A slot's packets go out under its own local id or, for a session response, under
that of the slot that the request has arrived at. -/
theorem SlotPosts.sourceId {listenId time actor : Int} {queue : PeerQueue} {slot slot' : PeerSlot}
    {ps : List PeerPacket} (h : SlotPosts listenId time actor queue slot slot' ps) :
    ∀ p ∈ ps, p.sourceId = listenId ∨ p.sourceId = slot.localEnd.id := by
  intro p hp
  cases h with
  | idle => simp at hp
  | response _ _ hCarried => exact Or.inl (hCarried.between p hp).1
  | messages _ _ _ hPosted => exact Or.inr (hPosted.1 p hp).1
  | heartbeat _ _ _ _ hPosted => exact Or.inr (hPosted.1 p hp).1

/-- A tick does not begin to use a slot: of the states of a slot it changes only
that of one with a request, and binding is done by input alone. -/
theorem empty_of_peerTick_host {e : Int} {packets : List PeerPacket} (h : HostSendInv host)
    (hTick : peerTick host e = .ok (s, packets, host')) {j : Nat} {slot slot' : PeerSlot}
    (hSlot : host.slots[j]? = some slot) (hEmpty : slot.state = .empty)
    (hSlot' : host'.slots[j]? = some slot') : slot'.state = .empty := by
  by_cases hValid : ValidElapsed host e
  swap
  · obtain ⟨_, _, rfl⟩ := eq_of_peerTick_invalid hValid hTick
    rw [hSlot, Option.some.injEq] at hSlot'
    exact hSlot' ▸ hEmpty
  have hCursor := fun slot hSlot => (h.slot slot hSlot).cursor
  rcases Nat.eq_zero_or_pos j with rfl | hPos
  -- the first slot only listens
  · rw [(peerTick_host_ticked h.mode h.alloc hValid hCursor hTick).first, hSlot] at hSlot'
    rw [← Option.some.inj hSlot']
    simpa using hEmpty
  · obtain ⟨sent, hSlots, _, hAll⟩ := peerTick_host_posts h.mode h.alloc hValid hCursor hTick
    obtain ⟨after, ps, hAfter, hPosts⟩ := slot_of_posts hSlots hAll hPos hSlot
    rw [hAfter, Option.some.injEq] at hSlot'
    have hMerged : (slot.tickClock e).merged.state = .empty := by simpa using hEmpty
    rw [← hSlot', (hPosts.of_empty hMerged).1]
    exact hMerged

/-- **A tick** sends between the host's own ids and the ids that its slots in use
are bound to. The allocator refuses nothing, so every packet is one that `peer_pack`
has filled. -/
theorem peerTick_host_routes {e : Int} {packets : List PeerPacket} (h : HostSendInv host)
    (hTick : peerTick host e = .ok (s, packets, host')) : ∀ p ∈ packets, OwnId host p.sourceId ∧
      ∃ slot ∈ host.slots, slot.state ≠ .empty ∧ p.destinationId = slot.remoteEnd.id := by
  by_cases hValid : ValidElapsed host e
  swap
  · obtain ⟨_, rfl, _⟩ := eq_of_peerTick_invalid hValid hTick
    simp
  obtain ⟨sent, _, rfl, hAll⟩ := peerTick_host_posts h.mode h.alloc hValid
    (fun slot hSlot => (h.slot slot hSlot).cursor) hTick
  intro p hp
  obtain ⟨ps, hps, hMem⟩ := List.mem_flatten.mp hp
  obtain ⟨r, hr, rfl⟩ := List.mem_map.mp hps
  obtain ⟨merged, hMerged, hPosts⟩ := exists_of_forall₂_right hAll hr
  obtain ⟨slot, hSlot, rfl⟩ := List.mem_map.mp hMerged
  have hMember := List.mem_of_mem_tail hSlot
  obtain ⟨hState, hDestination⟩ := hPosts.destinationId p hMem
  rw [merged_state, tickClock_state] at hState
  rw [merged_remoteEnd, tickClock_remoteEnd] at hDestination
  refine ⟨?_, slot, hMember, hState, hDestination⟩
  rcases hPosts.sourceId p hMem with hListen | hOwn
  -- a response goes out from the listening slot
  · cases hSlots : host.slots with
    | nil =>
      rw [hSlots] at hMember
      cases hMember
    | cons first slots =>
      refine ⟨first, by rw [hSlots]; exact List.mem_cons_self .., ?_⟩
      rw [hListen, Peer.listenId, hSlots]
      rfl
  · exact ⟨slot, hMember, by rw [hOwn, merged_localEnd, tickClock_localEnd]⟩

/-- A tick changes no remote end of a slot in use. -/
theorem Routed.tick {e : Int} {packets : List PeerPacket} (h : Routed nodes senders host)
    (hTick : peerTick host e = .ok (s, packets, host')) : Routed nodes senders host' := by
  refine ⟨h.toHostSendInv.step (a := .tick e) (Peer.step_eq_ok.mpr ⟨s, packets, hTick⟩), ?_⟩
  intro slot' hSlot' hState
  obtain ⟨j, hj⟩ := List.mem_iff_getElem?.mp hSlot'
  obtain ⟨slot, hSlot, hTicked⟩ := getElem?_of_forall₂_right (peerTick_frame hTick).slots hj
  rw [hTicked.remoteEnd]
  exact h.bound slot (List.mem_of_getElem? hSlot) fun hEmpty =>
    hState (empty_of_peerTick_host h.toHostSendInv hTick hSlot hEmpty hj)

/-- What `peer_pool_open` does to the peer is what `peer_open` does with the ids of
the new nodes, if it comes to that. -/
theorem peerPoolOpen_host (pool : PeerSocketPool) (host : Peer) (protocol count : Int)
    (calls : Nat → SocketCalls) :
    (peerPoolOpen pool host protocol count calls).2.2.2 = host ∨
      ∃ ids, (peerPoolOpen pool host protocol count calls).2.2.2 = (peerOpen host (some ids)).2 := by
  have hIds (pool : PeerSocketPool) (n count : Nat) : (openIds pool host n count).2.2 = host ∨
      ∃ ids, (openIds pool host n count).2.2 = (peerOpen host (some ids)).2 := by
    unfold openIds
    split
    · exact Or.inl rfl
    · exact Or.inr ⟨_, rfl⟩
  unfold peerPoolOpen
  split
  · exact Or.inl rfl
  by_cases hOk : (openProtocol pool protocol count.toNat calls).1 = kitOk
  · simp only [if_pos hOk]
    split <;> exact hIds ..
  · simp only [if_neg hOk]
    split <;> exact Or.inl rfl

/-- **An open** adds slots that are not in use, and so are bound to nobody. An open
that fails leaves the slots as they are, and takes its nodes back. -/
theorem Routed.opened {pool : PeerSocketPool} (h : Routed pool.nodes senders host)
    (protocol count : Int) (calls : Nat → SocketCalls) :
    Routed (peerPoolOpen pool host protocol count calls).2.2.1.nodes senders
        (peerPoolOpen pool host protocol count calls).2.2.2 ∧
      ∀ id, OwnId host id → OwnId (peerPoolOpen pool host protocol count calls).2.2.2 id := by
  have hOld := h.mono (peerPoolOpen_grows pool host protocol count calls).isPrefix
    (List.Subset.refl senders)
  -- Either the call failed before the slots, or it has added slots, none of them in session.
  rcases peerPoolOpen_host pool host protocol count calls with hSame | ⟨ids, hIds⟩
  · rw [hSame]
    exact ⟨hOld, fun _ => id⟩
  rw [hIds]
  have hAct : host.act (.openSlots (some ids)) = .ok (_, [], (peerOpen host (some ids)).2) := rfl
  have hSend := h.toHostSendInv.step (Peer.step_eq_ok.mpr ⟨_, _, hAct⟩)
  refine ⟨⟨hSend, fun slot hSlot hState => ?_⟩,
    fun id => (slotIdsKept_act h.mode (a := .openSlots (some ids)) rfl hAct).ownId⟩
  rw [peerOpen_reliable h.alloc] at hSlot
  rcases List.mem_append.mp hSlot with hBefore | hNew
  · exact hOld.bound slot hBefore hState
  · obtain ⟨i, id, _, rfl⟩ := List.mem_mapIdx.mp hNew
    exact absurd rfl hState

end Host

-- ---------------------------------------------------------------------------
-- Runs
-- ---------------------------------------------------------------------------

/-- A call from a socket of the host's own, to an endpoint it has heard: address and
port are those of a sender, with zeros behind the address as in the node's array. -/
structure RoutedCall (d : Deployed) (call : SendTo) : Prop where
  own : ∃ id src, OwnId d.host id ∧ nodeAt d.pool.nodes id = some src ∧ call.socket = src.socket
  heard : ∃ address port, (address, port) ∈ d.senders ∧ call.port = port ∧
    call.address = address ++ List.replicate (peerAddressSize - 2 - address.length) 0

/-- A call that was routed stays so: nodes, own ids and senders only grow. -/
theorem RoutedCall.mono {d d' : Deployed} {call : SendTo} (h : RoutedCall d call)
    (hNodes : d.pool.nodes <+: d'.pool.nodes) (hOwn : ∀ id, OwnId d.host id → OwnId d'.host id)
    (hSenders : d.senders ⊆ d'.senders) : RoutedCall d' call := by
  obtain ⟨⟨id, src, hId, hSrc, hSocket⟩, address, port, hSender, hCall⟩ := h
  exact ⟨⟨id, src, hOwn id hId, nodeAt_of_isPrefix hNodes hSrc, hSocket⟩,
    address, port, hSenders hSender, hCall⟩

/-- What a deployed host keeps: its slots are bound to who it has heard, and so
is all that it has sent. -/
structure RoutingInv (d : Deployed) : Prop where
  routed : Routed d.pool.nodes d.senders d.host
  calls : ∀ call ∈ d.sent, RoutedCall d call

/-- So does everything about the past, where a step sends nothing. -/
theorem RoutingInv.mono {d d' : Deployed} (h : RoutingInv d)
    (hRouted : Routed d'.pool.nodes d'.senders d'.host) (hNodes : d.pool.nodes <+: d'.pool.nodes)
    (hOwn : ∀ id, OwnId d.host id → OwnId d'.host id) (hSenders : d.senders ⊆ d'.senders)
    (hSent : d'.sent = d.sent) : RoutingInv d' where
  routed := hRouted
  calls call hCall := (h.calls call (hSent ▸ hCall)).mono hNodes hOwn hSenders

/-- In the beginning there are no slots and no calls. -/
theorem routingInv_start (alloc : Allocator) (inPlace : Nat → Bool) (rng : Mt64) :
    RoutingInv (Deployed.start alloc inPlace rng) where
  routed := ⟨⟨rfl, rfl, by simp [Deployed.start, peerInit]⟩, by simp [Deployed.start, peerInit]⟩
  calls := by simp [Deployed.start]

/-- The calls of a tick whose packets go between ids that `Routed` knows. -/
theorem routedCall_of_sendTos {d : Deployed} {calls : Nat → SendCalls}
    {packets : List PeerPacket}
    (hOwn : ∀ p ∈ packets, OwnId d.host p.sourceId)
    (hHeard : ∀ p ∈ packets, HeardId d.pool.nodes d.senders p.destinationId) {call : SendTo}
    (hCall : call ∈ sendTos calls d.pool.nodes 0 packets) : RoutedCall d call := by
  obtain ⟨p, hp, i, hSendTo⟩ := mem_sendTos hCall
  obtain ⟨src, dst, hSrc, hDst, hSocket, hAddress, hPort⟩ := sendTo_eq_some hSendTo
  obtain ⟨node, hNode, hSender⟩ := hHeard p hp
  rw [hDst, Option.some.injEq] at hNode
  subst hNode
  exact ⟨⟨p.sourceId, src, hOwn p hp, hSrc, hSocket⟩, dst.remoteAddress, dst.remotePort, hSender,
    hPort, hAddress⟩

/-- The calls that `peer_pool_tick` is made of, for a tick that is not refused: look
up, receive, take the packets in, and make new ones. -/
theorem peerPoolTick_cases {pool pool' : PeerSocketPool} {peer peer' : Peer} {e : Int}
    {received : Nat → ReceiveCall} {calls : Nat → SendCalls} {s : Status} {packets : List PeerPacket}
    (h : peerPoolTick pool peer e received calls = .ok (s, packets, pool', peer')) :
    (e < 0 ∧ packets = [] ∧ pool' = pool ∧ peer' = peer) ∨
    ∃ s1 s2 s3 s4 pool1 peer1 peer2 incoming, ¬ e < 0 ∧
      resolveAddressAndId pool peer = .ok (s1, pool1, peer1) ∧
      receiveNodes received 0 pool1.nodes pool1 [] = .ok (s2, pool', incoming) ∧
      peerInput peer1 incoming = .ok (s3, peer2) ∧ peerTick peer2 e = .ok (s4, packets, peer') := by
  unfold peerPoolTick at h
  split at h
  · next hTime =>
    obtain ⟨_, hRest⟩ := Prod.mk.inj (Except.ok.inj h)
    obtain ⟨rfl, hLeft⟩ := Prod.mk.inj hRest
    obtain ⟨rfl, rfl⟩ := Prod.mk.inj hLeft
    exact Or.inl ⟨hTime, rfl, rfl, rfl⟩
  -- Four calls in a row, and the first fault among them would be the tick's.
  next hTime =>
  obtain ⟨⟨s1, pool1, peer1⟩, hResolve, h⟩ := bind_eq_ok.mp h
  obtain ⟨⟨s2, pool2, incoming⟩, hReceive, h⟩ := bind_eq_ok.mp h
  obtain ⟨⟨s3, peer2⟩, hInput, h⟩ := bind_eq_ok.mp h
  obtain ⟨⟨s4, outgoing, peer3⟩, hTick, h⟩ := bind_eq_ok.mp h
  obtain ⟨_, hRest⟩ := Prod.mk.inj (Except.ok.inj h)
  obtain ⟨rfl, hLeft⟩ := Prod.mk.inj hRest
  obtain ⟨rfl, rfl⟩ := Prod.mk.inj hLeft
  exact Or.inr ⟨s1, s2, s3, s4, pool1, peer1, peer2, incoming, hTime, hResolve, hReceive, hInput, hTick⟩

/-- **A tick with sockets**: what it receives is from the senders, and what it
sends goes to endpoints that were heard by then. -/
theorem RoutingInv.tick {d d' : Deployed} {e : Int} {received : Nat → ReceiveCall}
    {calls : Nat → SendCalls} (h : RoutingInv d) (hStep : d.step (.tick e received calls) = .ok d') :
    RoutingInv d' := by
  obtain ⟨⟨s, packets, pool, host⟩, hTick, hStep⟩ := bind_eq_ok.mp hStep
  obtain rfl := Except.ok.inj hStep
  rcases peerPoolTick_cases hTick with ⟨hTime, rfl, rfl, rfl⟩ | ⟨s1, s2, s3, s4, pool1, host1, host2,
    incoming, hTime, hResolve, hReceive, hInput, hPeerTick⟩
  · simp only [if_pos hTime, List.append_nil, sendTos]
    exact h
  have hResolveGrows := (resolveAddressAndId_grows hResolve).isPrefix
  have hReceiveGrows := (receiveNodes_grows hReceive).isPrefix
  -- every packet comes from a sender of this tick
  have hNew : ∀ p ∈ incoming, HeardId pool.nodes (sendersOf received 0 pool.nodes) p.sourceId := by
    intro p hp
    obtain ⟨d, hd, hPacket⟩ := (receiveNodes_datagrams hReceive p hp).resolve_left List.not_mem_nil
    refine hPacket.heardId ?_
    rw [sendersOf_eq_map]
    exact List.mem_map_of_mem (datagramsOf_subset received 0 hReceiveGrows hd)
  -- the host, call after call
  obtain ⟨hRouted1, hOwn1⟩ := h.routed.resolve hResolve
  have hRouted1' := hRouted1.mono hReceiveGrows
    (List.subset_append_left d.senders (sendersOf received 0 pool.nodes))
  have hRouted2 := hRouted1'.input (fun p hp =>
    (hNew p hp).mono List.prefix_rfl (List.subset_append_right _ _)) hInput
  have hOwn2 : ∀ id, OwnId host1 id → OwnId host2 id := fun id =>
    (slotIdsKept_act hRouted1.mode (a := .input incoming) (fun p hp => (hNew p hp).ne_undefined)
      (Peer.act_input hInput)).ownId
  have hRoutes := peerTick_host_routes hRouted2.toHostSendInv hPeerTick
  have hOwn3 : ∀ id, OwnId host2 id → OwnId host id := fun id =>
    (slotIdsKept_act hRouted2.mode (a := .tick e) rfl hPeerTick).ownId
  simp only [if_neg hTime]
  refine ⟨hRouted2.tick hPeerTick, fun call hCall => ?_⟩
  rcases List.mem_append.mp hCall with hBefore | hSent
  · exact (h.calls call hBefore).mono (hResolveGrows.trans hReceiveGrows)
      (fun id hId => hOwn3 id (hOwn2 id (hOwn1 id hId))) (List.subset_append_left _ _)
  · refine routedCall_of_sendTos (fun p hp => hOwn3 _ (hRoutes p hp).1) (fun p hp => ?_) hSent
    obtain ⟨_, slot, hSlot, hState, hDestination⟩ := hRoutes p hp
    rw [hDestination]
    exact (hRouted2.bound slot hSlot hState).2

/-- **Step lemma**: each move of the host, and each call of another user of the
pool, which may append nodes and leaves the host alone. -/
theorem RoutingInv.step {d d' : Deployed} {a : DeployedAction} (h : RoutingInv d)
    (hStep : d.step a = .ok d') : RoutingInv d' := by
  cases a with
  | openSockets protocol count calls =>
    obtain ⟨r, hOpen, hEq⟩ := bind_eq_ok.mp hStep
    obtain ⟨_, rfl⟩ := peerPoolOpenCall_eq_ok.mp hOpen
    obtain rfl := Except.ok.inj hEq
    obtain ⟨hRouted, hOwn⟩ := h.routed.opened protocol count calls
    exact h.mono hRouted (peerPoolOpen_grows ..).isPrefix hOwn (List.Subset.refl _) rfl
  | queue messageData =>
    obtain rfl := Except.ok.inj hStep
    have hAct : d.host.act (.queue messageData) =
      .ok ((peerQueue d.host messageData).1, [], (peerQueue d.host messageData).2) := rfl
    have hSend := h.routed.toHostSendInv.step (Peer.step_eq_ok.mpr ⟨_, _, hAct⟩)
    -- A queued message changes neither the slots' ids nor the nodes, so routes stay as they
    -- are.
    have hKept := slotIdsKept_act h.routed.mode (a := .queue messageData) rfl hAct
    refine h.mono ⟨hSend, ?_⟩ List.prefix_rfl (fun id => hKept.ownId) (List.Subset.refl _) rfl
    cases messageData with
    | none => exact h.routed.bound
    | some data =>
      dsimp only
      rw [peerQueue_host h.routed.mode h.routed.alloc]
      exact h.routed.bound
  | tick e received calls => exact h.tick hStep
  | other a =>
    obtain ⟨pool, hPool, hStep⟩ := bind_eq_ok.mp hStep
    obtain rfl := Except.ok.inj hStep
    -- Another user of the pool only adds nodes behind those there are.
    have hNodes := (PeerSocketPool.step_grows hPool).isPrefix
    exact h.mono (h.routed.mono hNodes (List.Subset.refl _)) hNodes (fun _ => id)
      (List.Subset.refl _) rfl

/-- **Where a host sends.** In every state that a deployed host reaches, every
call of `sendto` that it has made was from a socket of its own to an endpoint
that it had received a datagram from, and its slots in use are bound to such
endpoints. -/
theorem routing_of_reaches {alloc : Allocator} {inPlace : Nat → Bool} {rng : Mt64} {d : Deployed}
    (h : Reaches Deployed.step (fun _ _ _ => True) (Deployed.start alloc inPlace rng) d) :
    (∀ call ∈ d.sent, RoutedCall d call) ∧
      ∀ slot ∈ d.host.slots, slot.state ≠ .empty →
        HeardId d.pool.nodes d.senders slot.remoteEnd.id := by
  have hInv : RoutingInv d := h.invariant (I := RoutingInv)
    (fun _ _ _ hBefore hStep _ => hBefore.step hStep) (routingInv_start alloc inPlace rng)
  exact ⟨hInv.calls, fun slot hSlot hState => (hInv.routed.bound slot hSlot hState).2⟩

/-- The socket calls for a host's nodes: all succeed, with descriptors from ten on. -/
def hostCalls (i : Nat) : SocketCalls where
  socket := 10 + i
  nonblocking := true
  bound := true
  name := some 7

/-- A host opens two sockets, and a datagram arrives at the first of them. -/
def routingRun : List DeployedAction :=
  [.openSockets peerUdpIPv4 2 hostCalls,
    .tick 0 (fun i => if i = 0 then .datagram [1] (by decide) [49] 9 else .again)
      fun _ => ⟨true, true⟩]

/-- The same tick answers its sender, and nobody else. -/
theorem routing_of_reaches_answered : ∃ d : Deployed,
    d.sent.map (fun call => (call.socket, call.port)) = [(10, 9)] ∧
    (∀ call ∈ d.sent, RoutedCall d call) ∧
      ∀ slot ∈ d.host.slots, slot.state ≠ .empty →
        HeardId d.pool.nodes d.senders slot.remoteEnd.id := by
  obtain ⟨d, hReach, hTest⟩ : ∃ d, Reaches Deployed.step (fun _ _ _ => True)
      (Deployed.start .reliable (fun _ => true) ⟨fun _ => 0⟩) d ∧
        decide (d.sent.map (fun call => (call.socket, call.port)) = [(10, 9)]) = true :=
    exists_reaches_of_runGuarded (fun _ _ _ => true) (fun _ _ _ _ => trivial) routingRun _
      (fun d : Deployed => decide (d.sent.map (fun call => (call.socket, call.port)) = [(10, 9)]))
      (by decide +kernel)
  exact ⟨d, of_decide_eq_true hTest, routing_of_reaches hReach⟩

end PeerProtocol
