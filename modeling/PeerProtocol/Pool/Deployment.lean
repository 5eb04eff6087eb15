import PeerProtocol.Pool.Routing
import PeerProtocol.World.Agreement

/-!
# peer — agreement of deployed peers

`World/Agreement.lean` has a host and clients whose packets keep their ids on
the way. With sockets this is not so. Each application numbers endpoints by
the nodes of its own pool, so that a packet which a host sends from 0 to 5 may
arrive as one from 2 to 1; what is left of it on the way are its bytes. And
between the calls of a tick the pool writes into the slots.

Here a host and clients run over pools of their own, through the four calls of
an application: `peer_pool_open`, `peer_pool_connect`, `peer_queue` and
`peer_pool_tick`. What the host receives are any datagrams, from anywhere.
What a client receives are datagrams whose bytes are those of some call of
`sendto` of the host: any of them, any number of times and in any order, also
those meant for another client.

The proof adds two things to that of `World/Agreement.lean` and uses the rest:

* `EndsWritten` — what a lookup leaves of a slot, and with `WireHost.resolve`
  and `Follows.resolve`, that the invariants of host and clients do not read
  what it writes;
* `HostBytes` — the bytes of a packet that carries entries of a log. Received
  under any ids, they are such a packet again, since nothing that a client
  checks against the log depends on the ids.

`DeployedAgreement` is the invariant, `DeployedAgreement.step` the step lemma,
and `deployment_of_reaches` the result: the clients agree with the host and
with one another on every entry that is ready.

Host and clients begin with reliable allocators, and the host's application
queues messages that fit a packet; the pools' allocators may fail.
-/

namespace PeerProtocol

open Lib

-- ---------------------------------------------------------------------------
-- Lookups
-- Between the calls of a tick, the pool writes into the slots.
-- ---------------------------------------------------------------------------

/-- What a turn of `resolve_address_and_id` leaves of a slot, whoever uses it: all
that a host's slot sends from, and what it knows of the log of its client. -/
structure EndsWritten (slot slot' : PeerSlot) : Prop extends SlotLooked slot slot' where
  actor : slot'.actor = slot.actor
  inIndex : slot'.inIndex = slot.inIndex
  bound : slot.remoteEnd.id ≠ peerUndefined → slot'.remoteEnd.id ≠ peerUndefined

/-- One part of a turn after another. -/
theorem EndsWritten.trans {slot slot' slot'' : PeerSlot} (h : EndsWritten slot slot')
    (h' : EndsWritten slot' slot'') : EndsWritten slot slot'' where
  toSlotLooked := h.toSlotLooked.trans h'.toSlotLooked
  actor := h'.actor.trans h.actor
  inIndex := h'.inIndex.trans h.inIndex
  bound hBound := h'.bound (h.bound hBound)

theorem endsWritten_refl (slot : PeerSlot) : EndsWritten slot slot :=
  ⟨slotLooked_refl slot, rfl, rfl, id⟩

/-- The first part of a turn writes into the local end, and nowhere else. -/
theorem resolveLocalAddress_slot (slot : PeerSlot) (nodes : List PeerNode) :
    ∃ e, (slot.resolveLocalAddress nodes).2 = { slot with localEnd := e } := by
  unfold PeerSlot.resolveLocalAddress
  split
  · split
    · exact ⟨_, rfl⟩
    · exact ⟨_, rfl⟩
  · exact ⟨_, rfl⟩

theorem endsWritten_localAddress (slot : PeerSlot) (nodes : List PeerNode) :
    EndsWritten slot (slot.resolveLocalAddress nodes).2 := by
  have hLooked := slotLooked_localAddress slot nodes
  obtain ⟨e, hSlot⟩ := resolveLocalAddress_slot slot nodes
  rw [hSlot] at hLooked ⊢
  exact ⟨hLooked, rfl, rfl, id⟩

/-- The second part writes the address of the remote end. -/
theorem endsWritten_remoteAddress {slot slot' : PeerSlot} {nodes : List PeerNode} {s : Status}
    (h : slot.resolveRemoteAddress nodes = .ok (s, slot')) : EndsWritten slot slot' := by
  have hLooked := slotLooked_remoteAddress h
  unfold PeerSlot.resolveRemoteAddress at h
  split at h
  · split at h
    · obtain ⟨_, rfl⟩ := Prod.mk.inj (Except.ok.inj h)
      exact endsWritten_refl slot
    split at h
    · obtain ⟨_, rfl⟩ := Prod.mk.inj (Except.ok.inj h)
      exact ⟨hLooked, rfl, rfl, id⟩
    · cases h
  · obtain ⟨_, rfl⟩ := Prod.mk.inj (Except.ok.inj h)
    exact endsWritten_refl slot

/-- The other two write its id, and never −1: a lookup that goes well returns the
position of a node, and one that fails leaves the slot as it was. -/
theorem IdLookup.endsWritten {pool pool' : PeerSocketPool} {slot slot' : PeerSlot}
    (h : IdLookup pool slot pool' slot') : EndsWritten slot slot' := by
  have hLooked := h.looked
  cases h with
  | skip => exact endsWritten_refl slot
  | @found _ _ _ _ s id _ _ hFind =>
    by_cases hOk : s = kitOk
    · -- what was found is the position of a node
      subst hOk
      obtain ⟨node, hNode, _⟩ := nodeAt_of_findPoolNode hFind
      refine ⟨hLooked, ?_, ?_, fun _ => ?_⟩
      · rw [PeerSlot.found, if_pos rfl]
      · rw [PeerSlot.found, if_pos rfl]
      · rw [PeerSlot.found, if_pos rfl]
        rintro rfl
        cases hNode
    · rw [PeerSlot.found, if_neg hOk]
      exact endsWritten_refl slot

theorem endsWritten_resolveSlot {pool pool' : PeerSocketPool} {slot slot' : PeerSlot} {s : Status}
    (h : resolveSlot pool slot = .ok (s, pool', slot')) : EndsWritten slot slot' := by
  obtain ⟨_, _, _, _, hRemote, hPort, hAddress⟩ := resolveSlot_cases h
  exact (((endsWritten_localAddress slot pool.nodes).trans (endsWritten_remoteAddress hRemote)).trans
    hPort.endsWritten).trans hAddress.endsWritten

/-- **A lookup** only writes into the ends of the slots. -/
theorem resolveAddressAndId_slots {pool pool' : PeerSocketPool} {peer peer' : Peer} {s : Status}
    (h : resolveAddressAndId pool peer = .ok (s, pool', peer')) :
    ∃ slots, peer' = { peer with slots := slots } ∧ List.Forall₂ EndsWritten peer.slots slots := by
  obtain ⟨slots, hPeer, hSlots⟩ := resolveSlots_of_resolve h
  exact ⟨slots, hPeer, resolveSlots_forall₂ (fun _ _ => endsWritten_resolveSlot) hSlots⟩

/-- **A host whose log can be sent** stays one, with the same log: the turns over
its slots write addresses and remote ids, and none of what is sent or of what is
counted. -/
theorem WireHost.resolve {pool pool' : PeerSocketPool} {host host' : Peer} {s : Status}
    (h : WireHost host) (hResolve : resolveAddressAndId pool host = .ok (s, pool', host')) :
    WireHost host' ∧ host'.log = host.log := by
  obtain ⟨slots, rfl, hSlots⟩ := resolveAddressAndId_slots hResolve
  have hInv : HostInv { host with slots := slots } := by
    refine ⟨⟨h.mode, h.alloc, fun slot' hSlot' => ?_⟩, h.actor, h.clock, h.queueIndex, h.entry,
      fun slot' hSlot' => ?_⟩
    · obtain ⟨slot, hSlot, hWritten⟩ := exists_of_forall₂_right hSlots hSlot'
      exact hWritten.sendInv (h.slot slot hSlot)
    · obtain ⟨slot, hSlot, hWritten⟩ := getElem?_of_forall₂_right hSlots hSlot'
      rw [hWritten.state]
      exact h.listening slot hSlot
  refine ⟨⟨hInv, ⟨h.actors.entry, fun j slot' hSlot' => ?_⟩, h.small, h.wire⟩, rfl⟩
  obtain ⟨slot, hSlot, hWritten⟩ := getElem?_of_forall₂_right hSlots hSlot'
  have hOld := h.actors.slot j slot hSlot
  refine ⟨?_, ?_, ?_⟩
  · rw [hWritten.actor]
    exact hOld.nonneg
  · rw [hWritten.actor, hWritten.queue]
    exact hOld.received
  -- a slot with received messages was bound, and stays so
  · rw [hWritten.queue]
    exact fun hQueue hNone => hOld.unbound hQueue (not_not.mp fun hBound => hWritten.bound hBound hNone)

/-- A client that follows a log still does: a lookup touches no queue. -/
theorem Follows.resolve {pool pool' : PeerSocketPool} {client client' : Peer} {log : List Entry}
    {s : Status} (h : Follows log client)
    (hResolve : resolveAddressAndId pool client = .ok (s, pool', client')) : Follows log client' := by
  obtain ⟨slots, rfl, _⟩ := resolveAddressAndId_slots hResolve
  exact ⟨h.mode, h.alloc, h.agrees⟩

-- ---------------------------------------------------------------------------
-- Bytes
-- What is the same at both ends of the network.
-- ---------------------------------------------------------------------------

/-- The bytes of a packet that carries entries of the log, up to the packet's size.
The ids of the packet are not among them. -/
def HostBytes (log : List Entry) (data : List UInt8) : Prop :=
  ∃ p, HostPacket log p ∧ data = p.data.elems.take p.size.toNat

/-- A log that has grown still has the entries. -/
theorem HostBytes.mono {log log' : List Entry} {data : List UInt8} (h : HostBytes log data)
    (hPrefix : log <+: log') : HostBytes log' data :=
  let ⟨p, hp, hData⟩ := h
  ⟨p, hp.mono hPrefix, hData⟩

/-- **Received under any ids**, they are such a packet again. -/
theorem HostBytes.packet {log : List Entry} {nodes : List PeerNode} {d : Datagram} {p : PeerPacket}
    (h : HostBytes log d.data) (hp : PacketOf nodes d p) : HostPacket log p := by
  obtain ⟨sent, ⟨src, dst, cs, hSealed, hcs⟩, hData⟩ := h
  obtain ⟨hLe, hBytes⟩ := hp.bytes
  -- the ids of a packet are not among its bytes
  have hReceived := hSealed.received p.sourceId p.destinationId
  have hSame : sent.received p.sourceId p.destinationId = p := by
    refine Eq.trans ?_ hBytes.symm
    simp only [PeerPacket.received, hData]
  rw [hSame] at hReceived
  exact ⟨_, _, cs, hReceived, hcs⟩

/-- What a call of `sendto` says are the bytes of one of the tick's packets. -/
theorem data_of_sendTos {calls : Nat → SendCalls} {nodes : List PeerNode} {k : Nat}
    {packets : List PeerPacket} {call : SendTo} (h : call ∈ sendTos calls nodes k packets) :
    ∃ p ∈ packets, call.data = p.data.elems.take p.size.toNat := by
  obtain ⟨p, hp, i, hCall⟩ := mem_sendTos h
  refine ⟨p, hp, ?_⟩
  unfold sendTo at hCall
  split at hCall
  · split at hCall
    · cases hCall
    · rw [← Option.some.inj hCall]
  · cases hCall

-- ---------------------------------------------------------------------------
-- Calls with sockets
-- ---------------------------------------------------------------------------

/-- `peer_pool_open` keeps what `peer_open` keeps, since this is all it does to a
peer. -/
theorem peerPoolOpen_invariant {I : Peer → Prop}
    (hOpen : ∀ peer ids, I peer → I (peerOpen peer (some ids)).2) {peer : Peer} (hI : I peer)
    (pool : PeerSocketPool) (protocol count : Int) (calls : Nat → SocketCalls) :
    I (peerPoolOpen pool peer protocol count calls).2.2.2 := by
  rcases peerPoolOpen_host pool peer protocol count calls with hSame | ⟨ids, hIds⟩
  · rwa [hSame]
  · rw [hIds]
    exact hOpen peer ids hI

/-- `peer_pool_connect` keeps what `peer_open` and `peer_connect` keep, since it
changes the peer by these two only; so an invariant of the peer need not know of
pools. -/
theorem peerPoolConnect_invariant {I : Peer → Prop}
    (hOpen : ∀ peer ids, I peer → I (peerOpen peer (some ids)).2)
    (hConnect : ∀ peer id, I peer → I (peerConnect peer id).2) {pool pool' : PeerSocketPool}
    {peer peer' : Peer} {protocol : Int} {address : List UInt8} {port : UInt16}
    {calls : Nat → SocketCalls} {s : Status} {closed : List Int}
    (h : peerPoolConnect pool peer protocol address port calls = .ok (s, closed, pool', peer'))
    (hI : I peer) : I peer' := by
  have hEnd {s1 : Status} {closed1 : List Int} {pool1 : PeerSocketPool} {peer1 : Peer} (hPeer : I peer1)
      (hEq : (.ok (s1, closed1, pool1, peer1) : Except Fault _) = .ok (s, closed, pool', peer')) :
      I peer' := by
    obtain ⟨_, hRest⟩ := Prod.mk.inj (Except.ok.inj hEq)
    obtain ⟨_, hLeft⟩ := Prod.mk.inj hRest
    rwa [← (Prod.mk.inj hLeft).2]
  unfold peerPoolConnect at h
  split at h
  · exact hEnd hI h
  split at h
  · exact hEnd hI h
  obtain ⟨⟨s1, id, pool1⟩, _, h⟩ := bind_eq_ok.mp h
  dsimp only at h
  split at h
  · exact hEnd hI h
  split at h
  · exact hEnd (hConnect peer id hI) h
  -- the first connect has found no free slot, so one is opened
  have hOpened := peerPoolOpen_invariant hOpen (hConnect peer id hI) pool1 protocol 1 calls
  split at h
  · exact hEnd hOpened h
  · exact hEnd (hConnect _ id hOpened) h

-- ---------------------------------------------------------------------------
-- Each party
-- What one call does to the invariant of a host, and to that of a client.
-- ---------------------------------------------------------------------------

/-- A call that a host's application makes: it does not connect anywhere. -/
def PartyAction.isHostUse : PartyAction → Bool
  | .connect .. => false
  | _ => true

/-- A message that is queued fits a packet. -/
def PartyAction.UsesSmall : PartyAction → Prop
  | .queue messageData => (PeerAction.queue messageData).QueuesSmall
  | _ => True

instance : (a : PartyAction) → Decidable a.UsesSmall
  | .queue messageData => inferInstanceAs (Decidable (PeerAction.queue messageData).QueuesSmall)
  | .openSockets .. | .connect .. | .tick .. => .isTrue trivial

/-- The datagrams that the call receives say what some of these calls of `sendto`
said. They may have come to any socket, from any address, and say it again. -/
def PartyAction.HearsOnly (a : PartyAction) (pool : PeerSocketPool) (sent : List SendTo) : Prop :=
  match a with
  | .tick _ received _ => ∀ d ∈ datagramsOf received 0 pool.nodes, ∃ call ∈ sent, call.data = d.data
  | _ => True

instance (a : PartyAction) (pool : PeerSocketPool) (sent : List SendTo) :
    Decidable (a.HearsOnly pool sent) := by
  unfold PartyAction.HearsOnly
  cases a <;> infer_instance

/-- What a call that ends has done, and which calls of `sendto` it has made. The
proofs over runs take a call apart with this lemma, a case for each of the four
calls, and only a tick sends. -/
theorem Peer.use_cases {peer peer' : Peer} {pool pool' : PeerSocketPool} {a : PartyAction}
    {sent : List SendTo} (h : peer.use pool a = .ok (sent, pool', peer')) :
    match a with
    | .openSockets protocol count calls => sent = [] ∧
      pool' = (peerPoolOpen pool peer protocol count calls).2.2.1 ∧
      peer' = (peerPoolOpen pool peer protocol count calls).2.2.2
    | .connect protocol address port calls => sent = [] ∧
      ∃ s closed, peerPoolConnect pool peer protocol address port calls = .ok (s, closed, pool', peer')
    | .queue messageData => sent = [] ∧ pool' = pool ∧ peer' = (peerQueue peer messageData).2
    | .tick e received calls => ∃ s packets,
      peerPoolTick pool peer e received calls = .ok (s, packets, pool', peer') ∧
      sent = sendTos calls pool'.nodes 0 packets := by
  cases a with
  | openSockets protocol count calls =>
    obtain ⟨r, hOpen, hEq⟩ := bind_eq_ok.mp h
    obtain ⟨_, rfl⟩ := peerPoolOpenCall_eq_ok.mp hOpen
    obtain ⟨rfl, hLeft⟩ := Prod.mk.inj (Except.ok.inj hEq)
    obtain ⟨rfl, rfl⟩ := Prod.mk.inj hLeft
    exact ⟨rfl, rfl, rfl⟩
  | connect protocol address port calls =>
    obtain ⟨⟨s, closed, pool1, peer1⟩, hConnect, hEq⟩ := bind_eq_ok.mp h
    obtain ⟨rfl, hLeft⟩ := Prod.mk.inj (Except.ok.inj hEq)
    obtain ⟨rfl, rfl⟩ := Prod.mk.inj hLeft
    exact ⟨rfl, s, closed, hConnect⟩
  | queue messageData =>
    obtain ⟨rfl, hLeft⟩ := Prod.mk.inj (Except.ok.inj h)
    obtain ⟨rfl, rfl⟩ := Prod.mk.inj hLeft
    exact ⟨rfl, rfl, rfl⟩
  | tick e received calls =>
    -- What is sent is read off the packets and the pool that the tick leaves behind.
    obtain ⟨⟨s, packets, pool1, peer1⟩, hTick, hEq⟩ := bind_eq_ok.mp h
    obtain ⟨rfl, hLeft⟩ := Prod.mk.inj (Except.ok.inj hEq)
    obtain ⟨rfl, rfl⟩ := Prod.mk.inj hLeft
    exact ⟨s, packets, hTick, rfl⟩

section Parties

variable {pool pool' : PeerSocketPool} {s : Status} {e : Int} {received : Nat → ReceiveCall}
  {calls : Nat → SendCalls} {packets : List PeerPacket}

/-- **A tick of a host** with its sockets, whatever it receives: its log grows at
the end, and every packet carries entries of the new one. -/
theorem WireHost.poolTick {host host' : Peer} (h : WireHost host)
    (hSize : (host'.queue.length : Int) ≤ int64Max)
    (hOk : peerPoolTick pool host e received calls = .ok (s, packets, pool', host')) :
    WireHost host' ∧ host.log <+: host'.log ∧ ∀ p ∈ packets, HostPacket host'.log p := by
  rcases peerPoolTick_cases hOk with ⟨_, rfl, rfl, rfl⟩ | ⟨s1, s2, s3, s4, pool1, host1, host2,
    incoming, _, hResolve, hReceive, hInput, hTick⟩
  · exact ⟨h, List.prefix_rfl, by simp⟩
  obtain ⟨hHost1, hLog1⟩ := h.resolve hResolve
  -- the mutual queue only grows in the tick
  have hGrows : host2.queue.length ≤ host'.queue.length := by
    have hInv : HostInv host2 := hHost1.toHostInv.act (Peer.act_input hInput)
    by_cases hValid : ValidElapsed host2 e
    · rw [(hInv.ticked hValid hTick).queue]
      exact length_le_merged host2 e
    · rw [(eq_of_peerTick_invalid hValid hTick).2.2]
  -- nothing is received from the undefined id, which would be a free slot's
  have hSources : ∀ p ∈ incoming, p.sourceId ≠ peerUndefined := by
    intro p hp
    obtain ⟨d, _, hPacket⟩ := (receiveNodes_datagrams hReceive p hp).resolve_left List.not_mem_nil
    exact hPacket.sourceId_ne
  have hHost2 : WireHost host2 := hHost1.act (a := .input incoming)
    ⟨trivial, by omega, Or.inl hSources⟩ (Peer.act_input hInput)
  have hHost' : WireHost host' := hHost2.act (a := .tick e) ⟨trivial, hSize, Or.inl rfl⟩ hTick
  refine ⟨hHost', ?_, peerTick_hostPackets hHost2.toHostInv hHost2.small hTick⟩
  rw [← hLog1]
  have hInputLog : host1.log <+: host2.log := log_prefix hHost1.toHostInv (Peer.act_input hInput)
  exact hInputLog.trans <| log_prefix hHost2.toHostInv (a := .tick e) hTick

/-- **A call of the host**: what it sends are bytes of its log. The log only grows,
so what was sent before stays a part of it, and a client that hears it late learns
nothing that is not true any more. -/
theorem WireHost.use {host host' : Peer} {a : PartyAction} {sent : List SendTo} (h : WireHost host)
    (hUse : a.isHostUse = true) (hSmall : a.UsesSmall) (hSize : (host'.queue.length : Int) ≤ int64Max)
    (hOk : host.use pool a = .ok (sent, pool', host')) :
    WireHost host' ∧ host.log <+: host'.log ∧ ∀ call ∈ sent, HostBytes host'.log call.data := by
  have hCase := Peer.use_cases hOk
  cases a with
  | openSockets protocol count calls =>
    obtain ⟨rfl, _, rfl⟩ := hCase
    -- Opening sockets either leaves the host alone or opens slots for the ids of the new nodes.
    rcases peerPoolOpen_host pool host protocol count calls with hSame | ⟨ids, hIds⟩
    · rw [hSame]
      exact ⟨h, List.prefix_rfl, by simp⟩
    · rw [hIds] at hSize ⊢
      have hAct : host.act (.openSlots (some ids)) = .ok (_, [], (peerOpen host (some ids)).2) := rfl
      have hMay : HostMay (.openSlots (some ids)) (peerOpen host (some ids)).2 :=
        ⟨trivial, hSize, Or.inl rfl⟩
      exact ⟨h.act hMay hAct, log_prefix h.toHostInv hAct, by simp⟩
  | connect => cases hUse
  | queue messageData =>
    obtain ⟨rfl, _, rfl⟩ := hCase
    have hAct : host.act (.queue messageData) = .ok (_, [], (peerQueue host messageData).2) := rfl
    exact ⟨h.act ⟨hSmall, hSize, Or.inl rfl⟩ hAct, log_prefix h.toHostInv hAct, by simp⟩
  | tick e received calls =>
    obtain ⟨s, packets, hTick, rfl⟩ := hCase
    obtain ⟨hHost, hLog, hPackets⟩ := h.poolTick hSize hTick
    refine ⟨hHost, hLog, fun call hCall => ?_⟩
    -- The data of a call of sendto is the data of a packet of the tick.
    obtain ⟨p, hp, hData⟩ := data_of_sendTos hCall
    exact ⟨p, hPackets p hp, hData⟩

/-- **A tick of a client** that receives bytes of the log: it follows the log as
before, at whichever node and from whatever address the bytes came, since the ids of
a packet only decide whether it is taken. -/
theorem Follows.poolTick {client client' : Peer} {log : List Entry} (h : Follows log client)
    (hLog : WireLog log) (hHears : ∀ d ∈ datagramsOf received 0 pool'.nodes, HostBytes log d.data)
    (hOk : peerPoolTick pool client e received calls = .ok (s, packets, pool', client')) :
    Follows log client' := by
  rcases peerPoolTick_cases hOk with ⟨_, _, _, rfl⟩ | ⟨s1, s2, s3, s4, pool1, client1, client2,
    incoming, _, hResolve, hReceive, hInput, hTick⟩
  · exact h
  have hPackets : ∀ p ∈ incoming, HostPacket log p := by
    intro p hp
    obtain ⟨d, hd, hPacket⟩ := (receiveNodes_datagrams hReceive p hp).resolve_left List.not_mem_nil
    have hMore := datagramsOf_subset received 0 (receiveNodes_grows hReceive).isPrefix
    exact (hHears d (hMore hd)).packet hPacket
  obtain ⟨client3, hInput3, hFollows, _⟩ := (h.resolve hResolve).input hLog hPackets
  rw [hInput, Except.ok.injEq, Prod.mk.injEq] at hInput3
  obtain ⟨_, rfl⟩ := hInput3
  exact hFollows.act (a := .tick e) rfl hTick

/-- **A call of a client** that hears only what the host has sent. Its other calls
change its slots, its own queue and its pool, and the statement reads none of these. -/
theorem Follows.use {client client' : Peer} {log : List Entry} {a : PartyAction}
    {hostSent sent : List SendTo} (h : Follows log client) (hLog : WireLog log)
    (hBytes : ∀ call ∈ hostSent, HostBytes log call.data) (hHears : a.HearsOnly pool' hostSent)
    (hOk : client.use pool a = .ok (sent, pool', client')) : Follows log client' := by
  -- Both calls that open sockets open slots for them in the same way.
  have hOpen (peer : Peer) (ids : List Int) (hPeer : Follows log peer) :
      Follows log (peerOpen peer (some ids)).2 := hPeer.act (a := .openSlots (some ids)) rfl rfl
  have hCase := Peer.use_cases hOk
  cases a with
  | openSockets protocol count calls =>
    obtain ⟨_, _, rfl⟩ := hCase
    exact peerPoolOpen_invariant hOpen h pool protocol count calls
  | connect protocol address port calls =>
    obtain ⟨_, s, closed, hConnect⟩ := hCase
    exact peerPoolConnect_invariant hOpen (fun peer id hPeer => hPeer.act (a := .connect id) rfl rfl)
      hConnect h
  | queue messageData =>
    obtain ⟨_, _, rfl⟩ := hCase
    exact h.act (a := .queue messageData) rfl rfl
  | tick e received calls =>
    obtain ⟨s, packets, hTick, _⟩ := hCase
    -- A datagram that is heard was sent by the host, and carries entries of its log.
    refine h.poolTick hLog (fun d hd => ?_) hTick
    obtain ⟨call, hCall, hData⟩ := hHears d hd
    exact hData ▸ hBytes call hCall

end Parties

-- ---------------------------------------------------------------------------
-- Runs
-- ---------------------------------------------------------------------------

/-- A host and clients that have just been initialized, with reliable allocators,
and any pools. Nothing has been sent. -/
structure JustDeployed (w : Deployment) : Prop where
  host : ∃ rng, w.host = peerInit .host .reliable rng
  clients : ∀ client ∈ w.clients, ∃ rng, client = peerInit .client .reliable rng
  sent : w.sent = []

/-- The host receives anything, and queues messages that fit; the clients receive
what the host has sent, from anywhere, in any order, and any number of times. -/
def DeploymentMove (w : Deployment) (a : DeploymentAction) (w' : Deployment) : Prop :=
  match a with
  | .host _ a => a.isHostUse = true ∧ a.UsesSmall ∧ (w'.host.queue.length : Int) ≤ int64Max
  | .client _ k a => ∀ pool ∈ w'.pools[k]?, a.HearsOnly pool w.sent

instance (w w' : Deployment) : (a : DeploymentAction) → Decidable (DeploymentMove w a w')
  | .host _ _ => inferInstanceAs (Decidable (_ ∧ _ ∧ _))
  | .client _ k a => inferInstanceAs (Decidable (∀ pool ∈ w'.pools[k]?, a.HearsOnly pool w.sent))

/-- What the host has sent, and what the clients hold, is the host's log. It is
`Agreement` with bytes in the place of packets. -/
structure DeployedAgreement (w : Deployment) : Prop where
  host : WireHost w.host
  sent : ∀ call ∈ w.sent, HostBytes w.host.log call.data
  clients : ∀ client ∈ w.clients, Follows w.host.log client

/-- In the beginning the log is empty, and all follow it. -/
theorem deployedAgreement_start {w : Deployment} (h : JustDeployed w) : DeployedAgreement w := by
  obtain ⟨⟨rng, hHost⟩, hClients, hSent⟩ := h
  refine ⟨hHost ▸ wireHost_peerInit rng, by simp [hSent], fun client hClient => ?_⟩
  obtain ⟨r, rfl⟩ := hClients client hClient
  exact ⟨rfl, rfl, GapLog.agrees_nil _⟩

/-- **Step lemma**: a call of the host extends the log and what was sent, a call of
a client changes this client only. -/
theorem DeployedAgreement.step {w w' : Deployment} {a : DeploymentAction} (h : DeployedAgreement w)
    (hStep : w.step a = .ok w') (hMove : DeploymentMove w a w') : DeployedAgreement w' := by
  cases a with
  | host k a =>
    obtain ⟨pool, _, hStep⟩ := bind_eq_ok.mp hStep
    obtain ⟨⟨sent, pool1, host1⟩, hUse, hEq⟩ := bind_eq_ok.mp hStep
    obtain rfl := Except.ok.inj hEq
    obtain ⟨hIsHost, hSmall, hSize⟩ := hMove
    obtain ⟨hHost, hLog, hBytes⟩ := h.host.use hIsHost hSmall hSize hUse
    -- the log only grows, so what was sent and what is followed stays in it
    refine ⟨hHost, fun call hCall => ?_, fun client hClient => (h.clients client hClient).mono hLog⟩
    rcases List.mem_append.mp hCall with hOld | hNew
    · exact (h.sent call hOld).mono hLog
    · exact hBytes call hNew
  | client c k a =>
    obtain ⟨pool, hPool, hStep⟩ := bind_eq_ok.mp hStep
    obtain ⟨client, hClient, hStep⟩ := bind_eq_ok.mp hStep
    obtain ⟨⟨sent, pool1, client1⟩, hUse, hEq⟩ := bind_eq_ok.mp hStep
    obtain rfl := Except.ok.inj hEq
    rw [readAt_eq_ok] at hPool hClient
    -- only the client that calls changes; the host may receive anything already
    have hHears := hMove pool1 (List.getElem?_set_self (List.getElem?_eq_some_iff.mp hPool).1)
    refine ⟨h.host, h.sent, fun other hOther => ?_⟩
    rcases List.mem_or_eq_of_mem_set hOther with hOld | rfl
    · exact h.clients other hOld
    · exact (h.clients client (List.mem_of_getElem? hClient)).use h.host.wire h.sent hHears hUse

/-- **Deployed peers agree.** In every state that a host and clients reach with
their sockets, where the host receives any datagrams and the clients any bytes
that the host has sent, a client's mutual queue is no longer than the host's,
every entry ready there is the host's, and any two clients agree where both have
one ready. -/
theorem deployment_of_reaches {w w' : Deployment} (hStart : JustDeployed w)
    (hReach : Reaches Deployment.step DeploymentMove w w') :
    (∀ client ∈ w'.clients, client.queue.length ≤ w'.host.queue.length ∧
      ∀ (i : Nat) (m : PeerMessage), client.queue[i]? = some m → m.isReady = true →
        w'.host.queue[i]? = some m) ∧
    (∀ client ∈ w'.clients, ∀ other ∈ w'.clients, ∀ (i : Nat) (m n : PeerMessage),
      client.queue[i]? = some m → other.queue[i]? = some n → m.isReady = true →
        n.isReady = true → m = n) := by
  have h : DeployedAgreement w' := hReach.invariant (fun _ _ _ hInv hOk hMove => hInv.step hOk hMove)
    (deployedAgreement_start hStart)
  have hEntry {client : Peer} (hClient : client ∈ w'.clients) {i : Nat} {m : PeerMessage}
      (hm : client.queue[i]? = some m) (hReady : m.isReady = true) : w'.host.queue[i]? = some m :=
    (h.clients client hClient).getElem?_host h.host.toHostInv hm hReady
  refine ⟨fun client hClient => ⟨?_, fun i m hm hReady => hEntry hClient hm hReady⟩, ?_⟩
  · have hLen := (h.clients client hClient).agrees.length_le
    rw [length_entries, h.host.toHostInv.length_log] at hLen
    exact Nat.le_trans hLen h.host.queueIndex
  · intro client hClient other hOther i m n hm hn hReadyM hReadyN
    -- both are the host's entry
    have hBoth := (hEntry hClient hm hReadyM).symm.trans (hEntry hOther hn hReadyN)
    exact Option.some.inj hBoth

/-- A host and a client, each with a pool of its own. -/
def deploymentStart : Deployment where
  pools := [peerPoolInit .reliable fun _ => true, peerPoolInit .reliable fun _ => true]
  host := peerInit .host .reliable ⟨fun _ => 0⟩
  clients := [peerInit .client .reliable ⟨fun _ => 0⟩]
  sent := []

theorem justDeployed_deploymentStart : JustDeployed deploymentStart :=
  ⟨⟨_, rfl⟩, fun _ h => ⟨_, List.mem_singleton.mp h⟩, rfl⟩

/-- A datagram that arrives at node `k`, from an address of one byte. -/
def arrivesAt (k : Nat) (data : List UInt8) (port : UInt16) (i : Nat) : ReceiveCall :=
  if i = k then .datagram (data.take peerPacketSize) (List.length_take_le _ _) [49] port else .again

/-- `inet_pton` and `sendto` succeed. -/
def sendsAll (_ : Nat) : SendCalls := ⟨true, true⟩

/-- A host opens two sockets, and a client connects to the first. The host
receives a datagram, which it answers, and sends a message to its sender. -/
def answersRun : List DeploymentAction :=
  [.host 0 (.openSockets peerUdpIPv4 2 hostCalls),
   .client 0 1 (.connect peerUdpIPv4 [49] 7 hostCalls),
   .host 0 (.tick 0 (arrivesAt 0 [1] 9) sendsAll), .host 0 (.queue (some [72])),
   .host 0 (.tick 0 (fun _ => .again) sendsAll)]

/-- A run of moves that the theorem is about, or none. -/
def deploymentRun (actions : List DeploymentAction) : Option Deployment :=
  runGuarded Deployment.step (fun w a w' => decide (DeploymentMove w a w')) deploymentStart actions

/-- The bytes of call `k` of `sendto` in it. -/
def saidBytes (k : Nat) : List UInt8 :=
  ((deploymentRun answersRun).bind (·.sent[k]?)).elim [] (·.data)

/-- The client hears the answer and the message, at a node that has another
position in its pool than in the host's. -/
theorem deployment_of_reaches_heard : ∃ w : Deployment,
    w.clients.map (fun client => client.queue.map (·.data)) = [[[72]]] ∧
    (∀ client ∈ w.clients, client.queue.length ≤ w.host.queue.length ∧
      ∀ (i : Nat) (m : PeerMessage), client.queue[i]? = some m → m.isReady = true →
        w.host.queue[i]? = some m) ∧
    (∀ client ∈ w.clients, ∀ other ∈ w.clients, ∀ (i : Nat) (m n : PeerMessage),
      client.queue[i]? = some m → other.queue[i]? = some n → m.isReady = true →
        n.isReady = true → m = n) := by
  obtain ⟨w, hReach, hTest⟩ : ∃ w, Reaches Deployment.step DeploymentMove deploymentStart w ∧
      decide (w.clients.map (fun client => client.queue.map (·.data)) = [[[72]]]) = true :=
    exists_reaches_of_runGuarded (fun w a w' => decide (DeploymentMove w a w'))
      (fun _ _ _ h => of_decide_eq_true h)
      (answersRun ++ [.client 0 1 (.tick 0 (arrivesAt 1 (saidBytes 0) 7) sendsAll),
        .client 0 1 (.tick 0 (arrivesAt 1 (saidBytes 1) 7) sendsAll)]) _
      (fun w : Deployment => decide (w.clients.map (fun client => client.queue.map (·.data)) = [[[72]]]))
      (by decide +kernel)
  exact ⟨w, of_decide_eq_true hTest, deployment_of_reaches justDeployed_deploymentStart hReach⟩

end PeerProtocol
