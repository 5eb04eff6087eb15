import PeerProtocol.Model.Tick

/-!
# peer — peers in use, and a host with its clients

What an application does with a peer, one action after another, and a host and
its clients over a network. These are the transition systems whose runs the
results are about; the functions themselves are those of the other modules.

* `Peer.act` — one action: a call of the library, or what the application and
  `socket_pool.c` write into the endpoints between calls (a local address once
  it is known, the id of a remote end once it is resolved). It gives the
  status and the packets that go out; `Peer.step` keeps only the peer.
* `World` — a host, its clients, and every packet that any of them has
  emitted. A delivery picks packets by their positions in what was emitted, so
  packets are lost, delayed, duplicated and reordered at will: a position that
  is never picked is a packet that is lost, and one that is picked again a
  duplicate.
* `WorldStep` — the same as a relation with a rule for each kind of step,
  which is what the step lemmas take apart.

The network neither makes packets up nor changes them. What a peer does with
packets that nobody of the world has sent is a matter of `Peer.act` with the
action `input`, about which the results of a single peer are.

Calls that fail inside, with an error status, are steps like any other. Calls
that fault are not: a run ends before them, and results about faults say when
that is.

`isHostCall`, `isClientCall` and `isMove` name the actions that an application
makes in its role. They are the start of every guard on runs (`Lib.Run`).
-/

namespace PeerProtocol

open Lib

-- ---------------------------------------------------------------------------
-- One peer
-- ---------------------------------------------------------------------------

/-- What can happen to a peer: a public call of `peer.h`, with the pointers that may
be null as options, or one of the two writes into an endpoint. -/
inductive PeerAction where
  | openSlots (ids : Option (List Int))
  | connect (serverId : Int)
  | queue (messageData : Option (List UInt8))
  | input (packets : List PeerPacket)
  | tick (timeElapsed : Int)
  -- write the local address of slot `j`
  | setAddress (j : Nat) (size : Fin (peerAddressSize + 1)) (data : Buffer UInt8 peerAddressSize)
  -- write the resolved remote id of slot `j`
  | resolve (j : Nat) (id : Int)

/-- The size of the shortest address that a slot can be given, for concrete runs. -/
def oneByte : Fin (peerAddressSize + 1) := 1

/-- A size of two bytes, for concrete runs. -/
def twoBytes : Fin (peerAddressSize + 1) := 2

/-- The address that is one byte, and zeros behind it. -/
def byteAddress (b : UInt8) : Buffer UInt8 peerAddressSize :=
  (Buffer.fill peerAddressSize 0).blit 0 [b] (by rw [List.length_singleton]; decide)

/-- What `resolve_address_and_id` does to a local end once its address is known, or
the application in its place. -/
def PeerSlot.setAddress (slot : PeerSlot) (size : Fin (peerAddressSize + 1))
    (data : Buffer UInt8 peerAddressSize) : PeerSlot :=
  { slot with localEnd := { slot.localEnd with
      isAddressResolved := true, addressSize := size.val, addressData := data } }

/-- What `resolve_address_and_id` does to a remote end once its id is known. -/
def PeerSlot.resolve (slot : PeerSlot) (id : Int) : PeerSlot :=
  { slot with remoteEnd := { slot.remoteEnd with id := id, isIdResolved := true } }

/-- One action: the status, the packets that go out, and the peer it leaves. The two
writes into the endpoint of a slot that is not there leave the peer as it is. -/
def Peer.act (peer : Peer) : PeerAction → Except Fault (Status × List PeerPacket × Peer)
  | .openSlots ids => let (s, peer) := peerOpen peer ids; .ok (s, [], peer)
  | .connect serverId => let (s, peer) := peerConnect peer serverId; .ok (s, [], peer)
  | .queue messageData => let (s, peer) := peerQueue peer messageData; .ok (s, [], peer)
  | .input packets => do
    let (s, peer) ← peerInput peer packets
    return (s, [], peer)
  | .tick timeElapsed => peerTick peer timeElapsed
  | .setAddress j size data =>
    .ok (kitOk, [], { peer with slots := peer.slots.modify j (·.setAddress size data) })
  | .resolve j id => .ok (kitOk, [], { peer with slots := peer.slots.modify j (·.resolve id) })

/-- One action of a peer on its own. -/
def Peer.step (peer : Peer) (a : PeerAction) : Except Fault Peer := do
  let (_, _, peer) ← peer.act a
  return peer

/-- What an action that ends well has done, for each action in turn: the rule by
which an invariant of a peer is shown to be kept by whatever may happen to it. -/
theorem Peer.act_cases {peer peer' : Peer} {a : PeerAction} {s : Status} {ps : List PeerPacket}
    (h : peer.act a = .ok (s, ps, peer')) :
    match a with
    | .openSlots ids => ps = [] ∧ peer' = (peerOpen peer ids).2
    | .connect serverId => ps = [] ∧ peer' = (peerConnect peer serverId).2
    | .queue messageData => ps = [] ∧ peer' = (peerQueue peer messageData).2
    | .input packets => ps = [] ∧ peerInput peer packets = .ok (s, peer')
    | .tick timeElapsed => peerTick peer timeElapsed = .ok (s, ps, peer')
    | .setAddress j size data =>
      ps = [] ∧ peer' = { peer with slots := peer.slots.modify j (·.setAddress size data) }
    | .resolve j id => ps = [] ∧ peer' = { peer with slots := peer.slots.modify j (·.resolve id) } := by
  cases a with
  | input packets =>
    obtain ⟨⟨s1, peer1⟩, hInput, hEq⟩ := bind_eq_ok.mp h
    obtain ⟨rfl, rfl, rfl⟩ : s1 = s ∧ [] = ps ∧ peer1 = peer' := by simpa using hEq
    exact ⟨rfl, hInput⟩
  | tick e => exact h
  | _ =>
    -- All calls but these two are total, and emit no packet.
    obtain ⟨_, hPeer⟩ := Prod.mk.inj (Except.ok.inj h)
    obtain ⟨rfl, rfl⟩ := Prod.mk.inj hPeer
    exact ⟨rfl, rfl⟩

/-- Only `peer_input` and `peer_tick` can fault, and only `peer_tick` emits packets. -/
theorem Peer.act_input {peer peer' : Peer} {packets : List PeerPacket} {s : Status}
    (h : peerInput peer packets = .ok (s, peer')) : peer.act (.input packets) = .ok (s, [], peer') := by
  rw [Peer.act, h]
  rfl

/-- A step is an action whose status and packets are dropped. -/
theorem Peer.step_eq_ok {peer peer' : Peer} {a : PeerAction} :
    peer.step a = .ok peer' ↔ ∃ s ps, peer.act a = .ok (s, ps, peer') := by
  unfold Peer.step
  rw [bind_eq_ok]
  constructor
  · rintro ⟨⟨s, ps, peer1⟩, hAct, hEq⟩
    exact ⟨s, ps, by rw [hAct, show peer1 = peer' from Except.ok.inj hEq]⟩
  · rintro ⟨s, ps, hAct⟩
    exact ⟨_, hAct, rfl⟩

-- ---------------------------------------------------------------------------
-- A host and its clients
-- ---------------------------------------------------------------------------

/-- A host and any number of clients, with all packets emitted so far, those of the
host and those of the clients. A packet stays in its list for ever: it may be
delivered at any time. -/
structure World where
  host : Peer
  clients : List Peer
  hostSent : List PeerPacket
  clientSent : List PeerPacket

/-- The host or a client acts by itself, or packets are delivered, by their
positions in what the other side has emitted. -/
inductive WorldAction where
  | host (a : PeerAction)
  | client (c : Nat) (a : PeerAction)
  | toHost (positions : List Nat)
  | toClient (c : Nat) (positions : List Nat)

/-- The packets at the given positions of what was emitted. Positions may be
repeated and come in any order; those behind the end are no packets. -/
def delivered (sent : List PeerPacket) (positions : List Nat) : List PeerPacket :=
  positions.filterMap (sent[·]?)

/-- One step of the world: the packets that an action emits are added to those
emitted. -/
def World.step (w : World) : WorldAction → Except Fault World
  | .host a => do
    let (_, packets, host) ← w.host.act a
    return { w with host := host, hostSent := w.hostSent ++ packets }
  | .client c a => do
    let client ← readAt w.clients c
    let (_, packets, client) ← client.act a
    return { w with
      clients := w.clients.set c client, clientSent := w.clientSent ++ packets }
  | .toHost positions => do
    let (_, host) ← peerInput w.host (delivered w.clientSent positions)
    return { w with host := host }
  | .toClient c positions => do
    let client ← readAt w.clients c
    let (_, client) ← peerInput client (delivered w.hostSent positions)
    return { w with clients := w.clients.set c client }

/-- The relation that `World.step` computes: the host or a client acts, or inputs
what the network delivers to it. -/
inductive WorldStep (w : World) : WorldAction → World → Prop where
  | host {a : PeerAction} {s : Status} {ps : List PeerPacket} {host : Peer}
      (hAct : w.host.act a = .ok (s, ps, host)) :
      WorldStep w (.host a) { w with host := host, hostSent := w.hostSent ++ ps }
  | client {c : Nat} {a : PeerAction} {client client' : Peer} {s : Status} {ps : List PeerPacket}
      (hClient : w.clients[c]? = some client) (hAct : client.act a = .ok (s, ps, client')) :
      WorldStep w (.client c a)
        { w with clients := w.clients.set c client', clientSent := w.clientSent ++ ps }
  | toHost {positions : List Nat} {s : Status} {host : Peer}
      (hInput : peerInput w.host (delivered w.clientSent positions) = .ok (s, host)) :
      WorldStep w (.toHost positions) { w with host := host }
  | toClient {c : Nat} {positions : List Nat} {client client' : Peer} {s : Status}
      (hClient : w.clients[c]? = some client)
      (hInput : peerInput client (delivered w.hostSent positions) = .ok (s, client')) :
      WorldStep w (.toClient c positions) { w with clients := w.clients.set c client' }

/-- What a step of the world has done, as the relation says it. The proofs over runs
take a step apart with this lemma alone, a case for each of the four kinds of moves,
and never unfold the step function. -/
theorem worldStep_of_step {w w' : World} {a : WorldAction} (h : w.step a = .ok w') :
    WorldStep w a w' := by
  cases a with
  | host a =>
    obtain ⟨_, hAct, hEq⟩ := bind_eq_ok.mp h
    obtain rfl := Except.ok.inj hEq
    exact .host hAct
  | client c a =>
    -- A step that ends well is one of a client that is there.
    obtain ⟨client, hClient, h⟩ := bind_eq_ok.mp h
    obtain ⟨_, hAct, hEq⟩ := bind_eq_ok.mp h
    obtain rfl := Except.ok.inj hEq
    exact .client (readAt_eq_ok.mp hClient) hAct
  | toHost positions =>
    obtain ⟨_, hInput, hEq⟩ := bind_eq_ok.mp h
    obtain rfl := Except.ok.inj hEq
    exact .toHost hInput
  | toClient c positions =>
    obtain ⟨client, hClient, h⟩ := bind_eq_ok.mp h
    obtain ⟨_, hInput, hEq⟩ := bind_eq_ok.mp h
    obtain rfl := Except.ok.inj hEq
    exact .toClient (readAt_eq_ok.mp hClient) hInput

/-- A step leaves the clients as they are, or one of them acts. A delivery is an
`input` of the client it goes to, so a client's invariant need not know of the
world. -/
theorem WorldStep.clients {w w' : World} {a : WorldAction} (h : WorldStep w a w') :
    w'.clients = w.clients ∨ ∃ c client client' b s ps, w.clients[c]? = some client ∧
      client.act b = .ok (s, ps, client') ∧ w'.clients = w.clients.set c client' := by
  cases h with
  | host => exact Or.inl rfl
  | client hClient hAct => exact Or.inr ⟨_, _, _, _, _, _, hClient, hAct, rfl⟩
  | toHost => exact Or.inl rfl
  | toClient hClient hInput => exact Or.inr ⟨_, _, _, _, _, _, hClient, Peer.act_input hInput, rfl⟩

/-- Nothing has been sent. -/
def World.start (host : Peer) (clients : List Peer) : World where
  host := host
  clients := clients
  hostSent := []
  clientSent := []

/-- A client with one slot, connected to a server id: how an application of a client
starts. -/
def connectedClient (id serverId : Int) (alloc : Allocator) (mt64 : Mt64) : Peer :=
  (peerConnect (peerOpen (peerInit .client alloc mt64) (some [id])).2 serverId).2

-- ---------------------------------------------------------------------------
-- Moves over a network
-- ---------------------------------------------------------------------------

/-- A call that the application of a host makes, other than `peer_input`. A host
does not connect, and the remote ids of its slots come from the packets it receives. -/
def PeerAction.isHostCall : PeerAction → Bool
  | .openSlots _ => true
  | .queue _ => true
  | .tick _ => true
  | .setAddress _ _ _ => true
  | .connect _ => false
  | .input _ => false
  | .resolve _ _ => false

/-- A call that the application of a client makes, other than `peer_input`. -/
def PeerAction.isClientCall : PeerAction → Bool
  | .input _ => false
  | _ => true

/-- A move of the host, of a client, or of the network between them. What comes in
comes over the network. -/
def WorldAction.isMove : WorldAction → Bool
  | .host a => a.isHostCall
  | .client _ a => a.isClientCall
  | .toHost _ => true
  | .toClient _ _ => true

theorem mem_of_mem_delivered {sent : List PeerPacket} {positions : List Nat} {p : PeerPacket}
    (h : p ∈ delivered sent positions) : p ∈ sent := by
  obtain ⟨i, _, hi⟩ := List.mem_filterMap.mp h
  exact List.mem_of_getElem? hi

end PeerProtocol
