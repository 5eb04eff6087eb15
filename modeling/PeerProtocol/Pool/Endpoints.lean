import PeerProtocol.Lib.Intern
import PeerProtocol.Lib.Run
import PeerProtocol.Model.Pool

/-!
# peer — the ids of remote endpoints

`find_pool_node` is the one function that gives an id to a remote endpoint. It
looks for a node without a socket that has the protocol, the port and the
address, and where there is none it appends one. Both `peer_pool_connect` and
`peer_pool_tick` go through it, as does `resolve_address_and_id` for the ends
of every slot, so that ids that come from any of them can be compared with
`==`, as `peer.c` does.

Seen from outside, the nodes of a pool are a table that only grows. The table
of `Lib/Intern.lean` is this one with the key of a node as a parameter; here
the key is `PeerNode.endpoint`, which nodes that have a socket lack.

The argument has three steps:

* `findPoolNode_cases` says what one lookup does: it finds the first node of
  the endpoint and changes nothing, or it appends a node that was not there,
  or it fails and changes nothing;
* `NodesGrow` is what any call of the API does to the nodes. It has a case for
  the nodes that `peer_pool_open` appends, which have sockets, a case for one
  new endpoint, and a case for calls that do both. `PeerSocketPool.step_grows`
  goes through the calls;
* along a run the nodes of one state are a prefix of the nodes of a later one,
  and no two nodes have one endpoint.

`endpoint_ids` puts these together: in every pool that calls with any results
lead to, whichever of them fail, an endpoint has at most one id, and once it
has one, every later lookup answers with it.
-/

namespace PeerProtocol

open Lib

-- ---------------------------------------------------------------------------
-- Lookups
-- One call of find_pool_node, in terms of the first position of a key in a
-- table.
-- ---------------------------------------------------------------------------

/-- What `find_pool_node` compares: the protocol, the remote port and the remote
address. -/
abbrev Endpoint := Int × UInt16 × List UInt8

/-- The endpoint by which a node is found. A node with a socket is none that can be
found, and neither is one with a local port. -/
def PeerNode.endpoint (node : PeerNode) : Option Endpoint :=
  if node.socket = invalidSocket ∧ node.localPort = peerAnyPort then
    some (node.protocol, node.remotePort, node.remoteAddress)
  else none

/-- The five comparisons of the source, as one equation between keys. -/
theorem isEndpoint_iff {node : PeerNode} {protocol : Int} {port : UInt16} {address : List UInt8} :
    node.isEndpoint protocol port address = true ↔
      node.endpoint = some (protocol, port, address) := by
  simp only [PeerNode.isEndpoint, PeerNode.endpoint, Bool.and_eq_true, beq_iff_eq,
    Option.ite_none_right_eq_some, Option.some.injEq, Prod.mk.injEq]
  constructor
  · rintro ⟨⟨⟨⟨hSocket, hProtocol⟩, hLocal⟩, hPort⟩, hAddress⟩
    exact ⟨⟨hSocket, hLocal⟩, hProtocol, hPort, hAddress⟩
  · rintro ⟨⟨hSocket, hLocal⟩, hProtocol, hPort, hAddress⟩
    exact ⟨⟨⟨⟨hSocket, hProtocol⟩, hLocal⟩, hPort⟩, hAddress⟩

/-- The node that a lookup appends is found again by what it was made of. -/
@[simp] theorem endpoint_remote (protocol : Int) (port : UInt16) (address : List UInt8)
    (h : address.length ≤ peerAddressSize - 2) :
    (PeerNode.remote protocol port address h).endpoint = some (protocol, port, address) := by
  simp [PeerNode.endpoint, PeerNode.remote]

/-- A node of the pool's own is never the answer of a lookup, whatever its ports
are. -/
theorem endpoint_of_socket {node : PeerNode} (h : node.socket ≠ invalidSocket) :
    node.endpoint = none := by
  rw [PeerNode.endpoint, if_neg fun hBoth => h hBoth.1]

/-- The loop of the source over the nodes is the search of `Lib/Intern.lean`. -/
theorem findIdx?_isEndpoint (nodes : List PeerNode) (protocol : Int) (port : UInt16)
    (address : List UInt8) :
    nodes.findIdx? (·.isEndpoint protocol port address) =
      findKey PeerNode.endpoint (protocol, port, address) nodes := by
  unfold findKey
  congr 1
  funext node
  rw [Bool.eq_iff_iff, isEndpoint_iff, decide_eq_true_eq]

section Lookup

variable {pool pool' : PeerSocketPool} {protocol : Int} {port : UInt16} {address : List UInt8}
  {inPool : Bool} {s : Status} {id : Int}

/-- **What a lookup does**: it fails, it finds the endpoint, or it appends it. The
first two leave the nodes as they are, and the second leaves the whole pool. -/
theorem findPoolNode_cases (h : findPoolNode pool protocol port address inPool = .ok (s, id, pool')) :
    (s ≠ kitOk ∧ pool'.nodes = pool.nodes) ∨
    (s = kitOk ∧ protocol = peerUdpIPv4 ∧ pool' = pool ∧
      ∃ i : Nat, id = i ∧ findKey PeerNode.endpoint (protocol, port, address) pool.nodes = some i) ∨
    (s = kitOk ∧ protocol = peerUdpIPv4 ∧ id = pool.nodes.length ∧
      findKey PeerNode.endpoint (protocol, port, address) pool.nodes = none ∧
      ∃ hLe, pool'.nodes = pool.nodes ++ [PeerNode.remote protocol port address hLe]) := by
  unfold findPoolNode at h
  split at h
  -- another protocol
  · obtain ⟨rfl, hRest⟩ := Prod.mk.inj (Except.ok.inj h)
    obtain ⟨_, rfl⟩ := Prod.mk.inj hRest
    exact Or.inl ⟨by decide, rfl⟩
  next hProtocol =>
  rw [ne_eq, not_not] at hProtocol
  rw [findIdx?_isEndpoint] at h
  split at h
  -- the endpoint has a node
  · next i hFind =>
    obtain ⟨rfl, hRest⟩ := Prod.mk.inj (Except.ok.inj h)
    obtain ⟨rfl, rfl⟩ := Prod.mk.inj hRest
    exact Or.inr (Or.inl ⟨rfl, hProtocol, rfl, i, rfl, hFind⟩)
  next hFind =>
  -- it needs a new one
  unfold PeerSocketPool.grow at h
  split at h
  · next hGrow =>
    obtain ⟨rfl, hRest⟩ := Prod.mk.inj (Except.ok.inj h)
    obtain ⟨_, rfl⟩ := Prod.mk.inj hRest
    obtain ⟨_, hGrow⟩ := Prod.mk.inj hGrow
    obtain ⟨_, rfl⟩ := Prod.mk.inj hGrow
    exact Or.inl ⟨by decide, rfl⟩
  · next hGrow =>
    obtain ⟨_, hGrow⟩ := Prod.mk.inj hGrow
    obtain ⟨_, rfl⟩ := Prod.mk.inj hGrow
    split at h
    · cases h
    split at h
    · next hLe =>
      obtain ⟨rfl, hRest⟩ := Prod.mk.inj (Except.ok.inj h)
      obtain ⟨rfl, rfl⟩ := Prod.mk.inj hRest
      exact Or.inr (Or.inr ⟨rfl, hProtocol, rfl, hFind, hLe, rfl⟩)
    · cases h

/-- After a lookup that succeeds, the endpoint is in the table at the id that was
returned. The protocol is the one that the pool implements, since for any other the
lookup fails. -/
theorem findKey_of_findPoolNode
    (h : findPoolNode pool protocol port address inPool = .ok (kitOk, id, pool')) :
    ∃ i : Nat, id = i ∧ protocol = peerUdpIPv4 ∧
      findKey PeerNode.endpoint (protocol, port, address) pool'.nodes = some i := by
  rcases findPoolNode_cases h with
    ⟨hError, _⟩ | ⟨_, hProtocol, rfl, i, rfl, hFind⟩ | ⟨_, hProtocol, rfl, hNone, hLe, hNodes⟩
  · exact absurd rfl hError
  · exact ⟨i, rfl, hProtocol, hFind⟩
  · refine ⟨pool.nodes.length, rfl, hProtocol, ?_⟩
    rw [hNodes, findKey, List.findIdx?_append]
    rw [findKey] at hNone
    rw [hNone]
    simp

/-- A lookup of an endpoint that is in the table answers with its position and asks
for no memory, so it can neither fail nor fault. -/
theorem findPoolNode_of_findKey {i : Nat} (hProtocol : protocol = peerUdpIPv4)
    (h : findKey PeerNode.endpoint (protocol, port, address) pool.nodes = some i) (inPool : Bool) :
    findPoolNode pool protocol port address inPool = .ok (kitOk, i, pool) := by
  rw [findPoolNode, if_neg (not_not.mpr hProtocol), findIdx?_isEndpoint, h]

end Lookup

-- ---------------------------------------------------------------------------
-- Growth
-- ---------------------------------------------------------------------------

/-- What a call does to the nodes: nothing; or it appends nodes that have sockets,
as `peer_pool_open` does; or it appends an endpoint that no node has; or first one
and then another of these. -/
inductive NodesGrow : List PeerNode → List PeerNode → Prop where
  | refl (nodes : List PeerNode) : NodesGrow nodes nodes
  | opened (nodes : List PeerNode) {added : List PeerNode}
      (hAdded : ∀ node ∈ added, node.socket ≠ invalidSocket) : NodesGrow nodes (nodes ++ added)
  | remote {nodes : List PeerNode} {protocol : Int} {port : UInt16} {address : List UInt8}
      (hLe : address.length ≤ peerAddressSize - 2)
      (hNone : findKey PeerNode.endpoint (protocol, port, address) nodes = none) :
      NodesGrow nodes (nodes ++ [PeerNode.remote protocol port address hLe])
  | trans {nodes nodes' nodes'' : List PeerNode} (h : NodesGrow nodes nodes')
      (h' : NodesGrow nodes' nodes'') : NodesGrow nodes nodes''

/-- No node is changed, moved or taken away. -/
theorem NodesGrow.isPrefix {nodes nodes' : List PeerNode} (h : NodesGrow nodes nodes') :
    nodes <+: nodes' := by
  induction h with
  | refl => exact List.prefix_rfl
  | opened => exact List.prefix_append ..
  | remote => exact List.prefix_append ..
  | trans _ _ ih ih' => exact ih.trans ih'

/-- The invariant of the table: the nodes without a socket are nodes of endpoints,
and no two nodes have the same one. -/
structure EndpointsInv (nodes : List PeerNode) : Prop where
  remote : ∀ node ∈ nodes, node.socket = invalidSocket → node.localPort = peerAnyPort
  unique : KeysUnique PeerNode.endpoint nodes

/-- A new pool has no nodes. -/
theorem endpointsInv_nil : EndpointsInv [] where
  remote := by simp
  unique := keysUnique_nil

/-- **What calls do keeps the invariant**: the new nodes have sockets, or have an
endpoint that was not there. The cases are those of the relation, and a sequence of
calls is its transitive one. -/
theorem NodesGrow.endpoints {nodes nodes' : List PeerNode} (h : NodesGrow nodes nodes')
    (hInv : EndpointsInv nodes) : EndpointsInv nodes' := by
  induction h with
  | refl => exact hInv
  | opened nodes hAdded =>
    refine ⟨fun node hNode hSocket => ?_, hInv.unique.append_keyless fun node hNode =>
      endpoint_of_socket (hAdded node hNode)⟩
    rcases List.mem_append.mp hNode with hOld | hNew
    · exact hInv.remote node hOld hSocket
    · exact absurd hSocket (hAdded node hNew)
  | remote hLe hNone =>
    refine ⟨fun node hNode _ => ?_,
      hInv.unique.append_fresh (endpoint_remote ..) (findKey_eq_none_iff.mp hNone)⟩
    rcases List.mem_append.mp hNode with hOld | hNew
    · exact hInv.remote node hOld ‹_›
    · rw [List.mem_singleton.mp hNew]
      rfl
  | trans _ _ ih ih' => exact ih' (ih hInv)

-- ---------------------------------------------------------------------------
-- Each call
-- For every call of the API, that its effect on the nodes is one of the cases
-- of NodesGrow.
-- ---------------------------------------------------------------------------

/-- A lookup, whether it finds, appends or fails. -/
theorem findPoolNode_grows {pool pool' : PeerSocketPool} {protocol : Int} {port : UInt16}
    {address : List UInt8} {inPool : Bool} {s : Status} {id : Int}
    (h : findPoolNode pool protocol port address inPool = .ok (s, id, pool')) :
    NodesGrow pool.nodes pool'.nodes := by
  rcases findPoolNode_cases h with ⟨_, hSame⟩ | ⟨_, _, rfl, _⟩ | ⟨_, _, _, hNone, hLe, hNodes⟩
  · rw [hSame]
    exact .refl _
  · exact .refl _
  · rw [hNodes]
    exact .remote hLe hNone

/-- What the two branches for the remote id do: nothing, or one lookup, whose id
a slot without one keeps. -/
inductive IdLookup (pool : PeerSocketPool) (slot : PeerSlot) : PeerSocketPool → PeerSlot → Prop where
  | skip : IdLookup pool slot pool slot
  | found {protocol : Int} {port : UInt16} {address : List UInt8} {inPool : Bool} {s : Status}
      {id : Int} {pool' : PeerSocketPool} (hUnresolved : slot.remoteEnd.isIdResolved = false)
      (hFind : findPoolNode pool protocol port address inPool = .ok (s, id, pool')) :
      IdLookup pool slot pool' (slot.found s id)

section Turn

variable {pool pool' : PeerSocketPool} {slot slot' : PeerSlot} {s : Status}

/-- The third part of a turn: the address is that of the slot's previous remote end,
the port that of the session response. -/
theorem resolveIdByPort_lookup (h : resolveIdByPort pool slot = .ok (s, pool', slot')) :
    IdLookup pool slot pool' slot' := by
  unfold resolveIdByPort at h
  split at h
  · next hDue =>
    split at h
    · obtain ⟨_, hRest⟩ := Prod.mk.inj (Except.ok.inj h)
      obtain ⟨rfl, rfl⟩ := Prod.mk.inj hRest
      exact .skip
    · obtain ⟨⟨s1, id, pool1⟩, hFind, h⟩ := bind_eq_ok.mp h
      obtain ⟨_, hRest⟩ := Prod.mk.inj (Except.ok.inj h)
      obtain ⟨rfl, rfl⟩ := Prod.mk.inj hRest
      exact .found hDue.1 hFind
  · obtain ⟨_, hRest⟩ := Prod.mk.inj (Except.ok.inj h)
    obtain ⟨rfl, rfl⟩ := Prod.mk.inj hRest
    exact .skip

/-- The fourth part: the whole endpoint is in the slot. -/
theorem resolveIdByAddress_lookup (h : resolveIdByAddress pool slot = .ok (s, pool', slot')) :
    IdLookup pool slot pool' slot' := by
  unfold resolveIdByAddress at h
  split at h
  · next hDue =>
    obtain ⟨address, _, h⟩ := bind_eq_ok.mp h
    obtain ⟨⟨s1, id, pool1⟩, hFind, h⟩ := bind_eq_ok.mp h
    obtain ⟨_, hRest⟩ := Prod.mk.inj (Except.ok.inj h)
    obtain ⟨rfl, rfl⟩ := Prod.mk.inj hRest
    exact .found hDue.1 hFind
  · obtain ⟨_, hRest⟩ := Prod.mk.inj (Except.ok.inj h)
    obtain ⟨rfl, rfl⟩ := Prod.mk.inj hRest
    exact .skip

/-- **One turn of the loop over the slots**: the addresses are written, and then
the id is looked up by port, and by address. -/
theorem resolveSlot_cases (h : resolveSlot pool slot = .ok (s, pool', slot')) :
    ∃ s2 slot2 pool3 slot3,
      (slot.resolveLocalAddress pool.nodes).2.resolveRemoteAddress pool.nodes = .ok (s2, slot2) ∧
        IdLookup pool slot2 pool3 slot3 ∧ IdLookup pool3 slot3 pool' slot' := by
  obtain ⟨⟨s2, slot2⟩, hRemote, h⟩ := bind_eq_ok.mp h
  obtain ⟨⟨s3, pool3, slot3⟩, hPort, h⟩ := bind_eq_ok.mp h
  obtain ⟨⟨s4, pool4, slot4⟩, hAddress, h⟩ := bind_eq_ok.mp h
  obtain ⟨_, hRest⟩ := Prod.mk.inj (Except.ok.inj h)
  obtain ⟨rfl, rfl⟩ := Prod.mk.inj hRest
  exact ⟨s2, slot2, pool3, slot3, hRemote, resolveIdByPort_lookup hPort,
    resolveIdByAddress_lookup hAddress⟩

/-- Each of the two parts that look ids up grows the table. -/
theorem IdLookup.grows (h : IdLookup pool slot pool' slot') : NodesGrow pool.nodes pool'.nodes := by
  cases h with
  | skip => exact .refl _
  | found _ hFind => exact findPoolNode_grows hFind

/-- So does the turn, whose first two parts only read the nodes. -/
theorem resolveSlot_grows (h : resolveSlot pool slot = .ok (s, pool', slot')) :
    NodesGrow pool.nodes pool'.nodes := by
  obtain ⟨_, _, _, _, _, hPort, hAddress⟩ := resolveSlot_cases h
  exact hPort.grows.trans hAddress.grows

end Turn

/-- **The loop over the slots**, by induction on them: each turn continues with the
table that the turn before has left. -/
theorem resolveSlots_grows {pool pool' : PeerSocketPool} {slots slots' : List PeerSlot} {s : Status}
    (h : resolveSlots pool slots = .ok (s, pool', slots')) : NodesGrow pool.nodes pool'.nodes := by
  induction slots generalizing pool slots' s with
  | nil =>
    obtain ⟨_, hRest⟩ := Prod.mk.inj (Except.ok.inj h)
    obtain ⟨rfl, _⟩ := Prod.mk.inj hRest
    exact .refl _
  | cons slot slots ih =>
    obtain ⟨⟨s1, pool1, slot1⟩, hFirst, h⟩ := bind_eq_ok.mp h
    obtain ⟨⟨s2, pool2, slots2⟩, hRest, h⟩ := bind_eq_ok.mp h
    obtain ⟨_, hEq⟩ := Prod.mk.inj (Except.ok.inj h)
    obtain ⟨rfl, _⟩ := Prod.mk.inj hEq
    exact (resolveSlot_grows hFirst).trans (ih hRest)

/-- A node that could be opened has a socket, since −1 for a descriptor is an error. -/
theorem socket_of_openNode {calls : SocketCalls} {node : PeerNode}
    (h : openNode calls = (kitOk, node)) : node.socket ≠ invalidSocket := by
  unfold openNode at h
  dsimp only at h
  split at h
  · cases (Prod.mk.inj h).1
  next hSocket =>
  split at h
  · cases (Prod.mk.inj h).1
  split at h
  · cases (Prod.mk.inj h).1
  split at h
  · cases (Prod.mk.inj h).1
  · obtain ⟨_, rfl⟩ := Prod.mk.inj h
    exact hSocket

/-- If the loop ends well, then all its nodes have sockets. Where it does not, the
nodes behind the failing one were left zero, and they are removed again by the
caller. -/
theorem sockets_of_openNodes {calls : Nat → SocketCalls} {i count : Nat} {nodes : List PeerNode}
    (h : openNodes calls i count = (kitOk, nodes)) : ∀ node ∈ nodes, node.socket ≠ invalidSocket := by
  induction count generalizing i nodes with
  | zero =>
    obtain ⟨_, rfl⟩ := Prod.mk.inj h
    simp
  | succ count ih =>
    simp only [openNodes] at h
    split at h
    · next hError => exact absurd (Prod.mk.inj h).1 hError
    · next hOk =>
      obtain ⟨hStatus, rfl⟩ := Prod.mk.inj h
      rw [not_not] at hOk
      intro node hNode
      rcases List.mem_cons.mp hNode with rfl | hRest
      · exact socket_of_openNode (Prod.ext hOk rfl)
      · exact ih (Prod.ext hStatus rfl) node hRest

/-- The switch appends nodes, all of them with a socket if it ends well. Only one of
the four protocols is implemented, and the others leave the nodes as they are. -/
theorem openProtocol_nodes (pool : PeerSocketPool) (protocol : Int) (count : Nat)
    (calls : Nat → SocketCalls) :
    ∃ added, (openProtocol pool protocol count calls).2.nodes = pool.nodes ++ added ∧
      ((openProtocol pool protocol count calls).1 = kitOk →
        ∀ node ∈ added, node.socket ≠ invalidSocket) := by
  have hNone : pool.nodes = pool.nodes ++ [] := (List.append_nil _).symm
  unfold openProtocol PeerSocketPool.grow
  split
  · split
    · next hGrow =>
      obtain ⟨_, hGrow⟩ := Prod.mk.inj hGrow
      obtain ⟨_, rfl⟩ := Prod.mk.inj hGrow
      -- The room was refused, so no node was added.
      exact ⟨[], hNone, fun _ => by simp⟩
    · next hGrow =>
      obtain ⟨_, hGrow⟩ := Prod.mk.inj hGrow
      obtain ⟨_, rfl⟩ := Prod.mk.inj hGrow
      -- The loop has run: where all of it succeeded, every new node has a socket.
      exact ⟨_, rfl, fun hOk => sockets_of_openNodes (Prod.ext hOk rfl)⟩
  split
  · exact ⟨[], hNone, fun _ => by simp⟩
  · exact ⟨[], hNone, fun _ => by simp⟩

/-- The second half of `peer_pool_open` is about the slots of the peer. -/
theorem openIds_nodes (pool : PeerSocketPool) (peer : Peer) (n count : Nat) :
    (openIds pool peer n count).2.1.nodes = pool.nodes := by
  unfold openIds
  split <;> rfl

/-- **An open** appends its nodes, or after any error takes them away again and
leaves the nodes as they were. -/
theorem peerPoolOpen_grows (pool : PeerSocketPool) (peer : Peer) (protocol count : Int)
    (calls : Nat → SocketCalls) :
    NodesGrow pool.nodes (peerPoolOpen pool peer protocol count calls).2.2.1.nodes := by
  unfold peerPoolOpen
  split
  · exact .refl _
  obtain ⟨added, hNodes, hSockets⟩ := openProtocol_nodes pool protocol count.toNat calls
  have hTake : (pool.nodes ++ added).take pool.nodes.length = pool.nodes := List.take_left
  -- A failure of either half takes the new nodes back.
  by_cases hOk : (openProtocol pool protocol count.toNat calls).1 = kitOk
  · simp only [if_pos hOk]
    split
    · dsimp only
      rw [openIds_nodes, hNodes, hTake]
      exact .refl _
    · rw [openIds_nodes, hNodes]
      exact .opened _ (hSockets hOk)
  · simp only [if_neg hOk]
    rw [if_pos hOk]
    dsimp only
    rw [hNodes, hTake]
    exact .refl _

/-- **A connect**: a lookup, and an open of one socket where no slot was free. The
lookup's node stays, also where the call fails afterwards. -/
theorem peerPoolConnect_grows {pool pool' : PeerSocketPool} {peer peer' : Peer} {protocol : Int}
    {address : List UInt8} {port : UInt16} {calls : Nat → SocketCalls} {s : Status}
    {closed : List Int}
    (h : peerPoolConnect pool peer protocol address port calls = .ok (s, closed, pool', peer')) :
    NodesGrow pool.nodes pool'.nodes := by
  -- the results of a call that ends here
  have hEnd {s1 : Status} {closed1 : List Int} {pool1 : PeerSocketPool} {peer1 : Peer}
      (hEq : (.ok (s1, closed1, pool1, peer1) : Except Fault _) = .ok (s, closed, pool', peer'))
      (hGrows : NodesGrow pool.nodes pool1.nodes) : NodesGrow pool.nodes pool'.nodes := by
    obtain ⟨_, hRest⟩ := Prod.mk.inj (Except.ok.inj hEq)
    obtain ⟨_, hRest⟩ := Prod.mk.inj hRest
    obtain ⟨rfl, _⟩ := Prod.mk.inj hRest
    exact hGrows
  unfold peerPoolConnect at h
  split at h
  · exact hEnd h (.refl _)
  split at h
  · exact hEnd h (.refl _)
  obtain ⟨⟨s1, id, pool1⟩, hFind, h⟩ := bind_eq_ok.mp h
  have hFound := findPoolNode_grows hFind
  have hOpened := hFound.trans (peerPoolOpen_grows pool1 (peerConnect peer id).2 protocol 1 calls)
  dsimp only at h
  split at h
  · exact hEnd h hFound
  split at h
  · exact hEnd h hFound
  split at h
  · exact hEnd h hOpened
  · exact hEnd h hOpened

/-- The sender of a datagram is looked up, and is appended where it has no node yet.
A turn without a datagram leaves the nodes as they are. -/
theorem receiveNode_grows {received : ReceiveCall} {pool pool' : PeerSocketPool} {i : Nat}
    {node : PeerNode} {packets packets' : List PeerPacket} {s : Status}
    (h : receiveNode received pool i node packets = .ok (s, pool', packets')) :
    NodesGrow pool.nodes pool'.nodes := by
  have hEnd {s1 : Status} {pool1 : PeerSocketPool} {packets1 : List PeerPacket}
      (hEq : (.ok (s1, pool1, packets1) : Except Fault _) = .ok (s, pool', packets'))
      (hGrows : NodesGrow pool.nodes pool1.nodes) : NodesGrow pool.nodes pool'.nodes := by
    obtain ⟨_, hRest⟩ := Prod.mk.inj (Except.ok.inj hEq)
    obtain ⟨rfl, _⟩ := Prod.mk.inj hRest
    exact hGrows
  unfold receiveNode at h
  split at h
  · exact hEnd h (.refl _)
  split at h
  · exact hEnd h (.refl _)
  · exact hEnd h (.refl _)
  split at h
  · exact hEnd h (.refl _)
  obtain ⟨⟨s1, id, pool1⟩, hFind, h⟩ := bind_eq_ok.mp h
  -- the lookup of the sender is all that adds a node
  have hFound := findPoolNode_grows hFind
  dsimp only at h
  split at h
  · exact hEnd h hFound
  split at h
  · exact hEnd h hFound
  · exact hEnd h hFound

/-- **The loop over the sockets**, by induction on the nodes that there were when it
began. -/
theorem receiveNodes_grows {received : Nat → ReceiveCall} {i : Nat} {nodes : List PeerNode}
    {pool pool' : PeerSocketPool} {packets packets' : List PeerPacket} {s : Status}
    (h : receiveNodes received i nodes pool packets = .ok (s, pool', packets')) :
    NodesGrow pool.nodes pool'.nodes := by
  induction nodes generalizing i pool packets s with
  | nil =>
    obtain ⟨_, hRest⟩ := Prod.mk.inj (Except.ok.inj h)
    obtain ⟨rfl, _⟩ := Prod.mk.inj hRest
    exact .refl _
  | cons node nodes ih =>
    obtain ⟨⟨s1, pool1, packets1⟩, hFirst, h⟩ := bind_eq_ok.mp h
    obtain ⟨⟨s2, pool2, packets2⟩, hRest, h⟩ := bind_eq_ok.mp h
    obtain ⟨_, hEq⟩ := Prod.mk.inj (Except.ok.inj h)
    obtain ⟨rfl, rfl⟩ := Prod.mk.inj hEq
    exact (receiveNode_grows hFirst).trans (ih hRest)

/-- **A tick**: the turn over the slots, and then the datagrams. Sending reads the
nodes and adds none, and a tick of a negative elapsed time does nothing. -/
theorem peerPoolTick_grows {pool pool' : PeerSocketPool} {peer peer' : Peer} {e : Int}
    {received : Nat → ReceiveCall} {calls : Nat → SendCalls} {s : Status} {ps : List PeerPacket}
    (h : peerPoolTick pool peer e received calls = .ok (s, ps, pool', peer')) :
    NodesGrow pool.nodes pool'.nodes := by
  unfold peerPoolTick at h
  split at h
  · obtain ⟨_, hRest⟩ := Prod.mk.inj (Except.ok.inj h)
    obtain ⟨_, hRest⟩ := Prod.mk.inj hRest
    obtain ⟨rfl, _⟩ := Prod.mk.inj hRest
    exact .refl _
  obtain ⟨⟨s1, pool1, peer1⟩, hResolve, h⟩ := bind_eq_ok.mp h
  obtain ⟨⟨s2, pool2, packets⟩, hReceive, h⟩ := bind_eq_ok.mp h
  obtain ⟨⟨s3, peer2⟩, _, h⟩ := bind_eq_ok.mp h
  obtain ⟨⟨s4, packets', peer3⟩, _, h⟩ := bind_eq_ok.mp h
  obtain ⟨_, hRest⟩ := Prod.mk.inj (Except.ok.inj h)
  obtain ⟨_, hRest⟩ := Prod.mk.inj hRest
  obtain ⟨rfl, _⟩ := Prod.mk.inj hRest
  obtain ⟨⟨s0, pool0, slots0⟩, hSlots, hResolve⟩ := bind_eq_ok.mp hResolve
  obtain ⟨_, hRest⟩ := Prod.mk.inj (Except.ok.inj hResolve)
  obtain ⟨rfl, _⟩ := Prod.mk.inj hRest
  -- Nodes are added while addresses are resolved, and for senders not heard before.
  exact (resolveSlots_grows hSlots).trans (receiveNodes_grows hReceive)

/-- A call that ends has not come to a sum that overflows, and is then
`peerPoolOpen`. -/
theorem peerPoolOpenCall_eq_ok {pool : PeerSocketPool} {peer : Peer} {protocol count : Int}
    {calls : Nat → SocketCalls} {r : Status × List Int × PeerSocketPool × Peer} :
    peerPoolOpenCall pool peer protocol count calls = .ok r ↔
      ¬ pool.SumOverflows protocol count ∧ peerPoolOpen pool peer protocol count calls = r := by
  unfold peerPoolOpenCall
  split
  · next hOverflows => exact iff_of_false (fun h => by cases h) fun h => h.1 hOverflows
  · next hFits => rw [and_iff_right hFits, Except.ok.injEq]

/-- **Step lemma of the pool**: a call only appends, whatever it does otherwise and
whether it succeeds or not. -/
theorem PeerSocketPool.step_grows {pool pool' : PeerSocketPool} {a : PoolAction}
    (h : pool.step a = .ok pool') : NodesGrow pool.nodes pool'.nodes := by
  cases a with
  | openSockets peer protocol count calls =>
    obtain ⟨r, hOpen, h⟩ := bind_eq_ok.mp h
    obtain ⟨_, rfl⟩ := peerPoolOpenCall_eq_ok.mp hOpen
    rw [← Except.ok.inj h]
    exact peerPoolOpen_grows pool peer protocol count calls
  | connect peer protocol address port calls =>
    obtain ⟨⟨s, closed, pool1, peer1⟩, hConnect, h⟩ := bind_eq_ok.mp h
    rw [← Except.ok.inj h]
    exact peerPoolConnect_grows hConnect
  | tick peer e received calls =>
    obtain ⟨⟨s, ps, pool1, peer1⟩, hTick, h⟩ := bind_eq_ok.mp h
    rw [← Except.ok.inj h]
    exact peerPoolTick_grows hTick
  | lookup protocol port address =>
    obtain ⟨⟨s, id, pool1⟩, hFind, h⟩ := bind_eq_ok.mp h
    rw [← Except.ok.inj h]
    exact findPoolNode_grows hFind

-- ---------------------------------------------------------------------------
-- Runs
-- ---------------------------------------------------------------------------

/-- Any calls, one after another, of any peers and with any results of the system's
calls. -/
abbrev PoolReaches : PeerSocketPool → PeerSocketPool → Prop :=
  Reaches PeerSocketPool.step (fun _ _ _ => True)

/-- **Run lemma of the pool**: what a run does to the nodes, a call could do. -/
theorem PoolReaches.grows {pool pool' : PeerSocketPool} (h : PoolReaches pool pool') :
    NodesGrow pool.nodes pool'.nodes := by
  refine h.invariant (I := fun p => NodesGrow pool.nodes p.nodes) ?_ (.refl _)
  intro t a t' ht hStep _
  exact ht.trans (t.step_grows hStep)

/-- The id of an endpoint, as long as the pool lives: it designates the node of
the endpoint, which stays as it is, and the endpoint is found there again. -/
structure IdStays (pool : PeerSocketPool) (protocol : Int) (port : UInt16) (address : List UInt8)
    (id : Int) : Prop where
  node : ∃ node, nodeAt pool.nodes id = some node ∧ node.socket = invalidSocket ∧
    node.protocol = protocol ∧ node.remotePort = port ∧ node.remoteAddress = address
  stays : ∀ pool', PoolReaches pool pool' → nodeAt pool'.nodes id = nodeAt pool.nodes id
  again : ∀ pool', PoolReaches pool pool' → ∀ inPool,
    findPoolNode pool' protocol port address inPool = .ok (kitOk, id, pool')
  -- packets are matched by id as they would be by endpoint
  other : ∀ pool', PoolReaches pool pool' → ∀ protocol' port' address' inPool id' pool'',
    findPoolNode pool' protocol' port' address' inPool = .ok (kitOk, id', pool'') →
    (id' = id ↔ (protocol', port', address') = (protocol, port, address))

/-- The test of an id and the access behind it, for an id that is a position. -/
theorem nodeAt_natCast (nodes : List PeerNode) (i : Nat) : nodeAt nodes (i : Int) = nodes[i]? := by
  rw [nodeAt, if_neg (by omega), Int.toNat_natCast]

/-- An endpoint that is in the table keeps its id: the table of every later pool
begins with the nodes of this one, and has the endpoint nowhere else. -/
theorem EndpointsInv.idStays {pool : PeerSocketPool} (h : EndpointsInv pool.nodes) {protocol : Int}
    {port : UInt16} {address : List UInt8} {i : Nat} (hProtocol : protocol = peerUdpIPv4)
    (hFind : findKey PeerNode.endpoint (protocol, port, address) pool.nodes = some i) :
    IdStays pool protocol port address i := by
  obtain ⟨node, hNode, hEndpoint⟩ := exists_of_findKey hFind
  -- keys are unique and nodes only grow, so a key stays where it is
  have hLater {pool' : PeerSocketPool} (hReach : PoolReaches pool pool') :
      findKey PeerNode.endpoint (protocol, port, address) pool'.nodes = some i :=
    (hReach.grows.endpoints h).unique.findKey_of_isPrefix hReach.grows.isPrefix hFind
  constructor
  · refine ⟨node, by rw [nodeAt_natCast, hNode], ?_⟩
    simp only [PeerNode.endpoint, Option.ite_none_right_eq_some, Option.some.injEq,
      Prod.mk.injEq] at hEndpoint
    exact ⟨hEndpoint.1.1, hEndpoint.2⟩
  · intro pool' hReach
    rw [nodeAt_natCast, nodeAt_natCast, hNode, getElem?_of_isPrefix hReach.grows.isPrefix hNode]
  · exact fun pool' hReach inPool => findPoolNode_of_findKey hProtocol (hLater hReach) inPool
  · intro pool' hReach protocol' port' address' inPool id' pool'' hFind'
    have hGrows := findPoolNode_grows hFind'
    have hUnique := (hGrows.endpoints (hReach.grows.endpoints h)).unique
    have hOld := hUnique.findKey_of_isPrefix hGrows.isPrefix (hLater hReach)
    obtain ⟨i', rfl, _, hNew⟩ := findKey_of_findPoolNode hFind'
    constructor
    · intro hSame
      obtain rfl : i' = i := Int.ofNat.inj hSame
      exact findKey_inj hNew hOld
    · intro hSame
      rw [hSame, hOld, Option.some.injEq] at hNew
      rw [hNew]

/-- **Ids are unique and stable**, in every pool that any calls reach: no two
nodes without a socket are the same endpoint, every node keeps its id, and a
lookup that ends well returns an id that stays. -/
theorem endpoint_ids {alloc : Allocator} {inPlace : Nat → Bool} {pool : PeerSocketPool}
    (h : PoolReaches (peerPoolInit alloc inPlace) pool) :
    (∀ (i j : Nat) (a b : PeerNode), pool.nodes[i]? = some a → pool.nodes[j]? = some b →
      a.socket = invalidSocket → b.socket = invalidSocket → a.protocol = b.protocol →
      a.remotePort = b.remotePort → a.remoteAddress = b.remoteAddress → i = j) ∧
    (∀ (pool' : PeerSocketPool) (i : Nat) (node : PeerNode), PoolReaches pool pool' →
      pool.nodes[i]? = some node → pool'.nodes[i]? = some node) ∧
    (∀ protocol port address inPool id pool',
      findPoolNode pool protocol port address inPool = .ok (kitOk, id, pool') →
      IdStays pool' protocol port address id) := by
  have hInv : EndpointsInv pool.nodes := h.grows.endpoints endpointsInv_nil
  refine ⟨fun i j a b ha hb hSocket hSocket' hProtocol hPort hAddress => ?_,
    fun pool' i node hReach hNode => getElem?_of_isPrefix hReach.grows.isPrefix hNode, ?_⟩
  -- A node without a socket was added by a lookup, so its key is the endpoint looked up.
  · have hKey {node : PeerNode} {k : Nat} (hNode : pool.nodes[k]? = some node)
        (hNone : node.socket = invalidSocket) :
        node.endpoint = some (node.protocol, node.remotePort, node.remoteAddress) := by
      rw [PeerNode.endpoint, if_pos ⟨hNone, hInv.remote node (List.mem_of_getElem? hNode) hNone⟩]
    refine hInv.unique i j a b _ ha hb (hKey ha hSocket) ?_
    rw [hKey hb hSocket', hProtocol, hPort, hAddress]
  · intro protocol port address inPool id pool' hFind
    obtain ⟨i, rfl, hProtocol, hKey⟩ := findKey_of_findPoolNode hFind
    exact ((findPoolNode_grows hFind).endpoints hInv).idStays hProtocol hKey

/-- A pool in which two endpoints were looked up, and a socket opened in between. -/
def lookupRun : List PoolAction :=
  [.lookup 1 7 [49], .openSockets (peerInit .client .reliable ⟨fun _ => 0⟩) 1 1
    (fun _ => ⟨5, true, true, some 9⟩), .lookup 1 8 [49]]

/-- The first of them is still found at its id, before a third one. -/
theorem endpoint_ids_found :
    ∃ pool pool', PoolReaches (peerPoolInit .reliable fun _ => true) pool ∧ pool.nodes.length = 3 ∧
      findPoolNode pool 1 7 [50] false = .ok (kitOk, 3, pool') ∧ IdStays pool' 1 7 [50] 3 := by
  obtain ⟨pool, hReach, hTest⟩ : ∃ pool, PoolReaches (peerPoolInit .reliable fun _ => true) pool ∧
      (match findPoolNode pool 1 7 [50] false with
        | .ok (s, id, _) => s == kitOk && id == 3 && pool.nodes.length == 3
        | .error _ => false) = true :=
    exists_reaches_of_runGuarded (fun _ _ _ => true) (fun _ _ _ _ => trivial) lookupRun _
      (fun pool : PeerSocketPool => match findPoolNode pool 1 7 [50] false with
        | .ok (s, id, _) => s == kitOk && id == 3 && pool.nodes.length == 3
        | .error _ => false) (by decide +kernel)
  split at hTest
  · next s id pool' hFind =>
    rw [Bool.and_eq_true, Bool.and_eq_true, beq_iff_eq, beq_iff_eq, beq_iff_eq] at hTest
    obtain ⟨⟨rfl, rfl⟩, hLength⟩ := hTest
    exact ⟨pool, pool', hReach, hLength, hFind, (endpoint_ids hReach).2.2 _ _ _ _ _ _ hFind⟩
  · cases hTest

end PeerProtocol
