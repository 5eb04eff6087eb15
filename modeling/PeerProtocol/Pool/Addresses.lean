import PeerProtocol.Pool.SessionAddress

/-!
# peer — the address of a connection

An address that `peer_pool_connect` accepts is copied twice. `find_pool_node`
copies it into a node, whose array has 62 bytes and is given to `inet_pton`,
which reads up to a zero byte. Later `resolve_address_and_id` copies it,
behind a prefix of three bytes, into the 64 bytes of a slot's endpoint. The
check in front of both compares the length with the size of the node's array
and lets 62 bytes through: then there is no zero byte in the array, and the
second copy ends one byte behind the slot's.

* `StoredWithZero` says of the pool right after the connection that the node
  has the address, and a zero byte behind it;
* `WrittenLater` says of every pool that later calls lead to that the turn of
  any slot with the node's id writes prefix and address into the slot's array,
  and does not fault;
* `addressFits_iff` — a connection that returns `KIT_OK` has both exactly for
  addresses of at most 61 bytes.

Later pools are those of `Pool/Endpoints.lean`: their nodes begin with those
of the pool at hand, so the node is still there, whatever was called.
-/

namespace PeerProtocol

open Lib

/-- The node at the id is the endpoint's, with the address in front of its array
and a zero byte behind it. -/
def StoredWithZero (pool : PeerSocketPool) (protocol : Int) (port : UInt16) (address : List UInt8)
    (id : Int) : Prop :=
  ∃ node, nodeAt pool.nodes id = some node ∧ node.isEndpoint protocol port address = true ∧
    address <+: node.addressArray ∧ node.addressArray[address.length]? = some 0

/-- In every later pool (the nodes of this one are in front of its nodes), the
turn of a slot with the id whose remote address is not resolved ends, and leaves
prefix and address in the slot's array. -/
def WrittenLater (pool : PeerSocketPool) (protocol : Int) (port : UInt16) (address : List UInt8)
    (id : Int) : Prop :=
  ∀ (later : PeerSocketPool) (slot : PeerSlot), pool.nodes <+: later.nodes →
    slot.remoteEnd.id = id → slot.remoteEnd.isAddressResolved = false →
    ∃ s later' slot', resolveSlot later slot = .ok (s, later', slot') ∧
      slot'.remoteEnd.addressSize = 3 + address.length ∧
      slot'.remoteEnd.addressSize ≤ (peerAddressSize : Int) ∧
      addressPrefix protocol port ++ address <+: slot'.remoteEnd.addressData.elems

/-- What a connection to the address leaves: a slot with an id for which both hold. -/
def AddressFits (pool : PeerSocketPool) (peer : Peer) (protocol : Int) (port : UInt16)
    (address : List UInt8) : Prop :=
  ∃ id, (∃ slot ∈ peer.slots, slot.remoteEnd.id = id) ∧
    StoredWithZero pool protocol port address id ∧ WrittenLater pool protocol port address id

-- ---------------------------------------------------------------------------
-- The two copies
-- ---------------------------------------------------------------------------

/-- A zero byte is left behind the address unless it fills the array of the node. -/
theorem addressArray_zero_iff (node : PeerNode) :
    node.addressArray[node.remoteAddress.length]? = some 0 ↔ node.remoteAddress.length ≤ 61 := by
  rw [PeerNode.addressArray, List.getElem?_append_right (Nat.le_refl _), Nat.sub_self,
    List.getElem?_replicate, peerAddressSize, Option.ite_none_right_eq_some,
    and_iff_left rfl]
  omega

/-- The first copy, for a node that has the endpoint. -/
theorem storedWithZero_iff {pool : PeerSocketPool} {protocol : Int} {port : UInt16}
    {address : List UInt8} {id : Int} {node : PeerNode} (hNode : nodeAt pool.nodes id = some node)
    (hEndpoint : node.isEndpoint protocol port address = true) :
    StoredWithZero pool protocol port address id ↔ address.length ≤ 61 := by
  obtain ⟨_, _, hAddress⟩ := remote_of_isEndpoint hEndpoint
  subst hAddress
  constructor
  · rintro ⟨node', hNode', _, _, hZero⟩
    obtain rfl : node = node' := Option.some.inj (hNode.symm.trans hNode')
    exact (addressArray_zero_iff node).mp hZero
  · intro hLe
    exact ⟨node, hNode, hEndpoint, List.prefix_append _ _, (addressArray_zero_iff node).mpr hLe⟩

/-- A lookup of an address that fits a node ends: the pointer that it is given is
not one into the array. -/
theorem findPoolNode_isOk {address : List UInt8} (hFits : address.length ≤ peerAddressSize - 2)
    (pool : PeerSocketPool) (protocol : Int) (port : UInt16) :
    ∃ r, findPoolNode pool protocol port address false = .ok r := by
  unfold findPoolNode
  split
  · exact ⟨_, rfl⟩
  split
  · exact ⟨_, rfl⟩
  split
  · exact ⟨_, rfl⟩
  · rw [Bool.false_and, if_neg Bool.false_ne_true]
    exact ⟨_, rfl⟩

/-- The last part of a turn may look the written address up again, and keeps it: a
lookup writes the remote id and its flag, and nothing of the address it was made
for. -/
theorem AddressWritten.resolveIdByAddress {node : PeerNode} {slot : PeerSlot} (h : AddressWritten node slot)
    (pool : PeerSocketPool) :
    ∃ s pool' slot', resolveIdByAddress pool slot = .ok (s, pool', slot') ∧ AddressWritten node slot' := by
  unfold PeerProtocol.resolveIdByAddress
  split
  · rw [h.chunkData, ok_bind]
    obtain ⟨⟨s, id, pool'⟩, hFind⟩ := findPoolNode_isOk node.address_le pool
      slot.remoteEnd.addressProtocol slot.remoteEnd.addressPort
    rw [hFind]
    refine ⟨s, pool', slot.found s id, rfl, ?_⟩
    -- a lookup changes the id only
    unfold PeerSlot.found
    split
    · exact ⟨h.size, h.data⟩
    · exact h
  · exact ⟨kitOk, pool, slot, rfl, h⟩

/-- **The whole turn**, for a slot with the id of a node whose address has room
behind the prefix. The turn ends, whatever the pool's allocator does in its lookups,
and the address it leaves is the node's. -/
theorem resolveSlot_written {pool : PeerSocketPool} {slot : PeerSlot} {node : PeerNode}
    (hNode : nodeAt pool.nodes slot.remoteEnd.id = some node)
    (hFlag : slot.remoteEnd.isAddressResolved = false)
    (hFits : 0 < node.remoteAddress.length ∧ 3 + node.remoteAddress.length ≤ peerAddressSize) :
    ∃ s pool' slot', resolveSlot pool slot = .ok (s, pool', slot') ∧ AddressWritten node slot' := by
  have hEnd := resolveLocalAddress_remoteEnd slot pool.nodes
  rcases hLocal : slot.resolveLocalAddress pool.nodes with ⟨s1, slot1⟩
  rw [hLocal] at hEnd
  dsimp only at hEnd
  obtain ⟨slot2, hRemote, hWritten, _⟩ := resolveRemoteAddress_written
    (show slot1.remoteEnd.isAddressResolved = false by rw [hEnd, hFlag])
    (show nodeAt pool.nodes slot1.remoteEnd.id = some node by rw [hEnd, hNode]) hFits.2
  -- The four parts run in turn; the later two find an address that is written, and keep it.
  have hPort : resolveIdByPort pool slot2 = .ok (kitOk, pool, slot2) := hWritten.resolveIdByPort hFits.1
  obtain ⟨s4, pool', slot4, hById, hKept⟩ := hWritten.resolveIdByAddress pool
  refine ⟨s1 ||| kitOk ||| kitOk ||| s4, pool', slot4, ?_, hKept⟩
  rw [resolveSlot, hLocal]
  dsimp only
  rw [hRemote, ok_bind]
  dsimp only
  rw [hPort, ok_bind]
  dsimp only
  rw [hById, ok_bind]
  rfl

/-- The second copy, for addresses that are short enough, in this pool and all later
ones. -/
theorem writtenLater_of_le {pool : PeerSocketPool} {protocol : Int} {port : UInt16}
    {address : List UInt8} {id : Int} {node : PeerNode} (hNode : nodeAt pool.nodes id = some node)
    (hEndpoint : node.isEndpoint protocol port address = true) (hPos : 0 < address.length)
    (hLe : address.length ≤ 61) : WrittenLater pool protocol port address id := by
  obtain ⟨rfl, rfl, rfl⟩ := remote_of_isEndpoint hEndpoint
  rintro later slot hLater rfl hFlag
  obtain ⟨s, later', slot', hTurn, hWritten⟩ := resolveSlot_written (nodeAt_of_isPrefix hLater hNode)
    hFlag ⟨hPos, by rw [peerAddressSize]; omega⟩
  refine ⟨s, later', slot', hTurn, hWritten.size, ?_, ?_⟩
  · rw [hWritten.size, peerAddressSize]
    omega
  · obtain ⟨rest, hData⟩ := hWritten.data
    rw [hData, ← List.append_assoc]
    exact List.prefix_append _ _

/-- Pools that any calls reach are later pools. -/
theorem WrittenLater.reaches {pool later : PeerSocketPool} {protocol : Int} {port : UInt16}
    {address : List UInt8} {id : Int} (h : WrittenLater pool protocol port address id)
    (hReach : PoolReaches pool later) : WrittenLater later protocol port address id :=
  fun _ slot hLater => h _ slot (hReach.grows.isPrefix.trans hLater)

-- ---------------------------------------------------------------------------
-- A connection
-- ---------------------------------------------------------------------------

/-- The slot that `peer_connect` finds has the id, so there is a slot for the second
copy to be made in. -/
theorem mem_of_peerConnect {peer peer' : Peer} {id : Int}
    (h : peerConnect peer id = (kitOk, peer')) : ∃ slot ∈ peer'.slots, slot.remoteEnd.id = id := by
  unfold peerConnect at h
  split at h
  · exact absurd (Prod.mk.inj h).1 (by decide)
  · next i hFind =>
    obtain ⟨hi, _⟩ := List.findIdx?_eq_some_iff_getElem.mp hFind
    have hPeer := (Prod.mk.inj h).2
    rw [modify_eq_set_of_getElem? (List.getElem?_eq_getElem hi)] at hPeer
    rw [← hPeer]
    exact ⟨_, List.mem_of_getElem? (List.getElem?_set_self hi), rfl⟩

/-- A connection that ends well: the endpoint was looked up, and a slot has its id.
Where no slot was free the call has opened a socket and a slot for it, and has
connected that one. -/
theorem peerPoolConnect_ok {pool pool' : PeerSocketPool} {peer peer' : Peer} {protocol : Int}
    {address : List UInt8} {port : UInt16} {calls : Nat → SocketCalls} {closed : List Int}
    (h : peerPoolConnect pool peer protocol address port calls = .ok (kitOk, closed, pool', peer')) :
    0 < address.length ∧ ∃ id node, (∃ slot ∈ peer'.slots, slot.remoteEnd.id = id) ∧
      nodeAt pool'.nodes id = some node ∧ node.isEndpoint protocol port address = true := by
  unfold peerPoolConnect at h
  split at h
  · exact absurd (Prod.mk.inj (Except.ok.inj h)).1 (by decide)
  next hAddress =>
  split at h
  · exact absurd (Prod.mk.inj (Except.ok.inj h)).1 (by decide)
  obtain ⟨⟨s1, id, pool1⟩, hFind, h⟩ := bind_eq_ok.mp h
  refine ⟨List.length_pos_iff.mpr fun hNil => hAddress (Or.inl hNil), id, ?_⟩
  dsimp only at h
  split at h
  · next hStatus => exact absurd (Prod.mk.inj (Except.ok.inj h)).1 hStatus
  next hStatus =>
  obtain rfl : s1 = kitOk := not_not.mp hStatus
  -- the node of the endpoint, where the lookup has left it
  obtain ⟨node, hNode, hEndpoint⟩ := nodeAt_of_findPoolNode hFind
  split at h
  · -- there was a slot
    obtain ⟨hOk, hRest⟩ := Prod.mk.inj (Except.ok.inj h)
    obtain ⟨_, hRest⟩ := Prod.mk.inj hRest
    obtain ⟨rfl, rfl⟩ := Prod.mk.inj hRest
    exact ⟨node, mem_of_peerConnect (Prod.ext hOk rfl), hNode, hEndpoint⟩
  split at h
  · next hOpen => exact absurd (Prod.mk.inj (Except.ok.inj h)).1 hOpen
  · -- a slot was opened for it
    obtain ⟨hOk, hRest⟩ := Prod.mk.inj (Except.ok.inj h)
    obtain ⟨_, hRest⟩ := Prod.mk.inj hRest
    obtain ⟨rfl, rfl⟩ := Prod.mk.inj hRest
    exact ⟨node, mem_of_peerConnect (Prod.ext hOk rfl),
      nodeAt_of_isPrefix (peerPoolOpen_grows ..).isPrefix hNode, hEndpoint⟩

/-- **Every accepted address against the arrays it is copied to.** For every
pool, peer, protocol, port and address with which `peer_pool_connect` returns
`KIT_OK`, the address fits everywhere exactly when it has at most 61 bytes. -/
theorem addressFits_iff (pool pool' : PeerSocketPool) (peer peer' : Peer) (protocol : Int)
    (address : List UInt8) (port : UInt16) (calls : Nat → SocketCalls) (closed : List Int)
    (h : peerPoolConnect pool peer protocol address port calls = .ok (kitOk, closed, pool', peer')) :
    AddressFits pool' peer' protocol port address ↔ address.length ≤ 61 := by
  obtain ⟨hPos, id, node, hSlot, hNode, hEndpoint⟩ := peerPoolConnect_ok h
  constructor
  · rintro ⟨id', _, ⟨node', hNode', hEndpoint', hZero⟩, _⟩
    exact (storedWithZero_iff hNode' hEndpoint').mp ⟨node', hNode', hEndpoint', hZero⟩
  · intro hLe
    exact ⟨id, hSlot, (storedWithZero_iff hNode hEndpoint).mpr hLe,
      writtenLater_of_le hNode hEndpoint hPos hLe⟩

/-- A connection of a client to the address, with a new pool and sockets that can be
opened. -/
def connection (address : List UInt8) : Except Fault (Status × List Int × PeerSocketPool × Peer) :=
  peerPoolConnect (peerPoolInit .reliable fun _ => true) openedClient peerUdpIPv4 address 7
    fun _ => ⟨3, true, true, some 7⟩

/-- A connection to an address of one byte. -/
theorem addressFits_one : ∃ closed pool peer, connection [49] = .ok (kitOk, closed, pool, peer) ∧
    (AddressFits pool peer peerUdpIPv4 7 [49] ↔ [(49 : UInt8)].length ≤ 61) := by
  refine ⟨_, _, _, rfl, ?_⟩
  exact addressFits_iff (peerPoolInit .reliable fun _ => true) _ openedClient _ peerUdpIPv4 [49] 7
    (fun _ => ⟨3, true, true, some 7⟩) _ rfl

/-- An address of 62 bytes is accepted, fills the array of its node, and goes past
the end of the slot's. -/
theorem not_addressFits_longest :
    ∃ closed pool peer, connection (List.replicate 62 49) = .ok (kitOk, closed, pool, peer) ∧
      ¬ AddressFits pool peer peerUdpIPv4 7 (List.replicate 62 49) ∧
      faultOf (resolveAddressAndId pool peer) = some .access := by
  refine ⟨_, _, _, rfl, ?_, by decide +kernel⟩
  rintro ⟨id, _, ⟨node, hNode, hEndpoint, hZero⟩, _⟩
  have hLe := (storedWithZero_iff hNode hEndpoint).mp ⟨node, hNode, hEndpoint, hZero⟩
  exact absurd hLe (by decide)

end PeerProtocol
