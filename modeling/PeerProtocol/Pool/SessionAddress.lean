import PeerProtocol.Peer.Handshake
import PeerProtocol.Pool.Endpoints

/-!
# peer — the address of a session, from pool to pool

A client knows a host by one address, and talks to it at another: the host has
a slot and a socket for each client. How the client learns of the port of that
socket goes through four pieces of code. The host's pool writes the port of a
slot's node into the slot's local address, the session response carries it,
`peer_input` of the client copies it over the remote address of its slot, and
the client's pool looks up the endpoint that has this port and the IP address
of the server.

* `addressPort_of_isPrefix` — the port that was written is the port that is
  read, through its two bytes;
* `LocalAddressOf.address` — the host's side, which has no branches;
* `answered_of_input` — the network and `peer_input`: whatever else the client
  knows, after the response its slot has an address of three bytes;
* `resolveSlot_resolved` and `resolveSlot_unresolved` — the turn of the
  client's slot, for either value of the flag of its remote address.

That flag decides. `peer_input` clears the flag of the id and leaves that of
the address, so if the address was never resolved, then the second part of the
turn runs first and overwrites the three bytes by the address of the server,
and the fourth part finds the server again. If it was resolved, then the third
part looks up the port, and passes `find_pool_node` a pointer into the array
that the call may move.

`resolveSlot_kept_iff` is when a turn leaves the id of the right endpoint, in
terms of the slot and the pool before it (`KeepsSession`);
`session_address_iff` is the same for the whole way, from the host's pool to
the client's. Counterexamples for both of its conditions stand at the end: a
flag that is not set, and an array that moves.

Allocations of the client succeed throughout, and the response is the first of
the packets that one tick hands to its slot.
-/

namespace PeerProtocol

open Lib

-- ---------------------------------------------------------------------------
-- The bytes of an address
-- ---------------------------------------------------------------------------

/-- The first three bytes of the array are those of the prefix, whatever follows
them. -/
theorem addressByte_of_isPrefix {e : PeerEndpoint} {protocol : Int} {port : UInt16} {rest : List UInt8}
    (h : e.addressData.elems = addressPrefix protocol port ++ rest) {i : Nat} (hi : i < 3) :
    e.addressByte i = (addressPrefix protocol port).getD i 0 := by
  rw [PeerEndpoint.addressByte, h, List.getD_eq_getElem?_getD, List.getD_eq_getElem?_getD,
    List.getElem?_append_left (by simpa using hi)]

/-- **The port survives** its two bytes, low byte first on both sides. -/
theorem addressPort_of_isPrefix {e : PeerEndpoint} {protocol : Int} {port : UInt16} {rest : List UInt8}
    (h : e.addressData.elems = addressPrefix protocol port ++ rest) : e.addressPort = port := by
  have hBytes : [e.addressByte 1, e.addressByte 2] = leBytes 2 port.toNat := by
    rw [addressByte_of_isPrefix h (by decide), addressByte_of_isPrefix h (by decide)]
    rfl
  have hPort : port.toNat % 256 ^ 2 = port.toNat := Nat.mod_eq_of_lt port.toNat_lt
  rw [PeerEndpoint.addressPort, hBytes, leValue_leBytes, hPort, UInt16.ofNat_toNat]

/-- So does the protocol, for the one that is implemented. -/
theorem addressProtocol_of_isPrefix {e : PeerEndpoint} {port : UInt16} {rest : List UInt8}
    (h : e.addressData.elems = addressPrefix peerUdpIPv4 port ++ rest) :
    e.addressProtocol = peerUdpIPv4 := by
  rw [PeerEndpoint.addressProtocol, addressByte_of_isPrefix h (by decide)]
  rfl

-- ---------------------------------------------------------------------------
-- Lookups that end well
-- The four parts of a turn, for a slot whose remote end is known.
-- ---------------------------------------------------------------------------

/-- The parts of an endpoint that is found are those that were asked for. -/
theorem remote_of_isEndpoint {node : PeerNode} {protocol : Int} {port : UInt16}
    {address : List UInt8} (h : node.isEndpoint protocol port address = true) :
    node.protocol = protocol ∧ node.remotePort = port ∧ node.remoteAddress = address := by
  simp only [PeerNode.isEndpoint, Bool.and_eq_true, beq_iff_eq] at h
  exact ⟨h.1.1.1.2, h.1.2, h.2⟩

/-- A lookup that ends well leaves the node of the endpoint at its id. -/
theorem nodeAt_of_findPoolNode {pool pool' : PeerSocketPool} {protocol : Int} {port : UInt16}
    {address : List UInt8} {inPool : Bool} {id : Int}
    (h : findPoolNode pool protocol port address inPool = .ok (kitOk, id, pool')) :
    ∃ node, nodeAt pool'.nodes id = some node ∧ node.isEndpoint protocol port address = true := by
  obtain ⟨i, rfl, _, hKey⟩ := findKey_of_findPoolNode h
  obtain ⟨node, hNode, hEndpoint⟩ := exists_of_findKey hKey
  exact ⟨node, by rw [nodeAt_natCast, hNode], isEndpoint_iff.mpr hEndpoint⟩

/-- A lookup of an address that fits ends well exactly when the endpoint is there,
or the array grows, and in place if the address lies in it. -/
theorem findPoolNode_ok_iff {pool : PeerSocketPool} {port : UInt16} {address : List UInt8}
    {inPool : Bool} (hFits : address.length ≤ peerAddressSize - 2) :
    (∃ id pool', findPoolNode pool peerUdpIPv4 port address inPool = .ok (kitOk, id, pool')) ↔
      (∃ node ∈ pool.nodes, node.isEndpoint peerUdpIPv4 port address = true) ∨
        (pool.alloc.outcomes 0 = true ∧ (inPool = true → pool.inPlace 0 = true)) := by
  rw [findPoolNode, if_neg (by decide)]
  cases hFind : pool.nodes.findIdx? (·.isEndpoint peerUdpIPv4 port address) with
  | some i =>
    obtain ⟨hi, hNode, _⟩ := List.findIdx?_eq_some_iff_getElem.mp hFind
    exact ⟨fun _ => Or.inl ⟨_, List.getElem_mem hi, hNode⟩, fun _ => ⟨i, pool, rfl⟩⟩
  | none =>
    have hNone : ¬ ∃ node ∈ pool.nodes, node.isEndpoint peerUdpIPv4 port address = true := by
      rintro ⟨node, hNode, hSame⟩
      rw [List.findIdx?_eq_none_iff.mp hFind node hNode] at hSame
      cases hSame
    rw [or_iff_right hNone, PeerSocketPool.grow]
    dsimp only [Allocator.request]
    -- what `DA_RESIZE` does, and where
    cases pool.alloc.outcomes 0 with
    | false =>
      constructor
      · rintro ⟨id, pool', hOk⟩
        exact absurd (Prod.mk.inj (Except.ok.inj hOk)).1 (by decide)
      · rintro ⟨hGranted, _⟩
        cases hGranted
    | true =>
      dsimp only
      rw [dif_pos hFits]
      cases inPool <;> cases pool.inPlace 0 <;> simp

section Turn

variable {pool : PeerSocketPool} {slot : PeerSlot} {opened server : PeerNode}

/-- A client's slot after a session response with the port of `opened`: no remote
id, and an address of three bytes. What was behind them in the array is still there. -/
structure Answered (opened : PeerNode) (slot : PeerSlot) : Prop where
  unresolved : slot.remoteEnd.isIdResolved = false
  size : slot.remoteEnd.addressSize = 3
  data : ∃ rest, slot.remoteEnd.addressData.elems =
    addressPrefix opened.protocol opened.localPort ++ rest

/-- The node of a remote endpoint whose address leaves room for the prefix, and is
not empty. Every node that a datagram's sender gets is one. -/
structure PeerNode.IsRemote (node : PeerNode) : Prop where
  socket : node.socket = invalidSocket
  protocol : node.protocol = peerUdpIPv4
  localPort : node.localPort = peerAnyPort
  address : 0 < node.remoteAddress.length ∧ node.remoteAddress.length ≤ peerAddressSize - 3

/-- The first part of a turn is about the local end. -/
theorem resolveLocalAddress_remoteEnd (slot : PeerSlot) (nodes : List PeerNode) :
    (slot.resolveLocalAddress nodes).2.remoteEnd = slot.remoteEnd := by
  unfold PeerSlot.resolveLocalAddress
  split
  · split <;> rfl
  · rfl

/-- The fourth part is skipped for an id that is resolved, or without an address
behind the prefix. -/
theorem resolveIdByAddress_skip (h : slot.remoteEnd.isIdResolved = true ∨
    slot.remoteEnd.addressSize ≤ 3) : resolveIdByAddress pool slot = .ok (kitOk, pool, slot) := by
  rw [resolveIdByAddress, if_neg]
  rintro ⟨hUnresolved, hSize⟩
  rcases h with hResolved | hSmall
  · rw [hUnresolved] at hResolved
    cases hResolved
  · omega

/-- What a lookup leaves of the remote end: a resolved id, or all of it. -/
theorem found_remoteEnd (slot : PeerSlot) (s : Status) (id : Int) :
    ((slot.found s id).remoteEnd.isIdResolved = true ∨
      (slot.found s id).remoteEnd = slot.remoteEnd) := by
  unfold PeerSlot.found
  split
  · exact Or.inl rfl
  · exact Or.inr rfl

/-- **The turn of a slot whose remote address was resolved before the response**:
the port of the response, at the address of the node that the slot had. -/
theorem resolveSlot_resolved (hSlot : Answered opened slot) (hOpened : opened.protocol = peerUdpIPv4)
    (hServer : nodeAt pool.nodes slot.remoteEnd.id = some server)
    (hFlag : slot.remoteEnd.isAddressResolved = true) :
    ∃ (s1 : Status) (slot1 : PeerSlot), slot1.remoteEnd = slot.remoteEnd ∧ resolveSlot pool slot = (do
      let (s, id, pool') ← findPoolNode pool peerUdpIPv4 opened.localPort server.remoteAddress true
      return (s1 ||| s, pool', slot1.found s id)) := by
  have hEnd := resolveLocalAddress_remoteEnd slot pool.nodes
  obtain ⟨rest, hData⟩ := hSlot.data
  rw [hOpened] at hData
  have hId : slot.remoteEnd.id ≠ peerUndefined := by
    intro hNone
    rw [hNone] at hServer
    cases hServer
  rcases hLocal : slot.resolveLocalAddress pool.nodes with ⟨s1, slot1⟩
  rw [hLocal] at hEnd
  dsimp only at hEnd
  refine ⟨s1, slot1, hEnd, ?_⟩
  -- the address is resolved, so only the id is left to look up
  have hRemote : slot1.resolveRemoteAddress pool.nodes = .ok (kitOk, slot1) := by
    rw [PeerSlot.resolveRemoteAddress, if_neg]
    rintro ⟨hNot, _⟩
    rw [hEnd, hFlag] at hNot
    cases hNot
  have hPort : resolveIdByPort pool slot1 = (do
      let (s, id, pool') ← findPoolNode pool peerUdpIPv4 opened.localPort server.remoteAddress true
      return (s, pool', slot1.found s id)) := by
    rw [resolveIdByPort, if_pos (by rw [hEnd]; exact ⟨hSlot.unresolved, hSlot.size, hId⟩), hEnd, hServer,
      addressProtocol_of_isPrefix hData, addressPort_of_isPrefix hData]
  rw [resolveSlot, hLocal]
  dsimp only
  rw [hRemote, ok_bind]
  dsimp only
  rw [hPort]
  cases findPoolNode pool peerUdpIPv4 opened.localPort server.remoteAddress true with
  | error fault => rfl
  | ok r =>
    obtain ⟨s, id, pool'⟩ := r
    rw [ok_bind, ok_bind]
    dsimp only
    rw [pure_eq_ok, ok_bind]
    dsimp only
    rw [resolveIdByAddress_skip, ok_bind]
    · simp only [pure_eq_ok, kitOk, UInt32.or_zero]
    -- the lookup by address is skipped: the id is resolved, or there is only a port
    · rcases found_remoteEnd slot1 s id with hFound | hSame
      · exact Or.inl hFound
      · rw [hSame, hEnd, hSlot.size]
        exact Or.inr (Int.le_refl 3)

/-- A slot whose remote address is that of the node: its protocol and port, and its
address behind them. This is what the second part of a turn leaves. -/
structure AddressWritten (node : PeerNode) (slot : PeerSlot) : Prop where
  size : slot.remoteEnd.addressSize = 3 + node.remoteAddress.length
  data : ∃ rest, slot.remoteEnd.addressData.elems =
    addressPrefix node.protocol node.remotePort ++ (node.remoteAddress ++ rest)

/-- The second part, where it runs and the address has room behind the prefix: it
overwrites whatever address was there. -/
theorem resolveRemoteAddress_written {node : PeerNode} {nodes : List PeerNode}
    (hFlag : slot.remoteEnd.isAddressResolved = false)
    (hNode : nodeAt nodes slot.remoteEnd.id = some node)
    (hFits : 3 + node.remoteAddress.length ≤ peerAddressSize) :
    ∃ slot1, slot.resolveRemoteAddress nodes = .ok (kitOk, slot1) ∧ AddressWritten node slot1 ∧
      slot1.remoteEnd.isIdResolved = slot.remoteEnd.isIdResolved := by
  have hId : slot.remoteEnd.id ≠ peerUndefined := by
    intro hNone
    rw [hNone] at hNode
    cases hNode
  have hRoom : 0 + (addressPrefix node.protocol node.remotePort ++ node.remoteAddress).length ≤
      peerAddressSize := by
    rw [List.length_append, length_addressPrefix, Nat.zero_add]
    exact hFits
  -- The prefix of three bytes and the node's address, written at the front of the array.
  refine ⟨{ slot with remoteEnd := { slot.remoteEnd with
      addressSize := 3 + node.remoteAddress.length
      addressData := slot.remoteEnd.addressData.blit 0
        (addressPrefix node.protocol node.remotePort ++ node.remoteAddress) hRoom
      isAddressResolved := true } }, ?_, ⟨rfl, ?_⟩, rfl⟩
  · rw [PeerSlot.resolveRemoteAddress, if_pos ⟨hFlag, hId⟩, hNode]
    dsimp only
    rw [dif_pos hRoom]
  -- What the array held behind them stays, and no reader of the address looks there.
  · refine ⟨slot.remoteEnd.addressData.elems.drop (3 + node.remoteAddress.length), ?_⟩
    show overwrite slot.remoteEnd.addressData.elems 0 _ = _
    simp [overwrite]

/-- An address that was written is longer than the prefix, so the third branch
is not taken. -/
theorem AddressWritten.resolveIdByPort {node : PeerNode} (h : AddressWritten node slot)
    (hPos : 0 < node.remoteAddress.length) : resolveIdByPort pool slot = .ok (kitOk, pool, slot) := by
  have hSize := h.size
  rw [PeerProtocol.resolveIdByPort, if_neg]
  rintro ⟨_, hThree, _⟩
  omega

/-- The bytes behind the prefix are the node's address again. -/
theorem AddressWritten.chunkData {node : PeerNode} (h : AddressWritten node slot) :
    chunkData slot.remoteEnd.addressData.elems 3 (slot.remoteEnd.addressSize - 3) =
      .ok node.remoteAddress := by
  obtain ⟨rest, hData⟩ := h.data
  have hLength : slot.remoteEnd.addressData.elems.length = 64 := slot.remoteEnd.addressData.length_eq
  have hSize := h.size
  have hTake : (slot.remoteEnd.addressSize - 3).toNat = node.remoteAddress.length := by
    omega
  rw [hData, List.length_append, List.length_append, length_addressPrefix] at hLength
  rw [PeerProtocol.chunkData, hData, if_pos, hTake, List.drop_left' (by simp), List.take_left]
  rw [List.length_append, List.length_append, length_addressPrefix]
  omega

/-- **The turn of a slot whose remote address was not**: the second branch writes
the address of the node that the slot had over that of the response. -/
theorem resolveSlot_unresolved (hSlot : Answered opened slot)
    (hServer : nodeAt pool.nodes slot.remoteEnd.id = some server) (hRemote : server.IsRemote)
    (hFlag : slot.remoteEnd.isAddressResolved = false) :
    ∃ (s1 : Status) (slot1 : PeerSlot), slot1.remoteEnd.isIdResolved = false ∧ resolveSlot pool slot = (do
      let (s, id, pool') ← findPoolNode pool peerUdpIPv4 server.remotePort server.remoteAddress false
      return (s1 ||| s, pool', slot1.found s id)) := by
  have hEnd := resolveLocalAddress_remoteEnd slot pool.nodes
  rcases hLocal : slot.resolveLocalAddress pool.nodes with ⟨s1, slot0⟩
  rw [hLocal] at hEnd
  dsimp only at hEnd
  obtain ⟨hPos, hFits⟩ := hRemote.address
  -- the slot after the second branch
  obtain ⟨slot1, hAddress, hWritten, hSame⟩ := resolveRemoteAddress_written
    (show slot0.remoteEnd.isAddressResolved = false by rw [hEnd, hFlag])
    (show nodeAt pool.nodes slot0.remoteEnd.id = some server by rw [hEnd, hServer])
    (by rw [peerAddressSize] at *; omega)
  have hUnresolved : slot1.remoteEnd.isIdResolved = false := by
    rw [hSame, hEnd, hSlot.unresolved]
  obtain ⟨rest, hData⟩ := hWritten.data
  rw [hRemote.protocol] at hData
  have hSize := hWritten.size
  -- an address behind the port: the id is looked up by both
  have hPort : resolveIdByPort pool slot1 = .ok (kitOk, pool, slot1) := hWritten.resolveIdByPort hPos
  have hById : resolveIdByAddress pool slot1 = (do
      let (s, id, pool') ← findPoolNode pool peerUdpIPv4 server.remotePort server.remoteAddress false
      return (s, pool', slot1.found s id)) := by
    rw [resolveIdByAddress, if_pos ⟨hUnresolved, by omega⟩, hWritten.chunkData, ok_bind,
      addressProtocol_of_isPrefix hData, addressPort_of_isPrefix hData]
  refine ⟨s1, slot1, hUnresolved, ?_⟩
  rw [resolveSlot, hLocal]
  dsimp only
  rw [hAddress, ok_bind]
  dsimp only
  rw [hPort, ok_bind]
  dsimp only
  rw [hById]
  cases findPoolNode pool peerUdpIPv4 server.remotePort server.remoteAddress false with
  | error fault => rfl
  | ok r =>
    obtain ⟨s, id, pool'⟩ := r
    rw [ok_bind, ok_bind]
    simp only [pure_eq_ok, ok_bind, kitOk, UInt32.or_zero]

/-- The slot has the id of a node at the port of `opened` and the address of
`server`, and it is resolved, so that no later turn looks it up again. -/
structure SessionKept (opened server : PeerNode) (nodes : List PeerNode) (slot : PeerSlot) : Prop where
  resolved : slot.remoteEnd.isIdResolved = true
  node : ∃ node, nodeAt nodes slot.remoteEnd.id = some node ∧ node.protocol = opened.protocol ∧
    node.remotePort = opened.localPort ∧ node.remoteAddress = server.remoteAddress

/-- A turn that ends with a lookup keeps the session when the lookup ends well,
and is for the right endpoint. -/
theorem kept_of_lookup {s1 : Status} {slot1 : PeerSlot} {port : UInt16} {address : List UInt8}
    {inPool : Bool} (hOpened : opened.protocol = peerUdpIPv4)
    (hUnresolved : slot1.remoteEnd.isIdResolved = false)
    (hTurn : resolveSlot pool slot = (do
      let (s, id, pool') ← findPoolNode pool peerUdpIPv4 port address inPool
      return (s1 ||| s, pool', slot1.found s id))) :
    (∃ s pool' slot', resolveSlot pool slot = .ok (s, pool', slot') ∧
        SessionKept opened server pool'.nodes slot') ↔
      (∃ id pool', findPoolNode pool peerUdpIPv4 port address inPool = .ok (kitOk, id, pool')) ∧
        port = opened.localPort ∧ address = server.remoteAddress := by
  rw [hTurn]
  constructor
  · rintro ⟨s, pool', slot', hOk, hKept⟩
    obtain ⟨⟨s2, id, pool2⟩, hFind, hOk⟩ := bind_eq_ok.mp hOk
    obtain ⟨_, hRest⟩ := Prod.mk.inj (Except.ok.inj hOk)
    obtain ⟨rfl, rfl⟩ := Prod.mk.inj hRest
    have hResolved := hKept.resolved
    unfold PeerSlot.found at hResolved
    split at hResolved
    · next hStatus =>
      subst hStatus
      obtain ⟨node, hNode, _, hPort, hAddress⟩ := hKept.node
      obtain ⟨node', hNode', hEndpoint⟩ := nodeAt_of_findPoolNode hFind
      obtain ⟨_, hPort', hAddress'⟩ := remote_of_isEndpoint hEndpoint
      -- the node at the new id is the one that was found
      have hId : (slot1.found kitOk id).remoteEnd.id = id := rfl
      rw [hId, hNode', Option.some.injEq] at hNode
      subst hNode
      exact ⟨⟨id, pool2, hFind⟩, hPort'.symm.trans hPort, hAddress'.symm.trans hAddress⟩
    · rw [hUnresolved] at hResolved
      cases hResolved
  · rintro ⟨⟨id, pool', hFind⟩, rfl, rfl⟩
    obtain ⟨node, hNode, hEndpoint⟩ := nodeAt_of_findPoolNode hFind
    obtain ⟨hProtocol, hPort, hAddress⟩ := remote_of_isEndpoint hEndpoint
    refine ⟨s1 ||| kitOk, pool', slot1.found kitOk id, by rw [hFind, ok_bind]; rfl, rfl, node, hNode,
      ?_, hPort, hAddress⟩
    rw [hProtocol, hOpened]

/-- When the turn of the slot keeps the session: the slot's address was resolved
before the response, and the lookup finds the endpoint or grows the array in
place; or it was not, and the port it had is the right one. -/
def KeepsSession (opened server : PeerNode) (pool : PeerSocketPool) (slot : PeerSlot) : Prop :=
  (slot.remoteEnd.isAddressResolved = true ∧
    ((∃ node ∈ pool.nodes,
        node.isEndpoint peerUdpIPv4 opened.localPort server.remoteAddress = true) ∨
      (pool.alloc.outcomes 0 = true ∧ pool.inPlace 0 = true))) ∨
  (slot.remoteEnd.isAddressResolved = false ∧ server.remotePort = opened.localPort)

instance (opened server : PeerNode) (pool : PeerSocketPool) (slot : PeerSlot) :
    Decidable (KeepsSession opened server pool slot) := inferInstanceAs (Decidable (_ ∨ _))

/-- **The turn**, for either value of the flag: it ends with the right endpoint
exactly when `KeepsSession` says so of the slot and the pool that it finds. -/
theorem resolveSlot_kept_iff (hSlot : Answered opened slot) (hOpened : opened.protocol = peerUdpIPv4)
    (hServer : nodeAt pool.nodes slot.remoteEnd.id = some server) (hRemote : server.IsRemote) :
    (∃ s pool' slot', resolveSlot pool slot = .ok (s, pool', slot') ∧
        SessionKept opened server pool'.nodes slot') ↔ KeepsSession opened server pool slot := by
  have hFits : server.remoteAddress.length ≤ peerAddressSize - 2 :=
    Nat.le_trans hRemote.address.2 (by decide)
  unfold KeepsSession
  cases hFlag : slot.remoteEnd.isAddressResolved with
  | true =>
    obtain ⟨s1, slot1, hEnd, hTurn⟩ := resolveSlot_resolved hSlot hOpened hServer hFlag
    rw [kept_of_lookup hOpened (by rw [hEnd, hSlot.unresolved]) hTurn, findPoolNode_ok_iff hFits]
    simp
  | false =>
    obtain ⟨s1, slot1, hUnresolved, hTurn⟩ := resolveSlot_unresolved hSlot hServer hRemote hFlag
    rw [kept_of_lookup hOpened hUnresolved hTurn, findPoolNode_ok_iff hFits]
    -- the endpoint of the node that the slot had is there
    have hThere : ∃ node ∈ pool.nodes,
        node.isEndpoint peerUdpIPv4 server.remotePort server.remoteAddress = true := by
      refine ⟨server, ?_, ?_⟩
      · unfold nodeAt at hServer
        split at hServer
        · cases hServer
        · exact List.mem_of_getElem? hServer
      · rw [isEndpoint_iff, PeerNode.endpoint, if_pos ⟨hRemote.socket, hRemote.localPort⟩,
          hRemote.protocol]
    simp [hThere]

end Turn

-- ---------------------------------------------------------------------------
-- The id after a turn
-- The slots in front of ours may append nodes, and their ids must stay ids of
-- nodes for the turns of another tick.
-- ---------------------------------------------------------------------------

section Ids

variable {pool pool' : PeerSocketPool} {slot slot' : PeerSlot} {s : Status}

/-- The slot has no remote id yet, or that of a node. -/
def IdOrNode (nodes : List PeerNode) (slot : PeerSlot) : Prop :=
  slot.remoteEnd.isIdResolved = false ∨ ∃ node, nodeAt nodes slot.remoteEnd.id = some node

/-- An id that a lookup has returned is that of a node. -/
theorem idOrNode_found {protocol : Int} {port : UInt16} {address : List UInt8} {inPool : Bool}
    {id : Int} (hFind : findPoolNode pool protocol port address inPool = .ok (s, id, pool'))
    (hSlot : slot.remoteEnd.isIdResolved = false) : IdOrNode pool'.nodes (slot.found s id) := by
  unfold PeerSlot.found
  split
  · next hOk =>
    subst hOk
    obtain ⟨node, hNode, _⟩ := nodeAt_of_findPoolNode hFind
    exact Or.inr ⟨node, hNode⟩
  · exact Or.inl hSlot

/-- So is the id after each of the two parts that look ids up. -/
theorem IdLookup.idOrNode (h : IdLookup pool slot pool' slot') (hSlot : IdOrNode pool.nodes slot) :
    IdOrNode pool'.nodes slot' := by
  cases h with
  | skip => exact hSlot
  | found hUnresolved hFind => exact idOrNode_found hFind hUnresolved

/-- The branch for the remote address writes neither the local end nor the word
about the remote id. -/
theorem resolveRemoteAddress_keeps (h : slot.resolveRemoteAddress pool.nodes = .ok (s, slot')) :
    slot'.localEnd = slot.localEnd ∧
      slot'.remoteEnd.isIdResolved = slot.remoteEnd.isIdResolved := by
  unfold PeerSlot.resolveRemoteAddress at h
  split at h
  · split at h
    · obtain ⟨_, rfl⟩ := Prod.mk.inj (Except.ok.inj h)
      exact ⟨rfl, rfl⟩
    split at h
    · obtain ⟨_, rfl⟩ := Prod.mk.inj (Except.ok.inj h)
      exact ⟨rfl, rfl⟩
    · cases h
  · obtain ⟨_, rfl⟩ := Prod.mk.inj (Except.ok.inj h)
    exact ⟨rfl, rfl⟩

/-- **The id after a turn** of a slot whose id is not resolved: it is that of a
node, or still not resolved. -/
theorem id_of_resolveSlot (hSlot : slot.remoteEnd.isIdResolved = false)
    (h : resolveSlot pool slot = .ok (s, pool', slot')) : IdOrNode pool'.nodes slot' := by
  obtain ⟨_, slot2, _, _, hRemote, hPort, hAddress⟩ := resolveSlot_cases h
  refine hAddress.idOrNode (hPort.idOrNode (Or.inl ?_))
  have hEnd := resolveLocalAddress_remoteEnd slot pool.nodes
  exact (resolveRemoteAddress_keeps hRemote).2.trans ((congrArg (·.isIdResolved) hEnd).trans hSlot)

end Ids

-- ---------------------------------------------------------------------------
-- The whole loop
-- From the turn of one slot to resolve_address_and_id.
-- ---------------------------------------------------------------------------

/-- A node keeps its id while nodes are appended. -/
theorem nodeAt_of_isPrefix {nodes nodes' : List PeerNode} (h : nodes <+: nodes') {id : Int}
    {node : PeerNode} (hNode : nodeAt nodes id = some node) : nodeAt nodes' id = some node := by
  unfold nodeAt at hNode ⊢
  split at hNode
  · cases hNode
  · next hId =>
    rw [if_neg hId]
    exact getElem?_of_isPrefix h hNode

/-- There is a slot after the loop for each slot before it. -/
theorem length_of_resolveSlots {pool pool' : PeerSocketPool} {slots slots' : List PeerSlot}
    {s : Status} (h : resolveSlots pool slots = .ok (s, pool', slots')) :
    slots'.length = slots.length := by
  induction slots generalizing pool slots' s with
  | nil =>
    obtain ⟨_, hRest⟩ := Prod.mk.inj (Except.ok.inj h)
    obtain ⟨_, rfl⟩ := Prod.mk.inj hRest
    rfl
  | cons slot slots ih =>
    obtain ⟨⟨s1, pool1, slot1⟩, _, h⟩ := bind_eq_ok.mp h
    obtain ⟨⟨s2, pool2, slots2⟩, hRest, h⟩ := bind_eq_ok.mp h
    obtain ⟨_, hEq⟩ := Prod.mk.inj (Except.ok.inj h)
    obtain ⟨rfl, rfl⟩ := Prod.mk.inj hEq
    rw [List.length_cons, List.length_cons, ih hRest]

/-- The loop, split at the turn of the slot at position `i`: what the turns before
it leave of the pool is what its own turn starts with, and the turns behind it do
not touch it. -/
theorem resolveSlots_turn {pool pool1 : PeerSocketPool} {slots before : List PeerSlot} {i : Nat}
    {slot : PeerSlot} {s : Status} (hSlot : slots[i]? = some slot)
    (hBefore : resolveSlots pool (slots.take i) = .ok (s, pool1, before)) :
    resolveSlots pool slots = (do
      let (s1, pool2, slot') ← resolveSlot pool1 slot
      let (s2, pool3, after) ← resolveSlots pool2 (slots.drop (i + 1))
      return (s ||| (s1 ||| s2), pool3, before ++ slot' :: after)) := by
  induction slots generalizing pool i s before with
  | nil => cases hSlot
  | cons head slots ih =>
    cases i with
    | zero =>
      obtain rfl : head = slot := by simpa using hSlot
      obtain ⟨rfl, hRest⟩ := Prod.mk.inj (Except.ok.inj hBefore)
      obtain ⟨rfl, rfl⟩ := Prod.mk.inj hRest
      simp only [resolveSlots, Nat.zero_add, List.drop_succ_cons, List.drop_zero, List.nil_append,
        kitOk, UInt32.zero_or]
    | succ i =>
      rw [List.getElem?_cons_succ] at hSlot
      rw [List.take_succ_cons] at hBefore
      obtain ⟨⟨s0, pool0, head'⟩, hHead, hBefore⟩ := bind_eq_ok.mp hBefore
      obtain ⟨⟨s1, pool1', before'⟩, hRest, hBefore⟩ := bind_eq_ok.mp hBefore
      obtain ⟨rfl, hEq⟩ := Prod.mk.inj (Except.ok.inj hBefore)
      obtain ⟨rfl, rfl⟩ := Prod.mk.inj hEq
      rw [resolveSlots, hHead, ok_bind]
      dsimp only
      rw [ih hSlot hRest, List.drop_succ_cons]
      -- both sides fail alike, or give the same statuses in another grouping
      cases resolveSlot pool1' slot with
      | error fault => rfl
      | ok r =>
        obtain ⟨s2, pool2, slot'⟩ := r
        simp only [ok_bind]
        cases resolveSlots pool2 (slots.drop (i + 1)) with
        | error fault => rfl
        | ok r =>
          simp only [ok_bind, pure_eq_ok, List.cons_append, UInt32.or_assoc]

/-- After the loop, the slot at position `i` keeps the session, and the nodes that
the pool had are unchanged. The loop has ended, so no turn has faulted. -/
def SessionResolved (opened server : PeerNode) (pool : PeerSocketPool) (client : Peer) (i : Nat) :
    Prop :=
  ∃ s pool' client' slot', resolveAddressAndId pool client = .ok (s, pool', client') ∧
    client'.slots[i]? = some slot' ∧ SessionKept opened server pool'.nodes slot' ∧
    pool.nodes <+: pool'.nodes

/-- The turns of the slots other than that at position `i` end; `pool'` is the pool
when that turn begins. They may append nodes, and the turn at hand may find one of
these. -/
structure OthersEnd (pool : PeerSocketPool) (client : Peer) (i : Nat) (pool' : PeerSocketPool) :
    Prop where
  before : ∃ s before, resolveSlots pool (client.slots.take i) = .ok (s, pool', before)
  after : ∀ slot s pool'' slot', client.slots[i]? = some slot →
    resolveSlot pool' slot = .ok (s, pool'', slot') →
      ∃ r, resolveSlots pool'' (client.slots.drop (i + 1)) = .ok r

/-- **When the loop keeps the session** of a slot: when the turn of this slot does.
The other turns neither change the slot nor take a node away. -/
theorem sessionResolved_iff {opened server : PeerNode} {pool pool1 : PeerSocketPool} {client : Peer}
    {i : Nat} {slot : PeerSlot} (hOpened : opened.protocol = peerUdpIPv4)
    (hSlot : client.slots[i]? = some slot) (hAnswered : Answered opened slot)
    (hServer : nodeAt pool.nodes slot.remoteEnd.id = some server) (hRemote : server.IsRemote)
    (hOthers : OthersEnd pool client i pool1) :
    SessionResolved opened server pool client i ↔ KeepsSession opened server pool1 slot := by
  obtain ⟨⟨s, before, hBefore⟩, hAfter⟩ := hOthers
  have hPrefix := (resolveSlots_grows hBefore).isPrefix
  rw [← resolveSlot_kept_iff hAnswered hOpened (nodeAt_of_isPrefix hPrefix hServer) hRemote]
  have hTurn := resolveSlots_turn hSlot hBefore
  have hLength : before.length = i := by
    have hi := (List.getElem?_eq_some_iff.mp hSlot).1
    rw [length_of_resolveSlots hBefore, List.length_take]
    omega
  -- a whole loop that ends, from the turn of the slot on
  have hWhole {s1 s2 : Status} {pool2 pool3 : PeerSocketPool} {slot' : PeerSlot}
      {after : List PeerSlot} (hOne : resolveSlot pool1 slot = .ok (s1, pool2, slot'))
      (hRest : resolveSlots pool2 (client.slots.drop (i + 1)) = .ok (s2, pool3, after)) :
      resolveAddressAndId pool client =
        .ok (s ||| (s1 ||| s2), pool3, { client with slots := before ++ slot' :: after }) := by
    rw [resolveAddressAndId, hTurn, hOne, ok_bind]
    dsimp only
    rw [hRest, ok_bind]
    rfl
  have hAt (slot' : PeerSlot) (after : List PeerSlot) :
      (before ++ slot' :: after)[i]? = some slot' := by
    rw [List.getElem?_append_right (by omega), hLength, Nat.sub_self]
    rfl
  constructor
  · rintro ⟨s0, pool0, client0, slot0, hResolve, hSlot0, hKept, _⟩
    rw [resolveAddressAndId, hTurn] at hResolve
    obtain ⟨⟨s9, pool9, slots9⟩, hLoop, hResolve⟩ := bind_eq_ok.mp hResolve
    obtain ⟨⟨s1, pool2, slot'⟩, hOne, hLoop⟩ := bind_eq_ok.mp hLoop
    obtain ⟨⟨s2, pool3, after⟩, hRest, hLoop⟩ := bind_eq_ok.mp hLoop
    obtain ⟨_, hEq⟩ := Prod.mk.inj (Except.ok.inj hLoop)
    obtain ⟨rfl, rfl⟩ := Prod.mk.inj hEq
    obtain ⟨_, hEq⟩ := Prod.mk.inj (Except.ok.inj hResolve)
    obtain ⟨rfl, rfl⟩ := Prod.mk.inj hEq
    dsimp only at hSlot0
    rw [hAt, Option.some.injEq] at hSlot0
    subst hSlot0
    refine ⟨s1, pool2, slot', hOne, hKept.resolved, ?_⟩
    -- the id was there after the turn, and the later turns have only appended
    rcases id_of_resolveSlot hAnswered.unresolved hOne with hNot | ⟨node, hNode⟩
    · rw [hKept.resolved] at hNot
      cases hNot
    · obtain ⟨node', hNode', hSame⟩ := hKept.node
      rw [nodeAt_of_isPrefix (resolveSlots_grows hRest).isPrefix hNode, Option.some.injEq] at hNode'
      subst hNode'
      exact ⟨node, hNode, hSame⟩
  · rintro ⟨s1, pool2, slot', hOne, hKept⟩
    obtain ⟨⟨s2, pool3, after⟩, hRest⟩ := hAfter slot s1 pool2 slot' hSlot hOne
    have hLater := (resolveSlots_grows hRest).isPrefix
    refine ⟨_, pool3, _, slot', hWhole hOne hRest, hAt slot' after, ⟨hKept.resolved, ?_⟩,
      hPrefix.trans ((resolveSlot_grows hOne).isPrefix.trans hLater)⟩
    obtain ⟨node, hNode, hSame⟩ := hKept.node
    exact ⟨node, nodeAt_of_isPrefix hLater hNode, hSame⟩

-- ---------------------------------------------------------------------------
-- The host's address
-- ---------------------------------------------------------------------------

section Host

variable {pool pool' : PeerSocketPool} {slot slot' : PeerSlot} {s : Status}

/-- The last two parts of a turn write the remote end. -/
theorem IdLookup.localEnd (h : IdLookup pool slot pool' slot') : slot'.localEnd = slot.localEnd := by
  cases h with
  | skip => rfl
  | found =>
    unfold PeerSlot.found
    split <;> rfl

/-- Only the first part of a turn writes the local end. -/
theorem resolveSlot_localEnd (h : resolveSlot pool slot = .ok (s, pool', slot')) :
    slot'.localEnd = (slot.resolveLocalAddress pool.nodes).2.localEnd := by
  obtain ⟨_, _, _, _, hRemote, hPort, hAddress⟩ := resolveSlot_cases h
  exact hAddress.localEnd.trans (hPort.localEnd.trans (resolveRemoteAddress_keeps hRemote).1)

/-- Every slot has its turn, with the nodes that the pool had and perhaps more,
since the turns before it may have appended some. -/
theorem turn_of_resolveSlots {slots slots' : List PeerSlot} {j : Nat}
    (h : resolveSlots pool slots = .ok (s, pool', slots')) (hSlot : slots[j]? = some slot) :
    ∃ s1 pool1 pool2 slot', pool.nodes <+: pool1.nodes ∧
      resolveSlot pool1 slot = .ok (s1, pool2, slot') ∧ slots'[j]? = some slot' := by
  induction slots generalizing pool j slots' s with
  | nil => cases hSlot
  | cons head slots ih =>
    obtain ⟨⟨s1, pool1, head'⟩, hFirst, h⟩ := bind_eq_ok.mp h
    obtain ⟨⟨s2, pool2, slots2⟩, hRest, h⟩ := bind_eq_ok.mp h
    obtain ⟨_, hEq⟩ := Prod.mk.inj (Except.ok.inj h)
    obtain ⟨rfl, rfl⟩ := Prod.mk.inj hEq
    -- The slot's turn comes first, or after that of the head, which may add a node.
    cases j with
    | zero =>
      obtain rfl : head = slot := by simpa using hSlot
      exact ⟨s1, pool, pool1, head', List.prefix_rfl, hFirst, rfl⟩
    | succ j =>
      rw [List.getElem?_cons_succ] at hSlot
      obtain ⟨s3, pool3, pool4, slot', hPrefix, hTurn, hSlot'⟩ := ih hRest hSlot
      exact ⟨s3, pool3, pool4, slot', (resolveSlot_grows hFirst).isPrefix.trans hPrefix, hTurn,
        by rw [List.getElem?_cons_succ]; exact hSlot'⟩

end Host

/-- The local address of a slot of a host after a turn that has resolved it: that of
the node `opened`. Whatever else the host and its pool have been through does not
matter. -/
def LocalAddressOf (opened : PeerNode) (localEnd : PeerEndpoint) : Prop :=
  ∃ (pool pool' : PeerSocketPool) (host host' : Peer) (s : Status) (j : Nat) (slot slot' : PeerSlot),
    host.slots[j]? = some slot ∧ slot.localEnd.isAddressResolved = false ∧
    nodeAt pool.nodes slot.localEnd.id = some opened ∧
    resolveAddressAndId pool host = .ok (s, pool', host') ∧
    host'.slots[j]? = some slot' ∧ slot'.localEnd = localEnd

/-- **The host's address** is the protocol and the local port of the node, and fits
the bytes that the response has for it. -/
theorem LocalAddressOf.address {opened : PeerNode} {localEnd : PeerEndpoint}
    (h : LocalAddressOf opened localEnd) : localEnd.AddressFits ∧
      localEnd.address = addressPrefix opened.protocol opened.localPort := by
  obtain ⟨pool, pool', host, host', s, j, slot, slot', hSlot, hFlag, hNode, hResolve, hSlot', rfl⟩ := h
  obtain ⟨⟨s1, pool1, slots1⟩, hSlots, hResolve⟩ := bind_eq_ok.mp hResolve
  obtain ⟨_, hRest⟩ := Prod.mk.inj (Except.ok.inj hResolve)
  obtain ⟨_, rfl⟩ := Prod.mk.inj hRest
  obtain ⟨s2, pool2, pool3, slot2, hPrefix, hTurn, hSlot2⟩ := turn_of_resolveSlots hSlots hSlot
  dsimp only at hSlot'
  rw [hSlot2, Option.some.injEq] at hSlot'
  subst hSlot'
  have hId : slot.localEnd.id ≠ peerUndefined := by
    intro hNone
    rw [hNone] at hNode
    cases hNode
  -- the turn of the slot writes protocol and port of its node, and later turns leave them
  have hEnd := resolveSlot_localEnd hTurn
  rw [PeerSlot.resolveLocalAddress, if_pos ⟨hFlag, hId⟩, nodeAt_of_isPrefix hPrefix hNode] at hEnd
  have hSize : slot2.localEnd.addressSize = 3 := by rw [hEnd]
  have hData : slot2.localEnd.addressData.elems =
      addressPrefix opened.protocol opened.localPort ++ slot.localEnd.addressData.elems.drop 3 := by
    rw [hEnd]
    simp [overwrite]
  constructor
  · rw [PeerEndpoint.AddressFits, hSize]
    exact ⟨by decide, by decide⟩
  · rw [PeerEndpoint.address, hSize, hData]
    exact List.take_left' (by simp)

-- ---------------------------------------------------------------------------
-- Over the network
-- ---------------------------------------------------------------------------

/-- A packet whose bytes are sent, and received under the ids of another pool. -/
def PeerPacket.received (p : PeerPacket) (sourceId destinationId : Int) : PeerPacket :=
  receivedPacket sourceId destinationId (p.data.elems.take p.size.toNat)
    (by rw [List.length_take, p.data.length_eq]; exact Nat.min_le_right _ _)

/-- A packet keeps its bytes on the way; the ids are those that the receiver's pool
gives to the two ends. -/
theorem Sealed.received {src dst : Int} {p : PeerPacket} {cs : List Chunk} (h : Sealed src dst p cs)
    (src' dst' : Int) : Sealed src' dst' (p.received src' dst') cs := by
  have hSize : p.size.toNat = 15 + cs.flatten.length := by
    have := h.size
    omega
  have hLe := h.size_le
  -- the bytes that are sent are all but the zeros at the end
  have hTake : p.data.elems.take p.size.toNat =
      List.replicate 13 0 ++ leBytes 2 (15 + cs.flatten.length) ++ cs.flatten := by
    rw [h.data, hSize]
    exact List.take_left' (by simp; omega)
  have hLength : (List.replicate 13 (0 : UInt8) ++ leBytes 2 (15 + cs.flatten.length) ++
      cs.flatten).length = 15 + cs.flatten.length := by
    simp
    omega
  refine ⟨rfl, rfl, ?_, hLe, ?_, h.framed⟩
  · simp only [PeerPacket.received, receivedPacket, hTake, hLength]
  · simp only [PeerPacket.received, receivedPacket, hTake, Buffer.elems_blit, Buffer.elems_fill,
      overwrite, List.take_zero, List.nil_append, Nat.zero_add, hLength, List.drop_replicate]

/-- The packets of a session response for a slot with the local end, as they arrive:
under the ids that the receiving pool gives to the two ends. The response is the
first packet of its tick, and the allocations for it have succeeded. -/
def ResponseReceived (localEnd : PeerEndpoint) (slot : PeerSlot) (packets : List PeerPacket) : Prop :=
  ∃ (listenId time : Int) (sender : PeerSlot) (out out' : TickOutput), IsInt64 time ∧
    sender.localEnd = localEnd ∧ out.alloc = .reliable ∧ out.packets = [] ∧
    sendSessionResponse listenId time sender out = .ok out' ∧
    packets = out'.packets.map (·.received slot.remoteEnd.id slot.localEnd.id)

/-- The response, as the first packet that this tick hands to the slot, in the terms
of `Peer/Handshake.lean`. -/
theorem ResponseReceived.carried {localEnd : PeerEndpoint} {slot : PeerSlot}
    {packets : List PeerPacket} (h : ResponseReceived localEnd slot packets) :
    ∃ (time : Int) (sender : PeerSlot), IsInt64 time ∧ sender.localEnd = localEnd ∧
      Carried slot.remoteEnd.id slot.localEnd.id packets [sessionResponseChunk time sender] := by
  obtain ⟨listenId, time, sender, out, out', hTime, hEnd, hAlloc, hNone, hSend, rfl⟩ := h
  obtain ⟨_, ps, hPackets, css, hSealed, hFlat⟩ := sendSessionResponse_posts hAlloc hSend
  rw [hNone, List.nil_append] at hPackets
  refine ⟨time, sender, hTime, hEnd, css, ?_, hFlat⟩
  rw [hPackets, List.forall₂_map_left_iff]
  exact hSealed.imp fun p cs hp => hp.received _ _

/-- **The client's slot after the response** has the port of the host's node, the
remote id as before, and the flag of the remote address as before. -/
theorem answered_of_input {opened : PeerNode} {localEnd : PeerEndpoint} {client client1 : Peer}
    {i : Nat} {slot : PeerSlot} {packets : List PeerPacket} {s : Status}
    (hLocal : LocalAddressOf opened localEnd) (hPackets : ResponseReceived localEnd slot packets)
    (hMode : client.mode = .client) (hAlloc : client.alloc = .reliable)
    (hSlot : client.slots[i]? = some slot)
    (hListens : ListensAt client i slot.remoteEnd.id slot.localEnd.id)
    (hInput : peerInput client packets = .ok (s, client1)) :
    ∃ slot1, client1.slots[i]? = some slot1 ∧ Answered opened slot1 ∧
      slot1.remoteEnd.id = slot.remoteEnd.id ∧
      slot1.remoteEnd.isAddressResolved = slot.remoteEnd.isAddressResolved := by
  obtain ⟨time, sender, hTime, rfl, hCarried⟩ := hPackets.carried
  obtain ⟨hFits, hAddress⟩ := hLocal.address
  -- The address fits the slot's array, so the response is taken as it is.
  obtain ⟨hRoom, hOk⟩ := peerInput_response hMode hAlloc hSlot hListens hTime hFits hCarried
  rw [hInput] at hOk
  obtain ⟨_, rfl⟩ := Prod.mk.inj (Except.ok.inj hOk)
  refine ⟨_, List.getElem?_set_self (List.getElem?_eq_some_iff.mp hSlot).1, ⟨rfl, ?_, ?_⟩, rfl, rfl⟩
  · simp only [PeerSlot.respond]
    rw [hAddress, length_addressPrefix]
    rfl
  · refine ⟨slot.remoteEnd.addressData.elems.drop 3, ?_⟩
    simp [PeerSlot.respond, overwrite, hAddress]

-- ---------------------------------------------------------------------------
-- The round trip
-- ---------------------------------------------------------------------------

/-- **When the address of a session survives** the way through both pools: for a
slot of a client whose remote address was resolved before the response came,
when the endpoint is known to the client's pool, or its array of nodes grows
without being moved; and for a slot whose remote address was not, when the node
it was connected to has the right port already. -/
theorem session_address_iff {opened server : PeerNode} {pool pool' : PeerSocketPool}
    {client client' : Peer} {i : Nat} {slot : PeerSlot} {localEnd : PeerEndpoint}
    {packets : List PeerPacket} {s : Status} (hOpened : opened.protocol = peerUdpIPv4)
    (hLocal : LocalAddressOf opened localEnd) (hPackets : ResponseReceived localEnd slot packets)
    (hMode : client.mode = .client) (hAlloc : client.alloc = .reliable)
    (hSlot : client.slots[i]? = some slot)
    (hListens : ListensAt client i slot.remoteEnd.id slot.localEnd.id)
    (hInput : peerInput client packets = .ok (s, client'))
    (hServer : nodeAt pool.nodes slot.remoteEnd.id = some server) (hRemote : server.IsRemote)
    (hOthers : OthersEnd pool client' i pool') :
    SessionResolved opened server pool client' i ↔ KeepsSession opened server pool' slot := by
  obtain ⟨slot1, hSlot1, hAnswered, hId, hFlag⟩ :=
    answered_of_input hLocal hPackets hMode hAlloc hSlot hListens hInput
  rw [← hId] at hServer
  rw [sessionResolved_iff hOpened hSlot1 hAnswered hServer hRemote hOthers, KeepsSession, KeepsSession,
    hFlag]

-- ---------------------------------------------------------------------------
-- Two clients
-- One whose flag is not set, and one whose array of nodes is moved.
-- ---------------------------------------------------------------------------

section Clients

/-- A node that a host has opened, at port 9. -/
def hostNode : PeerNode :=
  { PeerNode.zero with socket := 5, protocol := peerUdpIPv4, localPort := 9 }

/-- What a client is connected to: the host's first socket, at port 7. -/
def serverNode : PeerNode := PeerNode.remote peerUdpIPv4 7 [49] (by decide)

/-- The client's pool: the server's endpoint, and a socket of its own. -/
def clientPool : PeerSocketPool where
  alloc := .reliable
  inPlace := fun _ => true
  nodes := [serverNode, { PeerNode.zero with socket := 6, protocol := peerUdpIPv4, localPort := 11 }]

/-- The server's endpoint is one of those that the theorem is about. -/
theorem serverNode_isRemote : serverNode.IsRemote := ⟨rfl, rfl, rfl, by decide, by decide⟩

/-- There is a slot whose local address is that of the node. -/
theorem exists_localAddressOf : ∃ localEnd, LocalAddressOf hostNode localEnd := by
  let pool : PeerSocketPool := { alloc := .reliable, inPlace := fun _ => true, nodes := [hostNode] }
  exact ⟨_, pool, _, (peerOpen (peerInit .host .reliable ⟨fun _ => 0⟩) (some [0])).2, _, _, 0, _, _, rfl,
    rfl, rfl, rfl, rfl, rfl⟩

/-- There is a response that carries any address that fits. -/
theorem exists_responseReceived {localEnd : PeerEndpoint} (hFits : localEnd.AddressFits)
    (slot : PeerSlot) : ∃ packets, ResponseReceived localEnd slot packets := by
  obtain ⟨ps, hSend, _⟩ := @sendSessionResponse_carried
    { openSlot .host 0 0 with localEnd := localEnd } hFits 0 0
    { status := kitOk, packets := [], mt64 := ⟨fun _ => 0⟩, alloc := .reliable } rfl
  exact ⟨_, 0, 0, _, _, _, ⟨by decide, by decide⟩, rfl, rfl, rfl, hSend, rfl⟩

/-- A client with one slot has no other turns. -/
theorem othersEnd_single {pool : PeerSocketPool} {client : Peer} {slot : PeerSlot}
    (h : client.slots = [slot]) : OthersEnd pool client 0 pool := by
  constructor
  · exact ⟨kitOk, [], rfl⟩
  · intro _ s pool'' slot' _ _
    rw [h]
    exact ⟨_, rfl⟩

/-- A client with one slot takes any such response, and answers `KIT_OK`. -/
theorem exists_input_response {localEnd : PeerEndpoint} {client : Peer} {slot : PeerSlot}
    {packets : List PeerPacket} (hFits : localEnd.AddressFits)
    (hPackets : ResponseReceived localEnd slot packets) (hMode : client.mode = .client)
    (hAlloc : client.alloc = .reliable) (hSlots : client.slots = [slot])
    (hListens : ListensAt client 0 slot.remoteEnd.id slot.localEnd.id) :
    ∃ client' slot', peerInput client packets = .ok (kitOk, client') ∧ client'.slots = [slot'] := by
  obtain ⟨time, sender, hTime, rfl, hCarried⟩ := hPackets.carried
  obtain ⟨hRoom, hOk⟩ := peerInput_response hMode hAlloc
    (show client.slots[0]? = some slot by rw [hSlots]; rfl) hListens hTime hFits hCarried
  exact ⟨_, _, hOk, by rw [hSlots]; rfl⟩

/-- A client with one slot, where what decides about its session fails: it takes
the response of a host, and its pool does not resolve the session. -/
theorem exists_session_lost {pool : PeerSocketPool} {client : Peer} {slot : PeerSlot}
    (hMode : client.mode = .client) (hAlloc : client.alloc = .reliable) (hSlots : client.slots = [slot])
    (hServer : nodeAt pool.nodes slot.remoteEnd.id = some serverNode)
    (hListens : ListensAt client 0 slot.remoteEnd.id slot.localEnd.id)
    (hNot : ¬ KeepsSession hostNode serverNode pool slot) :
    ∃ localEnd packets client', LocalAddressOf hostNode localEnd ∧
      ResponseReceived localEnd slot packets ∧ peerInput client packets = .ok (kitOk, client') ∧
      OthersEnd pool client' 0 pool ∧ ¬ SessionResolved hostNode serverNode pool client' 0 := by
  obtain ⟨localEnd, hLocal⟩ := exists_localAddressOf
  have hFits := hLocal.address.1
  have hSlot : client.slots[0]? = some slot := by
    rw [hSlots]
    rfl
  obtain ⟨packets, hPackets⟩ := exists_responseReceived hFits slot
  obtain ⟨client', slot', hInput, hSlots'⟩ :=
    exists_input_response hFits hPackets hMode hAlloc hSlots hListens
  obtain ⟨slot1, hSlot1, hAnswered, hId, hFlag⟩ :=
    answered_of_input hLocal hPackets hMode hAlloc hSlot hListens hInput
  refine ⟨localEnd, packets, client', hLocal, hPackets, hInput, othersEnd_single hSlots', ?_⟩
  -- the exact condition, which the response leaves as it is, fails
  rwa [sessionResolved_iff rfl hSlot1 hAnswered (by rw [hId]; exact hServer) serverNode_isRemote
    (othersEnd_single hSlots'), KeepsSession, hFlag, ← KeepsSession]

/-- A client that gets the response before its pool has resolved the address of
the server: its pool then writes the server's address over that of the session,
and the client stays with the server's id. -/
theorem not_session_address :
    ¬ ∀ (opened server : PeerNode) (pool pool' : PeerSocketPool) (client client' : Peer) (i : Nat)
        (slot : PeerSlot) (localEnd : PeerEndpoint) (packets : List PeerPacket) (s : Status),
      opened.protocol = peerUdpIPv4 → LocalAddressOf opened localEnd →
      ResponseReceived localEnd slot packets → client.mode = .client → client.alloc = .reliable →
      client.slots[i]? = some slot → ListensAt client i slot.remoteEnd.id slot.localEnd.id →
      peerInput client packets = .ok (s, client') →
      nodeAt pool.nodes slot.remoteEnd.id = some server → server.IsRemote →
      OthersEnd pool client' i pool' → SessionResolved opened server pool client' i := by
  intro hAll
  obtain ⟨client, slot, hMode, hAlloc, hSlots, hServer, hListens, hFlag⟩ :
      ∃ (client : Peer) (slot : PeerSlot), client.mode = .client ∧ client.alloc = .reliable ∧
        client.slots = [slot] ∧ nodeAt clientPool.nodes slot.remoteEnd.id = some serverNode ∧
        ListensAt client 0 slot.remoteEnd.id slot.localEnd.id ∧
        slot.remoteEnd.isAddressResolved = false :=
    ⟨connectedClient 1 0 .reliable ⟨fun _ => 0⟩, _, rfl, rfl, rfl, rfl, rfl, rfl⟩
  have hNot : ¬ KeepsSession hostNode serverNode clientPool slot := by
    -- the session has another port than the one that was asked
    rintro (⟨hResolved, _⟩ | ⟨_, hPort⟩)
    · rw [hFlag] at hResolved
      cases hResolved
    · exact absurd hPort (by decide)
  obtain ⟨localEnd, packets, client', hLocal, hPackets, hInput, hOthers, hLost⟩ :=
    exists_session_lost hMode hAlloc hSlots hServer hListens hNot
  exact hLost (hAll hostNode serverNode clientPool clientPool client client' 0 slot localEnd packets _
    rfl hLocal hPackets hMode hAlloc (by rw [hSlots]; rfl) hListens hInput hServer serverNode_isRemote
    hOthers)

/-- The client's pool, with an allocator that moves the array of nodes whenever it
grows. -/
def movingPool : PeerSocketPool := { clientPool with inPlace := fun _ => false }

/-- A client whose pool has resolved the address of the server before, and then
has no room for one more node where its array is: `find_pool_node` reads the address
that it was given from the memory that `DA_RESIZE` has left. -/
theorem not_session_address_moved : ∃ (client client' : Peer) (s : Status),
    resolveAddressAndId movingPool (connectedClient 1 0 .reliable ⟨fun _ => 0⟩) =
      .ok (s, movingPool, client) ∧
    ∃ packets, peerInput client packets = .ok (kitOk, client') ∧
      ¬ SessionResolved hostNode serverNode movingPool client' 0 := by
  obtain ⟨client, slot, s, hResolve, hMode, hAlloc, hSlots, hServer, hListens, hFlag⟩ :
      ∃ (client : Peer) (slot : PeerSlot) (s : Status),
        resolveAddressAndId movingPool (connectedClient 1 0 .reliable ⟨fun _ => 0⟩) =
          .ok (s, movingPool, client) ∧ client.mode = .client ∧ client.alloc = .reliable ∧
        client.slots = [slot] ∧ nodeAt movingPool.nodes slot.remoteEnd.id = some serverNode ∧
        ListensAt client 0 slot.remoteEnd.id slot.localEnd.id ∧
        slot.remoteEnd.isAddressResolved = true :=
    ⟨_, _, _, rfl, rfl, rfl, rfl, rfl, rfl, rfl⟩
  -- The flag is set, the pool has no node with that endpoint, and its array will move.
  have hNot : ¬ KeepsSession hostNode serverNode movingPool slot := by
    rintro (⟨_, hKnown | ⟨_, hInPlace⟩⟩ | ⟨hUnresolved, _⟩)
    · exact absurd hKnown (by decide)
    · cases hInPlace
    · rw [hFlag] at hUnresolved
      cases hUnresolved
  obtain ⟨_, packets, client', _, _, hInput, _, hLost⟩ :=
    exists_session_lost hMode hAlloc hSlots hServer hListens hNot
  exact ⟨client, client', s, hResolve, packets, hInput, hLost⟩

/-- A client whose pool has resolved the address of the server before: the session
is kept. The flag is set then, so the address that the response brings is not
written over by the next tick. -/
theorem session_address_kept : ∃ (client client' : Peer) (s : Status),
    resolveAddressAndId clientPool (connectedClient 1 0 .reliable ⟨fun _ => 0⟩) =
      .ok (s, clientPool, client) ∧
    ∃ packets, peerInput client packets = .ok (kitOk, client') ∧
      SessionResolved hostNode serverNode clientPool client' 0 := by
  obtain ⟨localEnd, hLocal⟩ := exists_localAddressOf
  have hFits := hLocal.address.1
  obtain ⟨client, slot, s, hResolve, hClient, hSlots, hServer, hListens, hFlag⟩ :
      ∃ (client : Peer) (slot : PeerSlot) (s : Status),
        resolveAddressAndId clientPool (connectedClient 1 0 .reliable ⟨fun _ => 0⟩) =
          .ok (s, clientPool, client) ∧
        (client.mode = .client ∧ client.alloc = .reliable) ∧ client.slots = [slot] ∧
        nodeAt clientPool.nodes slot.remoteEnd.id = some serverNode ∧
        ListensAt client 0 slot.remoteEnd.id slot.localEnd.id ∧
        slot.remoteEnd.isAddressResolved = true :=
    ⟨_, _, _, rfl, ⟨rfl, rfl⟩, rfl, rfl, rfl, rfl⟩
  obtain ⟨packets, hPackets⟩ := exists_responseReceived hFits slot
  obtain ⟨client', slot', hInput, hSlots'⟩ :=
    exists_input_response hFits hPackets hClient.1 hClient.2 hSlots hListens
  refine ⟨client, client', s, hResolve, packets, hInput, ?_⟩
  -- the address is resolved, and the nodes can grow in place
  exact (session_address_iff rfl hLocal hPackets hClient.1 hClient.2
    (show client.slots[0]? = some slot by rw [hSlots]; rfl) hListens hInput hServer serverNode_isRemote
    (othersEnd_single hSlots')).mpr (Or.inl ⟨hFlag, Or.inr ⟨rfl, rfl⟩⟩)

end Clients

end PeerProtocol
