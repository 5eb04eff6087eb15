import PeerProtocol.Model.World

/-!
# peer — the socket pool

`socket_pool.c`: the nodes that stand for sockets and for remote endpoints,
and the calls that glue a peer to them. An id of a peer's endpoint is the
position of a node, so the pool is what gives the ids of `peer.c` their
meaning: behind a local id there is a socket, behind a remote id an address
and a port.

## Modelling choices

* What the sockets do is a parameter of each call: what `socket` and the calls
  after it return (`SocketCalls`), what `recvfrom` has for a node
  (`ReceiveCall`), and what `inet_pton` and `sendto` return (`SendCalls`).
  Where peers share a pool, the receive queues of its sockets say what
  `recvfrom` has.
* What goes out is recorded as the calls of `sendto`, and what is closed as
  the list of the descriptors that `close` is called with.
* A pool says of each `DA_RESIZE` of its nodes to come whether it leaves the
  array where it is: where it does not, the old array is freed, and a pointer
  into it must not be read any more. One call of `find_pool_node` is given
  such a pointer.
* The address of a node carries the proof that it fits its array, and the
  bytes behind it are zero. `find_pool_node` copies an address without
  comparing its length, so the model compares it, and faults on the other
  side.
* Only UDP over IPv4 is implemented in the source; the other protocols are
  refused with the status that it gives.
* `peer_pool_open` adds the size of the array and the count that it is given.
  That sum overflows for a count that no memory can serve; `peerPoolOpenCall`
  is the call with this fault, `peerPoolOpen` what it does otherwise.

Behind the functions of the source come four transition systems, each with its
step function: a pool that any peers use, a pool that peers share with the
queues of its sockets, a host that is deployed over a pool, and a host and
clients over pools of their own.
-/

namespace PeerProtocol

open Lib

-- ---------------------------------------------------------------------------
-- Constants
-- Protocols, and the status codes that only this file of the source returns.
-- ---------------------------------------------------------------------------

/-- The one protocol that is implemented. -/
@[simp] abbrev peerUdpIPv4 : Int := 1
/-- A protocol that `peer_pool_open` knows and does not implement. -/
@[simp] abbrev peerUdpIPv6 : Int := 2
/-- Another one. -/
@[simp] abbrev peerTcpIPv4 : Int := 3
/-- Another one. -/
@[simp] abbrev peerTcpIPv6 : Int := 4
/-- `PEER_ANY_PORT`: let the system choose; no remote endpoint has this port. -/
@[simp] abbrev peerAnyPort : UInt16 := 0

/-- `INVALID_SOCKET`: what `socket` returns when it fails, and what the node of a
remote endpoint has for a descriptor. -/
@[simp] abbrev invalidSocket : Int := -1

/-- A protocol that the pool does not know, or that it cannot look endpoints up for. -/
def peerErrorUnknownProtocol : Status := 0x00100000
/-- `peer_pool_open` of no sockets, or of fewer. -/
def peerErrorInvalidCount : Status := 0x00200000
/-- `socket` has failed. -/
def peerErrorCreateSocketFailed : Status := 0x00400000
/-- The socket cannot be made non-blocking. -/
def peerErrorMakeSocketNonblockingFailed : Status := 0x00800000
/-- `bind` has failed. -/
def peerErrorBindSocketFailed : Status := 0x01000000
/-- `getsockname` has failed or, in a tick, `inet_pton`. -/
def peerErrorGetSocketNameFailed : Status := 0x02000000
/-- `peer_pool_connect` with no address, or with one that is too long. -/
def peerErrorInvalidAddress : Status := 0x04000000
/-- `peer_pool_connect` without a port. -/
def peerErrorInvalidPort : Status := 0x08000000
/-- `recvfrom` has failed, otherwise than for want of a datagram. -/
def peerErrorSocketReceiveFailed : Status := 0x10000000
/-- `sendto` has not sent the whole packet. -/
def peerErrorSocketSendFailed : Status := 0x20000000
/-- A packet whose source id is a node without a socket. -/
def peerErrorInvalidSocket : Status := 0x40000000
/-- The word of −1: it has all bits, and so contains every other code. -/
def peerErrorNotImplemented : Status := 0xffffffff

-- ---------------------------------------------------------------------------
-- Data model
-- ---------------------------------------------------------------------------

/-- `peer_node_t`. A node with a socket is one of the pool's own; one without stands
for a remote endpoint. The address is the part of its array that is in use. -/
structure PeerNode where
  socket : Int
  protocol : Int
  localPort : UInt16
  remotePort : UInt16
  remoteAddress : List UInt8
  address_le : remoteAddress.length ≤ peerAddressSize - 2
deriving DecidableEq

/-- A node after `memset` to zero. Its descriptor is 0, which is one that `close`
may be called with. -/
def PeerNode.zero : PeerNode where
  socket := 0
  protocol := 0
  localPort := 0
  remotePort := 0
  remoteAddress := []
  address_le := Nat.zero_le _

/-- The array of a node's address: zeros behind the part in use, as `memset` left them. -/
def PeerNode.addressArray (node : PeerNode) : List UInt8 :=
  node.remoteAddress ++ List.replicate (peerAddressSize - 2 - node.remoteAddress.length) 0

/-- The node of a remote endpoint: no socket, no local port. -/
def PeerNode.remote (protocol : Int) (remotePort : UInt16) (remoteAddress : List UInt8)
    (address_le : remoteAddress.length ≤ peerAddressSize - 2) : PeerNode where
  socket := invalidSocket
  protocol := protocol
  localPort := peerAnyPort
  remotePort := remotePort
  remoteAddress := remoteAddress
  address_le := address_le

/-- `peer_socket_pool_t`, with the allocator it uses and whether its array moves. -/
structure PeerSocketPool where
  alloc : Allocator
  inPlace : Nat → Bool
  nodes : List PeerNode

/-- `peer_pool_init`: no nodes. -/
def peerPoolInit (alloc : Allocator) (inPlace : Nat → Bool) : PeerSocketPool where
  alloc := alloc
  inPlace := inPlace
  nodes := []

/-- `DA_RESIZE` of the nodes to a larger size: whether it succeeds, and whether
the array stays in place. -/
def PeerSocketPool.grow (pool : PeerSocketPool) : Bool × Bool × PeerSocketPool :=
  let (granted, al) := pool.alloc.request
  (granted, pool.inPlace 0, { pool with alloc := al, inPlace := fun n => pool.inPlace (n + 1) })

/-- The node with an id, unless the id is negative or not below the size: the test
that the source makes before every such access. -/
def nodeAt (nodes : List PeerNode) (id : Int) : Option PeerNode :=
  if id < 0 then none else nodes[id.toNat]?

-- ---------------------------------------------------------------------------
-- find_pool_node
-- ---------------------------------------------------------------------------

/-- The node stands for a remote endpoint, and for this one. All five comparisons
are those of the source, the lengths of the addresses included. -/
def PeerNode.isEndpoint (node : PeerNode) (protocol : Int) (remotePort : UInt16)
    (remoteAddress : List UInt8) : Bool :=
  node.socket == invalidSocket && node.protocol == protocol && node.localPort == peerAnyPort &&
    node.remotePort == remotePort && node.remoteAddress == remoteAddress

/-- The status and the id, which is −1 after an error: the first node of the
endpoint, or a new one at the end. `inPool` tells that the address is given by a
pointer into the array of the nodes itself, which is read once more after the array
was resized. -/
def findPoolNode (pool : PeerSocketPool) (protocol : Int) (remotePort : UInt16)
    (remoteAddress : List UInt8) (inPool : Bool) : Except Fault (Status × Int × PeerSocketPool) :=
  if protocol ≠ peerUdpIPv4 then
    .ok (peerErrorUnknownProtocol, -1, pool)
  else
    match pool.nodes.findIdx? (·.isEndpoint protocol remotePort remoteAddress) with
    | some i => .ok (kitOk, i, pool)
    | none =>
      match pool.grow with
      | (false, _, pool) => .ok (peerErrorBadAlloc, -1, pool)
      | (true, inPlace, pool) =>
        if inPool && !inPlace then
          -- the address was in the array that `DA_RESIZE` has freed
          .error .access
        else if h : remoteAddress.length ≤ peerAddressSize - 2 then
          .ok (kitOk, pool.nodes.length,
            { pool with nodes := pool.nodes ++ [PeerNode.remote protocol remotePort remoteAddress h] })
        else
          .error .access

-- ---------------------------------------------------------------------------
-- resolve_address_and_id
-- Four things in turn for each slot, of which the last two need the pool as
-- it is then.
-- ---------------------------------------------------------------------------

/-- Protocol and port, as the first three bytes of an address. The IP address
follows, for a remote end. -/
def addressPrefix (protocol : Int) (port : UInt16) : List UInt8 :=
  UInt8.ofNat (protocol % 256).toNat :: leBytes 2 port.toNat

@[simp] theorem length_addressPrefix (protocol : Int) (port : UInt16) :
    (addressPrefix protocol port).length = 3 := by
  simp [addressPrefix]

/-- Byte `i` of the array of an address, behind its end as well. -/
def PeerEndpoint.addressByte (e : PeerEndpoint) (i : Nat) : UInt8 := e.addressData.elems.getD i 0

/-- The protocol that an address begins with. -/
def PeerEndpoint.addressProtocol (e : PeerEndpoint) : Int := (e.addressByte 0).toNat

/-- The port behind it, low byte first. -/
def PeerEndpoint.addressPort (e : PeerEndpoint) : UInt16 :=
  UInt16.ofNat (leValue [e.addressByte 1, e.addressByte 2])

/-- Get local port by id. The address of a local end is only its protocol and port,
since a socket does not know under which address others reach it. -/
def PeerSlot.resolveLocalAddress (slot : PeerSlot) (nodes : List PeerNode) : Status × PeerSlot :=
  if slot.localEnd.isAddressResolved = false ∧ slot.localEnd.id ≠ peerUndefined then
    match nodeAt nodes slot.localEnd.id with
    | none => (peerErrorInvalidId, slot)
    | some node =>
      (kitOk, { slot with localEnd := { slot.localEnd with
        addressSize := 3
        addressData := slot.localEnd.addressData.blit 0 (addressPrefix node.protocol node.localPort)
          (by simp)
        isAddressResolved := true } })
  else (kitOk, slot)

/-- Get remote address and port by id: three bytes, and the text of the IP address. -/
def PeerSlot.resolveRemoteAddress (slot : PeerSlot) (nodes : List PeerNode) :
    Except Fault (Status × PeerSlot) :=
  if slot.remoteEnd.isAddressResolved = false ∧ slot.remoteEnd.id ≠ peerUndefined then
    match nodeAt nodes slot.remoteEnd.id with
    | none => .ok (peerErrorInvalidId, slot)
    | some node =>
      if h : 0 + (addressPrefix node.protocol node.remotePort ++ node.remoteAddress).length ≤
          peerAddressSize then
        .ok (kitOk, { slot with remoteEnd := { slot.remoteEnd with
          addressSize := 3 + node.remoteAddress.length
          addressData := slot.remoteEnd.addressData.blit 0
            (addressPrefix node.protocol node.remotePort ++ node.remoteAddress) h
          isAddressResolved := true } })
      else
        .error .access
  else .ok (kitOk, slot)

/-- The remote id of a slot after `find_pool_node`: set, and resolved, if there was
no error. -/
def PeerSlot.found (slot : PeerSlot) (s : Status) (id : Int) : PeerSlot :=
  if s = kitOk then
    { slot with remoteEnd := { slot.remoteEnd with id := id, isIdResolved := true } }
  else slot

/-- Get remote id by port and previous id: the address of the session response names
a port, and the IP address is that of the endpoint the response came from. It is
read through a pointer to that endpoint's node. -/
def resolveIdByPort (pool : PeerSocketPool) (slot : PeerSlot) :
    Except Fault (Status × PeerSocketPool × PeerSlot) :=
  if slot.remoteEnd.isIdResolved = false ∧ slot.remoteEnd.addressSize = 3 ∧
      slot.remoteEnd.id ≠ peerUndefined then
    match nodeAt pool.nodes slot.remoteEnd.id with
    | none => .ok (peerErrorInvalidId, pool, slot)
    | some node => do
      let (s, id, pool) ← findPoolNode pool slot.remoteEnd.addressProtocol
        slot.remoteEnd.addressPort node.remoteAddress true
      return (s, pool, slot.found s id)
  else .ok (kitOk, pool, slot)

/-- Get remote id by address and port. The address is copied out of the slot. -/
def resolveIdByAddress (pool : PeerSocketPool) (slot : PeerSlot) :
    Except Fault (Status × PeerSocketPool × PeerSlot) :=
  if slot.remoteEnd.isIdResolved = false ∧ slot.remoteEnd.addressSize > 3 then do
    let address ← chunkData slot.remoteEnd.addressData.elems 3 (slot.remoteEnd.addressSize - 3)
    let (s, id, pool) ← findPoolNode pool slot.remoteEnd.addressProtocol
      slot.remoteEnd.addressPort address false
    return (s, pool, slot.found s id)
  else .ok (kitOk, pool, slot)

/-- One turn of the loop over the slots: the errors of the four parts are united. -/
def resolveSlot (pool : PeerSocketPool) (slot : PeerSlot) :
    Except Fault (Status × PeerSocketPool × PeerSlot) := do
  let (s1, slot) := slot.resolveLocalAddress pool.nodes
  let (s2, slot) ← slot.resolveRemoteAddress pool.nodes
  let (s3, pool, slot) ← resolveIdByPort pool slot
  let (s4, pool, slot) ← resolveIdByAddress pool slot
  return (s1 ||| s2 ||| s3 ||| s4, pool, slot)

/-- The loop over the slots. A node that one slot adds is found by the slots behind
it. -/
def resolveSlots : PeerSocketPool → List PeerSlot →
    Except Fault (Status × PeerSocketPool × List PeerSlot)
  | pool, [] => .ok (kitOk, pool, [])
  | pool, slot :: slots => do
    let (s, pool, slot) ← resolveSlot pool slot
    let (status, pool, slots) ← resolveSlots pool slots
    return (s ||| status, pool, slot :: slots)

/-- `resolve_address_and_id`: of a peer, only the slots are changed. -/
def resolveAddressAndId (pool : PeerSocketPool) (peer : Peer) :
    Except Fault (Status × PeerSocketPool × Peer) := do
  let (s, pool, slots) ← resolveSlots pool peer.slots
  return (s, pool, { peer with slots := slots })

-- ---------------------------------------------------------------------------
-- peer_pool_destroy
-- ---------------------------------------------------------------------------

/-- The descriptors that the call closes: one for each node, also where that is
`INVALID_SOCKET`. -/
def peerPoolDestroy (pool : PeerSocketPool) : List Int := pool.nodes.map (·.socket)

-- ---------------------------------------------------------------------------
-- peer_pool_open
-- The nodes first, then the slots of the peer; what was opened is closed
-- again on an error.
-- ---------------------------------------------------------------------------

/-- What the calls for one new node return. A call that is not reached returns
nothing, so its field does not matter. -/
structure SocketCalls where
  -- `socket`
  socket : Int
  -- `peer_socket_set_nonblocking` returns 0
  nonblocking : Bool
  -- `bind` does not return −1
  bound : Bool
  -- the port that `getsockname` gives, unless it returns −1
  name : Option UInt16

/-- One turn of the loop over the new nodes, and the node it leaves. The descriptor
is stored before anything is tested. -/
def openNode (calls : SocketCalls) : Status × PeerNode :=
  let node := { PeerNode.zero with socket := calls.socket }
  if calls.socket = invalidSocket then
    (peerErrorCreateSocketFailed, node)
  else if calls.nonblocking = false then
    (peerErrorMakeSocketNonblockingFailed, node)
  else if calls.bound = false then
    (peerErrorBindSocketFailed, node)
  else
    match calls.name with
    | none => (peerErrorGetSocketNameFailed, node)
    | some port =>
      (kitOk, { node with protocol := peerUdpIPv4, localPort := port, remotePort := peerAnyPort })

/-- The loop over the `count` new nodes, which stops at the first failure: the nodes
behind stay zero, with descriptor 0. -/
def openNodes (calls : Nat → SocketCalls) : Nat → Nat → Status × List PeerNode
  | _, 0 => (kitOk, [])
  | i, count + 1 =>
    let (s, node) := openNode (calls i)
    if s ≠ kitOk then
      (s, node :: List.replicate count PeerNode.zero)
    else
      let (status, nodes) := openNodes calls (i + 1) count
      (status, node :: nodes)

/-- The switch over the protocols: the status, and the pool with its new nodes.
Whether the array stays in place is of no account here. -/
def openProtocol (pool : PeerSocketPool) (protocol : Int) (count : Nat)
    (calls : Nat → SocketCalls) : Status × PeerSocketPool :=
  if protocol = peerUdpIPv4 then
    match pool.grow with
    | (false, _, pool) => (peerErrorBadAlloc, pool)
    | (true, _, pool) =>
      let (s, nodes) := openNodes calls 0 count
      (s, { pool with nodes := pool.nodes ++ nodes })
  else if protocol = peerUdpIPv6 ∨ protocol = peerTcpIPv4 ∨ protocol = peerTcpIPv6 then
    (peerErrorNotImplemented, pool)
  else
    (peerErrorUnknownProtocol, pool)

/-- The list of the new ids, and `peer_open`. The peer's own allocator serves the
second. -/
def openIds (pool : PeerSocketPool) (peer : Peer) (n count : Nat) :
    Status × PeerSocketPool × Peer :=
  match pool.alloc.daInit count with
  | (false, al) => (peerErrorBadAlloc, { pool with alloc := al }, peer)
  | (true, al) =>
    let (s, peer) := peerOpen peer (some ((List.range count).map fun i => ((n + i : Nat) : Int)))
    (s, { pool with alloc := al }, peer)

/-- The status, the descriptors that the call closes, and what it leaves. The port
goes to `bind`, whose result is in `calls`. After an error every new node whose
descriptor is not −1 is closed, including those that no socket was opened for. -/
def peerPoolOpen (pool : PeerSocketPool) (peer : Peer) (protocol : Int) (count : Int)
    (calls : Nat → SocketCalls) : Status × List Int × PeerSocketPool × Peer :=
  if count ≤ 0 then
    (peerErrorInvalidCount, [], pool, peer)
  else
    let n := pool.nodes.length
    let (s, pool) := openProtocol pool protocol count.toNat calls
    let (s, pool, peer) := if s = kitOk then openIds pool peer n count.toNat else (s, pool, peer)
    if s ≠ kitOk then
      (s, ((pool.nodes.drop n).map (·.socket)).filter (· ≠ invalidSocket),
        { pool with nodes := pool.nodes.take n }, peer)
    else
      (s, [], pool, peer)

/-- The sum that `peer_pool_open` computes where it makes room for its nodes, of the
nodes that there are and `count` more, overflows. -/
def PeerSocketPool.SumOverflows (pool : PeerSocketPool) (protocol count : Int) : Prop :=
  0 < count ∧ protocol = peerUdpIPv4 ∧ (pool.nodes.length : Int) + count > int64Max

instance (pool : PeerSocketPool) (protocol count : Int) :
    Decidable (pool.SumOverflows protocol count) := inferInstanceAs (Decidable (_ ∧ _))

/-- `peer_pool_open` as an application calls it, with any count: the fault of that
sum, or else what `peerPoolOpen` says. -/
def peerPoolOpenCall (pool : PeerSocketPool) (peer : Peer) (protocol : Int) (count : Int)
    (calls : Nat → SocketCalls) : Except Fault (Status × List Int × PeerSocketPool × Peer) :=
  if pool.SumOverflows protocol count then
    .error .overflow
  else
    .ok (peerPoolOpen pool peer protocol count calls)

-- ---------------------------------------------------------------------------
-- peer_pool_connect
-- ---------------------------------------------------------------------------

/-- `peer_pool_connect`: look the endpoint up, take a free slot for it, and open one
where there is none. The one node that the call may add cannot make the sum
overflow: the array of those that there are has room for it in the address space. -/
def peerPoolConnect (pool : PeerSocketPool) (peer : Peer) (protocol : Int)
    (address : List UInt8) (port : UInt16) (calls : Nat → SocketCalls) :
    Except Fault (Status × List Int × PeerSocketPool × Peer) :=
  if address = [] ∨ address.length > peerAddressSize - 2 then
    .ok (peerErrorInvalidAddress, [], pool, peer)
  else if port = peerAnyPort then
    .ok (peerErrorInvalidPort, [], pool, peer)
  else do
    let (s, remoteId, pool) ← findPoolNode pool protocol port address false
    if s ≠ kitOk then
      return (s, [], pool, peer)
    let (s, peer) := peerConnect peer remoteId
    if s ≠ peerErrorNoFreeSlots then
      return (s, [], pool, peer)
    let (s, closed, pool, peer) := peerPoolOpen pool peer protocol 1 calls
    if s ≠ kitOk then
      return (s, closed, pool, peer)
    let (s, peer) := peerConnect peer remoteId
    return (s, closed, pool, peer)

-- ---------------------------------------------------------------------------
-- peer_pool_tick
-- Resolve, receive, input, tick, send; no part is left out when an earlier
-- one has failed.
-- ---------------------------------------------------------------------------

/-- What `recvfrom` has for a node. A datagram is never longer than the buffer. -/
inductive ReceiveCall where
  -- −1, with `errno` 0 or `EAGAIN`
  | again
  -- −1, with another `errno`
  | failed
  -- a datagram, with the address that `inet_ntop` writes for its sender
  | datagram (data : List UInt8) (data_le : data.length ≤ peerPacketSize)
      (address : List UInt8) (port : UInt16)

/-- The packet with the bytes of a datagram. Its size is theirs, and need not be
what the size field of the packet says; behind them the array is zero. -/
def receivedPacket (sourceId destinationId : Int) (data : List UInt8)
    (data_le : data.length ≤ peerPacketSize) : PeerPacket where
  sourceId := sourceId
  destinationId := destinationId
  size := data.length
  data := (Buffer.fill peerPacketSize 0).blit 0 data (by omega)

/-- One turn of the loop over the nodes, for the node at position `i`: its socket is
asked once, and what is received comes from the node of its sender. An empty
datagram is dropped. -/
def receiveNode (received : ReceiveCall) (pool : PeerSocketPool) (i : Nat) (node : PeerNode)
    (packets : List PeerPacket) : Except Fault (Status × PeerSocketPool × List PeerPacket) :=
  if node.socket = invalidSocket ∨ node.protocol ≠ peerUdpIPv4 then
    .ok (kitOk, pool, packets)
  else
    match received with
    | .again => .ok (kitOk, pool, packets)
    | .failed => .ok (peerErrorSocketReceiveFailed, pool, packets)
    | .datagram data data_le address port =>
      if data = [] then
        .ok (kitOk, pool, packets)
      else do
        let (s, id, pool) ← findPoolNode pool node.protocol port address false
        if s ≠ kitOk then
          return (s, pool, packets)
        match pool.alloc.request with
        | (false, al) => return (peerErrorBadAlloc, { pool with alloc := al }, packets)
        | (true, al) =>
          return (kitOk, { pool with alloc := al }, packets ++ [receivedPacket id i data data_le])

/-- The loop over the nodes, from position `i` on. The nodes that the loop adds have
no socket, so nothing is received for them. -/
def receiveNodes (received : Nat → ReceiveCall) : Nat → List PeerNode → PeerSocketPool →
    List PeerPacket → Except Fault (Status × PeerSocketPool × List PeerPacket)
  | _, [], pool, packets => .ok (kitOk, pool, packets)
  | i, node :: nodes, pool, packets => do
    let (s, pool, packets) ← receiveNode (received i) pool i node packets
    let (status, pool, packets) ← receiveNodes received (i + 1) nodes pool packets
    return (s ||| status, pool, packets)

/-- What the calls for one packet return. -/
structure SendCalls where
  -- `inet_pton` does not return −1
  address : Bool
  -- `sendto` returns the size of the packet
  sent : Bool

/-- One turn of the loop over the packets of the tick: the ids have to be nodes, the
source one with a socket, and both of the protocol that is implemented. -/
def sendNode (calls : SendCalls) (nodes : List PeerNode) (packet : PeerPacket) : Status :=
  match nodeAt nodes packet.sourceId, nodeAt nodes packet.destinationId with
  | some src, some dst =>
    if src.socket = invalidSocket then
      peerErrorInvalidSocket
    else if src.protocol ≠ dst.protocol ∨ src.protocol ≠ peerUdpIPv4 then
      peerErrorUnknownProtocol
    else if calls.address = false then
      peerErrorGetSocketNameFailed
    else if calls.sent = false then
      peerErrorSocketSendFailed
    else
      kitOk
  | _, _ => peerErrorInvalidId

/-- The loop over the packets; one that cannot be sent is skipped. -/
def sendNodes (calls : Nat → SendCalls) (nodes : List PeerNode) : Nat → List PeerPacket → Status
  | _, [] => kitOk
  | k, packet :: packets =>
    sendNode (calls k) nodes packet ||| sendNodes calls nodes (k + 1) packets

/-- A call of `sendto`, with the array that `inet_pton` reads the address from. -/
structure SendTo where
  socket : Int
  address : List UInt8
  port : UInt16
  data : List UInt8
deriving DecidableEq

/-- The call that the turn for one packet makes, if it comes to it: the tests are
those of `sendNode`, and the address is the whole array of the node. -/
def sendTo (calls : SendCalls) (nodes : List PeerNode) (packet : PeerPacket) : Option SendTo :=
  match nodeAt nodes packet.sourceId, nodeAt nodes packet.destinationId with
  | some src, some dst =>
    if src.socket = invalidSocket ∨ src.protocol ≠ dst.protocol ∨ src.protocol ≠ peerUdpIPv4 ∨
        calls.address = false then
      none
    else
      some {
        socket := src.socket
        address := dst.addressArray
        port := dst.remotePort
        data := packet.data.elems.take packet.size.toNat }
  | _, _ => none

/-- The calls of the whole loop, in order. Each is made whether or not others
failed. -/
def sendTos (calls : Nat → SendCalls) (nodes : List PeerNode) : Nat → List PeerPacket → List SendTo
  | _, [] => []
  | k, packet :: packets =>
    (sendTo (calls k) nodes packet).toList ++ sendTos calls nodes (k + 1) packets

/-- The status, the packets of `peer_tick`, and what the call leaves. A negative
time is refused at once; a time that overflows is only refused by `peer_tick`, when
datagrams have been received and put in already. -/
def peerPoolTick (pool : PeerSocketPool) (peer : Peer) (timeElapsed : Int)
    (received : Nat → ReceiveCall) (calls : Nat → SendCalls) :
    Except Fault (Status × List PeerPacket × PeerSocketPool × Peer) :=
  if timeElapsed < 0 then
    .ok (peerErrorInvalidTimeElapsed, [], pool, peer)
  else do
    let (s1, pool, peer) ← resolveAddressAndId pool peer
    let (s2, pool, packets) ← receiveNodes received 0 pool.nodes pool []
    let (s3, peer) ← peerInput peer packets
    let (s4, packets, peer) ← peerTick peer timeElapsed
    return (s1 ||| s2 ||| s3 ||| sendNodes calls pool.nodes 0 packets ||| s4, packets, pool, peer)

-- ---------------------------------------------------------------------------
-- A pool in use
-- ---------------------------------------------------------------------------

/-- A call with a pool, with any peer. A lookup is a call of `find_pool_node`. -/
inductive PoolAction where
  | openSockets (peer : Peer) (protocol count : Int) (calls : Nat → SocketCalls)
  | connect (peer : Peer) (protocol : Int) (address : List UInt8) (port : UInt16)
      (calls : Nat → SocketCalls)
  | tick (peer : Peer) (timeElapsed : Int) (received : Nat → ReceiveCall) (calls : Nat → SendCalls)
  | lookup (protocol : Int) (remotePort : UInt16) (remoteAddress : List UInt8)

/-- One call, and the pool that it leaves. What the peer becomes is dropped: the
results about pools hold whatever peers come along. -/
def PeerSocketPool.step (pool : PeerSocketPool) : PoolAction → Except Fault PeerSocketPool
  | .openSockets peer protocol count calls => do
    let (_, _, pool, _) ← peerPoolOpenCall pool peer protocol count calls
    return pool
  | .connect peer protocol address port calls => do
    let (_, _, pool, _) ← peerPoolConnect pool peer protocol address port calls
    return pool
  | .tick peer timeElapsed received calls => do
    let (_, _, pool, _) ← peerPoolTick pool peer timeElapsed received calls
    return pool
  | .lookup protocol remotePort remoteAddress => do
    let (_, _, pool) ← findPoolNode pool protocol remotePort remoteAddress false
    return pool

-- ---------------------------------------------------------------------------
-- A pool that peers share
-- The receive queues belong to the sockets, so what one peer's tick takes is
-- gone for others.
-- ---------------------------------------------------------------------------

/-- A datagram in the receive queue of a socket, with the address that
`inet_ntop` writes for its sender. -/
structure Datagram where
  data : List UInt8
  address : List UInt8
  port : UInt16

/-- `recvfrom` on a socket with this queue: it takes the first datagram, and cuts
off what the buffer has no room for. -/
def recvFrom : List Datagram → ReceiveCall × List Datagram
  | [] => (.again, [])
  | d :: queue =>
    (.datagram (d.data.take peerPacketSize) (List.length_take_le _ _) d.address d.port, queue)

/-- What the loop over the nodes receives, node by node, and the queues that it
leaves, by socket. A node without a socket is not asked. -/
def receiveCalls : List PeerNode → (Int → List Datagram) → List ReceiveCall × (Int → List Datagram)
  | [], queues => ([], queues)
  | node :: nodes, queues =>
    if node.socket = invalidSocket ∨ node.protocol ≠ peerUdpIPv4 then
      let (received, queues) := receiveCalls nodes queues
      (.again :: received, queues)
    else
      let (call, queue) := recvFrom (queues node.socket)
      let (received, queues) := receiveCalls nodes (Function.update queues node.socket queue)
      (call :: received, queues)

/-- A pool, the peers that share it, and the receive queues of the sockets, by
descriptor. -/
structure SharedPool where
  pool : PeerSocketPool
  peers : List Peer
  queues : Int → List Datagram

/-- What happens to a shared pool: a datagram arrives at a socket, a peer ticks, or
its application uses the peer alone. -/
inductive SharedAction where
  | arrive (socket : Int) (datagram : Datagram)
  | tick (k : Nat) (timeElapsed : Int) (calls : Nat → SendCalls)
  | use (k : Nat) (a : PeerAction)

/-- What a tick receives. The nodes that it walks are those that
`resolve_address_and_id` has left; a tick that is refused receives nothing. -/
def SharedPool.receive (w : SharedPool) (peer : Peer) (timeElapsed : Int) :
    Except Fault (List ReceiveCall × (Int → List Datagram)) :=
  if timeElapsed < 0 then
    .ok ([], w.queues)
  else do
    let (_, pool, _) ← resolveAddressAndId w.pool peer
    return receiveCalls pool.nodes w.queues

/-- `peer_pool_tick` with the queues of the sockets. -/
def SharedPool.tick (w : SharedPool) (k : Nat) (peer : Peer) (timeElapsed : Int)
    (calls : Nat → SendCalls) : Except Fault SharedPool := do
  let (received, queues) ← w.receive peer timeElapsed
  let (_, _, pool, peer) ←
    peerPoolTick w.pool peer timeElapsed (fun i => received.getD i .again) calls
  return { pool, peers := w.peers.set k peer, queues }

/-- One step of a shared pool. A peer that is not there cannot act. -/
def SharedPool.step (w : SharedPool) : SharedAction → Except Fault SharedPool
  | .arrive socket datagram =>
    .ok { w with queues := Function.update w.queues socket (w.queues socket ++ [datagram]) }
  | .tick k timeElapsed calls => do
    let peer ← readAt w.peers k
    w.tick k peer timeElapsed calls
  | .use k a => do
    let peer ← readAt w.peers k
    let peer ← peer.step a
    return { w with peers := w.peers.set k peer }

-- ---------------------------------------------------------------------------
-- A host that is deployed
-- ---------------------------------------------------------------------------

/-- The senders of the datagrams that the loop over the nodes receives, from
position `i` on: address and port, for each datagram that is not empty. -/
def sendersOf (received : Nat → ReceiveCall) : Nat → List PeerNode → List (List UInt8 × UInt16)
  | _, [] => []
  | i, node :: nodes =>
    (match received i with
      | .datagram data _ address port =>
        if node.socket = invalidSocket ∨ node.protocol ≠ peerUdpIPv4 ∨ data = [] then []
        else [(address, port)]
      | .again | .failed => []) ++ sendersOf received (i + 1) nodes

/-- These datagrams themselves. -/
def datagramsOf (received : Nat → ReceiveCall) : Nat → List PeerNode → List Datagram
  | _, [] => []
  | i, node :: nodes =>
    (match received i with
      | .datagram data _ address port =>
        if node.socket = invalidSocket ∨ node.protocol ≠ peerUdpIPv4 ∨ data = [] then []
        else [{ data, address, port }]
      | .again | .failed => []) ++ datagramsOf received (i + 1) nodes

/-- A pool and a host that uses it, the senders that the host has received datagrams
from, and the calls of `sendto` that it has made. The two lists are history, which
no call reads. -/
structure Deployed where
  pool : PeerSocketPool
  host : Peer
  senders : List (List UInt8 × UInt16)
  sent : List SendTo

/-- An empty pool with any allocator, and a new host whose own allocator refuses
nothing. -/
def Deployed.start (alloc : Allocator) (inPlace : Nat → Bool) (rng : Mt64) : Deployed where
  pool := peerPoolInit alloc inPlace
  host := peerInit .host .reliable rng
  senders := []
  sent := []

/-- What happens to it: the host opens sockets, its application queues a message,
the host ticks, or another peer uses the pool. -/
inductive DeployedAction where
  | openSockets (protocol count : Int) (calls : Nat → SocketCalls)
  | queue (messageData : Option (List UInt8))
  | tick (timeElapsed : Int) (received : Nat → ReceiveCall) (calls : Nat → SendCalls)
  | other (a : PoolAction)

/-- One step: what the host's tick has received and sent is added to the history. -/
def Deployed.step (d : Deployed) : DeployedAction → Except Fault Deployed
  | .openSockets protocol count calls => do
    let (_, _, pool, host) ← peerPoolOpenCall d.pool d.host protocol count calls
    return { d with pool, host }
  | .queue messageData => .ok { d with host := (peerQueue d.host messageData).2 }
  | .tick timeElapsed received calls => do
    let (_, packets, pool, host) ← peerPoolTick d.pool d.host timeElapsed received calls
    -- the nodes that the tick adds have no socket
    let senders := if timeElapsed < 0 then [] else sendersOf received 0 pool.nodes
    return {
      pool
      host
      senders := d.senders ++ senders
      sent := d.sent ++ sendTos calls pool.nodes 0 packets }
  | .other a => do
    let pool ← d.pool.step a
    return { d with pool }

-- ---------------------------------------------------------------------------
-- A host and clients that are deployed
-- ---------------------------------------------------------------------------

/-- What the application of a peer does with the peer and its pool. -/
inductive PartyAction where
  | openSockets (protocol count : Int) (calls : Nat → SocketCalls)
  | connect (protocol : Int) (address : List UInt8) (port : UInt16) (calls : Nat → SocketCalls)
  | queue (messageData : Option (List UInt8))
  | tick (timeElapsed : Int) (received : Nat → ReceiveCall) (calls : Nat → SendCalls)

/-- One call: what it gives to `sendto`, and what it leaves. -/
def Peer.use (peer : Peer) (pool : PeerSocketPool) :
    PartyAction → Except Fault (List SendTo × PeerSocketPool × Peer)
  | .openSockets protocol count calls => do
    let (_, _, pool, peer) ← peerPoolOpenCall pool peer protocol count calls
    return ([], pool, peer)
  | .connect protocol address port calls => do
    let (_, _, pool, peer) ← peerPoolConnect pool peer protocol address port calls
    return ([], pool, peer)
  | .queue messageData => .ok ([], pool, (peerQueue peer messageData).2)
  | .tick timeElapsed received calls => do
    let (_, packets, pool, peer) ← peerPoolTick pool peer timeElapsed received calls
    return (sendTos calls pool.nodes 0 packets, pool, peer)

/-- A pool, and a peer that uses it. -/
structure Party where
  pool : PeerSocketPool
  peer : Peer

/-- The peer uses the pool, or another peer does. -/
def Party.step (p : Party) : PartyAction ⊕ PoolAction → Except Fault Party
  | .inl a => do
    let (_, pool, peer) ← p.peer.use p.pool a
    return { pool, peer }
  | .inr a => do
    let pool ← p.pool.step a
    return { p with pool }

/-- Pools, a host and clients that use them, and the calls of `sendto` that the host
has made. A pool may serve one peer or several; which is left to each action. -/
structure Deployment where
  pools : List PeerSocketPool
  host : Peer
  clients : List Peer
  sent : List SendTo

/-- The host, or client `c`, uses the pool at position `k`. -/
inductive DeploymentAction where
  | host (k : Nat) (a : PartyAction)
  | client (c k : Nat) (a : PartyAction)

/-- One step of the deployment. What clients send is not recorded: whatever the
network has for the host is a parameter of the host's tick. -/
def Deployment.step (w : Deployment) : DeploymentAction → Except Fault Deployment
  | .host k a => do
    let pool ← readAt w.pools k
    let (sent, pool, host) ← w.host.use pool a
    return { w with pools := w.pools.set k pool, host, sent := w.sent ++ sent }
  | .client c k a => do
    let pool ← readAt w.pools k
    let client ← readAt w.clients c
    let (_, pool, client) ← client.use pool a
    return { w with pools := w.pools.set k pool, clients := w.clients.set c client }

end PeerProtocol
