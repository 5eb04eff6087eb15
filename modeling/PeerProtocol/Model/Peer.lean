import PeerProtocol.Model.Packet

/-!
# peer — peers, queues and input

The data model of `peer.h` and the operations of `peer.c` other than the tick:
`peer_init`, `peer_open`, `peer_queue`, `peer_connect`, `peer_input`, and the
static functions that they call. The names are the source's, in camel case.

## Modelling choices

* The model of an operation returns its status and the peer it leaves, also
  after an error: what an error leaves behind is part of what the operation
  does.
* The array sizes and the cursors `in_index`, `out_index` and `queue_index`
  are `Nat`: the code only sets them to zero, to a size, or one further.
* Array indices that a loop of the source finds are list positions, and a
  queue is its list of messages. The bytes of a message are its data; the
  header exists only on the wire.
* Ids, times, actor ids and the address size are `Int`, because the code
  compares them with `PEER_UNDEFINED` or converts them from what it has
  received.
* A client keeps what the host tells it in its mutual queue `queue`, and what
  its own application has queued in the queue of its first slot. A host keeps
  what a client has sent in the queue of the client's slot, and what it has
  accepted in `queue`.
* Nothing here calls the cipher of `cipher.c`, and no packet is encrypted; it
  is left out.

`peer_input` is cut at its loops: `inputPacket` is one turn of the loop over
the packets, `inputChunk` one turn of the loop over the chunks of a packet,
with a definition for each of the two modes.
-/

namespace PeerProtocol

open Lib

-- ---------------------------------------------------------------------------
-- Data model
-- ---------------------------------------------------------------------------

/-- `peer_message_t`. In a queue that is filled by index, an entry that has not been
received yet is there with `isReady` false. -/
structure PeerMessage where
  isReady : Bool
  time : Int
  actor : Int
  data : List UInt8
deriving DecidableEq

/-- A message after `memset` to zero: the hole that `queue_insert` leaves below a
new index. -/
def PeerMessage.zero : PeerMessage where
  isReady := false
  time := 0
  actor := 0
  data := []

/-- `peer_queue_t`: a resizable array, whose size is the length. -/
abbrev PeerQueue := List PeerMessage

/-- `peer_endpoint_t`. The address is the first `address_size` bytes of the array;
an address of size 0 is none. -/
structure PeerEndpoint where
  id : Int
  isIdResolved : Bool
  isAddressResolved : Bool
  addressSize : Int
  addressData : Buffer UInt8 peerAddressSize
deriving DecidableEq

/-- An endpoint after `memset` to zero and the assignment of its id. -/
def PeerEndpoint.ofId (id : Int) (isIdResolved : Bool) : PeerEndpoint where
  id := id
  isIdResolved := isIdResolved
  isAddressResolved := false
  addressSize := 0
  addressData := Buffer.fill peerAddressSize 0

/-- `peer_slot_state_t`. A slot is requested when a client's first packet has come,
and ready when the answer has been sent. -/
inductive PeerSlotState where
  | empty
  | sessionRequest
  | ready
deriving DecidableEq

/-- `peer_slot_t`: the two ends, the queue of what is sent (in a client) or was
received (in a host) through it, and the cursors of the merge and of the sending. -/
structure PeerSlot where
  state : PeerSlotState
  localEnd : PeerEndpoint
  remoteEnd : PeerEndpoint
  queue : PeerQueue
  actor : Int
  inIndex : Nat
  outIndex : Nat
  clockHeartbeat : Int
deriving DecidableEq

/-- `peer_mode_t`. It is fixed by `peer_init`. -/
inductive PeerMode where
  | host
  | client
deriving DecidableEq

/-- `peer_t`, with the allocator and the generator that it uses. The first slot of a
host is the one it listens at; the others belong to one client each. -/
structure Peer where
  alloc : Allocator
  mode : PeerMode
  time : Int
  timeLocal : Int
  actor : Int
  slots : List PeerSlot
  queue : PeerQueue
  queueIndex : Nat
  mt64 : Mt64

-- ---------------------------------------------------------------------------
-- peer_init, peer_open, peer_connect
-- ---------------------------------------------------------------------------

/-- `peer_init`: no slots, no messages, both clocks at zero. Only a host knows its
actor id. -/
def peerInit (mode : PeerMode) (alloc : Allocator) (mt64 : Mt64) : Peer where
  alloc := alloc
  mode := mode
  time := 0
  timeLocal := 0
  actor := match mode with
    | .host => 0
    | .client => peerUndefined
  slots := []
  queue := []
  queueIndex := 0
  mt64 := mt64

/-- The slot that `peer_open` makes of the `i`-th of its ids. In a host the actor id
is `i`, the position among these ids and not among all the slots. -/
def openSlot (mode : PeerMode) (i : Nat) (id : Int) : PeerSlot where
  state := .empty
  localEnd := PeerEndpoint.ofId id true
  remoteEnd := PeerEndpoint.ofId peerUndefined false
  queue := []
  actor := match mode with
    | .host => i
    | .client => peerUndefined
  inIndex := 0
  outIndex := 0
  clockHeartbeat := 0

/-- `peer_open`: new slots behind those there are; `none` is a null pointer with a
size that is not zero. All slots are added or, when `DA_RESIZE` is refused, none. -/
def peerOpen (peer : Peer) (ids : Option (List Int)) : Status × Peer :=
  match ids with
  | none => (peerErrorInvalidId, peer)
  | some [] => (kitOk, peer)
  | some (id :: ids) =>
    match peer.alloc.request with
    | (false, al) => (peerErrorBadAlloc, { peer with alloc := al })
    | (true, al) =>
      (kitOk, { peer with
        alloc := al
        slots := peer.slots ++ (id :: ids).mapIdx (openSlot peer.mode) })

/-- `peer_connect`: the first slot without a remote end gets this one. It does not
look at the mode, nor at whether the slot listens. -/
def peerConnect (client : Peer) (serverId : Int) : Status × Peer :=
  match client.slots.findIdx? fun slot => slot.remoteEnd.id == peerUndefined with
  | none => (peerErrorNoFreeSlots, client)
  | some i =>
    (kitOk, { client with
      slots := client.slots.modify i fun slot =>
        { slot with remoteEnd :=
          { slot.remoteEnd with id := serverId, isIdResolved := true, addressSize := 0 } } })

-- ---------------------------------------------------------------------------
-- Queues
-- Append at the end, or insert at an index that came with the message.
-- ---------------------------------------------------------------------------

/-- `queue_append`: two requests, one for the entry and one for its data. When the
second is refused the entry is taken away again. -/
def queueAppend (q : PeerQueue) (time actor : Int) (data : List UInt8) (al : Allocator) :
    Status × PeerQueue × Allocator :=
  match al.request with
  | (false, al) => (peerErrorBadAlloc, q, al)
  | (true, al) =>
    match al.daInit data.length with
    | (false, al) => (peerErrorBadAlloc, q, al)
    | (true, al) => (kitOk, q ++ [{ isReady := true, time, actor, data }], al)

/-- The queue after `DA_RESIZE` to `index + 1` and `memset` of the new entries. -/
def queueGrow (q : PeerQueue) (index : Nat) : PeerQueue :=
  q ++ List.replicate (index + 1 - q.length) PeerMessage.zero

/-- The part of `queue_insert` that stores a message at an index where none is
ready. Without memory for the data the entry stays a hole. -/
def queueStore (q : PeerQueue) (index : Nat) (time actor : Int) (data : List UInt8)
    (al : Allocator) : Status × PeerQueue × Allocator :=
  match al.daInit data.length with
  | (false, al) => (peerErrorBadAlloc, q, al)
  | (true, al) => (kitOk, q.set index { isReady := true, time, actor, data }, al)

/-- `queue_insert`: the queue is filled up to the index with holes, and an entry
that is ready is never written again. The largest index has no successor to resize
to. -/
def queueInsert (q : PeerQueue) (index time actor : Int) (data : List UInt8) (al : Allocator) :
    Except Fault (Status × PeerQueue × Allocator) :=
  if index = peerUndefined then
    -- unindexed messages are not saved
    .ok (kitOk, q, al)
  else if index < 0 then
    .ok (peerErrorInvalidMessageIndex, q, al)
  else if (q[index.toNat]?).any (·.isReady) then
    .ok (kitOk, q, al)
  else if index.toNat < q.length then
    .ok (queueStore q index.toNat time actor data al)
  else if index = int64Max then
    -- `index + 1`
    .error .overflow
  else
    match al.request with
    | (false, al) => .ok (peerErrorBadAlloc, q, al)
    | (true, al) => .ok (queueStore (queueGrow q index.toNat) index.toNat time actor data al)

/-- `peer_queue`; `none` is a null pointer with size zero. A host appends to its
mutual queue, a client to the queue of its first slot, with time 0 until the host or
its tick sets it. -/
def peerQueue (peer : Peer) (messageData : Option (List UInt8)) : Status × Peer :=
  match messageData with
  | none => (peerErrorInvalidMessage, peer)
  | some data =>
    match peer.mode with
    | .host =>
      let (s, queue, al) := queueAppend peer.queue 0 peer.actor data peer.alloc
      (s, { peer with queue := queue, alloc := al })
    | .client =>
      match peer.slots with
      | [] => (peerErrorInvalidMode, peer)
      | slot :: slots =>
        let (s, queue, al) := queueAppend slot.queue 0 peer.actor data peer.alloc
        (s, { peer with slots := { slot with queue := queue } :: slots, alloc := al })

-- ---------------------------------------------------------------------------
-- peer_input
-- From the inside out: one chunk, the chunks of a packet, one packet, all
-- packets.
-- ---------------------------------------------------------------------------

/-- The fields `peer_input` reads from the header of a chunk, before it looks at any
of them. -/
structure MessageHeader where
  dataSize : Int
  mode : UInt8
  index : Int
  time : Int
  -- `uint32_t const actor`
  actor : Nat
deriving DecidableEq

/-- All five reads. They go to fixed offsets, so a chunk shorter than a header
faults here. -/
def readHeader (chunk : Chunk) : Except Fault MessageHeader := do
  let dataSize ← peerReadMessageDataSize chunk
  let mode ← peerReadMessageMode chunk
  let index ← peerReadMessageIndex chunk
  let time ← peerReadMessageTime chunk
  let actor ← peerReadMessageActor chunk
  return { dataSize, mode, index, time, actor := toU32 actor }

/-- The data that `peer_input` refers to: `size` bytes of the chunk from `offset`
on. The source takes the size from the header, where it need not be what the chunk
has. -/
def chunkData (chunk : Chunk) (offset : Nat) (size : Int) : Except Fault (List UInt8) :=
  if 0 ≤ size ∧ (offset : Int) + size ≤ chunk.length then
    .ok ((chunk.drop offset).take size.toNat)
  else
    .error .access

/-- The service id of a service message that has one: the first byte of its data. -/
def readServiceId (chunk : Chunk) (header : MessageHeader) : Except Fault (Option UInt8) :=
  if header.mode = peerMessageModeService ∧ header.dataSize ≥ 1 then do
    let id ← readAt chunk peerNMessageData
    return some id
  else
    .ok none

/-- One turn of the loop over the chunks in host mode. A client's message must come
without a time and under the actor id of its slot; a heartbeat needs no answer. -/
def inputChunkHost (slot : PeerSlot) (chunk : Chunk) (al : Allocator) :
    Except Fault (Status × PeerSlot × Allocator) := do
  let header ← readHeader chunk
  -- clients' messages should not have time set
  if header.time ≠ 0 then
    return (peerErrorInvalidMessageTime, slot, al)
  if (header.actor : Int) ≠ slot.actor then
    return (peerErrorInvalidMessageActor, slot, al)
  let serviceId ← readServiceId chunk header
  if header.mode = peerMessageModeService then
    if serviceId = some peerMHeartbeat then
      return (kitOk, slot, al)
    else
      return (peerErrorUnknownServiceId, slot, al)
  else
    let data ← chunkData chunk peerNMessageData header.dataSize
    let (s, queue, al) ← queueInsert slot.queue header.index header.time header.actor data al
    return (s, { slot with queue := queue }, al)

/-- A session response: the client's new actor id and the host's address, and the
actor id of the messages queued so far. The remote id is to be resolved again,
because the address may name another endpoint than the one the response came from. -/
def sessionResponse (peer : Peer) (j : Nat) (slot : PeerSlot) (chunk : Chunk)
    (header : MessageHeader) : Except Fault Peer := do
  let address ← chunkData chunk (peerNMessageData + 1) (header.dataSize - 1)
  if h : 0 + address.length ≤ peerAddressSize then
    return { peer with
      actor := header.actor
      slots := peer.slots.set j { slot with
        remoteEnd := { slot.remoteEnd with
          isIdResolved := false
          addressSize := header.dataSize - 1
          addressData := slot.remoteEnd.addressData.blit 0 address h }
        queue := slot.queue.map fun m => { m with actor := header.actor } } }
  else
    throw .access

/-- One turn of the loop over the chunks in client mode. Whatever the chunk is, even
one that is refused, its time moves the mutual clock forward. -/
def inputChunkClient (peer : Peer) (j : Nat) (chunk : Chunk) : Except Fault (Status × Peer) := do
  let header ← readHeader chunk
  let serviceId ← readServiceId chunk header
  let (s, peer) ←
    if header.mode = peerMessageModeService then
      if serviceId = some peerMHeartbeat then
        pure (kitOk, peer)
      else if serviceId = some peerMSessionResponse then do
        let slot ← readAt peer.slots j
        let peer ← sessionResponse peer j slot chunk header
        pure (kitOk, peer)
      else
        pure (peerErrorUnknownServiceId, peer)
    else do
      let data ← chunkData chunk peerNMessageData header.dataSize
      let (s, queue, al) ←
        queueInsert peer.queue header.index header.time header.actor data peer.alloc
      pure (s, { peer with queue := queue, alloc := al })
  -- synchronize mutual time
  return (s, if peer.time < header.time then { peer with time := header.time } else peer)

/-- One turn of the loop over the chunks, for the slot at position `j`. -/
def inputChunk (peer : Peer) (j : Nat) (chunk : Chunk) : Except Fault (Status × Peer) :=
  match peer.mode with
  | .host => do
    let slot ← readAt peer.slots j
    let (s, slot, al) ← inputChunkHost slot chunk peer.alloc
    return (s, { peer with slots := peer.slots.set j slot, alloc := al })
  | .client => inputChunkClient peer j chunk

/-- The loop over the chunks of a packet: errors are united, and none ends the loop. -/
def inputChunks (j : Nat) : List Chunk → Peer → Except Fault (Status × Peer)
  | [], peer => .ok (kitOk, peer)
  | chunk :: chunks, peer => do
    let (s, peer) ← inputChunk peer j chunk
    let (status, peer) ← inputChunks j chunks peer
    return (s ||| status, peer)

/-- The packet is addressed to the slot and comes from its remote end. Only ids are
compared; that the remote id is resolved is not asked for. -/
def PeerSlot.matchesPacket (slot : PeerSlot) (packet : PeerPacket) : Bool :=
  slot.localEnd.id == packet.destinationId && slot.remoteEnd.id == packet.sourceId

/-- A slot that a new client can be given: nobody has it, and its own address is
known, which the answer to the client will name. -/
def PeerSlot.isFree (slot : PeerSlot) : Bool :=
  slot.remoteEnd.id == peerUndefined && decide (slot.localEnd.addressSize > 0)

/-- Assign the slot at position `j` to the sender of a packet. -/
def PeerSlot.assign (slot : PeerSlot) (j : Nat) (sourceId : Int) : PeerSlot :=
  { slot with
    state := .sessionRequest
    remoteEnd := { slot.remoteEnd with id := sourceId, isIdResolved := true }
    actor := j }

/-- The position of the lowest free slot above the listening slot. -/
def freeSlot (slots : List PeerSlot) : Option Nat :=
  (slots.tail.findIdx? PeerSlot.isFree).map (· + 1)

/-- The part of `peer_input` for a packet that matches no slot: assign a slot for
the client. The content of the packet is not looked at; the client will send it
again. -/
def assignSlot (peer : Peer) (packet : PeerPacket) : Status × Peer :=
  if peer.mode ≠ .host ∨ ¬ (peer.slots.head?).any (fun slot => slot.remoteEnd.id == peerUndefined) then
    (kitOk, peer)
  else
    match freeSlot peer.slots with
    | some j => (kitOk, { peer with slots := peer.slots.modify j (·.assign j packet.sourceId) })
    | none => (peerErrorNoFreeSlots, peer)

/-- One turn of the loop over the packets: dropped where no slot has its
destination, unpacked where a slot matches, and otherwise a new client. -/
def inputPacket (peer : Peer) (packet : PeerPacket) : Except Fault (Status × Peer) :=
  if peer.slots.any (fun slot => slot.localEnd.id == packet.destinationId) then
    match peer.slots.findIdx? (·.matchesPacket packet) with
    | some j => do
      let (s, chunks, al) ← peerUnpack [packet] [] peer.alloc
      let (status, peer) ← inputChunks j chunks { peer with alloc := al }
      return (s ||| status, peer)
    | none => .ok (assignSlot peer packet)
  else
    -- not intended for this peer
    .ok (kitOk, peer)

/-- `peer_input`: every packet in turn, with the peer that the ones before have
left. -/
def peerInput (peer : Peer) : List PeerPacket → Except Fault (Status × Peer)
  | [] => .ok (kitOk, peer)
  | packet :: packets => do
    let (s, peer) ← inputPacket peer packet
    let (status, peer) ← peerInput peer packets
    return (s ||| status, peer)

end PeerProtocol
