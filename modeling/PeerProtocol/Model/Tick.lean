import PeerProtocol.Model.Peer

/-!
# peer — the tick

The emitting half of `peer.c`: the resend trail, `queue_pack`, the heartbeat,
and `peer_tick` for the host (merge the slot queues into the mutual queue,
then send to every slot) and for the client (send what its first slot has
queued).

## Modelling choices

* What a loop of the tick carries from slot to slot — the status so far, the
  packets, the generator and the allocator — is a `TickOutput`. It is passed
  in and returned, so that a slot's turn can be stated on its own.
* The chunk lists of the source live in an array that grows; here they are
  lists that are appended to. Where the source destroys what it has allocated
  and cuts the array back, the model returns the list it was given.
* A chunk that cannot be allocated is `none`, and the loop that makes it stops
  with `none`; the caller turns that into `PEER_ERROR_BAD_ALLOC`.
* Nothing is copied where the source copies under a bound that holds by
  construction; where it does not, `peerWriteMessage` faults.
* The scatter part takes one word of the generator for each chunk, reduced
  modulo the distance, as the source does; the same message can be picked
  twice.
* A trail that is asked for past the end of its queue is the fault `trail`,
  where `chunks_append_trail` is called. The asserts are compiled out, so the
  C code goes on to its loop and reads past the queue; but before the loop it
  makes room for its chunks, and where that request is refused it returns
  `PEER_ERROR_BAD_ALLOC` without having read anything. The model faults there
  as well: it says that the call was made, and not whether memory lasted.

The two halves of the tick of a host are `hostMerge` and `hostSend`. All
clocks of the slots have been moved before the first of them
(`Peer.tickClock`).
-/

namespace PeerProtocol

open Lib

/-- `peer_tick_result_t`, with the generator and the allocator that go with it: the
part of the state that the turns of the slots share. -/
structure TickOutput where
  status : Status
  packets : List PeerPacket
  mt64 : Mt64
  alloc : Allocator

-- ---------------------------------------------------------------------------
-- Chunks of queued messages
-- The loop body that `queue_pack` and both parts of the trail have in common.
-- ---------------------------------------------------------------------------

/-- The chunk of message `k` of a queue: `DA_INIT`, which may fail, then
`peer_write_message`. What `DA_INIT` leaves in the chunk is overwritten. The size
field has ten bits, the chunk as many bytes as the message needs. -/
def messageChunk (q : PeerQueue) (k : Nat) (al : Allocator) :
    Except Fault (Option Chunk × Allocator) := do
  let message ← readAt q k
  let chunkSize := peerNMessageData + message.data.length
  match al.daInit chunkSize with
  | (false, al) => return (none, al)
  | (true, al) =>
    let chunk ← peerWriteMessage (List.replicate chunkSize 0) peerMessageModeApplication
      k message.time message.actor message.data
    return (some chunk, al)

/-- The chunks of `count` messages from `start` on, or `none` at the first failure:
what was made so far is destroyed then. -/
def serialChunks (q : PeerQueue) : Nat → Nat → Allocator →
    Except Fault (Option (List Chunk) × Allocator)
  | _, 0, al => .ok (some [], al)
  | start, count + 1, al => do
    match ← messageChunk q start al with
    | (none, al) => return (none, al)
    | (some chunk, al) =>
      match ← serialChunks q (start + 1) count al with
      | (none, al) => return (none, al)
      | (some chunks, al) => return (some (chunk :: chunks), al)

/-- The chunks of `count` messages picked at random from `distance` messages
from `start` on, or `none` at the first failure. -/
def scatterChunks (q : PeerQueue) (start distance : Nat) : Nat → Mt64 → Allocator →
    Except Fault (Option (List Chunk) × Mt64 × Allocator)
  | 0, rng, al => .ok (some [], rng, al)
  | count + 1, rng, al => do
    let (word, rng) := rng.generate
    match ← messageChunk q (start + word.toNat % distance) al with
    | (none, al) => return (none, rng, al)
    | (some chunk, al) =>
      match ← scatterChunks q start distance count rng al with
      | (none, rng, al) => return (none, rng, al)
      | (some chunks, rng, al) => return (some (chunk :: chunks), rng, al)

-- ---------------------------------------------------------------------------
-- chunks_append_trail
-- The sizes of the two parts are functions of the index alone.
-- ---------------------------------------------------------------------------

/-- `trail_size`: the last five messages, but all of them while there are fewer than
would leave room for a whole scatter part. -/
def trailSize (index : Nat) : Nat :=
  if peerTrailSerialSize > index ∨ index - peerTrailSerialSize < peerTrailScatterDistance then index
  else peerTrailSerialSize

/-- `scatter_trail_distance`: how many of the messages before the serial part can be
picked. -/
def scatterTrailDistance (index : Nat) : Nat :=
  min peerTrailScatterDistance (index - trailSize index)

/-- `scatter_trail_size`: how many are picked. -/
def scatterTrailSize (index : Nat) : Nat :=
  min peerTrailScatterSize (scatterTrailDistance index)

/-- The serial part of the trail: room in the chunk list, then a chunk for each
message. -/
def appendSerialTrail (q : PeerQueue) (index : Nat) (chunks : List Chunk) (al : Allocator) :
    Except Fault (Status × List Chunk × Allocator) :=
  if trailSize index = 0 then
    .ok (kitOk, chunks, al)
  else
    match al.request with
    | (false, al) => .ok (peerErrorBadAlloc, chunks, al)
    | (true, al) => do
      match ← serialChunks q (index - trailSize index) (trailSize index) al with
      | (none, al) => return (peerErrorBadAlloc, chunks, al)
      | (some trail, al) => return (kitOk, chunks ++ trail, al)

/-- The scatter part of the trail. Its window ends at the index, as `trail_begin` of
the source does, and not where the serial part begins. -/
def appendScatterTrail (rng : Mt64) (q : PeerQueue) (index : Nat) (chunks : List Chunk)
    (al : Allocator) : Except Fault (Status × List Chunk × Mt64 × Allocator) :=
  if scatterTrailSize index = 0 then
    .ok (kitOk, chunks, rng, al)
  else
    match al.request with
    | (false, al) => .ok (peerErrorBadAlloc, chunks, rng, al)
    | (true, al) => do
      match ← scatterChunks q (index - scatterTrailDistance index) (scatterTrailDistance index)
          (scatterTrailSize index) rng al with
      | (none, rng, al) => return (peerErrorBadAlloc, chunks, rng, al)
      | (some trail, rng, al) => return (kitOk, chunks ++ trail, rng, al)

/-- `chunks_append_trail`. Where its assertion on the index is false the model
stops: the loop over the serial trail would read past the queue. The model stops at
the call, also in the case that the `DA_RESIZE` before that loop is refused and the
code returns `PEER_ERROR_BAD_ALLOC` instead. When the serial part fails the scatter
part is not tried. -/
def chunksAppendTrail (rng : Mt64) (q : PeerQueue) (index : Nat) (outChunks : List Chunk)
    (al : Allocator) : Except Fault (Status × List Chunk × Mt64 × Allocator) :=
  if index > q.length then
    .error (.trail index q.length)
  else do
    let (s, chunks, al) ← appendSerialTrail q index outChunks al
    if s ≠ kitOk then
      return (s, chunks, rng, al)
    appendScatterTrail rng q index chunks al

-- ---------------------------------------------------------------------------
-- queue_pack
-- ---------------------------------------------------------------------------

/-- `chunks_wrap`: the references `peer_pack` is given, which are none when their
array cannot be allocated. No chunk is copied. -/
def chunksWrap (chunks : List Chunk) (al : Allocator) : Status × List Chunk × Allocator :=
  match al.daInit chunks.length with
  | (false, al) => (peerErrorBadAlloc, [], al)
  | (true, al) => (kitOk, chunks, al)

/-- `queue_pack`: the messages of the queue from `index` on and the trail before it,
in packets. A trail that fails leaves its error in the status, and the messages are
sent without it. -/
def queuePack (q : PeerQueue) (index : Nat) (sourceId destinationId : Int) (out : TickOutput) :
    Except Fault (Status × TickOutput) :=
  if index > q.length then
    .ok (peerErrorInvalidOutIndex, out)
  else if index = q.length then
    .ok (kitOk, out)
  else
    match out.alloc.request with
    | (false, al) => .ok (peerErrorBadAlloc, { out with alloc := al })
    | (true, al) => do
      match ← serialChunks q index (q.length - index) al with
      | (none, al) => return (peerErrorBadAlloc, { out with alloc := al })
      | (some messages, al) =>
        let (result, chunks, rng, al) ← chunksAppendTrail out.mt64 q index messages al
        match chunksWrap chunks al with
        | (s, refs, al) =>
          if s ≠ kitOk then
            return (result ||| s, { out with mt64 := rng, alloc := al })
          let (s, packets, al) ← peerPack sourceId destinationId refs out.packets al
          return (result ||| s, { out with packets := packets, mt64 := rng, alloc := al })

-- ---------------------------------------------------------------------------
-- Heartbeat
-- Written out twice in the source, once for each mode; the modes differ in
-- the queue of the trail, in the time, and in nothing else.
-- ---------------------------------------------------------------------------

/-- The heartbeat chunk list: the heartbeat message, or nothing when its chunk
cannot be allocated. `none` when the list itself cannot be. -/
def heartbeatChunks (time actor : Int) (al : Allocator) :
    Except Fault (Status × Option (List Chunk) × Allocator) :=
  match al.request with
  | (false, al) => .ok (peerErrorBadAlloc, none, al)
  | (true, al) =>
    match al.request with
    | (false, al) => .ok (peerErrorBadAlloc, some [], al)
    | (true, al) => do
      let chunk ← peerWriteMessage (List.replicate (peerNMessageData + 1) 0)
        peerMessageModeService peerUndefined time actor [peerMHeartbeat]
      return (kitOk, some [chunk], al)

/-- Send a heartbeat and the trail of queue `q` behind `index`. The flag tells
whether the slot's clock was started again, which it is unless the chunk list could
not be allocated. Without its own chunk the heartbeat still carries the trail. -/
def sendHeartbeat (q : PeerQueue) (index : Nat) (time actor sourceId destinationId : Int)
    (out : TickOutput) : Except Fault (Bool × TickOutput) := do
  let (s0, chunks, al) ← heartbeatChunks time actor out.alloc
  match chunks with
  | none => return (false, { out with status := out.status ||| s0, alloc := al })
  | some chunks =>
    let (s1, chunks, rng, al) ← chunksAppendTrail out.mt64 q index chunks al
    match chunksWrap chunks al with
    | (s2, refs, al) =>
      let (s3, packets, al) ← peerPack sourceId destinationId refs out.packets al
      return (true, {
        status := out.status ||| s0 ||| s1 ||| s2 ||| s3
        packets := packets
        mt64 := rng
        alloc := al })

-- ---------------------------------------------------------------------------
-- peer_tick in host mode
-- ---------------------------------------------------------------------------

/-- The inner loop of the merge: append the messages of a slot that are ready, up to
the first that is not. The cursor moves past every message it appends, or fails to
append. -/
def mergeMessages (time actor : Int) : List PeerMessage → Nat → PeerQueue → Allocator →
    Status × Nat × PeerQueue × Allocator
  | [], inIndex, queue, al => (kitOk, inIndex, queue, al)
  | message :: messages, inIndex, queue, al =>
    if message.isReady then
      let (s, queue, al) := queueAppend queue time actor message.data al
      let (status, inIndex, queue, al) := mergeMessages time actor messages (inIndex + 1) queue al
      (s ||| status, inIndex, queue, al)
    else
      (kitOk, inIndex, queue, al)

/-- The loop over the slots from position 1 on. Every slot is merged under its own
actor id and all messages of a tick get the same time. -/
def mergeSlots (time : Int) : List PeerSlot → PeerQueue → Allocator →
    Status × List PeerSlot × PeerQueue × Allocator
  | [], queue, al => (kitOk, [], queue, al)
  | slot :: slots, queue, al =>
    let (s, inIndex, queue, al) :=
      mergeMessages time slot.actor (slot.queue.drop slot.inIndex) slot.inIndex queue al
    let (status, slots, queue, al) := mergeSlots time slots queue al
    (s ||| status, { slot with inIndex := inIndex } :: slots, queue, al)

/-- Send the session response message: the service id, and the address of the slot
that was assigned. It comes from the listening end, since the client knows no other
yet. -/
def sendSessionResponse (listenId time : Int) (slot : PeerSlot) (out : TickOutput) :
    Except Fault TickOutput := do
  let address ← chunkData slot.localEnd.addressData.elems 0 slot.localEnd.addressSize
  let message ← peerWriteMessage (List.replicate (peerNMessageData + 1 + peerAddressSize) 0)
    peerMessageModeService peerUndefined time slot.actor (peerMSessionResponse :: address)
  let (s, packets, al) ← peerPack listenId slot.remoteEnd.id
    [message.take (peerNMessageData + 1 + address.length)] out.packets out.alloc
  return { out with status := out.status ||| s, packets := packets, alloc := al }

/-- Send to one slot, by its state. A ready slot sends new messages, which starts
its clock again whether or not they could be packed; when there are none and the
clock has run down, a heartbeat. -/
def sendSlot (listenId time actor : Int) (queue : PeerQueue) (slot : PeerSlot) (out : TickOutput) :
    Except Fault (PeerSlot × TickOutput) :=
  match slot.state with
  | .empty => .ok (slot, out)
  | .sessionRequest => do
    let out ← sendSessionResponse listenId time slot out
    return ({ slot with clockHeartbeat := peerTimeoutHeartbeat, state := .ready }, out)
  | .ready =>
    if slot.outIndex < queue.length then do
      -- new messages
      let (s, out) ← queuePack queue slot.outIndex slot.localEnd.id slot.remoteEnd.id out
      return ({ slot with
          outIndex := if s = kitOk then queue.length else slot.outIndex
          clockHeartbeat := peerTimeoutHeartbeat },
        { out with status := out.status ||| s })
    else if slot.clockHeartbeat ≤ 0 then do
      let (started, out) ←
        sendHeartbeat queue slot.outIndex time actor slot.localEnd.id slot.remoteEnd.id out
      return (if started then { slot with clockHeartbeat := peerTimeoutHeartbeat } else slot, out)
    else
      .ok (slot, out)

/-- The loop over the slots from position 1 on. The listening slot sends nothing. -/
def sendSlots (listenId time actor : Int) (queue : PeerQueue) :
    List PeerSlot → TickOutput → Except Fault (List PeerSlot × TickOutput)
  | [], out => .ok ([], out)
  | slot :: slots, out => do
    let (slot, out) ← sendSlot listenId time actor queue slot out
    let (slots, out) ← sendSlots listenId time actor queue slots out
    return (slot :: slots, out)

/-- The clock of a slot after `time_elapsed`. It counts down to zero or below and
stays there. -/
def PeerSlot.tickClock (slot : PeerSlot) (timeElapsed : Int) : PeerSlot :=
  if slot.clockHeartbeat > 0 then
    { slot with clockHeartbeat := slot.clockHeartbeat - timeElapsed }
  else slot

/-- The peer after the update of its clocks. The sum cannot overflow here:
`peer_tick` has compared the local time with what is left. -/
def Peer.tickClock (peer : Peer) (timeElapsed : Int) : Peer :=
  { peer with
    timeLocal := peer.timeLocal + timeElapsed
    slots := peer.slots.map (·.tickClock timeElapsed) }

/-- Stamp the messages that the host has queued but not sent yet with the time of
the tick. -/
def stampQueue (queueIndex : Nat) (time : Int) (queue : PeerQueue) : PeerQueue :=
  queue.take queueIndex ++ (queue.drop queueIndex).map fun m => { m with time := time }

/-- The host's first phase: synchronize the time and the mutual queue. It cannot
fault. -/
def hostMerge (peer : Peer) : Status × Peer :=
  let time := peer.timeLocal
  let (s, slots, queue, al) :=
    mergeSlots time peer.slots.tail (stampQueue peer.queueIndex time peer.queue) peer.alloc
  (s, { peer with
    time := time
    slots := peer.slots.take 1 ++ slots
    queue := queue
    queueIndex := queue.length
    alloc := al })

/-- The host's second phase: send messages to clients. A host without slots has
nobody to send to, and no listening end to send from. -/
def hostSend (status : Status) (peer : Peer) : Except Fault (TickOutput × Peer) :=
  match peer.slots with
  | [] => .ok ({ status := status, packets := [], mt64 := peer.mt64, alloc := peer.alloc }, peer)
  | first :: slots => do
    let (slots, out) ← sendSlots first.localEnd.id peer.time peer.actor peer.queue slots
      { status := status, packets := [], mt64 := peer.mt64, alloc := peer.alloc }
    return (out, { peer with slots := first :: slots, mt64 := out.mt64, alloc := out.alloc })

-- ---------------------------------------------------------------------------
-- peer_tick in client mode
-- ---------------------------------------------------------------------------

/-- The client's part of the tick, which only looks at its first slot. The
heartbeat's trail is taken from the mutual queue, behind the cursor of the slot's
own queue; new messages do not start the heartbeat's clock again. -/
def clientSend (peer : Peer) : Except Fault (TickOutput × Peer) :=
  let out : TickOutput := { status := kitOk, packets := [], mt64 := peer.mt64, alloc := peer.alloc }
  match peer.slots with
  | [] => .ok (out, peer)
  | slot :: slots =>
    if slot.outIndex < slot.queue.length then do
      let (s, out) ← queuePack slot.queue slot.outIndex slot.localEnd.id slot.remoteEnd.id out
      let slot := { slot with outIndex := if s = kitOk then slot.queue.length else slot.outIndex }
      return ({ out with status := out.status ||| s },
        { peer with slots := slot :: slots, mt64 := out.mt64, alloc := out.alloc })
    else if slot.clockHeartbeat ≤ 0 then do
      let (started, out) ← sendHeartbeat peer.queue slot.outIndex 0 peer.actor
        slot.localEnd.id slot.remoteEnd.id out
      let slot := if started then { slot with clockHeartbeat := peerTimeoutHeartbeat } else slot
      return (out, { peer with slots := slot :: slots, mt64 := out.mt64, alloc := out.alloc })
    else
      .ok (out, peer)

-- ---------------------------------------------------------------------------
-- peer_tick
-- ---------------------------------------------------------------------------

/-- `peer_tick`: the status, the packets and the peer it leaves. A negative time, or
one that would overflow the local clock, is refused before anything is changed. -/
def peerTick (peer : Peer) (timeElapsed : Int) : Except Fault (Status × List PeerPacket × Peer) :=
  if timeElapsed < 0 then
    .ok (peerErrorInvalidTimeElapsed, [], peer)
  else if peer.timeLocal > int64Max - timeElapsed then
    .ok (peerErrorTimeOverflow, [], peer)
  else do
    let peer := peer.tickClock timeElapsed
    match peer.mode with
    | .host =>
      let (s, peer) := hostMerge peer
      let (out, peer) ← hostSend s peer
      return (out.status, out.packets, peer)
    | .client =>
      let (out, peer) ← clientSend peer
      return (out.status, out.packets, peer)

end PeerProtocol
