import PeerProtocol.Model.Serial

/-!
# peer — packing chunks into packets

`packet.c`: `peer_pack` and `peer_unpack`. A chunk is the bytes of one message
as `peer_write_message` leaves them; a packet carries a 400-byte data array,
here with the proof of its size, and the ids of the endpoints it goes between.

## Modelling choices

* The asserts are compiled out, as in a release build. What they check is
  stated about the model where it matters (`Wire.Asserts`).
* `peer_pack` appends to a list of packets, and writes into its last one. The
  model does the same: each turn takes the list and returns it, and the offset
  in the packet being filled is an argument.
* A `memcpy` past the data array is the fault `access`; `copyChunk` is the
  only place where that can happen.
* A packet is zeroed when it is added. A call without chunks adds one as well,
  but zeroes the first packet of the array in its place; `peerPack` models
  that as it stands.
* A chunk whose array cannot be allocated stays in the list of `peer_unpack`
  with size 0, as the source leaves it.
* The loop of `peer_unpack` has fuel: it moves forward by a size that is not
  zero, so the packet's size is enough, and `Wire.Unpacking` shows that it
  never runs out.
-/

namespace PeerProtocol

open Lib

/-- `peer_chunk_t`, and the `peer_chunk_ref_t` that points into one: the model has
no use for the difference, since nothing is written through a reference. -/
abbrev Chunk := List UInt8

/-- `peer_packet_t`. The size is signed, as in the source, where it may also be set
by whoever receives the packet; the array has its 400 bytes whatever the size says. -/
structure PeerPacket where
  sourceId : Int
  destinationId : Int
  size : Int
  data : Buffer UInt8 peerPacketSize
deriving DecidableEq

/-- A packet after `memset` to zero and the assignment of its ids. -/
def PeerPacket.blank (sourceId destinationId : Int) : PeerPacket where
  sourceId := sourceId
  destinationId := destinationId
  size := 0
  data := Buffer.fill peerPacketSize 0

/-- Copy a chunk into the data array from an offset on; past its end, the fault of
doing so. -/
def PeerPacket.copyChunk (p : PeerPacket) (offset : Nat) (chunk : Chunk) : Except Fault PeerPacket :=
  if h : offset + chunk.length ≤ peerPacketSize then
    .ok { p with data := p.data.blit offset chunk h }
  else
    .error .access

/-- Write the packet header: the size, the mode byte and the size field. It is
written once the packet is full or the chunks are at their end. -/
def PeerPacket.writeHeader (p : PeerPacket) (offset : Nat) : PeerPacket :=
  { p with
    size := offset
    data := (p.data.blit peerNPacketMode [peerPacketModePlain] (by simp)).blit peerNPacketSize
      (peerWriteU16 (offset % 0x10000)) (by simp [peerWriteU16]) }

-- ---------------------------------------------------------------------------
-- peer_pack
-- The loop over the chunks, cut into what a turn does before and with its
-- chunk.
-- ---------------------------------------------------------------------------

/-- Before a chunk that does not fit: write the header of the packet being filled,
if this call added one, and add a new packet. A refused request leaves the header
written. -/
def startPacket (sourceId destinationId : Int) (previousSize : Nat) (out : List PeerPacket)
    (offset : Nat) (al : Allocator) : Status × List PeerPacket × Nat × Allocator :=
  let out :=
    if out.length > previousSize then out.modify (out.length - 1) (·.writeHeader offset) else out
  match al.request with
  | (true, al) => (kitOk, out ++ [PeerPacket.blank sourceId destinationId], peerNPacketMessages, al)
  | (false, al) => (peerErrorBadAlloc, out, offset, al)

/-- Check the size field of a chunk and add the chunk to the last packet. A chunk
whose size field is not its length ends the call. -/
def addChunk (chunk : Chunk) (out : List PeerPacket) (offset : Nat) :
    Except Fault (Status × List PeerPacket) := do
  let chunkSize ← peerReadMessageSize chunk
  if chunk.length ≠ chunkSize then
    return (peerErrorInvalidMessageSize, out)
  let last ← readAt out (out.length - 1)
  let last ← last.copyChunk offset chunk
  return (kitOk, out.set (out.length - 1) last)

/-- The loop over the chunks: the status it returns early with, or `KIT_OK` at its
end, and the packets and the offset it leaves. The offset starts behind a full
packet, so that the first chunk starts a packet of its own and earlier packets are
left alone. -/
def packLoop (sourceId destinationId : Int) (previousSize : Nat) :
    List Chunk → List PeerPacket → Nat → Allocator →
      Except Fault (Status × List PeerPacket × Nat × Allocator)
  | [], out, offset, al => .ok (kitOk, out, offset, al)
  | chunk :: chunks, out, offset, al => do
    let (status, out, offset, al) :=
      if offset + chunk.length > peerPacketSize then
        startPacket sourceId destinationId previousSize out offset al
      else (kitOk, out, offset, al)
    if status ≠ kitOk then
      return (status, out, offset, al)
    let (status, out) ← addChunk chunk out offset
    if status ≠ kitOk then
      return (status, out, offset, al)
    packLoop sourceId destinationId previousSize chunks out (offset + chunk.length) al

/-- `peer_pack`: the chunks are appended to the packets in order, each packet filled
as far as the next chunk fits. The status is that of the first thing that went
wrong. -/
def peerPack (sourceId destinationId : Int) (chunks : List Chunk) (outPackets : List PeerPacket)
    (al : Allocator) : Except Fault (Status × List PeerPacket × Allocator) := do
  let previousSize := outPackets.length
  let (status, out, offset, al) ←
    packLoop sourceId destinationId previousSize chunks outPackets peerPacketSize al
  if status ≠ kitOk then
    return (status, out, al)
  if out.length = previousSize then
    -- No packet was added. The new packet is the last one, whose memory
    -- `DA_RESIZE` leaves as it is (a blank packet here); `memset` and the ids go to the first.
    match al.request with
    | (false, al) => return (peerErrorBadAlloc, out, al)
    | (true, al) =>
      let out := (out ++ [PeerPacket.blank 0 0]).set 0 (PeerPacket.blank sourceId destinationId)
      return (kitOk, out.modify (out.length - 1) (·.writeHeader 0), al)
  else
    return (kitOk, out.modify (out.length - 1) (·.writeHeader offset), al)

-- ---------------------------------------------------------------------------
-- peer_unpack
-- ---------------------------------------------------------------------------

/-- The loop over one packet's messages from `offset` on: the status bits it
raises and the chunks. Every turn but the last moves the offset forward, so
`peerPacketSize` turns are enough. -/
def unpackMessages (data : Buffer UInt8 peerPacketSize) (size : Int) :
    Nat → Nat → List Chunk → Allocator → Except Fault (Status × List Chunk × Allocator)
  | 0, _, chunks, al => .ok (kitOk, chunks, al)
  | fuel + 1, offset, chunks, al =>
    if (offset : Int) + peerNMessageData ≤ size then do
      let messageSize ← peerReadMessageSize (data.elems.drop offset)
      if messageSize = 0 then
        return (kitOk, chunks, al)
      -- the size field is unsigned: the source's test `size < 0` never holds
      if offset + messageSize > peerPacketSize then
        return (peerErrorInvalidMessageSize, chunks, al)
      match al.request with
      | (false, al) => return (peerErrorBadAlloc, chunks, al)
      | (true, al) =>
        match al.daInit messageSize with
        -- the chunk that could not be allocated stays in the list, empty
        | (false, al) => return (peerErrorBadAlloc, chunks ++ [[]], al)
        | (true, al) =>
          unpackMessages data size fuel (offset + messageSize)
            (chunks ++ [(data.elems.drop offset).take messageSize]) al
    else .ok (kitOk, chunks, al)

/-- One turn of the loop over the packets: an empty packet is skipped, and one of a
size that no packet can have is refused as a whole. -/
def unpackPacket (packet : PeerPacket) (chunks : List Chunk) (al : Allocator) :
    Except Fault (Status × List Chunk × Allocator) :=
  if packet.size = 0 then
    .ok (kitOk, chunks, al)
  else if packet.size < peerNPacketMessages ∨ packet.size > peerPacketSize then
    .ok (peerErrorInvalidPacketSize, chunks, al)
  else
    unpackMessages packet.data packet.size peerPacketSize peerNPacketMessages chunks al

/-- `peer_unpack`: the chunks of the packets in order. A packet that fails does not
stop the loop; its error bits are united with those of the others. -/
def peerUnpack : List PeerPacket → List Chunk → Allocator →
    Except Fault (Status × List Chunk × Allocator)
  | [], chunks, al => .ok (kitOk, chunks, al)
  | packet :: packets, chunks, al => do
    let (s, chunks, al) ← unpackPacket packet chunks al
    let (status, chunks, al) ← peerUnpack packets chunks al
    return (s ||| status, chunks, al)

end PeerProtocol
