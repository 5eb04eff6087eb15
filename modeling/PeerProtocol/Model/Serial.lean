import PeerProtocol.Lib.Buffer
import PeerProtocol.Model.Options

/-!
# peer — message serialization

The readers and writers of `serial.h`, on byte lists. A message is a header of
30 bytes and its data; the size of the whole has ten bits, of which the two
high ones share a byte with the mode.

## Modelling choices

* The `uint8_t const *` that a reader gets is the list of the bytes from there
  to the end of the array it points into. Reading past that is the fault
  `access`, so that a caller which passes too short a buffer is seen.
* Unsigned C integers are `Nat`, reduced where the code converts them; signed
  ones are `Int`. The bitwise operators stay as they are in the source: that
  they are the arithmetic of `Lib.leBytes` and `Lib.leValue` is proved in
  `Wire.Codec`.
* The writers of single fields change a byte list in place; those of whole
  words give the bytes, and `overwrite` puts them where they belong.
* `peer_write_message` is one call of the writers after another, in the order
  of the source, since the two that share a byte read it back.
-/

namespace PeerProtocol

open Lib

-- ---------------------------------------------------------------------------
-- Words
-- Little-endian, byte by byte with shifts: no alignment or host order is
-- involved.
-- ---------------------------------------------------------------------------

/-- Two bytes, the first the low one. -/
def peerReadU16 (source : List UInt8) : Except Fault Nat := do
  let b0 ← readAt source 0
  let b1 ← readAt source 1
  return b0.toNat ||| b1.toNat <<< 8

/-- Four bytes. -/
def peerReadU32 (source : List UInt8) : Except Fault Nat := do
  let b0 ← readAt source 0
  let b1 ← readAt source 1
  let b2 ← readAt source 2
  let b3 ← readAt source 3
  return b0.toNat ||| b1.toNat <<< 8 ||| b2.toNat <<< 16 ||| b3.toNat <<< 24

/-- Eight bytes. -/
def peerReadU64 (source : List UInt8) : Except Fault Nat := do
  let b0 ← readAt source 0
  let b1 ← readAt source 1
  let b2 ← readAt source 2
  let b3 ← readAt source 3
  let b4 ← readAt source 4
  let b5 ← readAt source 5
  let b6 ← readAt source 6
  let b7 ← readAt source 7
  return b0.toNat ||| b1.toNat <<< 8 ||| b2.toNat <<< 16 ||| b3.toNat <<< 24 |||
    b4.toNat <<< 32 ||| b5.toNat <<< 40 ||| b6.toNat <<< 48 ||| b7.toNat <<< 56

/-- The bytes `peer_write_u16` stores. -/
def peerWriteU16 (x : Nat) : List UInt8 :=
  [UInt8.ofNat (x &&& 0xff), UInt8.ofNat (x >>> 8)]

/-- The bytes `peer_write_u32` stores. -/
def peerWriteU32 (x : Nat) : List UInt8 :=
  [UInt8.ofNat (x &&& 0xff), UInt8.ofNat (x >>> 8), UInt8.ofNat (x >>> 16), UInt8.ofNat (x >>> 24)]

/-- The bytes `peer_write_u64` stores. -/
def peerWriteU64 (x : Nat) : List UInt8 :=
  [UInt8.ofNat (x &&& 0xff), UInt8.ofNat (x >>> 8), UInt8.ofNat (x >>> 16), UInt8.ofNat (x >>> 24),
   UInt8.ofNat (x >>> 32), UInt8.ofNat (x >>> 40), UInt8.ofNat (x >>> 48), UInt8.ofNat (x >>> 56)]

/-- The conversion of a signed integer to `uint64_t`, as it happens to an index or a
time that is written: reduction modulo `2 ^ 64`. -/
def toU64 (x : Int) : Nat := (x % 0x10000000000000000).toNat

/-- The conversion of a `uint64_t` to a signed 64-bit integer, as it happens to an
index or a time that is read: the representative in the signed range. -/
def ofU64 (x : Nat) : Int := Int.bmod x 0x10000000000000000

/-- The conversion of a signed integer to `uint32_t`, as it happens to an actor id. -/
def toU32 (x : Int) : Nat := (x % 0x100000000).toNat

-- ---------------------------------------------------------------------------
-- Message header readers
-- One for each field. The checksum is not read.
-- ---------------------------------------------------------------------------

/-- The size of the whole message, header included: ten bits from two bytes. -/
def peerReadMessageSize (message : List UInt8) : Except Fault Nat := do
  let lo ← readAt message peerNMessageSize
  let hi ← readAt message peerNMessageSizeAndMode
  return lo.toNat ||| (hi &&& 0x3).toNat <<< 8

/-- The size without the header. It is negative for a size field below 30, which
nothing in this function excludes. -/
def peerReadMessageDataSize (message : List UInt8) : Except Fault Int := do
  let fullSize ← peerReadMessageSize message
  return (fullSize : Int) - peerNMessageData

/-- The mode, from the six high bits of the byte it shares with the size. -/
def peerReadMessageMode (message : List UInt8) : Except Fault UInt8 := do
  let b ← readAt message peerNMessageSizeAndMode
  return b >>> 2

/-- The index, which may be `PEER_UNDEFINED` or any other negative number. -/
def peerReadMessageIndex (message : List UInt8) : Except Fault Int := do
  let x ← peerReadU64 (message.drop peerNMessageIndex)
  return ofU64 x

/-- The time, of which any 64-bit value is read as it is. -/
def peerReadMessageTime (message : List UInt8) : Except Fault Int := do
  let x ← peerReadU64 (message.drop peerNMessageTime)
  return ofU64 x

/-- The actor id: all ones stand for `PEER_UNDEFINED`, and no other value is
negative. -/
def peerReadMessageActor (message : List UInt8) : Except Fault Int := do
  let actor ← peerReadU32 (message.drop peerNMessageActor)
  return if actor = 0xffffffff then peerUndefined else actor

-- ---------------------------------------------------------------------------
-- Message writers
-- ---------------------------------------------------------------------------

/-- The size, leaving the mode that is in the shared byte already. -/
def peerWriteMessageSize (message : List UInt8) (size : Nat) : List UInt8 :=
  (message.set peerNMessageSize (UInt8.ofNat (size &&& 0xff))).modify peerNMessageSizeAndMode
    fun b => (b &&& (0xfc : UInt8)) ||| UInt8.ofNat ((size >>> 8) &&& 0x3)

/-- The mode, leaving the size bits that are in the shared byte already. -/
def peerWriteMessageMode (message : List UInt8) (mode : UInt8) : List UInt8 :=
  message.modify peerNMessageSizeAndMode fun b => (b &&& (0x3 : UInt8)) ||| (mode <<< 2)

/-- `peer_write_message`: the destination after the call. The destination must have
room for the header and the data, which the source does not check; the model faults
where it has not. -/
def peerWriteMessage (destination : List UInt8) (mode : UInt8) (index time actor : Int)
    (data : List UInt8) : Except Fault (List UInt8) :=
  if peerNMessageData + data.length ≤ destination.length then
    let checksum := 0
    -- `uint16_t const full_size`
    let fullSize := (peerNMessageData + data.length) % 0x10000
    let d := overwrite destination peerNMessageChecksum (peerWriteU64 checksum)
    let d := peerWriteMessageSize d fullSize
    let d := peerWriteMessageMode d mode
    let d := overwrite d peerNMessageIndex (peerWriteU64 (toU64 index))
    let d := overwrite d peerNMessageTime (peerWriteU64 (toU64 time))
    let d := overwrite d peerNMessageActor
      (peerWriteU32 (if actor = peerUndefined then 0xffffffff else toU32 actor))
    .ok (overwrite d peerNMessageData data)
  else
    .error .access

end PeerProtocol
