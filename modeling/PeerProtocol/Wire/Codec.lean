import PeerProtocol.Model.Peer

/-!
# peer — the message codec

What `peer_write_message` leaves in a buffer, in closed form, and what the
header readers return on it. The rest of the development never looks at single
bytes of a message again: a message that a peer emits is `encode` of its
fields, and `readHeader_encode` says what the receiver makes of it.

The two facts that need an argument are about bits. The size and the mode
share a byte, and each of their writers keeps the other's bits, so the order
of the writers matters for neither (`sizeAndMode_eq`). And the words that the
writers take apart with shifts and the readers put together with `|` are
little-endian numbers (`Lib.leBytes`, `Lib.leValue`), after which the round
trip is arithmetic modulo the width of the field.

## Results

* `peerWriteMessage_eq` — the header is `encodeHeader`, whatever the buffer
  held before, and nothing behind the message is touched.
* `readHeader_encode` — the readers return the fields that were written, each
  modulo its width: 64 bits for the index and the time, 32 for the actor id,
  of which the last is undefined, and ten for the size.
* `peerReadMessageSize_encode_of_le` — up to 993 bytes of data the size field
  is right. Beyond that it wraps around, which the callers do not exclude.
* `readHeader_of_length`, `length_of_readHeader` — the header readers stay
  inside a chunk that is at least a header long, and only inside such a one.
-/

namespace PeerProtocol

open Lib

-- ---------------------------------------------------------------------------
-- Words
-- The writers and readers of `serial.h` are those of the library.
-- ---------------------------------------------------------------------------

/-- The bytes that are stored for a word are its little-endian digits. -/
theorem peerWriteU16_eq (x : Nat) : peerWriteU16 x = leBytes 2 x := by
  simp only [peerWriteU16, leBytes, List.cons.injEq, and_true]
  exact UInt8.toNat_inj.mp (by simp [Nat.and_two_pow_sub_one_eq_mod x 8])

theorem peerWriteU32_eq (x : Nat) : peerWriteU32 x = leBytes 4 x := by
  simp only [peerWriteU32, leBytes, ← Nat.shiftRight_add, List.cons.injEq, and_true]
  exact UInt8.toNat_inj.mp (by simp [Nat.and_two_pow_sub_one_eq_mod x 8])

theorem peerWriteU64_eq (x : Nat) : peerWriteU64 x = leBytes 8 x := by
  simp only [peerWriteU64, leBytes, ← Nat.shiftRight_add, List.cons.injEq, and_true]
  exact UInt8.toNat_inj.mp (by simp [Nat.and_two_pow_sub_one_eq_mod x 8])

/-- What is read at the head of a list only depends on the first eight bytes. -/
theorem peerReadU64_append {bs : List UInt8} (h : bs.length = 8) (rest : List UInt8) :
    peerReadU64 (bs ++ rest) = .ok (leValue bs) := by
  obtain ⟨b0, b1, b2, b3, b4, b5, b6, b7, rfl⟩ :
      ∃ b0 b1 b2 b3 b4 b5 b6 b7, bs = [b0, b1, b2, b3, b4, b5, b6, b7] := by
    match bs, h with
    | [b0, b1, b2, b3, b4, b5, b6, b7], _ => exact ⟨b0, b1, b2, b3, b4, b5, b6, b7, rfl⟩
  simp only [leValue, Nat.shiftLeft_or_distrib, ← Nat.shiftLeft_add, Nat.zero_shiftLeft,
    Nat.or_zero, ← Nat.or_assoc]
  rfl

theorem peerReadU32_append {bs : List UInt8} (h : bs.length = 4) (rest : List UInt8) :
    peerReadU32 (bs ++ rest) = .ok (leValue bs) := by
  obtain ⟨b0, b1, b2, b3, rfl⟩ : ∃ b0 b1 b2 b3, bs = [b0, b1, b2, b3] := by
    match bs, h with
    | [b0, b1, b2, b3], _ => exact ⟨b0, b1, b2, b3, rfl⟩
  simp only [leValue, Nat.shiftLeft_or_distrib, ← Nat.shiftLeft_add, Nat.zero_shiftLeft,
    Nat.or_zero, ← Nat.or_assoc]
  rfl

/-- A signed 64-bit value survives being stored as an unsigned one. -/
theorem ofU64_toU64 {x : Int} (h : IsInt64 x) : ofU64 (toU64 x) = x := by
  unfold IsInt64 int64Max at h
  unfold ofU64 toU64
  rw [Int.toNat_of_nonneg (Int.emod_nonneg x (by decide))]
  show Int.bmod (x % ((0x10000000000000000 : Nat) : Int)) 0x10000000000000000 = x
  rw [Int.emod_bmod]
  exact Int.bmod_eq_of_le (by omega) (by omega)

/-- What is stored for a signed integer fits the field. -/
theorem toU64_lt (x : Int) : toU64 x < 0x10000000000000000 := by
  unfold toU64
  omega

/-- The same for an actor id. -/
theorem toU32_lt (x : Int) : toU32 x < 0x100000000 := by
  unfold toU32
  omega

/-- An actor id of 32 bits is stored as it is. -/
theorem toU32_natCast {n : Nat} (h : n < 0x100000000) : toU32 n = n := by
  unfold toU32
  omega

-- ---------------------------------------------------------------------------
-- The closed form of a written message
-- ---------------------------------------------------------------------------

/-- The byte that the size and the mode share: two bits of the size below six of the
mode. -/
def sizeAndMode (mode : UInt8) (size : Nat) : UInt8 :=
  UInt8.ofNat ((size >>> 8) &&& 0x3) ||| (mode <<< 2)

/-- The 30 bytes of a message header, in the order of the offsets: checksum, size
and mode, index, time, actor. -/
def encodeHeader (mode : UInt8) (size : Nat) (index time actor : Int) : List UInt8 :=
  leBytes 8 0 ++ ([UInt8.ofNat size, sizeAndMode mode size] ++ (leBytes 8 (toU64 index) ++
    (leBytes 8 (toU64 time) ++ leBytes 4 (toU32 actor))))

/-- A header has the size that the offset of the data says. -/
@[simp] theorem length_encodeHeader (mode : UInt8) (size : Nat) (index time actor : Int) :
    (encodeHeader mode size index time actor).length = 30 := by
  simp [encodeHeader]

/-- A complete message. The size is reduced as the code reduces it when it stores
the sum in sixteen bits. -/
def encode (mode : UInt8) (index time actor : Int) (data : List UInt8) : Chunk :=
  encodeHeader mode ((peerNMessageData + data.length) % 0x10000) index time actor ++ data

/-- A message is its header and its data. -/
@[simp] theorem length_encode (mode : UInt8) (index time actor : Int) (data : List UInt8) :
    (encode mode index time actor data).length = 30 + data.length := by
  simp [encode]

/-- Whatever the shared byte held, the size writer followed by the mode writer
leaves both fields in it, and nothing else. -/
theorem sizeAndMode_eq (b mode : UInt8) (size : Nat) :
    ((((b &&& (0xfc : UInt8)) ||| UInt8.ofNat ((size >>> 8) &&& 0x3)) &&& (0x3 : UInt8)) |||
      (mode <<< 2)) = sizeAndMode mode size := by
  have hHigh : (b &&& (0xfc : UInt8)) &&& (0x3 : UInt8) = 0 := by
    rw [UInt8.and_assoc, show (0xfc : UInt8) &&& 0x3 = 0 from by decide, UInt8.and_zero]
  have hLow : UInt8.ofNat ((size >>> 8) &&& 0x3) &&& (0x3 : UInt8) =
      UInt8.ofNat ((size >>> 8) &&& 0x3) := by
    rw [← UInt8.toNat_inj]
    have hMask (x : Nat) : x &&& 3 = x % 4 := Nat.and_two_pow_sub_one_eq_mod x 2
    simp only [UInt8.toNat_and, UInt8.toNat_ofNat', UInt8.reduceToNat, hMask]
    omega
  have hDistrib (x y z : UInt8) : (x ||| y) &&& z = (x &&& z) ||| (y &&& z) := by
    simp [← UInt8.toNat_inj, Nat.and_or_distrib_right]
  rw [sizeAndMode, hDistrib, hHigh, hLow, UInt8.zero_or]

/-- **What `peer_write_message` writes**: the encoded message over the start of the
destination, and nothing behind it. The fields are written one after another at
fixed offsets, and the byte that the mode shares with the size is written by both,
in either order. -/
theorem peerWriteMessage_eq {destination : List UInt8} {mode : UInt8} {index time actor : Int}
    {data : List UInt8} (h : 30 + data.length ≤ destination.length) :
    peerWriteMessage destination mode index time actor data =
      .ok (encode mode index time actor data ++ destination.drop (30 + data.length)) := by
  -- the destination, cut where the writers cut it
  obtain ⟨c, b8, b9, i, t, a, rest, hc, hi, ht, ha, rfl⟩ :
      ∃ c b8 b9 i t a rest, c.length = 8 ∧ i.length = 8 ∧ t.length = 8 ∧ a.length = 4 ∧
        destination = c ++ (b8 :: b9 :: (i ++ (t ++ (a ++ rest)))) := by
    have h8 : 8 < destination.length := by omega
    have h9 : 9 < destination.length := by omega
    refine ⟨destination.take 8, destination[8], destination[9], (destination.drop 10).take 8,
      (destination.drop 18).take 8, (destination.drop 26).take 4, destination.drop 30, ?_⟩
    simp only [List.length_take, List.length_drop]
    refine ⟨by omega, by omega, by omega, by omega, ?_⟩
    rw [show destination.drop 30 = (destination.drop 26).drop 4 by simp, List.take_append_drop,
      show destination.drop 26 = (destination.drop 18).drop 8 by simp, List.take_append_drop,
      show destination.drop 18 = (destination.drop 10).drop 8 by simp, List.take_append_drop,
      ← List.drop_eq_getElem_cons h9, ← List.drop_eq_getElem_cons h8, List.take_append_drop]
  -- `peer_undefined` is written as the word that it is cut to anyway
  have hActor : (if actor = peerUndefined then 0xffffffff else toU32 actor) = toU32 actor := by
    split
    · next hEq => rw [hEq]; rfl
    · rfl
  have hSize (x : Nat) : UInt8.ofNat (x &&& 0xff) = UInt8.ofNat x :=
    UInt8.toNat_inj.mp (by simp [Nat.and_two_pow_sub_one_eq_mod x 8])
  unfold peerWriteMessage
  rw [if_pos (by simpa using h)]
  simp only [peerNMessageChecksum, peerNMessageIndex, peerNMessageTime, peerNMessageActor,
    peerNMessageData, hActor, peerWriteU64_eq, peerWriteU32_eq, Except.ok.injEq]
  set size := (30 + data.length) % 0x10000 with hFull
  -- each writer replaces one block, from front to back
  rw [show overwrite (c ++ (b8 :: b9 :: (i ++ (t ++ (a ++ rest))))) 0 (leBytes 8 0) =
    leBytes 8 0 ++ (b8 :: b9 :: (i ++ (t ++ (a ++ rest)))) from
    overwrite_block (p := []) rfl (by simp [hc]) _]
  rw [show peerWriteMessageMode (peerWriteMessageSize
      (leBytes 8 0 ++ (b8 :: b9 :: (i ++ (t ++ (a ++ rest))))) size) mode =
      (leBytes 8 0 ++ [UInt8.ofNat size, sizeAndMode mode size]) ++ (i ++ (t ++ (a ++ rest))) by
    rw [← sizeAndMode_eq b9, ← hSize]; rfl]
  rw [overwrite_block (by simp) (by simp [hi]), ← List.append_assoc _ (leBytes 8 (toU64 index)),
    overwrite_block (by simp) (by simp [ht]), ← List.append_assoc _ (leBytes 8 (toU64 time)),
    overwrite_block (by simp) (by simp [ha]), ← List.append_assoc _ (leBytes 4 (toU32 actor)),
    overwrite_append (by simp)]
  have hRest : (c ++ (b8 :: b9 :: (i ++ (t ++ (a ++ rest))))).drop (30 + data.length) =
      rest.drop data.length := by
    have hBlock : c ++ (b8 :: b9 :: (i ++ (t ++ (a ++ rest)))) =
        (c ++ (b8 :: b9 :: (i ++ (t ++ a)))) ++ rest := by simp
    have hLen : (c ++ (b8 :: b9 :: (i ++ (t ++ a)))).length = 30 := by simp [hc, hi, ht, ha]
    rw [hBlock, ← List.drop_drop, ← hLen, List.drop_left]
  rw [hRest]
  simp [encode, encodeHeader, hFull]

-- ---------------------------------------------------------------------------
-- The readers on an encoded message
-- Each reader on a header, then all of them on a message.
-- ---------------------------------------------------------------------------

/-- The shared byte as a number: the two fields do not overlap, so `|` is a sum. -/
theorem sizeAndMode_toNat (mode : UInt8) (size : Nat) :
    (sizeAndMode mode size).toNat = size / 256 % 4 + 4 * (mode.toNat % 64) := by
  have hMask : (size >>> 8) &&& 3 = size / 256 % 4 := by
    rw [Nat.and_two_pow_sub_one_eq_mod _ 2, Nat.shiftRight_eq_div_pow]
  have hShift : (mode <<< 2).toNat = (mode.toNat % 64) <<< 2 := by
    rw [UInt8.toNat_shiftLeft, Nat.shiftLeft_eq, Nat.shiftLeft_eq]
    simp
    omega
  have hLow : (UInt8.ofNat ((size >>> 8) &&& 0x3)).toNat = size / 256 % 4 := by
    rw [hMask, UInt8.toNat_ofNat']
    omega
  rw [sizeAndMode, UInt8.toNat_or, hLow, hShift, Nat.or_comm,
    ← Nat.shiftLeft_add_eq_or_of_lt (i := 2) (by omega), Nat.shiftLeft_eq]
  omega

/-- The bytes 8 and 9 of a message, which is all the size reader looks at. -/
theorem peerReadMessageSize_eq {message : List UInt8} {lo hi : UInt8}
    (hLo : message[8]? = some lo) (hHi : message[9]? = some hi) :
    peerReadMessageSize message = .ok (lo.toNat + 256 * (hi.toNat % 4)) := by
  have hMask : (hi &&& 0x3).toNat = hi.toNat % 4 := by
    rw [UInt8.toNat_and]
    exact Nat.and_two_pow_sub_one_eq_mod _ 2
  simp only [peerReadMessageSize, peerNMessageSize, peerNMessageSizeAndMode, readAt, hLo, hHi,
    ok_bind, pure_eq_ok, hMask, byte_or_shiftLeft lo.toNat_lt]

/-- The size field can be read from ten bytes on, and is below 1024 whatever they
are. -/
theorem peerReadMessageSize_isOk {message : List UInt8} (h : 10 ≤ message.length) :
    ∃ n, peerReadMessageSize message = .ok n ∧ n < 1024 := by
  have h8 : 8 < message.length := by omega
  have h9 : 9 < message.length := by omega
  refine ⟨_, peerReadMessageSize_eq (List.getElem?_eq_getElem h8) (List.getElem?_eq_getElem h9), ?_⟩
  have := message[8].toNat_lt
  omega

/-- The size reader does not look past a header. -/
theorem peerReadMessageSize_append {message : List UInt8} (h : 10 ≤ message.length)
    (rest : List UInt8) :
    peerReadMessageSize (message ++ rest) = peerReadMessageSize message := by
  unfold peerReadMessageSize readAt
  simp only [peerNMessageSize, peerNMessageSizeAndMode]
  rw [List.getElem?_append_left (by omega), List.getElem?_append_left (by omega)]

section Header

variable {mode : UInt8} {size : Nat} {index time actor : Int}

/-- The index is read back from a header, for every 64-bit value. The three integer
fields are each at the head of what is left of the message. -/
theorem peerReadMessageIndex_header (hIndex : IsInt64 index) (rest : List UInt8) :
    peerReadMessageIndex (encodeHeader mode size index time actor ++ rest) = .ok index := by
  have hDrop : (encodeHeader mode size index time actor ++ rest).drop peerNMessageIndex =
      leBytes 8 (toU64 index) ++ (leBytes 8 (toU64 time) ++ (leBytes 4 (toU32 actor) ++ rest)) := rfl
  rw [peerReadMessageIndex, hDrop, peerReadU64_append (length_leBytes 8 _), leValue_leBytes,
    Nat.mod_eq_of_lt (show _ < 256 ^ 8 from toU64_lt index), ok_bind, ofU64_toU64 hIndex, pure_eq_ok]

/-- The time is read back from a header, for every 64-bit value. -/
theorem peerReadMessageTime_header (hTime : IsInt64 time) (rest : List UInt8) :
    peerReadMessageTime (encodeHeader mode size index time actor ++ rest) = .ok time := by
  have hDrop : (encodeHeader mode size index time actor ++ rest).drop peerNMessageTime =
      leBytes 8 (toU64 time) ++ (leBytes 4 (toU32 actor) ++ rest) := rfl
  rw [peerReadMessageTime, hDrop, peerReadU64_append (length_leBytes 8 _), leValue_leBytes,
    Nat.mod_eq_of_lt (show _ < 256 ^ 8 from toU64_lt time), ok_bind, ofU64_toU64 hTime, pure_eq_ok]

/-- The actor id is read back modulo its width, with the last value for the
undefined one. -/
theorem peerReadMessageActor_header (rest : List UInt8) :
    peerReadMessageActor (encodeHeader mode size index time actor ++ rest) =
      .ok (if toU32 actor = 0xffffffff then peerUndefined else toU32 actor) := by
  have hDrop : (encodeHeader mode size index time actor ++ rest).drop peerNMessageActor =
      leBytes 4 (toU32 actor) ++ rest := rfl
  rw [peerReadMessageActor, hDrop, peerReadU32_append (length_leBytes 4 _), leValue_leBytes,
    Nat.mod_eq_of_lt (show _ < 256 ^ 4 from toU32_lt actor), ok_bind, pure_eq_ok]

/-- The actor id survives, unless it has the 32 bits of the undefined one without
being it. -/
theorem peerReadMessageActor_header_of_fits
    (hActor : actor = peerUndefined ∨ (0 ≤ actor ∧ actor ≤ 0xfffffffe)) (rest : List UInt8) :
    peerReadMessageActor (encodeHeader mode size index time actor ++ rest) = .ok actor := by
  rw [peerReadMessageActor_header, Except.ok.injEq]
  rcases hActor with rfl | ⟨hLo, hHi⟩
  · rfl
  · have hBits : (toU32 actor : Int) = actor := by
      rw [toU32]
      omega
    rw [if_neg (by omega), hBits]

end Header

section Encoded

variable {mode : UInt8} {index time actor : Int} {data : List UInt8}

/-- The size field of a message, for data of any length: it has ten bits. -/
theorem peerReadMessageSize_encode :
    peerReadMessageSize (encode mode index time actor data) = .ok ((30 + data.length) % 1024) := by
  have hByte (x : Nat) : (UInt8.ofNat x).toNat = x % 256 := UInt8.toNat_ofNat'
  have hRead : peerReadMessageSize (encode mode index time actor data) =
      .ok ((UInt8.ofNat ((30 + data.length) % 0x10000)).toNat +
        256 * ((sizeAndMode mode ((30 + data.length) % 0x10000)).toNat % 4)) :=
    peerReadMessageSize_eq rfl rfl
  rw [hRead, sizeAndMode_toNat, hByte]
  congr 1
  omega

/-- A message of at most `PEER_MAX_MESSAGE_SIZE` bytes, and a few more, has the
size field that it should, whatever its mode. -/
theorem peerReadMessageSize_encode_of_le (h : data.length ≤ 993) :
    peerReadMessageSize (encode mode index time actor data) =
      .ok (encode mode index time actor data).length := by
  rw [peerReadMessageSize_encode, length_encode, Nat.mod_eq_of_lt (by omega)]

/-- The mode survives whatever the size is, if it fits its six bits. -/
theorem peerReadMessageMode_encode (hMode : mode.toNat < 64) :
    peerReadMessageMode (encode mode index time actor data) = .ok mode := by
  show Except.ok (sizeAndMode mode ((30 + data.length) % 0x10000) >>> 2) = Except.ok mode
  rw [Except.ok.injEq, ← UInt8.toNat_inj, UInt8.toNat_shiftRight, sizeAndMode_toNat,
    Nat.shiftRight_eq_div_pow]
  show _ / 2 ^ 2 = _
  omega

/-- **Codec round trip**: the header readers return what was written. This is how
every result about a receiver gets from the bytes to the fields. -/
theorem readHeader_encode (hMode : mode.toNat < 64) (hIndex : IsInt64 index) (hTime : IsInt64 time)
    (hData : data.length ≤ 993) :
    readHeader (encode mode index time actor data) =
      .ok { dataSize := data.length, mode := mode, index := index, time := time,
            actor := toU32 actor } := by
  have hSize : peerReadMessageSize (encode mode index time actor data) = .ok _ :=
    peerReadMessageSize_encode_of_le hData
  have hM : peerReadMessageMode (encode mode index time actor data) = .ok mode :=
    peerReadMessageMode_encode hMode
  have hI : peerReadMessageIndex (encode mode index time actor data) = .ok index :=
    peerReadMessageIndex_header hIndex data
  have hT : peerReadMessageTime (encode mode index time actor data) = .ok time :=
    peerReadMessageTime_header hTime data
  -- `peer_undefined` is read back as itself, and is the same word
  have hA : ∃ a, peerReadMessageActor (encode mode index time actor data) = .ok a ∧
      toU32 a = toU32 actor := by
    refine ⟨_, peerReadMessageActor_header data, ?_⟩
    split
    · next hUndefined => rw [hUndefined]; rfl
    · exact toU32_natCast (toU32_lt actor)
  obtain ⟨a, hA, hActor⟩ := hA
  rw [readHeader, peerReadMessageDataSize, hSize]
  simp only [ok_bind, pure_eq_ok, hM, hI, hT, hA, hActor, length_encode, Except.ok.injEq,
    MessageHeader.mk.injEq, and_true]
  simp

/-- The service id of a service message is the first byte of its data. -/
theorem readServiceId_encode (header : MessageHeader) (id : UInt8) :
    readServiceId (encode mode index time actor (id :: data)) header =
      .ok (if header.mode = peerMessageModeService ∧ header.dataSize ≥ 1 then some id else none) := by
  unfold readServiceId
  split
  · rfl
  · rfl

/-- The data is what follows the header, as long as the header says. -/
theorem chunkData_encode :
    chunkData (encode mode index time actor data) peerNMessageData data.length = .ok data := by
  unfold chunkData
  rw [if_pos (by simp)]
  simp [encode]

end Encoded

-- ---------------------------------------------------------------------------
-- The readers on any chunk
-- What a receiver can count on when the bytes come from anyone.
-- ---------------------------------------------------------------------------

theorem peerReadU64_isOk {l : List UInt8} (h : 8 ≤ l.length) : ∃ x, peerReadU64 l = .ok x := by
  rw [← List.take_append_drop 8 l]
  exact ⟨_, peerReadU64_append (by simpa using h) _⟩

theorem peerReadU32_isOk {l : List UInt8} (h : 4 ≤ l.length) : ∃ x, peerReadU32 l = .ok x := by
  rw [← List.take_append_drop 4 l]
  exact ⟨_, peerReadU32_append (by simpa using h) _⟩

/-- A field that is read as a signed number is in the signed range. -/
theorem isInt64_ofU64 (x : Nat) : IsInt64 (ofU64 x) := by
  unfold IsInt64 int64Max ofU64
  have hLo := Int.le_bmod (x := x) (m := 0x10000000000000000) (by decide)
  have hHi := Int.bmod_lt (x := x) (m := 0x10000000000000000) (by decide)
  omega

/-- On a chunk of at least a header's length, the readers return a header whose
data size comes from the size field and whose other fields are in range. -/
theorem readHeader_of_length {chunk : Chunk} (h : 30 ≤ chunk.length) :
    ∃ header n, readHeader chunk = .ok header ∧ peerReadMessageSize chunk = .ok n ∧
      header.dataSize = (n : Int) - 30 ∧ header.actor < 0x100000000 ∧ IsInt64 header.index := by
  obtain ⟨n, hn, _⟩ := peerReadMessageSize_isOk (show 10 ≤ chunk.length by omega)
  have h9 : 9 < chunk.length := by omega
  obtain ⟨i, hi⟩ := peerReadU64_isOk (l := chunk.drop 10) (by rw [List.length_drop]; omega)
  obtain ⟨t, ht⟩ := peerReadU64_isOk (l := chunk.drop 18) (by rw [List.length_drop]; omega)
  obtain ⟨a, ha⟩ := peerReadU32_isOk (l := chunk.drop 26) (by rw [List.length_drop]; omega)
  have hMode : readAt chunk 9 = .ok chunk[9] := readAt_eq_ok.mpr (List.getElem?_eq_getElem h9)
  have hRead : readHeader chunk = .ok (MessageHeader.mk ((n : Int) - 30) (chunk[9] >>> 2) (ofU64 i)
      (ofU64 t) (toU32 (if a = 0xffffffff then peerUndefined else a))) := by
    rw [readHeader, peerReadMessageDataSize, peerReadMessageMode, peerReadMessageIndex,
      peerReadMessageTime, peerReadMessageActor]
    simp only [peerNMessageSizeAndMode, peerNMessageIndex, peerNMessageTime, peerNMessageActor,
      peerNMessageData, hn, hMode, hi, ht, ha, ok_bind, pure_eq_ok]
    rfl
  have hActor := toU32_lt (if a = 0xffffffff then peerUndefined else a)
  refine ⟨_, n, hRead, hn, rfl, hActor, ?_⟩
  dsimp only
  exact isInt64_ofU64 i

/-- So the index of any message is, which bounds what `index + 1` can be. -/
theorem isInt64_of_peerReadMessageIndex {chunk : Chunk} {index : Int}
    (h : peerReadMessageIndex chunk = .ok index) : IsInt64 index := by
  obtain ⟨x, _, hIndex⟩ := bind_eq_ok.mp h
  rw [← Except.ok.inj hIndex]
  exact isInt64_ofU64 x

/-- The index that the header has is the one that its reader returns. -/
theorem index_of_readHeader {chunk : Chunk} {header : MessageHeader}
    (h : readHeader chunk = .ok header) : peerReadMessageIndex chunk = .ok header.index := by
  obtain ⟨_, _, h⟩ := bind_eq_ok.mp h
  obtain ⟨_, _, h⟩ := bind_eq_ok.mp h
  obtain ⟨index, hIndex, h⟩ := bind_eq_ok.mp h
  obtain ⟨_, _, h⟩ := bind_eq_ok.mp h
  obtain ⟨_, _, h⟩ := bind_eq_ok.mp h
  rw [← Except.ok.inj h]
  exact hIndex

/-- The header readers stay inside a chunk only if it has room for a header. -/
theorem length_of_readHeader {chunk : Chunk} {header : MessageHeader}
    (h : readHeader chunk = .ok header) : 30 ≤ chunk.length := by
  simp only [readHeader, peerReadMessageActor, peerReadU32, bind_eq_ok, readAt_eq_ok] at h
  obtain ⟨_, _, _, _, _, _, _, _, _, ⟨_, ⟨_, _, _, _, _, _, _, h3, _⟩, _⟩, _⟩ := h
  have := (List.getElem?_eq_some_iff.mp h3).1
  simp at this
  omega

end PeerProtocol
