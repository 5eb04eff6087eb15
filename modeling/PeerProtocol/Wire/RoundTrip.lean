import PeerProtocol.Wire.Codec

/-!
# peer — the header codec, round trip

Every reader of `serial.h` on what `peer_write_message` leaves in a buffer
that held anything before. `Wire.Codec` has the closed form of what is
written, which is enough for the peers; this module is about the interface
itself, over the whole range of each field, and about the two writers that
share a byte.

The size has ten bits. Its low eight have a byte of their own, and its high
two are the low bits of the byte whose high six are the mode. Each of the two
writers reads that byte, keeps the other's bits and sets its own: as numbers,
a writer replaces the quotient by four, or the remainder (`sizeByte_toNat`,
`modeByte_toNat`). What is left of the argument is that the readers take just
these apart.

## Results

* `peerReadMessageSize_writeMode`, `peerReadMessageMode_writeSize` — the two
  writers leave each other's field, on any buffer, even on one that is too
  short.
* `SharedByte` — so both fields are there, whichever writer is called first
  (`sharedByte_size_mode`, `sharedByte_mode_size`).
* `message_roundTrip` — every field is read back over its whole range: any
  data that may be queued, any 64-bit index and time, any actor id of 32 bits
  or none, any mode of six bits; and nothing behind the message is touched.
-/

namespace PeerProtocol

open Lib

-- ---------------------------------------------------------------------------
-- The byte that the size and the mode share
-- Masks and shifts as quotients and remainders by four.
-- ---------------------------------------------------------------------------

/-- The six high bits of a byte, where they are. -/
theorem and_fc_toNat (b : UInt8) : (b &&& (0xfc : UInt8)).toNat = b.toNat / 4 * 4 := by
  have hAll : ∀ n : Fin 256, n.val &&& 0xfc = n.val / 4 * 4 := by decide +kernel
  rw [UInt8.toNat_and]
  exact hAll ⟨b.toNat, b.toNat_lt⟩

/-- The two low bits of a byte are its remainder by four. -/
theorem and_3_toNat (b : UInt8) : (b &&& (0x3 : UInt8)).toNat = b.toNat % 4 := by
  rw [UInt8.toNat_and]
  exact Nat.and_two_pow_sub_one_eq_mod _ 2

/-- High bits joined to low bits: `|` is a sum where no bit is in both. -/
theorem mul_four_or {x y : Nat} (hy : y < 4) : x * 4 ||| y = x * 4 + y := by
  have hShift := Nat.shiftLeft_add_eq_or_of_lt (b := y) (i := 2) hy x
  rw [Nat.shiftLeft_eq] at hShift
  exact hShift.symm

/-- The shared byte after the size writer: the quotient by four is the old one. -/
theorem sizeByte_toNat (b : UInt8) (size : Nat) :
    ((b &&& (0xfc : UInt8)) ||| UInt8.ofNat ((size >>> 8) &&& 0x3)).toNat =
      b.toNat / 4 * 4 + size / 256 % 4 := by
  have hLow : (UInt8.ofNat ((size >>> 8) &&& 0x3)).toNat = size / 256 % 4 := by
    rw [Nat.and_two_pow_sub_one_eq_mod _ 2, Nat.shiftRight_eq_div_pow, UInt8.toNat_ofNat']
    omega
  rw [UInt8.toNat_or, and_fc_toNat, hLow, mul_four_or (by omega)]

/-- The shared byte after the mode writer: the remainder by four is the old one. -/
theorem modeByte_toNat (b mode : UInt8) :
    ((b &&& (0x3 : UInt8)) ||| (mode <<< 2)).toNat = mode.toNat % 64 * 4 + b.toNat % 4 := by
  have hHigh : (mode <<< 2).toNat = mode.toNat % 64 * 4 := by
    rw [UInt8.toNat_shiftLeft, Nat.shiftLeft_eq]
    simp
    omega
  rw [UInt8.toNat_or, and_3_toNat, hHigh, Nat.or_comm, mul_four_or (by omega)]

-- ---------------------------------------------------------------------------
-- The two writers
-- ---------------------------------------------------------------------------

section Writers

variable (message : List UInt8)

/-- What the size writer does to the shared byte. -/
theorem getElem?_writeSize_9 (size : Nat) :
    (peerWriteMessageSize message size)[9]? =
      (message[9]?).map fun b => (b &&& (0xfc : UInt8)) ||| UInt8.ofNat ((size >>> 8) &&& 0x3) := by
  rw [peerWriteMessageSize, List.getElem?_modify_eq, List.getElem?_set_ne (by decide)]
  rfl

/-- What the mode writer does to the shared byte. -/
theorem getElem?_writeMode_9 (mode : UInt8) :
    (peerWriteMessageMode message mode)[9]? =
      (message[9]?).map fun b => (b &&& (0x3 : UInt8)) ||| (mode <<< 2) := by
  rw [peerWriteMessageMode, List.getElem?_modify_eq]
  rfl

/-- The mode writer does not touch the byte that the size has for itself. -/
theorem getElem?_writeMode_8 (mode : UInt8) :
    (peerWriteMessageMode message mode)[8]? = message[8]? := by
  rw [peerWriteMessageMode, List.getElem?_modify_ne _ _ (by decide)]

/-- The mode writer leaves the size, whatever the buffer holds. -/
theorem peerReadMessageSize_writeMode (mode : UInt8) :
    peerReadMessageSize (peerWriteMessageMode message mode) = peerReadMessageSize message := by
  unfold peerReadMessageSize readAt
  rw [getElem?_writeMode_8, getElem?_writeMode_9]
  cases message[9]? with
  | none => rfl
  | some b =>
    have hSame : ((b &&& (0x3 : UInt8)) ||| (mode <<< 2)) &&& 0x3 = b &&& 0x3 := by
      rw [← UInt8.toNat_inj, and_3_toNat, modeByte_toNat, and_3_toNat]
      omega
    simp only [Option.map_some, ok_bind, hSame]

/-- The size writer leaves the mode, whatever the buffer holds. -/
theorem peerReadMessageMode_writeSize (size : Nat) :
    peerReadMessageMode (peerWriteMessageSize message size) = peerReadMessageMode message := by
  unfold peerReadMessageMode readAt
  rw [getElem?_writeSize_9]
  cases message[9]? with
  | none => rfl
  | some b =>
    have hSame : ((b &&& (0xfc : UInt8)) ||| UInt8.ofNat ((size >>> 8) &&& 0x3)) >>> 2 = b >>> 2 := by
      have hShift (x : UInt8) : (x >>> 2).toNat = x.toNat / 4 := by
        rw [UInt8.toNat_shiftRight]
        exact Nat.shiftRight_eq_div_pow _ 2
      rw [← UInt8.toNat_inj, hShift, hShift, sizeByte_toNat]
      omega
    simp only [Option.map_some, ok_bind, hSame]

variable {message}

/-- A size of ten bits is read back after it was written. -/
theorem peerReadMessageSize_writeSize (h : 10 ≤ message.length) {size : Nat} (hSize : size < 1024) :
    peerReadMessageSize (peerWriteMessageSize message size) = .ok size := by
  have h9 : 9 < message.length := by omega
  have hLo : (peerWriteMessageSize message size)[8]? = some (UInt8.ofNat (size &&& 0xff)) := by
    rw [peerWriteMessageSize, List.getElem?_modify_ne _ _ (by decide),
      List.getElem?_set_self (by rw [peerNMessageSize]; omega)]
  have hHi := getElem?_writeSize_9 message size
  rw [List.getElem?_eq_getElem h9, Option.map_some] at hHi
  rw [peerReadMessageSize_eq hLo hHi, sizeByte_toNat, UInt8.toNat_ofNat',
    show size &&& 0xff = size % 256 from Nat.and_two_pow_sub_one_eq_mod _ 8, Except.ok.injEq]
  omega

/-- A mode of six bits is read back after it was written. -/
theorem peerReadMessageMode_writeMode (h : 10 ≤ message.length) {mode : UInt8}
    (hMode : mode.toNat < 64) :
    peerReadMessageMode (peerWriteMessageMode message mode) = .ok mode := by
  have h9 : 9 < message.length := by omega
  have hHi := getElem?_writeMode_9 message mode
  rw [List.getElem?_eq_getElem h9, Option.map_some] at hHi
  rw [peerReadMessageMode, peerNMessageSizeAndMode, readAt_eq_ok.mpr hHi, ok_bind, pure_eq_ok,
    Except.ok.injEq, ← UInt8.toNat_inj, UInt8.toNat_shiftRight, modeByte_toNat]
  show (mode.toNat % 64 * 4 + _ % 4) >>> 2 = mode.toNat
  rw [Nat.shiftRight_eq_div_pow]
  omega

end Writers

/-- A message from which both fields are read. -/
structure SharedByte (message : List UInt8) (size : Nat) (mode : UInt8) : Prop where
  size : peerReadMessageSize message = .ok size
  mode : peerReadMessageMode message = .ok mode

/-- The order of `peer_write_message`: the size, then the mode. -/
theorem sharedByte_size_mode {message : List UInt8} (h : 10 ≤ message.length) {size : Nat}
    (hSize : size < 1024) {mode : UInt8} (hMode : mode.toNat < 64) :
    SharedByte (peerWriteMessageMode (peerWriteMessageSize message size) mode) size mode where
  size := by rw [peerReadMessageSize_writeMode, peerReadMessageSize_writeSize h hSize]
  mode := peerReadMessageMode_writeMode (by simpa [peerWriteMessageSize] using h) hMode

/-- The other order, which leaves the same fields. -/
theorem sharedByte_mode_size {message : List UInt8} (h : 10 ≤ message.length) {size : Nat}
    (hSize : size < 1024) {mode : UInt8} (hMode : mode.toNat < 64) :
    SharedByte (peerWriteMessageSize (peerWriteMessageMode message mode) size) size mode where
  size := peerReadMessageSize_writeSize (by simpa [peerWriteMessageMode] using h) hSize
  mode := by rw [peerReadMessageMode_writeSize, peerReadMessageMode_writeMode h hMode]

-- ---------------------------------------------------------------------------
-- The whole message
-- ---------------------------------------------------------------------------

/-- What is read from a buffer after a message was written to it: all fields, both
sizes, the bytes of the data, and behind them what the buffer held before. -/
structure ReadsBack (destination message : List UInt8) (mode : UInt8) (index time actor : Int)
    (data : List UInt8) : Prop where
  size : peerReadMessageSize message = .ok (peerNMessageData + data.length)
  dataSize : peerReadMessageDataSize message = .ok data.length
  mode : peerReadMessageMode message = .ok mode
  index : peerReadMessageIndex message = .ok index
  time : peerReadMessageTime message = .ok time
  actor : peerReadMessageActor message = .ok actor
  bytes : (message.drop peerNMessageData).take data.length = data
  length : message.length = destination.length
  behind : ∀ i, peerNMessageData + data.length ≤ i → message[i]? = destination[i]?

/-- **Round trip**: all fields of a message are read back, and the writers of
the shared byte leave each other's field, in either order. -/
theorem message_roundTrip {destination data : List UInt8} {mode : UInt8} {index time actor : Int}
    (hRoom : peerNMessageData + data.length ≤ destination.length) (hMode : mode.toNat < 64)
    (hIndex : IsInt64 index) (hTime : IsInt64 time)
    (hActor : actor = peerUndefined ∨ (0 ≤ actor ∧ actor ≤ 0xfffffffe))
    (hData : data.length ≤ peerMaxMessageSize) :
    (∃ message, peerWriteMessage destination mode index time actor data = .ok message ∧
      ReadsBack destination message mode index time actor data) ∧
    ∀ size < 1024, SharedByte (peerWriteMessageMode (peerWriteMessageSize destination size) mode)
        size mode ∧
      SharedByte (peerWriteMessageSize (peerWriteMessageMode destination mode) size) size mode := by
  simp only [peerNMessageData, peerMaxMessageSize, peerPacketSize, peerNPacketMessages] at hRoom hData
  have hLen : 10 ≤ destination.length := by omega
  refine ⟨⟨_, peerWriteMessage_eq hRoom, ?_⟩, fun size hSize =>
    ⟨sharedByte_size_mode hLen hSize hMode, sharedByte_mode_size hLen hSize hMode⟩⟩
  have hHeader : 10 ≤ (encode mode index time actor data).length := by
    rw [length_encode]
    omega
  have hSize : peerReadMessageSize (encode mode index time actor data ++
      destination.drop (30 + data.length)) = .ok (30 + data.length) := by
    rw [peerReadMessageSize_append hHeader, peerReadMessageSize_encode_of_le (by omega), length_encode]
  -- the header is in front of whatever the buffer held
  have hFront : encode mode index time actor data ++ destination.drop (30 + data.length) =
      encodeHeader mode ((peerNMessageData + data.length) % 0x10000) index time actor ++
        (data ++ destination.drop (30 + data.length)) := by
    rw [encode, List.append_assoc]
  -- data size, mode, index, time, actor id, data, length, and the bytes behind
  refine ⟨hSize, ?_, ?_, ?_, ?_, ?_, ?_, ?_, fun i hi => ?_⟩
  · rw [peerReadMessageDataSize, hSize, ok_bind, pure_eq_ok, Except.ok.injEq, peerNMessageData]
    omega
  · have hByte : (encode mode index time actor data ++ destination.drop (30 + data.length))[9]? =
        (encode mode index time actor data)[9]? := List.getElem?_append_left (by omega)
    have hEncoded : peerReadMessageMode (encode mode index time actor data) = .ok mode :=
      peerReadMessageMode_encode hMode
    rw [← hEncoded]
    unfold peerReadMessageMode readAt
    rw [peerNMessageSizeAndMode, hByte]
  · rw [hFront, peerReadMessageIndex_header hIndex]
  · rw [hFront, peerReadMessageTime_header hTime]
  · rw [hFront, peerReadMessageActor_header_of_fits hActor]
  · rw [hFront, List.drop_left' (length_encodeHeader ..), List.take_left]
  · rw [List.length_append, length_encode, List.length_drop]
    omega
  · rw [List.getElem?_append_right (by rw [length_encode]; exact hi), length_encode,
      List.getElem?_drop]
    congr 1
    simp only [peerNMessageData] at hi
    omega

/-- A message with the largest index, the smallest time and no actor id, in a
buffer that held other bytes. -/
theorem message_roundTrip_extremes :
    (∃ message, peerWriteMessage (List.replicate 32 0xff) 63 int64Max (-int64Max - 1) peerUndefined
        [7] = .ok message ∧
      ReadsBack (List.replicate 32 0xff) message 63 int64Max (-int64Max - 1) peerUndefined [7]) ∧
    ∀ size < 1024, SharedByte (peerWriteMessageMode
        (peerWriteMessageSize (List.replicate 32 0xff) size) 63) size 63 ∧
      SharedByte (peerWriteMessageSize (peerWriteMessageMode (List.replicate 32 0xff) 63) size)
        size 63 :=
  message_roundTrip (by decide) (by decide) ⟨by decide, by decide⟩ ⟨by decide, by decide⟩
    (Or.inl rfl) (by decide)

end PeerProtocol
