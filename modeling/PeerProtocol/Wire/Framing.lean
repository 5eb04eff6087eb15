import PeerProtocol.Wire.Packing

/-!
# peer — framing of untrusted packets

What `peer_unpack` extracts from a packet of arbitrary bytes. The loop steps
over size fields: it reads one, cuts out as many bytes, and goes on behind
them. Nothing in it compares a size field with the size of a header, nor with
the packet's own size; it only refuses what leads past the data array. So some
packets give chunks that are too short to be messages, or that reach behind
the bytes that were received, and the point of this module is to say which.

`FrameFrom` are the offsets that the loop reaches, and `FramesFit` is the
condition at each of them: the size field is zero, or covers a header and ends
inside the packet, or leads past the data array, where the loop refuses it. It
is a condition on the bytes of the packet, and one that a receiver could test
before it unpacks.

## Results

* `Walk` — the chunks between those offsets, which is what the loop returns
  (`unpackMessages_walk`). The fuel of the loop never runs out.
* `CompleteMessage`, `FramedFrom`, `WellFramed` — what a receiver relies on:
  the chunks are consecutive slices inside the packet's size, and complete
  messages.
* `wellFramed_iff_framesFit` — exactly then the chunks are such. One direction
  follows the walk, the other reads the condition off its chunks
  (`Walk.framedFrom`, `Walk.framesFitFrom`).
-/

namespace PeerProtocol

open Lib

variable {data : Buffer UInt8 peerPacketSize} {size : Int}

/-- The chunks that the loop over the messages extracts from offset `o` on, as a
relation that leaves the fuel out. -/
inductive Walk (data : Buffer UInt8 peerPacketSize) (size : Int) : Nat → List Chunk → Prop where
  /-- less than a header is left -/
  | done {o : Nat} (hDone : ¬ (o : Int) + 30 ≤ size) : Walk data size o []
  /-- the size field is zero, or leads past the data array -/
  | refuse {o n : Nat} (hRead : peerReadMessageSize (data.elems.drop o) = .ok n)
      (hRefuse : n = 0 ∨ 400 < o + n) : Walk data size o []
  | step {o n : Nat} {cs : List Chunk} (hLeft : (o : Int) + 30 ≤ size)
      (hRead : peerReadMessageSize (data.elems.drop o) = .ok n) (hPos : 0 < n)
      (hEnd : o + n ≤ 400) (hRest : Walk data size (o + n) cs) :
      Walk data size o ((data.elems.drop o).take n :: cs)

/-- The loop never runs out of fuel: every turn moves the offset forward by a size
of at least one, and it ends at the latest where the packet does. What it returns is
the walk over the size fields. -/
theorem unpackMessages_walk (hSize : size ≤ 400) {fuel o : Nat} (hFuel : 400 ≤ o + fuel)
    (acc : List Chunk) :
    ∃ s cs, unpackMessages data size fuel o acc .reliable = .ok (s, acc ++ cs, .reliable) ∧
      Walk data size o cs := by
  induction fuel generalizing o acc with
  | zero =>
    refine ⟨kitOk, [], by rw [unpackMessages, List.append_nil], .done ?_⟩
    omega
  | succ fuel ih =>
    by_cases hLeft : (o : Int) + peerNMessageData ≤ size
    · rw [peerNMessageData] at hLeft
      obtain ⟨n, hRead, _⟩ := peerReadMessageSize_isOk
        (show 10 ≤ (data.elems.drop o).length by
          rw [List.length_drop, data.length_eq, peerPacketSize]; omega)
      rw [unpackMessages, if_pos hLeft, hRead, ok_bind]
      -- three ways on: no more messages, a refusal, or one more chunk
      by_cases hZero : n = 0
      · refine ⟨kitOk, [], ?_, .refuse hRead (Or.inl hZero)⟩
        rw [if_pos hZero, List.append_nil]
        rfl
      · by_cases hPast : o + n > peerPacketSize
        · refine ⟨peerErrorInvalidMessageSize, [], ?_, .refuse hRead (Or.inr hPast)⟩
          rw [if_neg hZero, if_pos hPast, List.append_nil]
          rfl
        · obtain ⟨s, cs, hLoop, hWalk⟩ :=
            ih (o := o + n) (by omega) (acc ++ [(data.elems.drop o).take n])
          refine ⟨s, (data.elems.drop o).take n :: cs, ?_,
            .step hLeft hRead (by omega) (by rw [peerPacketSize] at hPast; omega) hWalk⟩
          rw [if_neg hZero, if_neg hPast]
          simp only [Allocator.request_reliable, Allocator.daInit_reliable, hLoop,
            List.append_assoc, List.singleton_append]
    · refine ⟨kitOk, [], ?_, .done hLeft⟩
      rw [unpackMessages, if_neg hLeft, List.append_nil]

/-- Offset `o'` is reached from `o` by stepping over size fields, each of which
leads to an offset inside the data array. -/
inductive FrameFrom (data : Buffer UInt8 peerPacketSize) (size : Int) : Nat → Nat → Prop where
  | here (o : Nat) : FrameFrom data size o o
  | next {o n o' : Nat} (hLeft : (o : Int) + 30 ≤ size)
      (hRead : peerReadMessageSize (data.elems.drop o) = .ok n) (hPos : 0 < n)
      (hEnd : o + n ≤ 400) (hRest : FrameFrom data size (o + n) o') : FrameFrom data size o o'

/-- Every size field met from offset `o` on is zero, or covers a header and
ends inside the packet, or is refused because it leads past the data array. -/
def FramesFitFrom (data : Buffer UInt8 peerPacketSize) (size : Int) (o : Nat) : Prop :=
  ∀ o' n, FrameFrom data size o o' → (o' : Int) + 30 ≤ size →
    peerReadMessageSize (data.elems.drop o') = .ok n →
    n = 0 ∨ (30 ≤ n ∧ (o' : Int) + n ≤ size) ∨ 400 < o' + n

/-- The condition on a packet: the size fields from the first message on all fit, as
far as the loop over the messages comes to them. -/
def FramesFit (packet : PeerPacket) : Prop :=
  FramesFitFrom packet.data packet.size peerNPacketMessages

/-- A chunk is a complete message: its size field is its length, it has room
for a header, and the header fields and the data size read from it stay inside. -/
structure CompleteMessage (c : Chunk) : Prop where
  size : peerReadMessageSize c = .ok c.length
  length : peerNMessageData ≤ c.length
  header : ∃ header, readHeader c = .ok header ∧ 0 ≤ header.dataSize ∧
    (peerNMessageData : Int) + header.dataSize ≤ c.length

/-- The chunks lie one behind another from offset `o` on, end inside the
packet, and are complete messages. -/
structure FramedFrom (data : Buffer UInt8 peerPacketSize) (size : Int) (o : Nat)
    (cs : List Chunk) : Prop where
  slices : cs.flatten <+: data.elems.drop o
  inside : cs ≠ [] → ((o + cs.flatten.length : Nat) : Int) ≤ size
  complete : ∀ c ∈ cs, CompleteMessage c

/-- A chunk that is as long as its size field says, and has room for a header, is
complete: its data size is what is left behind the header. -/
theorem completeMessage_of_size {c : Chunk} (hSize : peerReadMessageSize c = .ok c.length)
    (hLen : 30 ≤ c.length) : CompleteMessage c := by
  obtain ⟨header, n, hRead, hn, hData, _⟩ := readHeader_of_length hLen
  rw [hSize, Except.ok.injEq] at hn
  refine ⟨hSize, hLen, header, hRead, ?_, ?_⟩
  · omega
  · rw [peerNMessageData]
    omega

/-- Where the size fields fit, the walk extracts complete messages, one behind
another: each chunk is as long as its own size field says, and the next one starts
where it ends. -/
theorem Walk.framedFrom {o : Nat} {cs : List Chunk} (h : Walk data size o cs)
    (hFit : FramesFitFrom data size o) : FramedFrom data size o cs := by
  induction h with
  | done _ => exact ⟨by simp, by simp, by simp⟩
  | refuse _ _ => exact ⟨by simp, by simp, by simp⟩
  | @step o n cs hLeft hRead hPos hEnd hRest ih =>
    obtain ⟨hSlices, hInside, hComplete⟩ := ih fun o' n' hFrame =>
      hFit o' n' (.next hLeft hRead hPos hEnd hFrame)
    -- the first frame fits, and those behind it are frames of the packet as well
    have hHere := hFit o n (.here o) hLeft hRead
    have hLen : ((data.elems.drop o).take n).length = n := by
      rw [List.length_take, List.length_drop, data.length_eq, peerPacketSize]
      omega
    have hSplit : data.elems.drop o = (data.elems.drop o).take n ++ data.elems.drop (o + n) := by
      rw [← List.drop_drop, List.take_append_drop]
    refine ⟨?_, ?_, ?_⟩
    · rw [List.flatten_cons, hSplit, List.take_left' hLen]
      exact List.prefix_append_right_inj _ |>.mpr hSlices
    · intro _
      rw [List.flatten_cons, List.length_append, hLen]
      by_cases hNil : cs = []
      · subst hNil
        rw [List.flatten_nil, List.length_nil]
        omega
      · have := hInside hNil
        omega
    · intro c hc
      rcases List.mem_cons.mp hc with rfl | hLater
      · refine completeMessage_of_size ?_ (by omega)
        rw [hLen, ← hRead]
        conv_rhs => rw [hSplit]
        rw [peerReadMessageSize_append (by omega)]
      · exact hComplete c hLater

/-- Where the walk extracts complete messages inside the packet, the size fields
fit. This is the other direction of `Walk.framedFrom`: a size field that does not
fit would make a chunk that is shorter than a header, or that reaches past the size
of the packet. -/
theorem Walk.framesFitFrom {o : Nat} {cs : List Chunk} (h : Walk data size o cs)
    (hInside : cs ≠ [] → ((o + cs.flatten.length : Nat) : Int) ≤ size)
    (hComplete : ∀ c ∈ cs, CompleteMessage c) : FramesFitFrom data size o := by
  -- on the walk: it visits the frames in the order in which they are counted
  induction h with
  | done hDone =>
    intro o' n hFrame hLeft _
    cases hFrame with
    | here => exact absurd hLeft hDone
    | next hLeft' => exact absurd hLeft' hDone
  | @refuse o n hRead hRefuse =>
    intro o' n' hFrame _ hRead'
    cases hFrame with
    | here =>
      rw [hRead, Except.ok.injEq] at hRead'
      omega
    | next _ hRead'' hPos hEnd _ =>
      -- a refused size field is not stepped over
      rw [hRead, Except.ok.injEq] at hRead''
      omega
  | @step o n cs hLeft hRead hPos hEnd hRest ih =>
    have hLen : ((data.elems.drop o).take n).length = n := by
      rw [List.length_take, List.length_drop, data.length_eq, peerPacketSize]
      omega
    have hTotal := hInside (by simp)
    rw [List.flatten_cons, List.length_append, hLen] at hTotal
    have hHead := (hComplete _ (List.mem_cons_self ..)).length
    rw [hLen, peerNMessageData] at hHead
    have ih := ih (by intro _; omega) fun c hc => hComplete c (List.mem_cons_of_mem _ hc)
    intro o' n' hFrame hLeft' hRead'
    cases hFrame with
    | here =>
      rw [hRead, Except.ok.injEq] at hRead'
      omega
    | next _ hRead'' _ _ hRest' =>
      rw [hRead, Except.ok.injEq] at hRead''
      subst hRead''
      exact ih o' n' hRest' hLeft' hRead'

/-- What a receiver relies on: the chunks unpacked from a packet are
consecutive slices of it from `PEER_N_PACKET_MESSAGES` on, inside its size, and
complete messages. -/
def WellFramed (packet : PeerPacket) : Prop :=
  ∃ status chunks, peerUnpack [packet] [] .reliable = .ok (status, chunks, .reliable) ∧
    FramedFrom packet.data packet.size peerNPacketMessages chunks

/-- What a packet unpacks to, for every size that a received packet can have, from
none to the whole buffer. A size that is refused yields no chunks, like an empty
packet, and any other is walked from the byte behind the header on. -/
theorem peerUnpack_walk {packet : PeerPacket} (hLo : 0 ≤ packet.size)
    (hHi : packet.size ≤ peerPacketSize) :
    ∃ s cs, peerUnpack [packet] [] .reliable = .ok (s, cs, .reliable) ∧
      Walk packet.data packet.size peerNPacketMessages cs := by
  rw [peerPacketSize] at hHi
  have hOne : ∀ {s : Status} {cs : List Chunk},
      unpackPacket packet [] .reliable = .ok (s, cs, .reliable) →
      peerUnpack [packet] [] .reliable = .ok (s, cs, .reliable) := by
    intro s cs h
    simp only [peerUnpack, h, ok_bind, pure_eq_ok, kitOk]
    rw [UInt32.or_zero]
  -- An empty packet has nothing to walk over, and a packet of a refused size is not walked.
  by_cases hZero : packet.size = 0
  · refine ⟨kitOk, [], hOne (by rw [unpackPacket, if_pos hZero]), .done ?_⟩
    omega
  by_cases hSmall : packet.size < peerNPacketMessages ∨ packet.size > peerPacketSize
  · refine ⟨peerErrorInvalidPacketSize, [], hOne ?_, .done ?_⟩
    · rw [unpackPacket, if_neg hZero, if_pos hSmall]
    · rw [peerNPacketMessages, peerPacketSize] at hSmall
      omega
  -- Any other size enters the loop, at the first byte behind the header.
  · obtain ⟨s, cs, hLoop, hWalk⟩ := @unpackMessages_walk packet.data packet.size hHi
      peerPacketSize peerNPacketMessages (by rw [peerPacketSize]; omega) []
    refine ⟨s, cs, hOne ?_, hWalk⟩
    rw [unpackPacket, if_neg hZero, if_neg hSmall]
    exact hLoop

/-- **Framing of untrusted packets.** The chunks unpacked from a packet are complete
messages inside it exactly when its size fields fit. No assumption is made on the
bytes. -/
theorem wellFramed_iff_framesFit (packet : PeerPacket) (hLo : 0 ≤ packet.size)
    (hHi : packet.size ≤ peerPacketSize) : WellFramed packet ↔ FramesFit packet := by
  obtain ⟨s, cs, hUnpack, hWalk⟩ := peerUnpack_walk hLo hHi
  constructor
  · rintro ⟨s', cs', hUnpack', hFramed⟩
    rw [hUnpack, Except.ok.injEq, Prod.mk.injEq, Prod.mk.injEq] at hUnpack'
    obtain ⟨_, rfl, _⟩ := hUnpack'
    exact hWalk.framesFitFrom hFramed.inside hFramed.complete
  · intro hFit
    exact ⟨s, cs, hUnpack, hWalk.framedFrom hFit⟩

/-- Two messages, of one and of two bytes of data, in one packet. -/
def twoMessages : List Chunk :=
  [encode peerMessageModeApplication 0 0 1 [9], encode peerMessageModeApplication 1 0 1 [8, 7]]

/-- The walk over that packet stops at both messages and finds them complete. -/
theorem wellFramed_iff_framesFit_two :
    (packed 5 2 twoMessages).size = 78 ∧
    (peerUnpack [packed 5 2 twoMessages] [] .reliable).toOption.map (fun r => r.2.1) =
      some twoMessages ∧
    (WellFramed (packed 5 2 twoMessages) ↔ FramesFit (packed 5 2 twoMessages)) :=
  ⟨by decide +kernel, by decide +kernel, wellFramed_iff_framesFit (packed 5 2 twoMessages)
    (by decide +kernel) (by decide +kernel)⟩

/-- A packet of 45 bytes whose only size field is 5: shorter than a header. -/
def shortFieldPacket : PeerPacket :=
  { PeerPacket.blank 1 2 with
    size := 45
    data := (Buffer.fill peerPacketSize 0).blit 23 [5] (by decide) }

/-- A short size field makes a chunk that is no message. -/
theorem not_wellFramed_shortField :
    ¬ ∀ packet : PeerPacket, 0 ≤ packet.size → packet.size ≤ peerPacketSize →
      WellFramed packet := by
  intro hAll
  obtain ⟨s, cs, hUnpack, hFramed⟩ := hAll shortFieldPacket (by decide) (by decide)
  have hChunks : (peerUnpack [shortFieldPacket] [] .reliable).toOption.map (fun r => r.2.1) =
      some [[0, 0, 0, 0, 0]] := by decide +kernel
  rw [hUnpack] at hChunks
  have hEq : cs = [[0, 0, 0, 0, 0]] := by simpa [Except.toOption] using hChunks
  have hLen := (hFramed.complete [0, 0, 0, 0, 0] (by simp [hEq])).length
  exact absurd hLen (by decide)

end PeerProtocol
