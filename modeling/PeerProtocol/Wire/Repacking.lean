import PeerProtocol.Wire.Optimal
import PeerProtocol.Wire.Unpacking

/-!
# peer — packing what was unpacked

The messages that `peer_unpack` finds in a packet of arbitrary bytes, packed
again. The packet may come from anyone: its header is not looked at, its size
field and its mode may be anything, and behind the messages there may be other
bytes.

The messages are slices of the data, one behind another from the first message
on (`CutFrom`). Each is as long as its size field says, so `peer_pack` accepts
it, and together they are no longer than the packet they were cut from, so
they fit one packet. `peer_pack` then puts the same bytes back to the same
place. What it does not put back is what was never a message: the header,
which it writes anew, and what lay behind the last message.

Messages shorter than a header are left out of the statement: `peer_unpack`
cuts them out like others, and `peer_pack` may have no size field to read in
them.

## Results

* `cutFrom_of_peerUnpack` — the chunks of one packet are such slices, whatever
  the allocator does.
* `peerPack_one` — chunks that fit a packet together are packed into one.
* `peerPack_peerUnpack` — the bytes of the new packet, from behind its header
  up to its size, are those of the packet that the messages came from.
-/

namespace PeerProtocol

open Lib

variable {src dst : Int} {data : Buffer UInt8 peerPacketSize} {size : Int}

-- ---------------------------------------------------------------------------
-- The chunks as slices
-- ---------------------------------------------------------------------------

/-- Chunks cut from the data from offset `o` on, without gaps between them, each as
long as its size field says. -/
structure CutFrom (data : Buffer UInt8 peerPacketSize) (o : Nat) (cs : List Chunk) : Prop where
  slices : cs.flatten <+: data.elems.drop o
  inside : o + cs.flatten.length ≤ 400
  sizes : ∀ c ∈ cs, SizeMatches c

/-- Where a size field leaves room for itself, it is that of the slice: the reader
sees the same two bytes. -/
theorem sizeMatches_take {o n : Nat} (hRead : peerReadMessageSize (data.elems.drop o) = .ok n)
    (hEnd : o + n ≤ 400) (hMin : 10 ≤ n) : SizeMatches ((data.elems.drop o).take n) := by
  have hLen : ((data.elems.drop o).take n).length = n := by
    rw [List.length_take, List.length_drop, data.length_eq, peerPacketSize]
    omega
  rw [SizeMatches, hLen, ← hRead]
  conv_rhs => rw [← List.take_append_drop n (data.elems.drop o)]
  rw [peerReadMessageSize_append (by omega)]

/-- Some of the first chunks of the walk, none of them shorter than a header: what
is left of a walk when the allocator has ended it. -/
theorem Walk.cutFrom {o : Nat} {messages cs : List Chunk} (h : Walk data size o messages)
    (ho : o ≤ 400) (hPrefix : cs <+: messages) (hMin : ∀ c ∈ cs, 30 ≤ c.length) :
    CutFrom data o cs := by
  have hNone : CutFrom data o [] := ⟨List.nil_prefix, by simpa using ho, by simp⟩
  induction h generalizing cs with
  | done _ =>
    rw [List.prefix_nil.mp hPrefix]
    exact hNone
  | refuse _ _ =>
    rw [List.prefix_nil.mp hPrefix]
    exact hNone
  | @step o n messages hLeft hRead hPos hEnd _ ih =>
    cases cs with
    | nil => exact hNone
    | cons c cs =>
      obtain ⟨rfl, hRest⟩ := List.cons_prefix_cons.mp hPrefix
      obtain ⟨hHead, hTail⟩ := List.forall_mem_cons.mp hMin
      have hLen : ((data.elems.drop o).take n).length = n := by
        rw [List.length_take, List.length_drop, data.length_eq, peerPacketSize]
        omega
      rw [hLen] at hHead
      -- the rest is cut behind this chunk
      obtain ⟨hSlices, hInside, hSizes⟩ :=
        ih hEnd hRest hTail ⟨List.nil_prefix, by simpa using hEnd, by simp⟩
      refine ⟨?_, ?_, ?_⟩
      · rw [List.flatten_cons, ← List.take_append_drop n (data.elems.drop o), List.take_left' hLen,
          List.drop_drop]
        exact (List.prefix_append_right_inj _).mpr hSlices
      · rw [List.flatten_cons, List.length_append, hLen]
        omega
      · exact List.forall_mem_cons.mpr ⟨sizeMatches_take hRead hEnd (by omega), hSizes⟩

/-- The chunks of one packet, whatever the allocator does: an empty one, which a
refused request leaves, would be shorter than a header, so where every chunk has a
header they are cut from the packet one behind another. -/
theorem cutFrom_of_peerUnpack {packet : PeerPacket} {chunks : List Chunk} {al al' : Allocator}
    {s : Status} (h : peerUnpack [packet] [] al = .ok (s, chunks, al'))
    (hMin : ∀ c ∈ chunks, 30 ≤ c.length) : CutFrom packet.data 15 chunks := by
  obtain ⟨s', added, al'', hUnpack, hFilled, hUnfilled⟩ := peerUnpack_outcomes [packet] [] al
  rw [h, List.nil_append, Except.ok.injEq, Prod.mk.injEq, Prod.mk.injEq] at hUnpack
  obtain ⟨_, rfl, _⟩ := hUnpack
  have hPlaces : PlacesFilled ([packet].map fun p => (messagesOf p).length) al.outcomes := by
    by_contra hNot
    exact absurd (hMin [] (hUnfilled hNot)) (by simp)
  obtain ⟨css, hEach, rfl⟩ := hFilled hPlaces
  cases hEach with
  | cons hPrefix hNil =>
    cases hNil
    obtain ⟨size, hWalk⟩ := walk_messagesOf packet
    rw [List.flatten_singleton] at hMin ⊢
    exact hWalk.cutFrom (by decide) hPrefix hMin

-- ---------------------------------------------------------------------------
-- One packet
-- ---------------------------------------------------------------------------

/-- Chunks that fit a packet together are packed into one: the greedy split has one
group, since a second is only begun when the next chunk does not fit behind the
others. -/
theorem peerPack_one (src dst : Int) {chunks : List Chunk} (hNe : chunks ≠ [])
    (hFramed : ∀ c ∈ chunks, Framed c) (hTotal : chunks.flatten.length ≤ 385) :
    ∃ p, peerPack src dst chunks [] .reliable = .ok (kitOk, [p], .reliable) ∧
      Sealed src dst p chunks := by
  obtain ⟨ps, groups, hPack, hSealed, hFlat, hGreedy⟩ := peerPack_greedy src dst hNe hFramed []
  -- one group would do, so the greedy split has no more
  have hOne : groups.length ≤ 1 := by
    rw [← length_groupSizes]
    have hFits : ∀ sizes ∈ [chunks.map List.length], sizes.sum ≤ 385 := by
      intro sizes hMem
      rwa [List.mem_singleton.mp hMem, ← List.length_flatten]
    refine hGreedy.length_le hFits ?_
    rw [flatten_groupSizes, hFlat, List.flatten_singleton]
  cases hSealed with
  | nil => exact absurd hFlat.symm hNe
  | @cons p group ps groups hHead hRest =>
    obtain rfl : groups = [] := List.length_eq_zero_iff.mp (by simpa using hOne)
    cases hRest
    rw [List.flatten_singleton] at hFlat
    exact ⟨p, hPack, hFlat ▸ hHead⟩

/-- The bytes behind the header of a sealed packet are those of its chunks. -/
theorem Sealed.getElem? {p : PeerPacket} {cs : List Chunk} (h : Sealed src dst p cs) {i : Nat}
    (hi : i < cs.flatten.length) : p.data.elems[15 + i]? = cs.flatten[i]? := by
  have hHeader : (List.replicate 13 (0 : UInt8) ++ leBytes 2 (15 + cs.flatten.length)).length = 15 := by
    rw [List.length_append, List.length_replicate, length_leBytes]
  rw [h.data, List.getElem?_append_left (by rw [List.length_append, hHeader]; omega),
    List.getElem?_append_right (by rw [hHeader]; omega), hHeader, Nat.add_sub_cancel_left]

/-- **Pack undoes unpack**, for every packet of arbitrary bytes: the chunks that
are unpacked from it, if there are any and none is shorter than a header, are
packed into one packet, and its bytes behind the header are the old ones. -/
theorem peerPack_peerUnpack {packet : PeerPacket} {chunks : List Chunk} {al al' : Allocator}
    (hUnpack : peerUnpack [packet] [] al = .ok (kitOk, chunks, al')) (hNe : chunks ≠ [])
    (hMin : ∀ c ∈ chunks, peerNMessageData ≤ c.length) (sourceId destinationId : Int) :
    ∃ p, peerPack sourceId destinationId chunks [] .reliable = .ok (kitOk, [p], .reliable) ∧
      p.size = (peerNPacketMessages + (chunks.map List.length).sum : Nat) ∧
      ∀ i : Nat, peerNPacketMessages ≤ i → (i : Int) < p.size →
        p.data.elems[i]? = packet.data.elems[i]? := by
  obtain ⟨hSlices, hInside, hSizes⟩ := cutFrom_of_peerUnpack hUnpack hMin
  have hFits : ∀ c ∈ chunks, Fits c := by
    intro c hc
    have hLe := (List.infix_of_mem_flatten hc).length_le
    exact ⟨hMin c hc, by omega⟩
  obtain ⟨p, hPack, hSealed⟩ := peerPack_one sourceId destinationId hNe
    (fun c hc => ⟨hFits c hc, hSizes c hc⟩) (by omega)
  refine ⟨p, hPack, ?_, fun i hLo hHi => ?_⟩
  · rw [hSealed.size, List.length_flatten]
  · rw [hSealed.size] at hHi
    -- Behind the header both packets have the concatenation of the chunks.
    obtain ⟨k, rfl⟩ := Nat.exists_eq_add_of_le (show 15 ≤ i from hLo)
    have hk : k < chunks.flatten.length := by omega
    rw [hSealed.getElem? hk, ← List.getElem?_drop, List.prefix_iff_getElem?.mp hSlices k hk,
      List.getElem?_eq_getElem hk]

/-- Two messages with data, the second one first. -/
def swappedMessages : List Chunk :=
  [encode peerMessageModeApplication 8 3 2 [6, 5, 4], encode peerMessageModeApplication 7 0 1 [9]]

/-- A packet that `peer_pack` did not make: those messages between other bytes
than zero, with a mode byte and a size field that mean nothing. -/
def foreignPair : PeerPacket where
  sourceId := 2
  destinationId := 1
  size := 79
  data := (Buffer.fill peerPacketSize 0xff).blit 15 swappedMessages.flatten
    (by decide +kernel)

/-- Both messages come back, into a packet whose bytes behind the header are the
foreign ones. -/
theorem peerPack_peerUnpack_foreign :
    ∃ p, peerPack 1 2 swappedMessages [] .reliable = .ok (kitOk, [p], .reliable) ∧
      p.size = (peerNPacketMessages + (swappedMessages.map List.length).sum : Nat) ∧
      ∀ i : Nat, peerNPacketMessages ≤ i → (i : Int) < p.size →
        p.data.elems[i]? = foreignPair.data.elems[i]? :=
  @peerPack_peerUnpack foreignPair _ .reliable .reliable rfl (List.cons_ne_nil _ _)
    (by decide +kernel) 1 2

end PeerProtocol
