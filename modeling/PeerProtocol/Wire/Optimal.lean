import Mathlib.Order.Bounds.Basic
import PeerProtocol.Lib.Greedy
import PeerProtocol.Lib.Lists
import PeerProtocol.Wire.Packing

/-!
# peer — packing needs the fewest packets

`peer_pack` fills a packet until the next chunk does not fit, and never comes
back to an earlier one. So the packets it appends are the groups of a greedy
split of the chunk sizes (`packLoop_greedy`), and no other way to divide the
list in its order takes fewer of them.

That the greedy split is the shortest is general, and is proved in
`Lib.Greedy` by an exchange argument: any division reaches, with as many
groups, no further into the list than the greedy one. Here it is connected to
the loop: the invariant of the packing loop is extended by the groups that the
sealed packets carry, and by what makes them greedy, that the first chunk of
each group did not fit the one before (`Filling.greedy`,
`packLoop_new_packet`).

## Results

* `IsDivision` — a way to divide the chunks into packets, in their order.
* `packLoop_greedy`, `peerPack_greedy` — the packets carry the groups of a
  greedy split.
* `isLeast_of_greedy` — a greedy split of the chunks is a division into the
  fewest groups.
* `peerPack_fewest` — the number of appended packets is the least; none of
  them is empty, and none is over-full.
-/

namespace PeerProtocol

open Lib

variable {src dst : Int}

/-- A way to divide the chunks, in their order, into groups that fit a packet. -/
def IsDivision (chunks : List Chunk) (groups : List (List Chunk)) : Prop :=
  groups.flatten = chunks ∧
    ∀ group ∈ groups, group.flatten.length ≤ peerPacketSize - peerNPacketMessages

/-- The sizes of the chunks of each group, which is all that a division depends on. -/
def groupSizes (groups : List (List Chunk)) : List (List Nat) :=
  groups.map fun group => group.map List.length

theorem length_groupSizes (groups : List (List Chunk)) :
    (groupSizes groups).length = groups.length := List.length_map ..

/-- In a row they are the sizes of all the chunks. -/
theorem flatten_groupSizes (groups : List (List Chunk)) :
    (groupSizes groups).flatten = groups.flatten.map List.length := List.map_flatten.symm

-- ---------------------------------------------------------------------------
-- The loop is greedy
-- ---------------------------------------------------------------------------

/-- A chunk that fits the packet being filled is added to it. -/
theorem Filling.addChunk {p : PeerPacket} {offset : Nat} {cs : List Chunk}
    (h : Filling src dst p offset cs) {c : Chunk} (hFramed : Framed c)
    (hRoom : offset + c.length ≤ 400) (out : List PeerPacket) :
    ∃ p', addChunk c (out ++ [p]) offset = .ok (kitOk, out ++ [p']) ∧
      Filling src dst p' (offset + c.length) (cs ++ [c]) := by
  obtain ⟨p', hAdd, hLoading⟩ := h.loading.addChunk hFramed.size hRoom out
  refine ⟨p', hAdd, hLoading.filling fun d hd => ?_⟩
  rcases List.mem_append.mp hd with hOld | hNew
  · exact h.framed d hOld
  · exact List.mem_singleton.mp hNew ▸ hFramed

/-- The sizes of the chunks in the packet being filled are the offset, behind the
header. -/
theorem Filling.sum_sizes {p : PeerPacket} {offset : Nat} {cs : List Chunk}
    (h : Filling src dst p offset cs) : 15 + (cs.map List.length).sum = offset := by
  rw [h.offset_eq, List.length_flatten]

/-- The packet being filled is a group of a greedy split when the next chunk
does not fit it. -/
theorem Filling.greedy {p : PeerPacket} {offset : Nat} {cs : List Chunk}
    (h : Filling src dst p offset cs) (hNe : cs ≠ []) {groups : List (List Chunk)}
    (hFull : ∀ s, (groupSizes groups).flatten.head? = some s → 400 < offset + s)
    (hRest : Greedy 385 (groupSizes groups)) : Greedy 385 (groupSizes (cs :: groups)) := by
  have hSum := h.sum_sizes
  have hOffset := h.offset_le
  refine .cons (by simpa using hNe) ?_ (fun s hHead => ?_) hRest
  · show (cs.map List.length).sum ≤ 385
    omega
  · show 385 < (cs.map List.length).sum + s
    have := hFull s hHead
    omega

/-- A chunk for which a packet had to be added is the first one in it: it starts
behind the header of the new packet, and the rest of the chunks goes on from the
offset behind it. -/
theorem packLoop_new_packet {prev out out' : List PeerPacket} {offset : Nat} {c : Chunk}
    (hFramed : Framed c) (hFull : 400 < offset + c.length)
    (hStart : startPacket src dst prev.length out offset .reliable =
      (kitOk, out' ++ [PeerPacket.blank src dst], 15, .reliable)) (chunks : List Chunk) :
    ∃ p, Filling src dst p (15 + c.length) [c] ∧
      packLoop src dst prev.length (c :: chunks) out offset .reliable =
        packLoop src dst prev.length chunks (out' ++ [p]) (15 + c.length) .reliable := by
  have hRoom : 15 + c.length ≤ 400 := by
    have := hFramed.fits.2
    omega
  obtain ⟨p, hAdd, hFilling⟩ := filling_blank.addChunk hFramed hRoom out'
  refine ⟨p, hFilling, ?_⟩
  rw [packLoop, if_pos (show offset + c.length > peerPacketSize from hFull), hStart]
  dsimp only
  rw [if_neg (by simp), hAdd, ok_bind]
  dsimp only
  rw [if_neg (by simp)]

/-- **The loop is greedy.** From a packet that is being filled, with any packets
before it, it fills this packet and adds others, and what the packets are filled
with is a greedy split of the chunks. -/
theorem packLoop_greedy (prev : List PeerPacket) {chunks : List Chunk}
    (hFramed : ∀ c ∈ chunks, Framed c) (done : List PeerPacket) {p : PeerPacket} {offset : Nat}
    {cs : List Chunk} (hLast : Filling src dst p offset cs) (hNe : cs ≠ []) :
    ∃ out offset' ps more groups,
      packLoop src dst prev.length chunks (prev ++ (done ++ [p])) offset .reliable =
        .ok (kitOk, out, offset', .reliable) ∧
      out.modify (out.length - 1) (·.writeHeader offset') = prev ++ (done ++ ps) ∧
      List.Forall₂ (Sealed src dst) ps ((cs ++ more) :: groups) ∧
      more ++ groups.flatten = chunks ∧
      Greedy 385 (groupSizes ((cs ++ more) :: groups)) := by
  induction chunks generalizing done p offset cs with
  | nil =>
    -- the packet that is open at the end is the last group
    refine ⟨_, offset, [p.writeHeader offset], [], [], rfl, ?_, ?_, rfl, ?_⟩
    · rw [← List.append_assoc, modify_last, List.append_assoc]
    · rw [List.append_nil]
      exact .cons hLast.writeHeader .nil
    · rw [List.append_nil]
      exact hLast.greedy hNe (fun s h => by cases h) .nil
  | cons c chunks ih =>
    obtain ⟨hThis, hLater⟩ := List.forall_mem_cons.mp hFramed
    rcases Nat.lt_or_ge 400 (offset + c.length) with hFull | hRoom
    · -- the packet has no room: it is sealed, and the chunk opens the next one
      have hStart : startPacket src dst prev.length (prev ++ (done ++ [p])) offset .reliable =
          (kitOk, prev ++ (done ++ [p.writeHeader offset]) ++ [PeerPacket.blank src dst], 15,
            .reliable) := by
        rw [startPacket_append, ← List.append_assoc]
      obtain ⟨p', hFilling, hLoop⟩ := packLoop_new_packet hThis hFull hStart chunks
      obtain ⟨out, offset', ps, more, groups, hRest, hOut, hSealed, hFlat, hGreedy⟩ :=
        ih hLater (done ++ [p.writeHeader offset]) hFilling (List.cons_ne_nil c [])
      refine ⟨out, offset', p.writeHeader offset :: ps, [], ([c] ++ more) :: groups, ?_, ?_, ?_,
        ?_, ?_⟩
      · rw [hLoop, List.append_assoc, hRest]
      · rw [hOut, List.append_assoc, List.singleton_append]
      · rw [List.append_nil]
        exact .cons hLast.writeHeader hSealed
      · simp [← hFlat]
      · rw [List.append_nil]
        refine hLast.greedy hNe (fun s hHead => ?_) hGreedy
        obtain rfl : c.length = s := by simpa [groupSizes] using hHead
        exact hFull
    · -- the packet takes the chunk
      obtain ⟨p', hAdd, hFilling⟩ := hLast.addChunk hThis hRoom (prev ++ done)
      obtain ⟨out, offset', ps, more, groups, hRest, hOut, hSealed, hFlat, hGreedy⟩ :=
        ih hLater done hFilling (by simp)
      have hGroup : (cs ++ [c]) ++ more = cs ++ c :: more := by rw [List.append_assoc]; rfl
      rw [hGroup] at hSealed hGreedy
      refine ⟨out, offset', ps, c :: more, groups, ?_, hOut, hSealed, ?_, hGreedy⟩
      · rw [packLoop, if_neg (show ¬ offset + c.length > peerPacketSize from Nat.not_lt.mpr hRoom)]
        dsimp only
        rw [if_neg (by simp), ← List.append_assoc, hAdd, ok_bind]
        dsimp only
        rw [if_neg (by simp), List.append_assoc, hRest]
      · rw [List.cons_append, hFlat]

/-- What `peer_pack` appends: packets that carry the groups of a greedy split of the
chunks, in their order. That no other division into groups has fewer of them is then
a fact about greedy splits, in which no packet occurs. -/
theorem peerPack_greedy (src dst : Int) {chunks : List Chunk} (hNe : chunks ≠ [])
    (hFramed : ∀ c ∈ chunks, Framed c) (prev : List PeerPacket) :
    ∃ ps groups, peerPack src dst chunks prev .reliable = .ok (kitOk, prev ++ ps, .reliable) ∧
      List.Forall₂ (Sealed src dst) ps groups ∧ groups.flatten = chunks ∧
      Greedy 385 (groupSizes groups) := by
  cases chunks with
  | nil => exact absurd rfl hNe
  | cons c chunks =>
    obtain ⟨hThis, hLater⟩ := List.forall_mem_cons.mp hFramed
    -- the offset the loop starts with makes the first chunk add a packet
    have hStart : startPacket src dst prev.length prev 400 .reliable =
        (kitOk, prev ++ [PeerPacket.blank src dst], 15, .reliable) := by
      rw [startPacket, if_neg (Nat.lt_irrefl _), Allocator.request_reliable]
    have hFull : 400 < 400 + c.length := by
      have := hThis.fits.1
      omega
    obtain ⟨p, hFilling, hLoop⟩ := packLoop_new_packet hThis hFull hStart chunks
    obtain ⟨out, offset, ps, more, groups, hRest, hOut, hSealed, hFlat, hGreedy⟩ :=
      packLoop_greedy prev hLater [] hFilling (List.cons_ne_nil c [])
    rw [List.nil_append] at hRest hOut
    refine ⟨ps, ([c] ++ more) :: groups, ?_, hSealed, by simp [← hFlat], hGreedy⟩
    -- some packet was added, so only the header of the last one is left to write
    have hAdded : out.length ≠ prev.length := by
      have hLength := congrArg List.length hOut
      rw [List.length_modify, List.length_append, hSealed.length_eq, List.length_cons] at hLength
      omega
    rw [peerPack, hLoop, hRest, ok_bind]
    dsimp only
    rw [if_neg (by simp), if_neg hAdded, hOut]
    rfl

-- ---------------------------------------------------------------------------
-- The fewest packets
-- ---------------------------------------------------------------------------

/-- A greedy split of the chunks is a division into the fewest groups. What the two
notions compare are sizes, so the division is taken over to them and back. -/
theorem isLeast_of_greedy {chunks : List Chunk} {groups : List (List Chunk)}
    (hFlat : groups.flatten = chunks) (hGreedy : Greedy 385 (groupSizes groups)) :
    IsLeast {n | ∃ groups, IsDivision chunks groups ∧ groups.length = n} groups.length := by
  have hTotal : ∀ group : List Chunk, group.flatten.length = (group.map List.length).sum :=
    fun _ => List.length_flatten
  constructor
  · refine ⟨groups, ⟨hFlat, fun group hMem => ?_⟩, rfl⟩
    have hFits := hGreedy.sum_le (group.map List.length) (List.mem_map_of_mem hMem)
    show group.flatten.length ≤ 385
    rwa [hTotal]
  · rintro n ⟨other, ⟨hOther, hFits⟩, rfl⟩
    -- the exchange argument is the library's, on the sizes
    rw [← length_groupSizes, ← length_groupSizes]
    refine hGreedy.length_le (fun sizes hMem => ?_) ?_
    · obtain ⟨group, hGroup, rfl⟩ := List.mem_map.mp hMem
      rw [← hTotal]
      exact hFits group hGroup
    · rw [flatten_groupSizes, flatten_groupSizes, hOther, hFlat]

/-- A sealed packet with chunks in it is not empty and not over-full: its size is
that of a header and of chunks that fit. -/
theorem Sealed.size_bounds {p : PeerPacket} {group : List Chunk} (h : Sealed src dst p group)
    (hNe : group ≠ []) :
    (peerNPacketMessages : Int) < p.size ∧ p.size ≤ (peerPacketSize : Int) := by
  obtain ⟨c, cs, rfl⟩ := List.exists_cons_of_ne_nil hNe
  have hMin := (h.framed c (List.mem_cons_self ..)).fits.1
  have hSize := h.size
  have hLe := h.size_le
  rw [List.flatten_cons, List.length_append] at hSize hLe
  rw [hSize]
  constructor
  · show (15 : Int) < _
    omega
  · show _ ≤ (400 : Int)
    omega

/-- **Packing is optimal.** For chunks that fit a packet and whose size fields
are right, and without allocation failures, `peer_pack` appends as many packets
as there are groups in the shortest division of the list; each of them carries
some chunk, and none exceeds the packet size. -/
theorem peerPack_fewest (sourceId destinationId : Int) (outPackets : List PeerPacket)
    (chunks : List Chunk) (hNe : chunks ≠ [])
    (hSize : ∀ c ∈ chunks, peerReadMessageSize c = .ok c.length)
    (hFits : ∀ c ∈ chunks, peerNMessageData ≤ c.length ∧
      c.length ≤ peerPacketSize - peerNPacketMessages) :
    ∃ appended,
      peerPack sourceId destinationId chunks outPackets .reliable =
        .ok (kitOk, outPackets ++ appended, .reliable) ∧
      IsLeast {n | ∃ groups, IsDivision chunks groups ∧ groups.length = n} appended.length ∧
      ∀ p ∈ appended, (peerNPacketMessages : Int) < p.size ∧ p.size ≤ (peerPacketSize : Int) ∧
        ∃ c cs, peerUnpack [p] [] .reliable = .ok (kitOk, c :: cs, .reliable) := by
  obtain ⟨ps, groups, hPack, hSealed, hFlat, hGreedy⟩ :=
    peerPack_greedy sourceId destinationId hNe (fun c hc => ⟨hFits c hc, hSize c hc⟩) outPackets
  refine ⟨ps, hPack, ?_, fun p hp => ?_⟩
  · rw [hSealed.length_eq]
    exact isLeast_of_greedy hFlat hGreedy
  -- every packet was sealed on a group of chunks that is not empty
  · obtain ⟨group, hGroup, hThis⟩ := exists_of_forall₂_right hSealed.flip hp
    have hGroupNe : group ≠ [] := by
      have := hGreedy.ne_nil (group.map List.length) (List.mem_map_of_mem hGroup)
      simpa using this
    obtain ⟨hMin, hMax⟩ := hThis.size_bounds hGroupNe
    obtain ⟨c, cs, rfl⟩ := List.exists_cons_of_ne_nil hGroupNe
    refine ⟨hMin, hMax, c, cs, ?_⟩
    have hUnpack := peerUnpack_yields (.cons hThis.yields .nil) []
    rwa [List.nil_append, List.flatten_singleton] at hUnpack

/-- Two chunks that share a packet need one. -/
theorem peerPack_fewest_two :
    ∃ appended,
      peerPack 1 2 [encode 1 0 0 0 [7], encode 1 1 0 0 [8, 9]] [] .reliable =
        .ok (kitOk, [] ++ appended, .reliable) ∧
      IsLeast {n | ∃ groups, IsDivision [encode 1 0 0 0 [7], encode 1 1 0 0 [8, 9]] groups ∧
        groups.length = n} appended.length ∧
      ∀ p ∈ appended, (peerNPacketMessages : Int) < p.size ∧ p.size ≤ (peerPacketSize : Int) ∧
        ∃ c cs, peerUnpack [p] [] .reliable = .ok (kitOk, c :: cs, .reliable) :=
  peerPack_fewest 1 2 [] [encode 1 0 0 0 [7], encode 1 1 0 0 [8, 9]] (List.cons_ne_nil _ _) (by decide) (by decide)

end PeerProtocol
