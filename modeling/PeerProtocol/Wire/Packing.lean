import PeerProtocol.Wire.Codec

/-!
# peer — packing and unpacking

`peer_pack` and `peer_unpack` against each other: what the first appends, and
what the second finds in it. The chunks are any byte lists with room for a
header that fit a packet; the packets that are there already are any packets;
the allocator refuses whatever it likes.

## Plan

A packet goes through two forms while `peer_pack` works on it. `Loading` is
the packet that is being filled: its size is still zero, and its data is 15
zero bytes, the chunks copied so far, and zeros. `Closed` is a packet whose
header has been written. `Filling` and `Sealed` are the same two with chunks
whose size fields are right, which is what makes `peer_unpack` find them
again.

`PackState` is the invariant of the loop over the chunks: behind the packets
that were there, every packet it has added but the last is sealed, the last is
being filled, and the chunks in them are those before the loop's position. A
turn makes room (`PackState.makeRoom`) and then adds its chunk
(`PackState.addChunk`); either may stop the loop, and then the packets yield a
first part of the chunks (`Stopped`).

## Results

* `packLoop_spec` — what the loop does from any such state.
* `peerPack_spec` — what the call does: it only appends, and what it appends
  carries the chunks, or a prefix of them.
* `peerUnpack_yields` — packets that yield chunk lists unpack to their
  concatenation.
* `peerUnpack_peerPack` — unpacking undoes packing; the call succeeds exactly
  when every size field is right and no request is refused.
-/

namespace PeerProtocol

open Lib

-- ---------------------------------------------------------------------------
-- Chunks and packets
-- The two forms of a packet, and the steps between them.
-- ---------------------------------------------------------------------------

/-- The size field of a chunk is its length: what `peer_pack` checks of it. -/
def SizeMatches (c : Chunk) : Prop := peerReadMessageSize c = .ok c.length

/-- A chunk that fits a packet: at least a header, at most what follows the packet
header. Together with `SizeMatches` it is what `peer_pack` needs of a chunk. -/
def Fits (c : Chunk) : Prop := 30 ≤ c.length ∧ c.length ≤ 385

/-- A chunk that fits and whose size field is right, so that `peer_unpack` finds its
end. -/
structure Framed (c : Chunk) : Prop where
  fits : Fits c
  size : SizeMatches c

/-- The packet that is being filled, with the chunks copied into it so far. -/
structure Filling (src dst : Int) (p : PeerPacket) (offset : Nat) (cs : List Chunk) : Prop where
  sourceId : p.sourceId = src
  destinationId : p.destinationId = dst
  size : p.size = 0
  offset_eq : offset = 15 + cs.flatten.length
  offset_le : offset ≤ 400
  data : p.data.elems = List.replicate 15 0 ++ cs.flatten ++ List.replicate (400 - offset) 0
  framed : ∀ c ∈ cs, Framed c

/-- A packet whose header says that it carries the chunks: its size, its size field,
and its data are all determined by the ids and the chunks. -/
structure Sealed (src dst : Int) (p : PeerPacket) (cs : List Chunk) : Prop where
  sourceId : p.sourceId = src
  destinationId : p.destinationId = dst
  size : p.size = (15 + cs.flatten.length : Nat)
  size_le : 15 + cs.flatten.length ≤ 400
  data : p.data.elems = List.replicate 13 0 ++ leBytes 2 (15 + cs.flatten.length) ++ cs.flatten ++
    List.replicate (400 - (15 + cs.flatten.length)) 0
  framed : ∀ c ∈ cs, Framed c

/-- A packet with chunks copied into it, of whatever form they are. Its header is
still zero, and the offset is where the next chunk goes. -/
structure Loading (src dst : Int) (p : PeerPacket) (offset : Nat) (cs : List Chunk) : Prop where
  sourceId : p.sourceId = src
  destinationId : p.destinationId = dst
  size : p.size = 0
  offset_eq : offset = 15 + cs.flatten.length
  offset_le : offset ≤ 400
  data : p.data.elems = List.replicate 15 0 ++ cs.flatten ++ List.replicate (400 - offset) 0

/-- Such a packet after its header was written, by the next turn that needs room or
by the end of the call. -/
structure Closed (src dst : Int) (p : PeerPacket) (cs : List Chunk) : Prop where
  sourceId : p.sourceId = src
  destinationId : p.destinationId = dst
  size : p.size = (15 + cs.flatten.length : Nat)
  size_le : 15 + cs.flatten.length ≤ 400
  data : p.data.elems = List.replicate 13 0 ++ leBytes 2 (15 + cs.flatten.length) ++ cs.flatten ++
    List.replicate (400 - (15 + cs.flatten.length)) 0

variable {src dst : Int}

/-- A packet that has just been added holds no chunks. -/
theorem loading_blank : Loading src dst (PeerPacket.blank src dst) 15 [] where
  sourceId := rfl
  destinationId := rfl
  size := rfl
  offset_eq := rfl
  offset_le := by decide
  data := by
    show List.replicate 400 0 = _
    rw [List.flatten_nil, List.append_nil, ← List.replicate_add]

/-- Copying a chunk that still fits extends the packet by that chunk. -/
theorem Loading.copyChunk {p : PeerPacket} {offset : Nat} {cs : List Chunk}
    (h : Loading src dst p offset cs) {c : Chunk} (hRoom : offset + c.length ≤ 400) :
    ∃ p', p.copyChunk offset c = .ok p' ∧ Loading src dst p' (offset + c.length) (cs ++ [c]) := by
  refine ⟨{ p with data := p.data.blit offset c hRoom }, ?_, ?_⟩
  · rw [PeerPacket.copyChunk, dif_pos hRoom]
  · have hPre : (List.replicate 15 (0 : UInt8) ++ cs.flatten).length = offset := by
      rw [List.length_append, List.length_replicate, h.offset_eq]
    refine ⟨h.sourceId, h.destinationId, h.size, ?_, hRoom, ?_⟩
    · simp [h.offset_eq, Nat.add_assoc]
    · show overwrite p.data.elems offset c = _
      rw [h.data, overwrite_append hPre, List.drop_replicate]
      simp [Nat.sub_sub]

/-- Writing the header of the packet being filled closes it. The size field has
sixteen bits, and a packet has 400 bytes. -/
theorem Loading.writeHeader {p : PeerPacket} {offset : Nat} {cs : List Chunk}
    (h : Loading src dst p offset cs) : Closed src dst (p.writeHeader offset) cs := by
  have hOffset := h.offset_eq
  subst hOffset
  refine ⟨h.sourceId, h.destinationId, rfl, h.offset_le, ?_⟩
  show overwrite (overwrite p.data.elems 12 [0]) 13 (peerWriteU16 _) = _
  have hMod : (15 + cs.flatten.length) % 0x10000 = 15 + cs.flatten.length := by
    have := h.offset_le
    omega
  rw [h.data, hMod, peerWriteU16_eq]
  -- the 15 header bytes, cut where the mode byte and the size field are
  rw [show List.replicate 15 (0 : UInt8) =
    List.replicate 12 0 ++ ([0] ++ List.replicate 2 0) from rfl]
  simp only [List.append_assoc]
  rw [overwrite_block (by simp) rfl, ← List.append_assoc, ← List.append_assoc,
    List.append_assoc _ (List.replicate 2 0), overwrite_block (by simp) (by simp)]
  simp [List.replicate_succ]

/-- Forgetting that the size fields are right. -/
theorem Filling.loading {p : PeerPacket} {offset : Nat} {cs : List Chunk}
    (h : Filling src dst p offset cs) : Loading src dst p offset cs :=
  ⟨h.sourceId, h.destinationId, h.size, h.offset_eq, h.offset_le, h.data⟩

/-- Loaded chunks whose size fields are right. -/
theorem Loading.filling {p : PeerPacket} {offset : Nat} {cs : List Chunk}
    (h : Loading src dst p offset cs) (hFramed : ∀ c ∈ cs, Framed c) : Filling src dst p offset cs :=
  ⟨h.sourceId, h.destinationId, h.size, h.offset_eq, h.offset_le, h.data, hFramed⟩

/-- A closed packet with such chunks is sealed. -/
theorem Closed.sealed {p : PeerPacket} {cs : List Chunk} (h : Closed src dst p cs)
    (hFramed : ∀ c ∈ cs, Framed c) : Sealed src dst p cs :=
  ⟨h.sourceId, h.destinationId, h.size, h.size_le, h.data, hFramed⟩

/-- A packet that has just been added, before its first chunk. -/
theorem filling_blank : Filling src dst (PeerPacket.blank src dst) 15 [] :=
  loading_blank.filling (by simp)

/-- Writing the header of the packet being filled seals it. -/
theorem Filling.writeHeader {p : PeerPacket} {offset : Nat} {cs : List Chunk}
    (h : Filling src dst p offset cs) : Sealed src dst (p.writeHeader offset) cs :=
  h.loading.writeHeader.sealed h.framed

-- ---------------------------------------------------------------------------
-- peer_unpack on a packet
-- ---------------------------------------------------------------------------

/-- The message loop returns the chunks that lie one behind another in the data: at
the start of a chunk its size field leads to the start of the next, and behind the
last one nothing of the packet's size is left. -/
theorem unpackMessages_flatten {data : Buffer UInt8 peerPacketSize} {cs : List Chunk}
    {pre rest : List UInt8} (hData : data.elems = pre ++ cs.flatten ++ rest)
    (hLe : pre.length + cs.flatten.length ≤ 400) (hFramed : ∀ c ∈ cs, Framed c)
    {fuel : Nat} (hFuel : cs.length ≤ fuel) (acc : List Chunk) :
    unpackMessages data (pre.length + cs.flatten.length : Nat) fuel pre.length acc .reliable =
      .ok (kitOk, acc ++ cs, .reliable) := by
  induction cs generalizing pre fuel acc with
  | nil =>
    cases fuel with
    | zero => simp [unpackMessages]
    | succ fuel =>
      rw [unpackMessages, if_neg (by simp), List.append_nil]
  | cons c cs ih =>
    obtain ⟨⟨hMin, hMax⟩, hSize⟩ := hFramed c (List.mem_cons_self ..)
    obtain ⟨fuel, rfl⟩ : ∃ n, fuel = n + 1 := ⟨fuel - 1, by simp at hFuel; omega⟩
    rw [List.flatten_cons] at hData hLe ⊢
    rw [List.length_append] at hLe ⊢
    -- the walk stands at the front of the first chunk
    have hDrop : data.elems.drop pre.length = c ++ (cs.flatten ++ rest) := by
      rw [hData]
      simp
    have hRead : peerReadMessageSize (data.elems.drop pre.length) = .ok c.length := by
      rw [hDrop, peerReadMessageSize_append (by omega)]
      exact hSize
    rw [unpackMessages, if_pos (by rw [peerNMessageData]; omega), hRead, ok_bind, if_neg (by omega),
      if_neg (by rw [peerPacketSize]; omega)]
    simp only [Allocator.request_reliable, Allocator.daInit_reliable]
    rw [hDrop, List.take_left]
    -- the rest of the chunks lies behind this one
    have hNext := ih (show data.elems = (pre ++ c) ++ cs.flatten ++ rest by rw [hData]; simp)
      (by rw [List.length_append]; omega) (fun d hd => hFramed d (List.mem_cons_of_mem _ hd))
      (by simpa using hFuel) (acc ++ [c])
    rw [List.length_append, Nat.add_assoc] at hNext
    rw [hNext, List.append_assoc]
    rfl

/-- A packet from which `peer_unpack` extracts exactly the chunks, behind any it has
already. The packet's other bytes do not matter, so a packet keeps what it yields on
the way. -/
def Yields (p : PeerPacket) (cs : List Chunk) : Prop :=
  ∀ acc, unpackPacket p acc .reliable = .ok (kitOk, acc ++ cs, .reliable)

/-- A sealed packet yields the chunks it was filled with: each size field leads to
the next, and the size of the packet ends the walk behind the last, whatever bytes
the buffer holds there. -/
theorem Sealed.yields {p : PeerPacket} {cs : List Chunk} (h : Sealed src dst p cs) :
    Yields p cs := by
  intro acc
  have hSize := h.size
  have hLe := h.size_le
  have hCount : cs.length ≤ cs.flatten.length := by
    have hFramed := h.framed
    clear * - hFramed
    induction cs with
    | nil => simp
    | cons c cs ih =>
      have hMin := (hFramed c (List.mem_cons_self ..)).fits.1
      have := ih fun d hd => hFramed d (List.mem_cons_of_mem _ hd)
      rw [List.flatten_cons, List.length_append, List.length_cons]
      omega
  rw [unpackPacket, if_neg (by omega), if_neg (by rw [peerNPacketMessages, peerPacketSize]; omega),
    hSize]
  exact unpackMessages_flatten h.data (by simpa using hLe) h.framed (by rw [peerPacketSize]; omega) acc

/-- A packet whose header was never written yields nothing: its size is zero, so
that a call which stops in the middle loses what it had not closed. -/
theorem Filling.yields {p : PeerPacket} {offset : Nat} {cs : List Chunk}
    (h : Filling src dst p offset cs) : Yields p [] := by
  intro acc
  rw [unpackPacket, if_pos h.size, List.append_nil]

/-- Packets that yield chunk lists unpack to their concatenation, in order. -/
theorem peerUnpack_yields {ps : List PeerPacket} {css : List (List Chunk)}
    (h : List.Forall₂ Yields ps css) (acc : List Chunk) :
    peerUnpack ps acc .reliable = .ok (kitOk, acc ++ css.flatten, .reliable) := by
  induction h generalizing acc with
  | nil => simp [peerUnpack]
  | cons hYields _ ih =>
    simp only [peerUnpack, hYields acc, ok_bind, ih, pure_eq_ok, List.flatten_cons,
      List.append_assoc]
    rfl

-- ---------------------------------------------------------------------------
-- The state of the packing loop
-- ---------------------------------------------------------------------------

/-- A chunk that is added ends inside the packet; one with a wrong size field
changes nothing. -/
theorem addChunk_cases {c : Chunk} {out out' : List PeerPacket} {offset : Nat} {s : Status}
    (h : addChunk c out offset = .ok (s, out')) :
    s = peerErrorInvalidMessageSize ∧ out' = out ∨ s = kitOk ∧ offset + c.length ≤ 400 := by
  obtain ⟨n, _, h⟩ := bind_eq_ok.mp h
  split at h
  · obtain ⟨rfl, rfl⟩ := Prod.mk.inj (Except.ok.inj h)
    exact Or.inl ⟨rfl, rfl⟩
  · obtain ⟨last, _, h⟩ := bind_eq_ok.mp h
    obtain ⟨last', hCopy, h⟩ := bind_eq_ok.mp h
    obtain ⟨rfl, _⟩ := Prod.mk.inj (Except.ok.inj h)
    refine Or.inr ⟨rfl, ?_⟩
    unfold PeerPacket.copyChunk at hCopy
    split at hCopy
    · next hInside => exact hInside
    · cases hCopy

/-- **One turn of the loop**: it ends because there is no room for the chunk, or
with the status of its copy, or it goes on behind the chunk. -/
theorem packLoop_cons_cases {src dst : Int} {previousSize : Nat} {c : Chunk} {chunks : List Chunk}
    {out : List PeerPacket} {offset : Nat} {al : Allocator}
    {r : Status × List PeerPacket × Nat × Allocator}
    (h : packLoop src dst previousSize (c :: chunks) out offset al = .ok r) :
    ∃ s1 out1 offset1 al1,
      (if offset + c.length > peerPacketSize then startPacket src dst previousSize out offset al
        else (kitOk, out, offset, al)) = (s1, out1, offset1, al1) ∧
      (s1 ≠ kitOk ∧ r = (s1, out1, offset1, al1) ∨
        s1 = kitOk ∧ ∃ s2 out2, addChunk c out1 offset1 = .ok (s2, out2) ∧
          (s2 ≠ kitOk ∧ r = (s2, out2, offset1, al1) ∨
            s2 = kitOk ∧
              packLoop src dst previousSize chunks out2 (offset1 + c.length) al1 = .ok r)) := by
  rw [packLoop] at h
  rcases hRoom : (if offset + c.length > peerPacketSize then
      startPacket src dst previousSize out offset al else (kitOk, out, offset, al)) with
    ⟨s1, out1, offset1, al1⟩
  rw [hRoom] at h
  refine ⟨s1, out1, offset1, al1, rfl, ?_⟩
  -- room, the chunk, the rest: each ends the loop with its status, or goes on
  dsimp only at h
  split at h
  · next hBad => exact Or.inl ⟨hBad, (Except.ok.inj h).symm⟩
  · next hOk1 =>
    obtain ⟨⟨s2, out2⟩, hAdd, h⟩ := bind_eq_ok.mp h
    refine Or.inr ⟨not_not.mp hOk1, s2, out2, hAdd, ?_⟩
    dsimp only at h
    split at h
    · next hBad => exact Or.inl ⟨hBad, (Except.ok.inj h).symm⟩
    · next hOk2 => exact Or.inr ⟨not_not.mp hOk2, h⟩

/-- What the loop over the chunks has left in `out` after packing the chunks
`cs` behind the packets `prev`, with the offset it is at. -/
inductive PackState (src dst : Int) (prev : List PeerPacket) :
    List PeerPacket → Nat → List Chunk → Prop where
  /-- no packet was added yet -/
  | start : PackState src dst prev prev 400 []
  /-- the last packet is being filled -/
  | filling {done : List PeerPacket} {css : List (List Chunk)} {p : PeerPacket} {offset : Nat}
      {cs : List Chunk} (hDone : List.Forall₂ (Sealed src dst) done css)
      (hLast : Filling src dst p offset cs) :
      PackState src dst prev (prev ++ (done ++ [p])) offset (css.flatten ++ cs)

/-- What the loop leaves when it returns early: packets that yield a prefix of the chunks. -/
def Stopped (prev out : List PeerPacket) (cs : List Chunk) : Prop :=
  ∃ ps css, out = prev ++ ps ∧ List.Forall₂ Yields ps css ∧ css.flatten <+: cs

/-- Writing the header of the last packet leaves those before it. -/
theorem modify_last (l : List PeerPacket) (p : PeerPacket) (f : PeerPacket → PeerPacket) :
    (l ++ [p]).modify ((l ++ [p]).length - 1) f = l ++ [f p] := by
  rw [List.length_append, List.length_singleton, Nat.add_sub_cancel, List.modify_eq_take_drop]
  simp

/-- A turn without room closes the packet it was filling and adds a blank one. -/
theorem startPacket_append {src dst : Int} (prev done : List PeerPacket) (p : PeerPacket) (offset : Nat) :
    startPacket src dst prev.length (prev ++ (done ++ [p])) offset .reliable =
      (kitOk, prev ++ ((done ++ [p.writeHeader offset]) ++ [PeerPacket.blank src dst]), 15,
        .reliable) := by
  have hOut : (prev ++ (done ++ [p])).modify ((prev ++ (done ++ [p])).length - 1)
      (·.writeHeader offset) = prev ++ (done ++ [p.writeHeader offset]) := by
    rw [← List.append_assoc, modify_last, List.append_assoc]
  rw [startPacket, if_pos (by simp), hOut, Allocator.request_reliable]
  simp [peerNPacketMessages]

/-- A list of sealed packets yields their chunks, packet by packet. -/
theorem yields_of_sealed {ps : List PeerPacket} {css : List (List Chunk)}
    (h : List.Forall₂ (Sealed src dst) ps css) : List.Forall₂ Yields ps css :=
  h.imp fun _ _ hSealed => hSealed.yields

/-- Stopping anywhere in the loop leaves a prefix, since a packet that is not
sealed yields nothing. -/
theorem PackState.stopped {prev out : List PeerPacket} {offset : Nat} {cs : List Chunk}
    (h : PackState src dst prev out offset cs) (later : List Chunk) :
    Stopped prev out (cs ++ later) := by
  cases h with
  | start => exact ⟨[], [], by simp, .nil, by simp⟩
  | filling hDone hLast =>
    refine ⟨_, _, rfl,
      List.rel_append (yields_of_sealed hDone) (.cons hLast.yields .nil), ?_⟩
    simp [List.append_assoc]

/-- `addChunk` to a packet that has room for the chunk adds it to the last packet
only. -/
theorem Loading.addChunk {p : PeerPacket} {offset : Nat} {cs : List Chunk}
    (h : Loading src dst p offset cs) {c : Chunk} (hSize : SizeMatches c)
    (hRoom : offset + c.length ≤ 400) (out : List PeerPacket) :
    ∃ p', addChunk c (out ++ [p]) offset = .ok (kitOk, out ++ [p']) ∧
      Loading src dst p' (offset + c.length) (cs ++ [c]) := by
  obtain ⟨p', hCopy, hNext⟩ := h.copyChunk hRoom
  have hLen : (out ++ [p]).length - 1 = out.length := by simp
  have hRead : readAt (out ++ [p]) out.length = .ok p := by
    rw [readAt_eq_ok, List.getElem?_append_right (Nat.le_refl _), Nat.sub_self]
    rfl
  refine ⟨p', ?_, hNext⟩
  rw [PeerProtocol.addChunk, hSize, ok_bind, if_neg (fun hNe => hNe rfl), hLen, hRead, ok_bind, hCopy,
    ok_bind, List.set_append_right _ _ (Nat.le_refl _), Nat.sub_self]
  rfl

/-- `startPacket` seals the packet being filled; it adds a packet iff the allocator
lets it. Where it does not, the call stops with what it has sealed so far, whichever
chunks would have come later. -/
theorem PackState.startPacket {prev out : List PeerPacket} {offset : Nat} {cs : List Chunk}
    (h : PackState src dst prev out offset cs) (al : Allocator) :
    ∃ out', startPacket src dst prev.length out offset al =
        (if al.outcomes 0 then (kitOk, out', 15, al.request.2)
          else (peerErrorBadAlloc, out', offset, al.request.2)) ∧
      (if al.outcomes 0 then PackState src dst prev out' 15 cs
        else ∀ later, Stopped prev out' (cs ++ later)) := by
  -- whatever is being filled is sealed first
  have hOut : ∃ ps css, List.Forall₂ (Sealed src dst) ps css ∧ css.flatten = cs ∧
      (if out.length > prev.length then out.modify (out.length - 1) (·.writeHeader offset)
        else out) = prev ++ ps := by
    cases h with
    | start => exact ⟨[], [], .nil, rfl, by simp⟩
    | @filling done css p offset cs hDone hLast =>
      refine ⟨done ++ [p.writeHeader offset], css ++ [cs],
        List.rel_append hDone (.cons hLast.writeHeader .nil), by simp, ?_⟩
      rw [if_pos (by simp), ← List.append_assoc, modify_last, List.append_assoc]
  obtain ⟨ps, css, hSealed, rfl, hEq⟩ := hOut
  unfold PeerProtocol.startPacket
  rw [hEq]
  unfold Allocator.request
  cases hAlloc : al.outcomes 0 with
  | true =>
    refine ⟨prev ++ (ps ++ [PeerPacket.blank src dst]), by simp, ?_⟩
    have : PackState src dst prev _ _ _ := .filling hSealed filling_blank
    rw [List.append_nil] at this
    simpa using this
  | false =>
    refine ⟨prev ++ ps, by simp, ?_⟩
    simp only [Bool.false_eq_true, if_false]
    intro later
    exact ⟨ps, css, rfl, yields_of_sealed hSealed, List.prefix_append _ _⟩

/-- Room for the next chunk: the last packet has it, or another one is started.
It is only missing after a failed allocation, with which the loop stops. -/
theorem PackState.makeRoom {prev out : List PeerPacket} {offset : Nat} {cs : List Chunk}
    (h : PackState src dst prev out offset cs) {c : Chunk} (hFit : Fits c) (al : Allocator) :
    ∃ status out1 offset1 al1,
      (if offset + c.length > peerPacketSize then
        PeerProtocol.startPacket src dst prev.length out offset al
      else (kitOk, out, offset, al)) = (status, out1, offset1, al1) ∧
      (status = kitOk → PackState src dst prev out1 offset1 cs ∧
        offset1 + c.length ≤ 400 ∧ al1.failed = al.failed) ∧
      (status ≠ kitOk → (∀ later, Stopped prev out1 (cs ++ later)) ∧ al1.failed = true) ∧
      (al = .reliable → al1 = .reliable) := by
  by_cases hFull : offset + c.length > peerPacketSize
  · obtain ⟨out1, hStart, hState⟩ := h.startPacket al
    rw [if_pos hFull, hStart]
    -- the new packet is granted or refused
    cases hAlloc : al.outcomes 0 with
    | true =>
      rw [hAlloc, if_pos rfl] at hState
      refine ⟨_, _, _, _, rfl, fun _ => ⟨hState, ?_, ?_⟩, fun hNe => absurd rfl hNe, ?_⟩
      · -- a chunk that fits a packet fits an empty one
        have := hFit.2
        omega
      · simp [Allocator.request, hAlloc]
      · rintro rfl
        rfl
    | false =>
      rw [hAlloc, if_neg (by decide)] at hState
      refine ⟨_, _, _, _, rfl, fun hOk => absurd hOk (by decide), fun _ => ⟨hState, ?_⟩, ?_⟩
      · simp [Allocator.request, hAlloc]
      · rintro rfl
        rfl
  · rw [if_neg hFull]
    refine ⟨_, _, _, _, rfl, fun _ => ⟨h, ?_, rfl⟩, fun hNe => absurd rfl hNe, id⟩
    rw [peerPacketSize] at hFull
    omega

/-- `addChunk`, once there is room for the chunk: it adds the chunk iff its
size field is right, and otherwise changes nothing. -/
theorem PackState.addChunk {prev out : List PeerPacket} {offset : Nat} {cs : List Chunk}
    (h : PackState src dst prev out offset cs) {c : Chunk} (hFits : Fits c)
    (hRoom : offset + c.length ≤ 400) :
    (∃ out', addChunk c out offset = .ok (kitOk, out') ∧ SizeMatches c ∧
      PackState src dst prev out' (offset + c.length) (cs ++ [c])) ∨
    (addChunk c out offset = .ok (peerErrorInvalidMessageSize, out) ∧ ¬ SizeMatches c) := by
  obtain ⟨n, hn, _⟩ := peerReadMessageSize_isOk (show 10 ≤ c.length by have := hFits.1; omega)
  by_cases hSize : c.length = n
  · refine Or.inl ?_
    have hMatch : SizeMatches c := by rw [SizeMatches, hn, hSize]
    cases h with
    | start =>
      -- before the first packet the offset leaves no room
      have := hFits.1
      omega
    | @filling done css p offset cs hDone hLast =>
      obtain ⟨p', hAdd, hLast'⟩ := hLast.loading.addChunk hMatch hRoom (prev ++ done)
      rw [List.append_assoc, List.append_assoc] at hAdd
      refine ⟨prev ++ (done ++ [p']), hAdd, hMatch, ?_⟩
      rw [List.append_assoc css.flatten]
      refine .filling hDone (hLast'.filling fun d hd => ?_)
      rcases List.mem_append.mp hd with hOld | hNew
      · exact hLast.framed d hOld
      · rw [List.mem_singleton.mp hNew]
        exact ⟨hFits, hMatch⟩
  · refine Or.inr ⟨?_, ?_⟩
    · rw [PeerProtocol.addChunk, hn, ok_bind, if_pos hSize]
      rfl
    · intro hMatch
      rw [SizeMatches, hn, Except.ok.injEq] at hMatch
      exact hSize hMatch.symm

/-- **The packing loop.** From any of its states, over chunks that fit a
packet, it either packs them all, and then every size field was right and no
allocation failed; or it stops, and leaves a prefix behind. -/
theorem packLoop_spec {prev : List PeerPacket} {chunks : List Chunk}
    (hFits : ∀ c ∈ chunks, Fits c) {out : List PeerPacket} {offset : Nat} {cs : List Chunk}
    (h : PackState src dst prev out offset cs) (al : Allocator) :
    ∃ status out' offset' al',
      packLoop src dst prev.length chunks out offset al = .ok (status, out', offset', al') ∧
      (status = kitOk → PackState src dst prev out' offset' (cs ++ chunks) ∧
        (∀ c ∈ chunks, SizeMatches c) ∧ al'.failed = al.failed) ∧
      (status ≠ kitOk → Stopped prev out' (cs ++ chunks) ∧
        ((∀ c ∈ chunks, SizeMatches c) → al'.failed = true)) ∧
      (al = .reliable → al' = .reliable) := by
  induction chunks generalizing out offset cs al with
  | nil =>
    refine ⟨kitOk, out, offset, al, rfl, fun _ => ⟨by simpa using h, by simp, rfl⟩, ?_, id⟩
    intro hNe
    exact absurd rfl hNe
  | cons c chunks ih =>
    have hFit := hFits c (List.mem_cons_self ..)
    have hLater : ∀ d ∈ chunks, Fits d := fun d hd => hFits d (List.mem_cons_of_mem _ hd)
    rw [packLoop]
    obtain ⟨status1, out1, offset1, al1, hRoomEq, hRoomOk, hRoomErr, hReliable1⟩ :=
      h.makeRoom hFit al
    rw [hRoomEq]
    dsimp only
    by_cases hOk1 : status1 = kitOk
    · obtain ⟨hState, hRoom, hFailed1⟩ := hRoomOk hOk1
      rw [if_neg (by simpa using hOk1)]
      rcases hState.addChunk hFit hRoom with ⟨out2, hAdd, hMatch, hNext⟩ | ⟨hAdd, hNoMatch⟩
      · -- the chunk was added: the rest of the loop
        obtain ⟨status, out', offset', al', hLoop, hOk, hErr, hReliable⟩ := ih hLater hNext al1
        refine ⟨status, out', offset', al', ?_, ?_, ?_, fun h => hReliable (hReliable1 h)⟩
        · rw [hAdd, ok_bind]
          exact hLoop
        · intro hStatus
          obtain ⟨hState', hAll, hFailed⟩ := hOk hStatus
          refine ⟨by simpa using hState', ?_, hFailed.trans hFailed1⟩
          simpa using ⟨hMatch, hAll⟩
        · intro hStatus
          obtain ⟨hStopped, hFailed⟩ := hErr hStatus
          exact ⟨by simpa using hStopped,
            fun hAll => hFailed fun d hd => hAll d (List.mem_cons_of_mem _ hd)⟩
      · -- its size field was wrong
        refine ⟨peerErrorInvalidMessageSize, out1, offset1, al1, ?_, ?_, ?_, hReliable1⟩
        · rw [hAdd, ok_bind]
          rfl
        · intro hStatus
          exact absurd hStatus (by decide)
        · intro _
          exact ⟨hState.stopped _, fun hAll => absurd (hAll c (List.mem_cons_self ..)) hNoMatch⟩
    · -- no room could be made
      obtain ⟨hStopped, hFailed⟩ := hRoomErr hOk1
      refine ⟨status1, out1, offset1, al1, ?_, fun hOk => absurd hOk hOk1,
        fun _ => ⟨hStopped _, fun _ => hFailed⟩, hReliable1⟩
      rw [if_pos hOk1]
      rfl

-- ---------------------------------------------------------------------------
-- peer_pack
-- ---------------------------------------------------------------------------

/-- `peer_pack` on a non-empty list of chunks that fit a packet: it only
appends. When it succeeds, the packets it appended carry the chunks; when it
does not, they yield a prefix of them. -/
theorem peerPack_spec (src dst : Int) {chunks : List Chunk} (hNe : chunks ≠ []) (hFits : ∀ c ∈ chunks, Fits c)
    (prev : List PeerPacket) (al : Allocator) :
    ∃ status ps al', peerPack src dst chunks prev al = .ok (status, prev ++ ps, al') ∧
      (status = kitOk → (∃ css, List.Forall₂ (Sealed src dst) ps css ∧ css.flatten = chunks) ∧
        (∀ c ∈ chunks, SizeMatches c) ∧ al'.failed = al.failed) ∧
      (status ≠ kitOk → (∃ css, List.Forall₂ Yields ps css ∧ css.flatten <+: chunks) ∧
        ((∀ c ∈ chunks, SizeMatches c) → al'.failed = true)) ∧
      (al = .reliable → al' = .reliable) := by
  obtain ⟨status, out, offset, al', hLoop, hOk, hErr, hReliable⟩ :=
    packLoop_spec hFits (.start : PackState src dst prev prev 400 []) al
  simp only [peerPack, peerPacketSize, hLoop, ok_bind, pure_eq_ok]
  by_cases hStatus : status = kitOk
  · subst hStatus
    obtain ⟨hState, hAll, hFailed⟩ := hOk rfl
    rw [List.nil_append] at hState
    -- the chunks are not empty, so the loop has added a packet
    cases hState with
    | start => exact absurd rfl hNe
    | @filling done css p offset cs hDone hLast =>
      refine ⟨kitOk, done ++ [p.writeHeader offset], al', ?_, fun _ => ⟨?_, hAll, hFailed⟩,
        fun h => absurd rfl h, hReliable⟩
      · simp only [ne_eq, not_true_eq_false, if_false]
        rw [if_neg (by simp), ← List.append_assoc, modify_last, List.append_assoc]
      · exact ⟨css ++ [cs], List.rel_append hDone (.cons hLast.writeHeader .nil), by simp⟩
  · obtain ⟨⟨ps, css, rfl, hYields, hPrefix⟩, hFailed⟩ := hErr hStatus
    refine ⟨status, ps, al', ?_, fun h => absurd h hStatus, fun _ => ⟨⟨css, hYields, hPrefix⟩, hFailed⟩,
      hReliable⟩
    rw [if_pos hStatus]

/-- Without allocation failures, chunks with right size fields are all packed: the
form in which the results about reliable peers use the call. -/
theorem peerPack_framed (src dst : Int) {chunks : List Chunk} (hNe : chunks ≠ [])
    (hFramed : ∀ c ∈ chunks, Framed c) (prev : List PeerPacket) :
    ∃ ps css, peerPack src dst chunks prev .reliable = .ok (kitOk, prev ++ ps, .reliable) ∧
      List.Forall₂ (Sealed src dst) ps css ∧ css.flatten = chunks := by
  obtain ⟨status, ps, al', hPack, hOk, hErr, hReliable⟩ :=
    peerPack_spec src dst hNe (fun c hc => (hFramed c hc).fits) prev .reliable
  rw [hReliable rfl] at hPack hErr
  have hStatus : status = kitOk := by
    by_contra hBad
    exact absurd ((hErr hBad).2 fun c hc => (hFramed c hc).size) (by decide)
  subst hStatus
  obtain ⟨⟨css, hSealed, hFlatten⟩, _, _⟩ := hOk rfl
  exact ⟨ps, css, hPack, hSealed, hFlatten⟩

/-- **Unpack undoes pack.** Over any non-empty list of chunks that fit a packet
and any packets already there, and whatever the allocator does, `peer_pack`
succeeds exactly when every size field is right and no allocation fails. Then
the packets it appended unpack to the chunks; and when it fails, they still
unpack without an error, to a prefix of the chunks. -/
theorem peerUnpack_peerPack (sourceId destinationId : Int) (outPackets : List PeerPacket)
    (outcomes : Nat → Bool) (chunks : List Chunk) (hNe : chunks ≠ [])
    (hFits : ∀ c ∈ chunks, peerNMessageData ≤ c.length ∧
      c.length ≤ peerPacketSize - peerNPacketMessages) :
    ∃ status appended al',
      peerPack sourceId destinationId chunks outPackets ⟨outcomes, false⟩ =
        .ok (status, outPackets ++ appended, al') ∧
      (status = kitOk ↔
        (∀ c ∈ chunks, peerReadMessageSize c = .ok c.length) ∧ al'.failed = false) ∧
      (status = kitOk →
        peerUnpack appended [] .reliable = .ok (kitOk, chunks, .reliable)) ∧
      (status ≠ kitOk →
        ∃ some, peerUnpack appended [] .reliable = .ok (kitOk, some, .reliable) ∧
          some <+: chunks) := by
  obtain ⟨status, ps, al', hPack, hOk, hErr, _⟩ :=
    peerPack_spec sourceId destinationId hNe hFits outPackets ⟨outcomes, false⟩
  refine ⟨status, ps, al', hPack, ⟨?_, ?_⟩, ?_, ?_⟩
  · intro hStatus
    obtain ⟨_, hAll, hFailed⟩ := hOk hStatus
    exact ⟨hAll, hFailed⟩
  -- a failure with readable chunks is one of the allocator, which has recorded it
  · rintro ⟨hAll, hFailed⟩
    by_contra hBad
    rw [(hErr hBad).2 hAll] at hFailed
    exact absurd hFailed (by decide)
  · intro hStatus
    obtain ⟨⟨css, hSealed, hFlatten⟩, _, _⟩ := hOk hStatus
    rw [peerUnpack_yields (yields_of_sealed hSealed), hFlatten, List.nil_append]
  · intro hStatus
    obtain ⟨⟨css, hYields, hPrefix⟩, _⟩ := hErr hStatus
    exact ⟨css.flatten, by rw [peerUnpack_yields hYields, List.nil_append], hPrefix⟩

/-- The round trip on two chunks that share a packet. -/
theorem peerUnpack_peerPack_two :
    ∃ status appended al',
      peerPack 1 2 [encode 1 0 0 0 [7], encode 1 1 0 0 [8, 9]] [] ⟨fun _ => true, false⟩ =
        .ok (status, [] ++ appended, al') ∧
      (status = kitOk ↔ (∀ c ∈ [encode 1 0 0 0 [7], encode 1 1 0 0 [8, 9]],
        peerReadMessageSize c = .ok c.length) ∧ al'.failed = false) ∧
      (status = kitOk → peerUnpack appended [] .reliable =
        .ok (kitOk, [encode 1 0 0 0 [7], encode 1 1 0 0 [8, 9]], .reliable)) ∧
      (status ≠ kitOk →
        ∃ some, peerUnpack appended [] .reliable = .ok (kitOk, some, .reliable) ∧
          some <+: [encode 1 0 0 0 [7], encode 1 1 0 0 [8, 9]]) :=
  peerUnpack_peerPack 1 2 [] (fun _ => true) _ (List.cons_ne_nil _ _) (by decide)

/-- The first packet that `peer_pack` makes of some chunks, or a blank one where it
makes none: the packets that a concrete run hands to a peer are written with it. -/
def packed (sourceId destinationId : Int) (chunks : List Chunk) : PeerPacket :=
  ((peerPack sourceId destinationId chunks [] .reliable).toOption.bind (·.2.1.head?)).getD
    (PeerPacket.blank sourceId destinationId)

end PeerProtocol
