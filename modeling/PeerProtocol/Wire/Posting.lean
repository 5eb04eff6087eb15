import PeerProtocol.Wire.Packing

/-!
# peer — what a call of peer_pack leaves behind

Whatever the sizes of the chunks, whatever the allocator does, and whether the
call succeeds or not: results about every run need to know what can be in a
packet that was emitted in the middle of a failure. `Wire.Packing` assumes
that the chunks fit; here a chunk may be too large for any packet, as a
message of more than 355 bytes is.

A call can stop at four places: a packet is refused, a size field is wrong, a
chunk is copied past the data array (the fault, after which there is no
result), or nothing was to be packed and the one packet is refused. In each
case what it has appended are packets between the two ids it was given, and
those that were closed yield chunks of the call, in order.

The packet that is made when there is nothing to pack is the exception: behind
other packets it is not one that the call has filled, and its ids are not
known. A reliable allocator excludes it, as does a list of chunks that is not
empty.

## Results

* `Between`, `packLoop_between`, `peerPack_between` — the call appends
  packets, all between the two ids it is given.
* `packLoop_large` — the loop at a chunk that is too large: it faults, or it
  stops with an error.
* `peerPack_posted` — for complete messages, those packets yield the chunks up
  to where the call stopped.
-/

namespace PeerProtocol

open Lib

variable {src dst : Int}

-- ---------------------------------------------------------------------------
-- The ids
-- No part of the call writes the ids of a packet, other than when it adds it.
-- ---------------------------------------------------------------------------

/-- Packets from one id to another: their bytes may be anything. It is all that is
known of a packet that was open when a call has stopped. -/
def Between (src dst : Int) (ps : List PeerPacket) : Prop :=
  ∀ p ∈ ps, p.sourceId = src ∧ p.destinationId = dst

/-- No packets are between any two ids. -/
theorem between_nil : Between src dst [] := by simp [Between]

/-- Packets of two calls with the same ids. -/
theorem Between.append {ps qs : List PeerPacket} (hp : Between src dst ps)
    (hq : Between src dst qs) : Between src dst (ps ++ qs) := by
  intro p h
  rcases List.mem_append.mp h with h | h
  · exact hp p h
  · exact hq p h

/-- A change to the last packet, behind the packets that were there, leaves the ids
if the change does: writing a header or copying a chunk. -/
theorem Between.modify {ps : List PeerPacket} (h : Between src dst ps) (hNe : ps ≠ [])
    (prev : List PeerPacket) {f : PeerPacket → PeerPacket}
    (hf : ∀ p, (f p).sourceId = p.sourceId ∧ (f p).destinationId = p.destinationId) :
    ∃ qs, (prev ++ ps).modify ((prev ++ ps).length - 1) f = prev ++ qs ∧ qs ≠ [] ∧
      Between src dst qs := by
  obtain ⟨init, last, rfl⟩ : ∃ init last, ps = init ++ [last] :=
    ⟨ps.dropLast, ps.getLast hNe, (List.dropLast_concat_getLast hNe).symm⟩
  refine ⟨init ++ [f last], ?_, by simp, ?_⟩
  · rw [← List.append_assoc, modify_last, List.append_assoc]
  · intro p hp
    rcases List.mem_append.mp hp with hOld | hNew
    · exact h p (List.mem_append_left _ hOld)
    · obtain ⟨hSource, hDestination⟩ := hf last
      obtain ⟨hS, hD⟩ := h last (by simp)
      rw [List.mem_singleton.mp hNew]
      exact ⟨hSource.trans hS, hDestination.trans hD⟩

/-- The packet that a turn adds has the ids of the call, which are written when it
is added; a refused request adds none and reports it, so after a turn that goes on
there is a packet to fill. -/
theorem startPacket_between {prev ps out' : List PeerPacket} {offset offset' : Nat}
    {al al' : Allocator} {s : Status} (hps : Between src dst ps)
    (h : startPacket src dst prev.length (prev ++ ps) offset al = (s, out', offset', al')) :
    ∃ ps', out' = prev ++ ps' ∧ Between src dst ps' ∧ (s = kitOk → ps' ≠ []) := by
  -- the header of the packet before is written, if it is one of the new
  obtain ⟨qs, hOut, hqs⟩ : ∃ qs, (if (prev ++ ps).length > prev.length then
      (prev ++ ps).modify ((prev ++ ps).length - 1) (·.writeHeader offset) else prev ++ ps) =
        prev ++ qs ∧ Between src dst qs := by
    split
    · next hSome =>
      have hNe : ps ≠ [] := by
        rintro rfl
        simp at hSome
      obtain ⟨qs, hEq, _, hqs⟩ := hps.modify hNe prev (f := (·.writeHeader offset)) fun _ => ⟨rfl, rfl⟩
      exact ⟨qs, hEq, hqs⟩
    · exact ⟨ps, rfl, hps⟩
  rw [startPacket, hOut] at h
  rcases hRequest : al.request with ⟨b, al1⟩
  rw [hRequest] at h
  cases b with
  | true =>
    obtain ⟨_, hPackets⟩ := Prod.mk.inj h
    obtain ⟨rfl, _⟩ := Prod.mk.inj hPackets
    refine ⟨qs ++ [PeerPacket.blank src dst], List.append_assoc .., hqs.append ?_, by simp⟩
    intro p hp
    rw [List.mem_singleton.mp hp]
    exact ⟨rfl, rfl⟩
  | false =>
    obtain ⟨rfl, hPackets⟩ := Prod.mk.inj h
    obtain ⟨rfl, _⟩ := Prod.mk.inj hPackets
    exact ⟨qs, rfl, hqs, fun hOk => absurd hOk (by decide)⟩

/-- The packet that a chunk is added to is one of the call's own: the last packet,
and there is one of this call by then. Its ids stay, since only its bytes and its
size are written. -/
theorem addChunk_between {prev ps out' : List PeerPacket} {offset : Nat} {chunk : Chunk}
    {s : Status} (hps : Between src dst ps) (hNe : ps ≠ [])
    (h : addChunk chunk (prev ++ ps) offset = .ok (s, out')) :
    ∃ ps', out' = prev ++ ps' ∧ Between src dst ps' ∧ ps' ≠ [] := by
  obtain ⟨n, _, h⟩ := bind_eq_ok.mp h
  split at h
  · obtain ⟨_, rfl⟩ := Prod.mk.inj (Except.ok.inj h)
    exact ⟨ps, rfl, hps, hNe⟩
  · obtain ⟨last, hLast, h⟩ := bind_eq_ok.mp h
    obtain ⟨last', hCopy, h⟩ := bind_eq_ok.mp h
    obtain ⟨_, rfl⟩ := Prod.mk.inj (Except.ok.inj h)
    have hIds : last'.sourceId = last.sourceId ∧ last'.destinationId = last.destinationId := by
      unfold PeerPacket.copyChunk at hCopy
      split at hCopy
      · rw [← Except.ok.inj hCopy]
        exact ⟨rfl, rfl⟩
      · cases hCopy
    -- the chunk goes to the last packet, which is one of the new
    obtain ⟨init, p, rfl⟩ : ∃ init p, ps = init ++ [p] :=
      ⟨ps.dropLast, ps.getLast hNe, (List.dropLast_concat_getLast hNe).symm⟩
    have hLen : (prev ++ (init ++ [p])).length - 1 = (prev ++ init).length := by simp
    rw [hLen, readAt_eq_ok, ← List.append_assoc, List.getElem?_append_right (Nat.le_refl _),
      Nat.sub_self] at hLast
    obtain rfl : p = last := Option.some.inj hLast
    refine ⟨init ++ [last'], ?_, ?_, by simp⟩
    · rw [hLen, ← List.append_assoc, List.set_append_right _ _ (Nat.le_refl _), Nat.sub_self,
        ← List.append_assoc]
      rfl
    · intro q hq
      rcases List.mem_append.mp hq with hOld | hNew
      · exact hps q (List.mem_append_left _ hOld)
      · obtain ⟨hS, hD⟩ := hps p (by simp)
        rw [List.mem_singleton.mp hNew]
        exact ⟨hIds.1.trans hS, hIds.2.trans hD⟩

/-- The loop over the chunks: all it appends has the ids of the call. Before the
first packet its offset is past every packet, so its first turn adds one and never
fills the last packet of an earlier call. -/
theorem packLoop_between {chunks : List Chunk} {prev ps out' : List PeerPacket}
    {offset offset' : Nat} {al al' : Allocator} {s : Status} (hps : Between src dst ps)
    (hOffset : ps = [] → offset = peerPacketSize)
    (h : packLoop src dst prev.length chunks (prev ++ ps) offset al = .ok (s, out', offset', al')) :
    ∃ ps', out' = prev ++ ps' ∧ Between src dst ps' ∧
      (s = kitOk → chunks ≠ [] ∨ ps ≠ [] → ps' ≠ []) := by
  induction chunks generalizing ps offset al with
  | nil =>
    obtain ⟨_, hPackets⟩ := Prod.mk.inj (Except.ok.inj h)
    obtain ⟨rfl, _⟩ := Prod.mk.inj hPackets
    exact ⟨ps, rfl, hps, fun _ hNe => hNe.resolve_left (fun h => h rfl)⟩
  | cons chunk chunks ih =>
    obtain ⟨s1, out1, offset1, al1, hRoom, hTurn⟩ := packLoop_cons_cases h
    -- after room was made there is a packet, which only the first chunk can be without
    obtain ⟨ps1, rfl, hps1, hNe1⟩ : ∃ ps1, out1 = prev ++ ps1 ∧ Between src dst ps1 ∧
        (s1 = kitOk → chunk ≠ [] → ps1 ≠ []) := by
      split at hRoom
      · obtain ⟨ps1, hOut, hps1, hNe1⟩ := startPacket_between hps hRoom
        exact ⟨ps1, hOut, hps1, fun hOk _ => hNe1 hOk⟩
      · next hFits =>
        obtain ⟨_, hPackets⟩ := Prod.mk.inj hRoom
        obtain ⟨rfl, _⟩ := Prod.mk.inj hPackets
        refine ⟨ps, rfl, hps, fun _ hChunk hNil => ?_⟩
        have := List.length_pos_iff.mpr hChunk
        rw [hOffset hNil] at hFits
        omega
    rcases hTurn with ⟨hBad, hEnd⟩ | ⟨hOk1, s2, out2, hAdd, hTurn⟩
    · obtain ⟨rfl, hPackets⟩ := Prod.mk.inj hEnd
      obtain ⟨rfl, _⟩ := Prod.mk.inj hPackets
      exact ⟨ps1, rfl, hps1, fun hOk => absurd hOk hBad⟩
    -- the readers of an empty chunk fail, so it is never packed
    have hChunk : chunk ≠ [] := by
      rintro rfl
      obtain ⟨_, hSize, _⟩ := bind_eq_ok.mp hAdd
      cases hSize
    obtain ⟨ps2, rfl, hps2, hNe2⟩ := addChunk_between hps1 (hNe1 hOk1 hChunk) hAdd
    rcases hTurn with ⟨hBad, hEnd⟩ | ⟨_, hLoop⟩
    · obtain ⟨rfl, hPackets⟩ := Prod.mk.inj hEnd
      obtain ⟨rfl, _⟩ := Prod.mk.inj hPackets
      exact ⟨ps2, rfl, hps2, fun hOk => absurd hOk hBad⟩
    -- the rest finds a packet behind the old ones
    · obtain ⟨ps', hOut, hps', hNe'⟩ := ih hps2 (fun hNil => absurd hNil hNe2) hLoop
      exact ⟨ps', hOut, hps', fun hOk _ => hNe' hOk (Or.inr hNe2)⟩

/-- **The ids of what is appended**, if there is something to pack or no packet was
there: source and destination of the call, whatever the outcomes of the allocations.
With neither, the ids would go to the first packet of an earlier call. -/
theorem peerPack_between {chunks : List Chunk} {prev out : List PeerPacket} {al al' : Allocator}
    {s : Status} (hSome : chunks ≠ [] ∨ prev = [])
    (h : peerPack src dst chunks prev al = .ok (s, out, al')) :
    ∃ ps, out = prev ++ ps ∧ Between src dst ps := by
  obtain ⟨⟨s1, out1, offset, al1⟩, hLoop, h⟩ := bind_eq_ok.mp h
  obtain ⟨ps, rfl, hps, hNe⟩ := packLoop_between between_nil (fun _ => rfl)
    (show packLoop src dst prev.length chunks (prev ++ []) peerPacketSize al = _ by
      rw [List.append_nil]
      exact hLoop)
  dsimp only at h
  split at h
  · obtain ⟨_, hPackets⟩ := Prod.mk.inj (Except.ok.inj h)
    obtain ⟨rfl, _⟩ := Prod.mk.inj hPackets
    exact ⟨ps, rfl, hps⟩
  next hOk =>
  split at h
  · next hNone =>
    obtain rfl : ps = [] := by simpa using hNone
    rcases hRequest : al1.request with ⟨b, al2⟩
    rw [hRequest] at h
    cases b with
    | false =>
      obtain ⟨_, hPackets⟩ := Prod.mk.inj (Except.ok.inj h)
      obtain ⟨rfl, _⟩ := Prod.mk.inj hPackets
      exact ⟨[], rfl, between_nil⟩
    | true =>
      -- no chunk was packed, so the new packet is the first
      obtain rfl : prev = [] :=
        hSome.resolve_left fun hChunks => hNe (not_not.mp hOk) (Or.inl hChunks) rfl
      obtain ⟨_, hPackets⟩ := Prod.mk.inj (Except.ok.inj h)
      obtain ⟨rfl, _⟩ := Prod.mk.inj hPackets
      refine ⟨_, rfl, ?_⟩
      intro p hp
      obtain rfl : p = (PeerPacket.blank src dst).writeHeader 0 := List.mem_singleton.mp hp
      exact ⟨rfl, rfl⟩
  · next hNotNone =>
    have hps' : ps ≠ [] := by
      rintro rfl
      simp at hNotNone
    obtain ⟨_, hPackets⟩ := Prod.mk.inj (Except.ok.inj h)
    obtain ⟨rfl, _⟩ := Prod.mk.inj hPackets
    -- the size of the last packet is written once more
    obtain ⟨qs, hEq, _, hqs⟩ := hps.modify hps' prev (f := (·.writeHeader offset)) fun _ => ⟨rfl, rfl⟩
    exact ⟨qs, hEq, hqs⟩

-- ---------------------------------------------------------------------------
-- What the packets yield
-- ---------------------------------------------------------------------------

/-- Packets between two ids that yield a part of the chunks, from the first on, each
in one packet and in order. -/
def Posted (src dst : Int) (ps : List PeerPacket) (cs : List Chunk) : Prop :=
  Between src dst ps ∧ ∃ css, List.Forall₂ Yields ps css ∧ css.flatten <+: cs

/-- The loop over two lists of chunks is one loop after the other, if the first does
not stop. With it the first chunk that does not fit can be singled out, and what
comes before and behind it treated apart. -/
theorem packLoop_append {previousSize : Nat} (cs ds : List Chunk) (out : List PeerPacket)
    (offset : Nat) (al : Allocator) :
    packLoop src dst previousSize (cs ++ ds) out offset al = (do
      let (status, out, offset, al) ← packLoop src dst previousSize cs out offset al
      if status ≠ kitOk then
        .ok (status, out, offset, al)
      else packLoop src dst previousSize ds out offset al) := by
  induction cs generalizing out offset al with
  | nil =>
    rw [packLoop, ok_bind]
    dsimp only
    rw [if_neg (fun h => h rfl), List.nil_append]
  | cons c cs ih =>
    rw [List.cons_append, packLoop, packLoop]
    -- how room is made for the first chunk does not matter
    generalize (if offset + c.length > peerPacketSize then
      startPacket src dst previousSize out offset al else (kitOk, out, offset, al)) = room
    obtain ⟨s1, out1, offset1, al1⟩ := room
    dsimp only
    split
    · next hBad =>
      rw [pure_eq_ok, ok_bind]
      dsimp only
      rw [if_pos hBad]
    · rw [bind_assoc]
      refine bind_congr fun r => ?_
      split
      · next hBad =>
        rw [pure_eq_ok, ok_bind]
        dsimp only
        rw [if_pos hBad]
      · exact ih _ _ _

/-- The loop stops at a chunk that is too large, if it ends at all: with a refused
request, or with a size field that is not the chunk's length. Otherwise the chunk
would be copied past the end of a fresh packet, which is the fault that the
hypothesis excludes. -/
theorem packLoop_large {prev out out' : List PeerPacket} {offset offset' : Nat} {cs chunks : List Chunk}
    {c : Chunk} {al al' : Allocator} {s : Status} (hState : PackState src dst prev out offset cs)
    (hLarge : 385 < c.length)
    (h : packLoop src dst prev.length (c :: chunks) out offset al = .ok (s, out', offset', al')) :
    s ≠ kitOk ∧ ∀ later, Stopped prev out' (cs ++ later) := by
  have hOffset : 15 ≤ offset := by
    cases hState with
    | start => omega
    | filling _ hLast =>
      have := hLast.offset_eq
      omega
  obtain ⟨out1, hStart, hNext⟩ := hState.startPacket al
  obtain ⟨s1, out2, offset2, al2, hRoom, hTurn⟩ := packLoop_cons_cases h
  rw [if_pos (by rw [peerPacketSize]; omega), hStart] at hRoom
  cases hAlloc : al.outcomes 0 with
  | false =>
    -- no packet for the chunk
    rw [hAlloc, if_neg (by decide)] at hRoom hNext
    obtain ⟨rfl, hPackets⟩ := Prod.mk.inj hRoom
    obtain ⟨rfl, _⟩ := Prod.mk.inj hPackets
    rcases hTurn with ⟨_, hEnd⟩ | ⟨hOk, _⟩
    · obtain ⟨rfl, hPackets⟩ := Prod.mk.inj hEnd
      obtain ⟨rfl, _⟩ := Prod.mk.inj hPackets
      exact ⟨by decide, hNext⟩
    · exact absurd hOk (by decide)
  | true =>
    rw [hAlloc, if_pos rfl] at hRoom hNext
    obtain ⟨rfl, hPackets⟩ := Prod.mk.inj hRoom
    obtain ⟨rfl, hRest⟩ := Prod.mk.inj hPackets
    obtain ⟨rfl, _⟩ := Prod.mk.inj hRest
    rcases hTurn with ⟨hBad, _⟩ | ⟨_, s2, out3, hAdd, hTurn⟩
    · exact absurd rfl hBad
    -- a size field that is right lets the copy run past the packet
    rcases addChunk_cases hAdd with ⟨rfl, rfl⟩ | ⟨_, hInside⟩
    · rcases hTurn with ⟨_, hEnd⟩ | ⟨hOk, _⟩
      · obtain ⟨rfl, hPackets⟩ := Prod.mk.inj hEnd
        obtain ⟨rfl, _⟩ := Prod.mk.inj hPackets
        exact ⟨by decide, hNext.stopped⟩
      · exact absurd hOk (by decide)
    · omega

/-- The first chunk of several that is too large for a packet, and those before it,
which fit. -/
theorem exists_first_large {chunks : List Chunk} (hMin : ∀ c ∈ chunks, 30 ≤ c.length)
    (hNotFits : ¬ ∀ c ∈ chunks, Fits c) :
    ∃ fitting large rest, chunks = fitting ++ large :: rest ∧ (∀ c ∈ fitting, Fits c) ∧
      385 < large.length := by
  push Not at hNotFits
  obtain ⟨c, hc, hNotFits⟩ := hNotFits
  have hSome : (chunks.find? fun c => decide (385 < c.length)).isSome = true := by
    rw [List.find?_isSome]
    refine ⟨c, hc, decide_eq_true ?_⟩
    rw [Fits] at hNotFits
    have := hMin c hc
    omega
  obtain ⟨large, hFind⟩ := Option.isSome_iff_exists.mp hSome
  obtain ⟨hLarge, fitting, rest, rfl, hFit⟩ := List.find?_eq_some_iff_append.mp hFind
  refine ⟨fitting, large, rest, rfl, fun d hd => ⟨hMin d (List.mem_append_left _ hd), ?_⟩,
    of_decide_eq_true hLarge⟩
  simpa using hFit d hd

/-- **What the appended packets yield**: the chunks, if the call succeeds, and
otherwise a part of them, in their order and from the first one on. No allocator
makes the call append anything else. -/
theorem peerPack_posted {chunks : List Chunk} (hNe : chunks ≠ []) (hMin : ∀ c ∈ chunks, 30 ≤ c.length)
    {prev out : List PeerPacket} {al al' : Allocator} {s : Status}
    (h : peerPack src dst chunks prev al = .ok (s, out, al')) :
    ∃ ps, out = prev ++ ps ∧ Posted src dst ps chunks := by
  obtain ⟨ps, rfl, hps⟩ := peerPack_between (Or.inl hNe) h
  refine ⟨ps, rfl, hps, ?_⟩
  by_cases hFits : ∀ c ∈ chunks, Fits c
  · obtain ⟨status, qs, al1, hPack, hOk, hErr, _⟩ := peerPack_spec src dst hNe hFits prev al
    rw [hPack] at h
    obtain ⟨rfl, hPackets⟩ := Prod.mk.inj (Except.ok.inj h)
    obtain rfl : qs = ps := List.append_cancel_left (Prod.mk.inj hPackets).1
    by_cases hStatus : status = kitOk
    · obtain ⟨⟨css, hSealed, hFlatten⟩, _, _⟩ := hOk hStatus
      exact ⟨css, yields_of_sealed hSealed, hFlatten ▸ List.prefix_rfl⟩
    · exact (hErr hStatus).1
  · -- the loop packs the chunks before the first that is too large, and stops there
    obtain ⟨fitting, large, rest, rfl, hFit, hLarge⟩ := exists_first_large hMin hFits
    obtain ⟨⟨s1, out1, offset, al1⟩, hLoop, h⟩ := bind_eq_ok.mp h
    obtain ⟨status, out2, offset2, al2, hFitting, hOk, hErr, _⟩ :=
      packLoop_spec hFit (.start : PackState src dst prev prev 400 []) al
    rw [peerPacketSize, packLoop_append, hFitting, ok_bind] at hLoop
    dsimp only at hLoop
    have hStopped : s1 ≠ kitOk ∧ Stopped prev out1 (fitting ++ large :: rest) := by
      split at hLoop
      · -- or an allocation failed before
        next hBad =>
        obtain ⟨rfl, hPackets⟩ := Prod.mk.inj (Except.ok.inj hLoop)
        obtain ⟨rfl, _⟩ := Prod.mk.inj hPackets
        obtain ⟨ps', css, hOut, hYields, hPrefix⟩ := (hErr hBad).1
        exact ⟨hBad, ps', css, hOut, hYields, hPrefix.trans (List.prefix_append _ _)⟩
      · next hGood =>
        obtain ⟨hBad, hStopped⟩ := packLoop_large (hOk (not_not.mp hGood)).1 hLarge hLoop
        exact ⟨hBad, hStopped (large :: rest)⟩
    obtain ⟨hBad, ps', css, hOut, hYields, hPrefix⟩ := hStopped
    dsimp only at h
    rw [if_pos hBad] at h
    obtain ⟨_, hPackets⟩ := Prod.mk.inj (Except.ok.inj h)
    rw [hOut] at hPackets
    obtain rfl : ps' = ps := List.append_cancel_left (Prod.mk.inj hPackets).1
    exact ⟨css, hYields, hPrefix⟩

end PeerProtocol
