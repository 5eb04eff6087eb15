import PeerProtocol.Wire.Packing

/-!
# peer — what peer_pack appends

Without allocation failures `peer_pack` leaves the packets that are there and
appends others, except where there is nothing to pack: the packet it then
makes goes to the start of the array, not to its end.

The source makes sure that there is at least one packet. It adds one behind
those that are there, but zeroes the first packet of the array, and gives that
one the ids; the new packet keeps what the memory held, and gets a header. To
state what that does, the model of the call is taken over the content of that
memory (`peerPackOver`); the model that the rest of the development uses is
the case of zeros.

The exception matters to a caller that collects the packets of several calls
in one list, as `peer_tick` does: a heartbeat whose chunks could not be
allocated overwrites the first packet of the tick.

## Results

* `peerPackOver`, `peerPack_eq_over` — the function over what the memory
  behind the array holds.
* `Finished` — a packet with nothing but its ids, its header and its messages:
  what a caller expects of each packet that was appended.
* `packLoop_loading` — the loop closes one packet after the other, for chunks
  of any form that fit.
* `appendsOnly_iff` — the call appends, whatever the memory holds, exactly if
  there is a chunk or no packet is there yet.
-/

namespace PeerProtocol

open Lib

-- ---------------------------------------------------------------------------
-- The memory behind the array
-- ---------------------------------------------------------------------------

/-- `peer_pack`, where `DA_RESIZE` finds `garbage` behind the array: the packet
that is added when there is no chunk is not cleared, unless it is the first. -/
def peerPackOver (garbage : PeerPacket) (sourceId destinationId : Int) (chunks : List Chunk)
    (outPackets : List PeerPacket) (al : Allocator) :
    Except Fault (Status × List PeerPacket × Allocator) := do
  let previousSize := outPackets.length
  let (status, out, offset, al) ←
    packLoop sourceId destinationId previousSize chunks outPackets peerPacketSize al
  if status ≠ kitOk then
    return (status, out, al)
  if out.length = previousSize then
    match al.request with
    | (false, al) => return (peerErrorBadAlloc, out, al)
    | (true, al) =>
      let out := (out ++ [garbage]).set 0 (PeerPacket.blank sourceId destinationId)
      return (kitOk, out.modify (out.length - 1) (·.writeHeader 0), al)
  else
    return (kitOk, out.modify (out.length - 1) (·.writeHeader offset), al)

/-- The model of `peer_pack` is the case where the memory holds zeros. -/
theorem peerPack_eq_over : peerPack = peerPackOver (PeerPacket.blank 0 0) := rfl

-- ---------------------------------------------------------------------------
-- Finished packets
-- ---------------------------------------------------------------------------

/-- A packet that carries the chunks: the ids, the plain mode byte, a size field
that is its size, the chunks, and zeros everywhere else. -/
structure Finished (src dst : Int) (p : PeerPacket) (cs : List Chunk) : Prop where
  sourceId : p.sourceId = src
  destinationId : p.destinationId = dst
  mode : p.data.elems[peerNPacketMode]? = some peerPacketModePlain
  sizeField : ∃ n, peerReadU16 (p.data.elems.drop peerNPacketSize) = .ok n ∧ p.size = (n : Nat)
  header : ∀ i < peerNPacketMode, p.data.elems[i]? = some 0
  messages : cs.flatten <+: p.data.elems.drop peerNPacketMessages
  rest : ∀ b ∈ p.data.elems.drop (peerNPacketMessages + cs.flatten.length), b = 0

/-- The size field of a packet is read back. -/
theorem peerReadU16_append {n : Nat} (h : n < 65536) (rest : List UInt8) :
    peerReadU16 (leBytes 2 n ++ rest) = .ok n := by
  show Except.ok ((UInt8.ofNat n).toNat ||| (UInt8.ofNat (n >>> 8)).toNat <<< 8) = Except.ok n
  rw [byte_or_shiftLeft (UInt8.ofNat n).toNat_lt, UInt8.toNat_ofNat', UInt8.toNat_ofNat',
    Nat.shiftRight_eq_div_pow]
  congr 1
  omega

section

variable {src dst : Int}

/-- A packet that the loop has closed is finished: its mode is plain, and its size
field is its size. -/
theorem Closed.finished {p : PeerPacket} {cs : List Chunk} (h : Closed src dst p cs) :
    Finished src dst p cs := by
  have hLe := h.size_le
  have hData := h.data
  rw [List.append_assoc, List.append_assoc] at hData
  -- Ids, size field and size first; then the mode bytes, the chunks and the zeros behind them.
  refine ⟨h.sourceId, h.destinationId, ?_, ⟨15 + cs.flatten.length, ?_, h.size⟩, ?_, ?_, ?_⟩
  · rw [hData]
    rfl
  · rw [hData, show peerNPacketSize = (List.replicate 13 (0 : UInt8)).length from rfl, List.drop_left]
    exact peerReadU16_append (by omega) _
  · intro i hi
    rw [peerNPacketMode] at hi
    rw [hData, List.getElem?_append_left (by rw [List.length_replicate]; omega),
      List.getElem?_replicate, if_pos (by omega)]
  · rw [hData, ← List.append_assoc, List.drop_left' (by simp [peerNPacketMessages])]
    exact List.prefix_append _ _
  · intro b hb
    have hLen : (List.replicate 13 0 ++ leBytes 2 (15 + cs.flatten.length) ++ cs.flatten).length =
        peerNPacketMessages + cs.flatten.length := by
      rw [List.length_append, List.length_append, List.length_replicate, length_leBytes]
    rw [hData, ← List.append_assoc, ← List.append_assoc, List.drop_left' hLen] at hb
    exact (List.mem_replicate.mp hb).2

/-- The packet that is made of nothing: a header, and no messages. -/
theorem finished_blank : Finished src dst ((PeerPacket.blank src dst).writeHeader 0) [] := by
  have hData : ((PeerPacket.blank src dst).writeHeader 0).data.elems = List.replicate 400 0 := by
    show overwrite (overwrite (List.replicate 400 0) 12 [0]) 13 [0, 0] = List.replicate 400 0
    decide +kernel
  refine ⟨rfl, rfl, ?_, ⟨0, ?_, rfl⟩, ?_, List.nil_prefix, ?_⟩
  · rw [hData]
    rfl
  · rw [hData, List.drop_replicate]
    decide
  · intro i hi
    rw [peerNPacketMode] at hi
    rw [hData, List.getElem?_replicate, if_pos (by omega)]
  · intro b hb
    rw [hData, List.drop_replicate] at hb
    exact (List.mem_replicate.mp hb).2

-- ---------------------------------------------------------------------------
-- The loop
-- ---------------------------------------------------------------------------

/-- **The loop**, once there is a packet: what it adds is closed, except for the
last, which is still being loaded. The packets that were there before the call are a
prefix that no turn writes to, and the chunks are found in the new ones in their
order. -/
theorem packLoop_loading {chunks : List Chunk}
    (hSize : ∀ c ∈ chunks, c.length ≤ 385 ∧ SizeMatches c) (prev : List PeerPacket)
    {done : List PeerPacket} {css : List (List Chunk)} {p : PeerPacket} {offset : Nat}
    {cs : List Chunk} (hDone : List.Forall₂ (Closed src dst) done css)
    (hLast : Loading src dst p offset cs) :
    ∃ done' css' p' offset' cs',
      packLoop src dst prev.length chunks (prev ++ (done ++ [p])) offset .reliable =
        .ok (kitOk, prev ++ (done' ++ [p']), offset', .reliable) ∧
      List.Forall₂ (Closed src dst) done' css' ∧ Loading src dst p' offset' cs' ∧
      css'.flatten ++ cs' = css.flatten ++ cs ++ chunks := by
  induction chunks generalizing done css p offset cs with
  | nil => exact ⟨done, css, p, offset, cs, rfl, hDone, hLast, by rw [List.append_nil]⟩
  | cons c chunks ih =>
    obtain ⟨⟨hMax, hMatch⟩, hRest⟩ := List.forall_mem_cons.mp hSize
    rw [packLoop]
    by_cases hFull : offset + c.length > peerPacketSize
    · -- the chunk goes to a new packet
      rw [if_pos hFull, startPacket_append]
      have hBlank : Loading src dst (PeerPacket.blank src dst) 15 [] := loading_blank
      obtain ⟨p', hAdd, hLast'⟩ := hBlank.addChunk hMatch
        (by omega) (prev ++ (done ++ [p.writeHeader offset]))
      rw [List.append_assoc, List.append_assoc prev] at hAdd
      obtain ⟨done', css', p'', offset', cs', hLoop, hDone', hLast'', hEq⟩ := ih hRest
        (List.rel_append hDone (.cons hLast.writeHeader .nil)) hLast'
      refine ⟨done', css', p'', offset', cs', ?_, hDone', hLast'', ?_⟩
      · dsimp only
        rw [if_neg (fun h => h rfl), hAdd, ok_bind]
        exact hLoop
      · rw [hEq]
        simp
    -- there is room in the packet that is being filled
    · rw [if_neg hFull]
      rw [peerPacketSize] at hFull
      obtain ⟨p', hAdd, hLast'⟩ := hLast.addChunk hMatch (by omega) (prev ++ done)
      rw [List.append_assoc, List.append_assoc] at hAdd
      obtain ⟨done', css', p'', offset', cs', hLoop, hDone', hLast'', hEq⟩ :=
        ih hRest hDone hLast'
      refine ⟨done', css', p'', offset', cs', ?_, hDone', hLast'', ?_⟩
      · dsimp only
        rw [if_neg (fun h => h rfl), hAdd, ok_bind]
        exact hLoop
      · rw [hEq]
        simp

end

-- ---------------------------------------------------------------------------
-- peer_pack
-- ---------------------------------------------------------------------------

/-- The call returns the packets that were there and then, in order, at least
one that carries some of the chunks. -/
def AppendsOnly (garbage : PeerPacket) (src dst : Int) (chunks : List Chunk)
    (out : List PeerPacket) : Prop :=
  ∃ ps css, peerPackOver garbage src dst chunks out .reliable = .ok (kitOk, out ++ ps, .reliable) ∧
    ps ≠ [] ∧ List.Forall₂ (Finished src dst) ps css ∧ css.flatten = chunks

/-- A chunk whose size field can be read has at least the bytes up to it. -/
theorem length_of_sizeMatches {c : Chunk} (h : SizeMatches c) : 10 ≤ c.length := by
  rw [SizeMatches, peerReadMessageSize, peerNMessageSize, peerNMessageSizeAndMode] at h
  obtain ⟨_, _, h⟩ := bind_eq_ok.mp h
  obtain ⟨_, hHi, _⟩ := bind_eq_ok.mp h
  have := (List.getElem?_eq_some_iff.mp (readAt_eq_ok.mp hHi)).1
  omega

/-- With a chunk to pack the loop adds a packet before anything else, so that the
end of the call finds one that is its own. -/
theorem appendsOnly_of_chunk (garbage : PeerPacket) (src dst : Int) {c : Chunk} {chunks : List Chunk}
    (hSize : ∀ d ∈ c :: chunks, d.length ≤ 385 ∧ SizeMatches d) (prev : List PeerPacket) :
    AppendsOnly garbage src dst (c :: chunks) prev := by
  obtain ⟨⟨hMax, hMatch⟩, hRest⟩ := List.forall_mem_cons.mp hSize
  -- the first chunk opens the first packet
  have hFull : 400 + c.length > peerPacketSize := by
    have := length_of_sizeMatches hMatch
    rw [peerPacketSize]
    omega
  have hStart : startPacket src dst prev.length prev 400 .reliable =
      (kitOk, prev ++ [PeerPacket.blank src dst], 15, .reliable) := by
    rw [startPacket, if_neg (Nat.lt_irrefl _), Allocator.request_reliable, peerNPacketMessages]
  have hBlank : Loading src dst (PeerPacket.blank src dst) 15 [] := loading_blank
  obtain ⟨p, hAdd, hLast⟩ := hBlank.addChunk hMatch (by omega) prev
  obtain ⟨done, css, p', offset, cs, hLoop, hDone, hLast', hEq⟩ :=
    packLoop_loading hRest prev (.nil : List.Forall₂ (Closed src dst) [] []) hLast
  rw [List.nil_append] at hLoop
  have hAll : packLoop src dst prev.length (c :: chunks) prev 400 .reliable =
      .ok (kitOk, prev ++ (done ++ [p']), offset, .reliable) := by
    rw [packLoop, if_pos hFull, hStart]
    dsimp only
    rw [if_neg (fun h => h rfl), hAdd, ok_bind]
    exact hLoop
  refine ⟨done ++ [p'.writeHeader offset], css ++ [cs], ?_, by simp,
    List.rel_append (hDone.imp fun _ _ h => h.finished) (.cons hLast'.writeHeader.finished .nil),
    by rw [List.flatten_append, List.flatten_singleton, hEq]; rfl⟩
  rw [peerPackOver, peerPacketSize, hAll, ok_bind]
  dsimp only
  rw [if_neg (fun h => h rfl), if_neg (by simp), ← List.append_assoc, modify_last, List.append_assoc]
  rfl

/-- **When peer_pack only appends**: if there is something to pack, or no packet is
there yet. With no chunks and packets of an earlier call, the call adds a packet and
then clears the first of all packets in its place. -/
theorem appendsOnly_iff (src dst : Int) {chunks : List Chunk}
    (hSize : ∀ c ∈ chunks, c.length ≤ peerPacketSize - peerNPacketMessages ∧
      peerReadMessageSize c = .ok c.length) (out : List PeerPacket) :
    (∀ garbage, AppendsOnly garbage src dst chunks out) ↔ chunks ≠ [] ∨ out = [] := by
  cases chunks with
  | cons c chunks =>
    exact ⟨fun _ => Or.inl (List.cons_ne_nil _ _),
      fun _ garbage => appendsOnly_of_chunk garbage src dst hSize out⟩
  | nil =>
    cases out with
    | nil =>
      exact ⟨fun _ => Or.inr rfl,
        fun _ garbage => ⟨_, [[]], rfl, by simp, .cons finished_blank .nil, rfl⟩⟩
    | cons p out =>
      refine ⟨fun h => ?_, fun h => by simp at h⟩
      -- a packet from elsewhere in the memory keeps its source id
      obtain ⟨ps, css, hPack, _, hFinished, _⟩ := h (PeerPacket.blank (src + 1) dst)
      have hOver : peerPackOver (PeerPacket.blank (src + 1) dst) src dst [] (p :: out) .reliable =
          .ok (kitOk, (PeerPacket.blank src dst :: out) ++
            [(PeerPacket.blank (src + 1) dst).writeHeader 0], .reliable) := by
        rw [← modify_last (PeerPacket.blank src dst :: out) (PeerPacket.blank (src + 1) dst)
          (·.writeHeader 0), peerPackOver, packLoop, ok_bind]
        dsimp only
        rw [if_neg (fun h => h rfl), if_pos rfl]
        rfl
      rw [hOver] at hPack
      obtain ⟨_, rfl⟩ := List.append_inj (Prod.mk.inj (Prod.mk.inj (Except.ok.inj hPack)).2).1
        (by simp)
      cases hFinished with
      | cons hLast _ =>
        have : src + 1 = src := hLast.sourceId
        omega

/-- A short message, and one that fills a packet by itself. -/
def unequalMessages : List Chunk :=
  [encode peerMessageModeApplication 0 0 1 [9],
    encode peerMessageModeApplication 1 0 1 (List.replicate 355 7)]

/-- Behind a packet of somebody else they become two packets, and that one stays. -/
theorem appendsOnly_behind :
    (peerPack 0 1 unequalMessages [PeerPacket.blank 5 6] .reliable).toOption.map
        (fun r => r.2.1.map fun p => (p.sourceId, p.size)) = some [(5, 0), (0, 46), (0, 400)] ∧
    ∀ garbage, AppendsOnly garbage 0 1 unequalMessages [PeerPacket.blank 5 6] :=
  ⟨by decide +kernel, (appendsOnly_iff 0 1 (by decide +kernel) [PeerPacket.blank 5 6]).mpr
    (Or.inl (List.cons_ne_nil _ _))⟩

/-- Nothing to pack, behind a packet: that packet is overwritten, and what it
carried is lost. -/
theorem not_appendsOnly_second :
    ¬ ∀ (garbage : PeerPacket) (src dst : Int) (chunks : List Chunk) (out : List PeerPacket),
      (∀ c ∈ chunks, c.length ≤ peerPacketSize - peerNPacketMessages ∧
        peerReadMessageSize c = .ok c.length) → AppendsOnly garbage src dst chunks out := by
  intro h
  obtain ⟨ps, _, hPack, _⟩ := h (PeerPacket.blank 0 0) 0 1 [] [PeerPacket.blank 5 6] (by simp)
  have hHead : (PeerPacket.blank 0 1).sourceId = (PeerPacket.blank 5 6).sourceId := by
    have hOut := (Prod.mk.inj (Prod.mk.inj (Except.ok.inj hPack)).2).1
    exact congrArg PeerPacket.sourceId (List.cons.inj hOut).1
  exact absurd hHead (by decide)

end PeerProtocol
