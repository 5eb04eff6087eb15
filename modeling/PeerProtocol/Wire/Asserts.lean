import PeerProtocol.Lib.Greedy
import PeerProtocol.Wire.Packing

/-!
# peer — the assertions of peer_pack

`peer_pack` in a debug build, where a false assertion ends the program. The
model of the rest of the development is the release build, in which they are
compiled out.

`peerPackDebug` is the function with its assertions on values, at the places
where the source has them; those on null pointers and on negative sizes have
nothing to look at here. It stops either with a fault or at an assertion, and
where it does neither it is the function without them (`peerPack_of_debug`),
so the two builds cannot be told apart by their results.

Two of the assertions are about sizes, and compare a size without the packet
header with one that includes it: a packet is closed at an offset below 385,
which is 370 bytes of messages. So a packet that is filled further, as a large
message or many small ones do, fails an assertion although nothing is wrong
with it.

## Plan

The loop is analysed backwards: what comes after it is a continuation
(`Ending`), and each turn asks for its assertions in front of the rest
(`packLoopDebug_cons`). A turn that adds to the packet only changes its load;
a turn that opens one asks that the load of the packet before is below the
limit. Over the whole list that is `Lib.Guarded`, a recursion on the sizes and
the outcomes, which `Lib.Greedy` turns into a statement about the groups of a
greedy split.

## Results

* `packLoopDebug_guarded` — the assertions of the loop, as a guard on the load
  of each packet it closes.
* `assertsHold_iff` — for messages that `peer_write_message` has written, no
  assertion fails exactly if each packet is closed below 370 bytes of
  messages.
-/

namespace PeerProtocol

open Lib

-- ---------------------------------------------------------------------------
-- The debug build
-- The definitions follow those of `Model.Packet`, with `assert` where the
-- source has it.
-- ---------------------------------------------------------------------------

/-- How a debug build stops: at a fault, as the other build does, or at an
assertion. -/
inductive Abort where
  | fault (f : Fault)
  | assertion
deriving DecidableEq

/-- `assert`: go on, or end the program. -/
def assertThat (p : Prop) [Decidable p] : Except Abort Unit :=
  if p then .ok () else .error .assertion

/-- A part of the function that has no assertion in it. -/
def unchecked {α : Type} : Except Fault α → Except Abort α
  | .ok a => .ok a
  | .error f => .error (.fault f)

/-- Make room for a chunk: where it does not fit, close the packet and add a new one. -/
def makeRoomDebug (sourceId destinationId : Int) (previousSize : Nat) (chunk : Chunk)
    (out : List PeerPacket) (offset : Nat) (al : Allocator) :
    Except Abort (Status × List PeerPacket × Nat × Allocator) :=
  if offset + chunk.length > peerPacketSize then do
    assertThat (out.length > previousSize → offset < 65536)
    assertThat (out.length > previousSize → offset < peerPacketSize - peerNPacketMessages)
    return startPacket sourceId destinationId previousSize out offset al
  else
    .ok (kitOk, out, offset, al)

/-- The turn's chunk, with the assertions on its size and on the list of packets. -/
def addChunkDebug (chunk : Chunk) (out : List PeerPacket) (offset : Nat) :
    Except Abort (Status × List PeerPacket) := do
  let chunkSize ← unchecked (peerReadMessageSize chunk)
  assertThat (chunk.length = chunkSize)
  assertThat (0 < out.length)
  assertThat (chunk.length + peerNPacketMessages < peerPacketSize)
  unchecked (addChunk chunk out offset)

/-- The loop, with the assertions of each turn. -/
def packLoopDebug (sourceId destinationId : Int) (previousSize : Nat) :
    List Chunk → List PeerPacket → Nat → Allocator →
      Except Abort (Status × List PeerPacket × Nat × Allocator)
  | [], out, offset, al => .ok (kitOk, out, offset, al)
  | chunk :: chunks, out, offset, al => do
    let (status, out, offset, al) ←
      makeRoomDebug sourceId destinationId previousSize chunk out offset al
    if status ≠ kitOk then
      return (status, out, offset, al)
    let (status, out) ← addChunkDebug chunk out offset
    if status ≠ kitOk then
      return (status, out, offset, al)
    packLoopDebug sourceId destinationId previousSize chunks out (offset + chunk.length) al

/-- The header of the last packet, with the assertions on the offset at the end of
the call. -/
def sealLastDebug (out : List PeerPacket) (offset : Nat) (al : Allocator) :
    Except Abort (Status × List PeerPacket × Allocator) := do
  assertThat (0 < out.length)
  assertThat (offset < 65536)
  assertThat (offset < peerPacketSize - peerNPacketMessages)
  return (kitOk, out.modify (out.length - 1) (·.writeHeader offset), al)

/-- What follows the loop: its status, or a packet where it added none, and the
last header. -/
def endPackDebug (sourceId destinationId : Int) (previousSize : Nat) :
    Status × List PeerPacket × Nat × Allocator →
      Except Abort (Status × List PeerPacket × Allocator)
  | (status, out, offset, al) =>
    if status ≠ kitOk then
      .ok (status, out, al)
    else if out.length = previousSize then
      match al.request with
      | (false, al) => .ok (peerErrorBadAlloc, out, al)
      | (true, al) =>
        let out := (out ++ [PeerPacket.blank 0 0]).set 0 (PeerPacket.blank sourceId destinationId)
        sealLastDebug out 0 al
    else
      sealLastDebug out offset al

/-- The whole call. The two ids must differ, which the release build does not look
at. -/
def peerPackDebug (sourceId destinationId : Int) (chunks : List Chunk)
    (outPackets : List PeerPacket) (al : Allocator) :
    Except Abort (Status × List PeerPacket × Allocator) := do
  assertThat (sourceId ≠ destinationId)
  let previousSize := outPackets.length
  let looped ← packLoopDebug sourceId destinationId previousSize chunks outPackets peerPacketSize al
  endPackDebug sourceId destinationId previousSize looped

/-- An assertion that is true does nothing. -/
theorem assertThat_pos {p : Prop} [Decidable p] (h : p) : assertThat p = .ok () := if_pos h

/-- A part without assertions ends well in both builds or in neither. -/
theorem unchecked_eq_ok {α : Type} {x : Except Fault α} {a : α} :
    unchecked x = .ok a ↔ x = .ok a := by
  cases x <;> simp [unchecked]

-- ---------------------------------------------------------------------------
-- The same function
-- Each part of the debug build that does not stop is the part of the other
-- build.
-- ---------------------------------------------------------------------------

theorem addChunk_of_debug {chunk : Chunk} {out : List PeerPacket} {offset : Nat}
    {r : Status × List PeerPacket} (h : addChunkDebug chunk out offset = .ok r) :
    addChunk chunk out offset = .ok r := by
  obtain ⟨n, _, h⟩ := bind_eq_ok.mp h
  obtain ⟨_, _, h⟩ := bind_eq_ok.mp h
  obtain ⟨_, _, h⟩ := bind_eq_ok.mp h
  obtain ⟨_, _, h⟩ := bind_eq_ok.mp h
  exact unchecked_eq_ok.mp h

theorem makeRoom_of_debug {src dst : Int} {previousSize : Nat} {chunk : Chunk}
    {out : List PeerPacket} {offset : Nat} {al : Allocator}
    {r : Status × List PeerPacket × Nat × Allocator}
    (h : makeRoomDebug src dst previousSize chunk out offset al = .ok r) :
    (if offset + chunk.length > peerPacketSize then startPacket src dst previousSize out offset al
      else (kitOk, out, offset, al)) = r := by
  unfold makeRoomDebug at h
  split at h
  · next hFull =>
    obtain ⟨_, _, h⟩ := bind_eq_ok.mp h
    obtain ⟨_, _, h⟩ := bind_eq_ok.mp h
    rw [if_pos hFull]
    exact Except.ok.inj h
  · next hLeft =>
    rw [if_neg hLeft]
    exact Except.ok.inj h

/-- The loop, by induction on the chunks: each turn goes on from the same packets,
since an assertion reads the size of the packet being filled and writes nothing. -/
theorem packLoop_of_debug {src dst : Int} {previousSize : Nat} {chunks : List Chunk}
    {out : List PeerPacket} {offset : Nat} {al : Allocator}
    {r : Status × List PeerPacket × Nat × Allocator}
    (h : packLoopDebug src dst previousSize chunks out offset al = .ok r) :
    packLoop src dst previousSize chunks out offset al = .ok r := by
  induction chunks generalizing out offset al with
  | nil =>
    rw [← Except.ok.inj h]
    rfl
  | cons chunk chunks ih =>
    -- a turn that passes its assertions is one of the release build
    obtain ⟨⟨s1, out1, offset1, al1⟩, hRoom, h⟩ := bind_eq_ok.mp h
    rw [packLoop, makeRoom_of_debug hRoom]
    dsimp only at h ⊢
    split at h
    · next hBad =>
      rw [if_pos hBad, ← Except.ok.inj h]
      rfl
    next hOk =>
    rw [if_neg hOk]
    obtain ⟨⟨s2, out2⟩, hAdd, h⟩ := bind_eq_ok.mp h
    rw [addChunk_of_debug hAdd, ok_bind]
    dsimp only at h ⊢
    split at h
    · next hBad =>
      rw [if_pos hBad, ← Except.ok.inj h]
      rfl
    · next hOk =>
      rw [if_neg hOk]
      exact ih h

/-- The end of the call where a packet was added. -/
theorem sealLast_of_debug {out : List PeerPacket} {offset : Nat} {al : Allocator}
    {r : Status × List PeerPacket × Allocator} (h : sealLastDebug out offset al = .ok r) :
    r = (kitOk, out.modify (out.length - 1) (·.writeHeader offset), al) := by
  obtain ⟨_, _, h⟩ := bind_eq_ok.mp h
  obtain ⟨_, _, h⟩ := bind_eq_ok.mp h
  obtain ⟨_, _, h⟩ := bind_eq_ok.mp h
  exact (Except.ok.inj h).symm

/-- **A debug build that does not stop does what the other build does**: the
assertions are the only difference between the two definitions, and where none fails
they return what they were given. -/
theorem peerPack_of_debug {src dst : Int} {chunks : List Chunk} {out : List PeerPacket}
    {al : Allocator} {r : Status × List PeerPacket × Allocator}
    (h : peerPackDebug src dst chunks out al = .ok r) : peerPack src dst chunks out al = .ok r := by
  obtain ⟨_, _, h⟩ := bind_eq_ok.mp h
  obtain ⟨⟨status, out1, offset, al1⟩, hLoop, h⟩ := bind_eq_ok.mp h
  -- where no assertion fails, both builds take the same branches
  rw [peerPack, packLoop_of_debug hLoop, ok_bind]
  rw [endPackDebug] at h
  dsimp only at h ⊢
  split at h
  · next hBad =>
    rw [if_pos hBad, ← Except.ok.inj h]
    rfl
  next hOk =>
  rw [if_neg hOk]
  split at h
  · next hNone =>
    rw [if_pos hNone]
    rcases hRequest : al1.request with ⟨b, al2⟩
    rw [hRequest] at h
    cases b with
    | false =>
      rw [← Except.ok.inj h]
      rfl
    | true =>
      rw [sealLast_of_debug h]
      rfl
  · next hSome =>
    rw [if_neg hSome, sealLast_of_debug h]
    rfl

-- ---------------------------------------------------------------------------
-- Legal messages
-- ---------------------------------------------------------------------------

/-- A chunk that `peer_write_message` has written, with data of a legal size: what
an application's message becomes. -/
def Written (c : Chunk) : Prop :=
  ∃ destination mode index time actor data written, data.length ≤ peerMaxMessageSize ∧
    peerWriteMessage destination mode index time actor data = .ok written ∧
    c = written.take (peerNMessageData + data.length)

/-- It fits a packet, and its size field is its length. -/
theorem Written.framed {c : Chunk} (h : Written c) : Framed c := by
  obtain ⟨destination, mode, index, time, actor, data, written, hData, hWrite, rfl⟩ := h
  simp only [peerMaxMessageSize, peerPacketSize, peerNPacketMessages, peerNMessageData] at hData
  have hRoom : 30 + data.length ≤ destination.length := by
    unfold peerWriteMessage at hWrite
    split at hWrite
    · assumption
    · cases hWrite
  rw [peerWriteMessage_eq hRoom] at hWrite
  obtain rfl := Except.ok.inj hWrite
  rw [peerNMessageData, List.take_left' (length_encode ..)]
  refine ⟨?_, ?_⟩
  · rw [Fits, length_encode]
    omega
  · exact peerReadMessageSize_encode_of_le (by omega)

-- ---------------------------------------------------------------------------
-- Which assertions fail
-- Statements of the form "does not stop at an assertion", which a fault does
-- not violate.
-- ---------------------------------------------------------------------------

section

variable {α β : Type}

/-- An assertion in front of the rest: it must be true, and the rest must get by. -/
theorem assert_bind_iff {p : Prop} [Decidable p] {f : Unit → Except Abort α} :
    (assertThat p >>= f) ≠ .error .assertion ↔ p ∧ f () ≠ .error .assertion := by
  unfold assertThat
  split
  · next h => exact ⟨fun hf => ⟨h, hf⟩, And.right⟩
  · next h => exact ⟨fun hf => absurd rfl hf, fun hp => absurd hp.1 h⟩

end

/-- Adding a legal message to a packet with room for it: it must be smaller
than what the whole packet has room for. -/
theorem addChunkDebug_eq {c : Chunk} (hFramed : Framed c) {out : List PeerPacket}
    (hOut : 0 < out.length) {offset : Nat} (hRoom : offset + c.length ≤ 400) :
    ∃ out', out'.length = out.length ∧
      addChunkDebug c out offset =
        if c.length < 385 then .ok (kitOk, out') else .error .assertion := by
  have hLast : out[out.length - 1]? = some out[out.length - 1] :=
    List.getElem?_eq_getElem (by omega)
  -- The copy itself goes through for any chunk that fits; only the assertion is stricter.
  obtain ⟨p, hCopy⟩ : ∃ p, (out[out.length - 1]).copyChunk offset c = .ok p := by
    rw [PeerPacket.copyChunk, dif_pos hRoom]
    exact ⟨_, rfl⟩
  have hAdd : addChunk c out offset = .ok (kitOk, out.set (out.length - 1) p) := by
    rw [addChunk, hFramed.size, ok_bind, if_neg (fun h => h rfl), readAt_eq_ok.mpr hLast, ok_bind,
      hCopy]
    rfl
  refine ⟨out.set (out.length - 1) p, List.length_set .., ?_⟩
  rw [addChunkDebug, hFramed.size, hAdd]
  simp only [assertThat, unchecked, peerNPacketMessages, peerPacketSize, hOut, if_true, ok_bind]
  split
  · rw [if_pos (by omega), ok_bind]
  · rw [if_neg (by omega), error_bind]

/-- The packets and the offset in the loop, against the load of the open packet:
none before the first packet. -/
def Loaded (previousSize : Nat) (out : List PeerPacket) (offset : Nat) : Option Nat → Prop
  | none => out.length = previousSize ∧ offset = 400
  | some load => previousSize < out.length ∧ offset = 15 + load ∧ load ≤ 385

/-- What comes after the loop, as far as its assertions matter: none after an error
or where no packet was added, and the bound on the offset otherwise. -/
structure Ending {α : Type} (previousSize : Nat)
    (f : Status × List PeerPacket × Nat × Allocator → Except Abort α) : Prop where
  bad : ∀ status out offset al, status ≠ kitOk → f (status, out, offset, al) ≠ .error .assertion
  none : ∀ out offset al, out.length = previousSize → f (kitOk, out, offset, al) ≠ .error .assertion
  some : ∀ out offset al, previousSize < out.length →
    (f (kitOk, out, offset, al) ≠ .error .assertion ↔ offset < 385)

section Loop

variable {α : Type} {src dst : Int} {previousSize : Nat}
  {f : Status × List PeerPacket × Nat × Allocator → Except Abort α}

/-- Once there is room for a chunk it is added, and the rest follows. The chunk is
framed and there is a packet by then, so only the assertion on its size is left: a
chunk that fills a packet by itself stops a debug build. -/
theorem packLoopDebug_cons {c : Chunk} (hFramed : Framed c) (chunks : List Chunk)
    {out out1 : List PeerPacket} {offset : Nat} {al al1 : Allocator} {load : Nat}
    (hMake : makeRoomDebug src dst previousSize c out offset al = .ok (kitOk, out1, 15 + load, al1))
    (hOut : previousSize < out1.length) (hRoom : load + c.length ≤ 385) :
    ∃ out2, previousSize < out2.length ∧
      packLoopDebug src dst previousSize (c :: chunks) out offset al =
        if c.length < 385 then
          packLoopDebug src dst previousSize chunks out2 (15 + (load + c.length)) al1
        else .error .assertion := by
  -- The room was made, so the chunk fits, and one turn is left to the lemma above.
  obtain ⟨out2, hLen, hAdd⟩ := addChunkDebug_eq hFramed (Nat.zero_lt_of_lt hOut)
    (show 15 + load + c.length ≤ 400 by omega)
  refine ⟨out2, by omega, ?_⟩
  rw [packLoopDebug, hMake, ok_bind]
  dsimp only
  rw [if_neg (fun h => h rfl), hAdd]
  split
  · rw [ok_bind, Nat.add_assoc]
    rfl
  · rfl

/-- The step of the loop, from where there is room for the chunk: the load grows by
its size, and no assertion of the turn can fail, as the chunk fits. -/
theorem packLoopDebug_step {c : Chunk} (hFramed : Framed c) {chunks : List Chunk}
    (ih : ∀ {out offset al load}, Loaded previousSize out offset load →
      ((packLoopDebug src dst previousSize chunks out offset al >>= f) ≠ .error .assertion ↔
        Guarded 385 370 load (chunks.map List.length) al.outcomes))
    {out out1 : List PeerPacket} {offset : Nat} {al al1 : Allocator} {load : Nat}
    (hMake : makeRoomDebug src dst previousSize c out offset al = .ok (kitOk, out1, 15 + load, al1))
    (hOut : previousSize < out1.length) (hRoom : load + c.length ≤ 385) :
    (packLoopDebug src dst previousSize (c :: chunks) out offset al >>= f) ≠ .error .assertion ↔
      Guarded 385 370 (some (load + c.length)) (chunks.map List.length) al1.outcomes := by
  obtain ⟨out2, hOut2, hLoop⟩ := packLoopDebug_cons hFramed chunks hMake hOut hRoom
  rw [hLoop]
  split
  · exact ih ⟨hOut2, rfl, hRoom⟩
  · next hLarge =>
    -- a chunk that fills a packet by itself overloads it, too
    rw [error_bind]
    refine ⟨fun h => absurd rfl h, fun hGuard => ?_⟩
    have := hGuard.load_lt
    omega

/-- The step of the loop, from where it asks for a new packet: if that is granted,
the chunk is the first of its load. -/
theorem packLoopDebug_open (hEnd : Ending previousSize f) {c : Chunk} (hFramed : Framed c)
    {chunks : List Chunk}
    (ih : ∀ {out offset al load}, Loaded previousSize out offset load →
      ((packLoopDebug src dst previousSize chunks out offset al >>= f) ≠ .error .assertion ↔
        Guarded 385 370 load (chunks.map List.length) al.outcomes))
    {out : List PeerPacket} {offset : Nat} {al : Allocator} (hOut : previousSize ≤ out.length)
    (hMake : makeRoomDebug src dst previousSize c out offset al =
      .ok (startPacket src dst previousSize out offset al)) :
    (packLoopDebug src dst previousSize (c :: chunks) out offset al >>= f) ≠ .error .assertion ↔
      (al.outcomes 0 = true → Guarded 385 370 (some c.length) (chunks.map List.length)
        fun k => al.outcomes (k + 1)) := by
  rw [startPacket, Allocator.request] at hMake
  cases hGrant : al.outcomes 0 with
  | true =>
    rw [hGrant] at hMake
    have hStep := packLoopDebug_step hFramed ih (show _ = Except.ok (kitOk, _, 15 + 0, _) from hMake)
      (by split <;> simp <;> omega) (by have := hFramed.fits.2; omega)
    rw [hStep, Nat.zero_add]
    exact ⟨fun h _ => h, fun h => h rfl⟩
  | false =>
    -- refused: the loop ends with the status of that
    rw [hGrant] at hMake
    refine ⟨fun _ hTrue => absurd hTrue (by simp), fun _ => ?_⟩
    rw [packLoopDebug, hMake, ok_bind]
    exact hEnd.bad _ _ _ _ (by decide)

/-- **The assertions of the loop and behind it**: every packet is closed below 370
bytes of messages. The packets are those of a greedy split of the chunks' sizes, so
the condition speaks of sizes and of the outcomes of the allocations alone, and not
of bytes. -/
theorem packLoopDebug_guarded (hEnd : Ending previousSize f) {chunks : List Chunk}
    (hFramed : ∀ c ∈ chunks, Framed c) {out : List PeerPacket} {offset : Nat} {al : Allocator}
    {load : Option Nat} (hLoaded : Loaded previousSize out offset load) :
    (packLoopDebug src dst previousSize chunks out offset al >>= f) ≠ .error .assertion ↔
      Guarded 385 370 load (chunks.map List.length) al.outcomes := by
  induction chunks generalizing out offset al load with
  | nil =>
    rw [packLoopDebug, ok_bind, List.map_nil]
    cases load with
    | none => exact ⟨fun _ => by rw [Guarded]; trivial, fun _ => hEnd.none _ _ _ hLoaded.1⟩
    | some load =>
      obtain ⟨hOut, rfl, _⟩ := hLoaded
      rw [hEnd.some _ _ _ hOut, Guarded]
      omega
  | cons c chunks ih =>
    obtain ⟨hHead, hTail⟩ := List.forall_mem_cons.mp hFramed
    obtain ⟨hMin, hMax⟩ := hHead.fits
    rw [List.map_cons]
    cases load with
    | none =>
      obtain ⟨hOut, rfl⟩ := hLoaded
      rw [Guarded]
      refine packLoopDebug_open hEnd hHead (ih hTail) hOut.ge ?_
      rw [makeRoomDebug, if_pos (by rw [peerPacketSize]; omega), assertThat_pos (by omega),
        assertThat_pos (by omega)]
      rfl
    | some load =>
      obtain ⟨hOut, rfl, hLoad⟩ := hLoaded
      rw [Guarded]
      split
      · next hRoom =>
        refine packLoopDebug_step hHead (ih hTail) ?_ hOut hRoom
        rw [makeRoomDebug, if_neg (by rw [peerPacketSize]; omega)]
      · next hFull =>
        -- the chunk goes to a new packet, and the one so far is closed
        have hMake : makeRoomDebug src dst previousSize c out (15 + load) al = (do
            assertThat (out.length > previousSize → 15 + load < peerPacketSize - peerNPacketMessages)
            .ok (startPacket src dst previousSize out (15 + load) al)) := by
          rw [makeRoomDebug, if_pos (by rw [peerPacketSize]; omega), assertThat_pos (by omega)]
          rfl
        rw [peerPacketSize, peerNPacketMessages] at hMake
        rcases Nat.lt_or_ge load 370 with hLight | hHeavy
        · rw [assertThat_pos (by omega)] at hMake
          rw [packLoopDebug_open hEnd hHead (ih hTail) hOut.le hMake]
          exact (and_iff_right hLight).symm
        · -- the packet that is closed here holds too much
          rw [assertThat, if_neg (by omega), error_bind] at hMake
          rw [packLoopDebug, hMake, error_bind, error_bind]
          exact ⟨fun h => absurd rfl h, fun h => absurd h.1 (by omega)⟩

end Loop

/-- The end of the call is such an ending, with the limit that it has in the source:
the last packet is closed there with the same assertion as those that the loop has
closed before it. -/
theorem ending_endPackDebug (src dst : Int) (previousSize : Nat) :
    Ending previousSize (endPackDebug src dst previousSize) where
  bad := fun status out offset al hBad => by
    rw [endPackDebug, if_pos hBad]
    exact fun hFailed => by cases hFailed
  -- Nothing was added in this call, so the packet that is sealed here is a new one.
  none := fun out offset al hOut => by
    rw [endPackDebug, if_neg (fun h => h rfl), if_pos hOut]
    rcases al.request with ⟨b, al⟩
    cases b with
    | false => exact fun hFailed => by cases hFailed
    | true =>
      dsimp only
      rw [sealLastDebug, assertThat_pos (by simp), assertThat_pos (by decide),
        assertThat_pos (by decide)]
      exact fun hFailed => by cases hFailed
  some := fun out offset al hOut => by
    rw [endPackDebug, if_neg (fun h => h rfl), if_neg (by omega), sealLastDebug,
      assertThat_pos (by omega), ok_bind, assert_bind_iff, assert_bind_iff, peerPacketSize,
      peerNPacketMessages]
    -- Of the three assertions on the last packet, only the bound on its size can fail.
    exact ⟨fun h => h.2.1, fun h => ⟨by omega, h, fun hFailed => by cases hFailed⟩⟩

/-- The whole call, from before its first packet. -/
theorem peerPackDebug_guarded {src dst : Int} (hIds : src ≠ dst) {chunks : List Chunk}
    (hFramed : ∀ c ∈ chunks, Framed c) (out : List PeerPacket) (al : Allocator) :
    peerPackDebug src dst chunks out al ≠ .error .assertion ↔
      Guarded 385 370 none (chunks.map List.length) al.outcomes := by
  rw [peerPackDebug, assertThat_pos hIds, ok_bind]
  exact packLoopDebug_guarded (ending_endPackDebug src dst out.length) hFramed ⟨rfl, rfl⟩

-- ---------------------------------------------------------------------------
-- The assertions of peer_pack
-- ---------------------------------------------------------------------------

/-- Every assertion that a debug build evaluates in a call is true. -/
def AssertsHold (src dst : Int) (chunks : List Chunk) (out : List PeerPacket) (al : Allocator) :
    Prop :=
  peerPackDebug src dst chunks out al ≠ .error .assertion

/-- **When the assertions hold**: the messages go into packets of up to 385
bytes of them, in order, a new packet only where the next does not fit. The
assertions want less than 370 bytes in each packet that is allocated. -/
theorem assertsHold_iff {src dst : Int} (hIds : src ≠ dst) {chunks : List Chunk}
    (hWritten : ∀ c ∈ chunks, Written c) (out : List PeerPacket) (al : Allocator) :
    AssertsHold src dst chunks out al ↔
      ∃ groups, groups.flatten = chunks.map List.length ∧ Greedy 385 groups ∧
        Light 370 al.outcomes groups := by
  have hFramed : ∀ c ∈ chunks, Framed c := fun c hc => (hWritten c hc).framed
  rw [AssertsHold, peerPackDebug_guarded hIds hFramed]
  refine guarded_iff_greedy (fun s hs => ?_) al.outcomes
  obtain ⟨c, hc, rfl⟩ := List.mem_map.mp hs
  exact (hFramed c hc).fits.2

/-- The message that `peer_write_message` makes of `n` zero bytes. -/
def zeroMessage (n : Nat) : Chunk := encode peerMessageModeApplication 0 0 0 (List.replicate n 0)

theorem written_zeroMessage {n : Nat} (h : n ≤ peerMaxMessageSize) : Written (zeroMessage n) := by
  refine ⟨List.replicate (30 + n) 0, peerMessageModeApplication, 0, 0, 0, List.replicate n 0, _,
    by simpa using h, peerWriteMessage_eq (by simp), ?_⟩
  rw [zeroMessage, peerNMessageData, List.take_left' (length_encode ..)]

/-- Two messages of 100 bytes: they share a packet that is closed at 275 bytes. -/
theorem assertsHold_two :
    (3 : Int) ≠ 4 ∧ (∀ c ∈ [zeroMessage 100, zeroMessage 100], Written c) ∧
      (AssertsHold 3 4 [zeroMessage 100, zeroMessage 100] [] .reliable ↔
        ∃ groups, groups.flatten = [zeroMessage 100, zeroMessage 100].map List.length ∧
          Greedy 385 groups ∧ Light 370 Allocator.reliable.outcomes groups) := by
  have hWritten : ∀ c ∈ [zeroMessage 100, zeroMessage 100], Written c := by
    intro c hc
    obtain rfl : c = zeroMessage 100 := by simpa using hc
    exact written_zeroMessage (by decide)
  exact ⟨by decide, hWritten, assertsHold_iff (by decide) hWritten [] .reliable⟩

/-- The largest message there can be fills a packet, and fails the assertion at its
end. -/
theorem not_assertsHold_max :
    ¬ ∀ (src dst : Int) (chunks : List Chunk) (out : List PeerPacket), src ≠ dst →
      (∀ c ∈ chunks, Written c) → AssertsHold src dst chunks out .reliable := by
  intro h
  have hWritten : Written (zeroMessage 355) := written_zeroMessage (by decide)
  have hHolds := h 3 4 [zeroMessage 355] [] (by decide) (by simpa using hWritten)
  have hLen : (zeroMessage 355).length = 385 := by
    rw [zeroMessage, length_encode, List.length_replicate]
  rw [AssertsHold, peerPackDebug_guarded (by decide) (by simpa using hWritten.framed),
    List.map_singleton, hLen, Guarded, Guarded] at hHolds
  exact absurd (hHolds rfl) (by decide)

end PeerProtocol
