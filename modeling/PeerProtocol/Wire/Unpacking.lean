import PeerProtocol.Lib.Lists
import PeerProtocol.Wire.Framing

/-!
# peer — unpacking where allocations fail

`peer_unpack` makes two requests for a message: one for its place in the list
of chunks, and one for its bytes. If the first is refused, the packet ends
there; if only the second is, an empty chunk stays in the list, which is no
message, and the header readers of the caller would look past its end.

The messages of a packet are a matter of its bytes alone: the walk over the
size fields does not depend on the allocator (`messagesOf`). What the
allocator decides is how many of them arrive. So the result is put in two
parts that meet in the middle: which messages there are, and for which streams
of outcomes a place is granted and its bytes are not.

The outcomes are followed through the packets: `outcomesAfter` is the stream
that is left when a packet with so many messages has been dealt with, and
`LeftBy` relates it to the chunks that have come out.

## Results

* `walk_messagesFrom` — the messages are those of the walk over the size
  fields, so that the loop never runs out of fuel.
* `outcomesAfter`, `PlacesFilled` — the outcomes for which no place stays
  empty, over a list of packets with so many messages each.
* `unpackMessages_outcomes`, `peerUnpack_outcomes` — what one packet, and the
  list of them, leave in the list of chunks.
* `completeChunks_iff` — exactly with such outcomes all chunks are messages.
-/

namespace PeerProtocol

open Lib

variable {data : Buffer UInt8 peerPacketSize} {size : Int}

-- ---------------------------------------------------------------------------
-- The messages of a packet
-- The walk over the size fields as a function.
-- ---------------------------------------------------------------------------

/-- The messages in the data from offset `o` on, one behind another, as long as
their size fields say. The first whose size field is zero or leads past the data
ends them. -/
def messagesFrom (data : Buffer UInt8 peerPacketSize) (size : Int) : Nat → Nat → List Chunk
  | 0, _ => []
  | fuel + 1, o =>
    if (o : Int) + peerNMessageData ≤ size then
      match peerReadMessageSize (data.elems.drop o) with
      | .error _ => []
      | .ok n =>
        if n = 0 ∨ o + n > peerPacketSize then []
        else (data.elems.drop o).take n :: messagesFrom data size fuel (o + n)
    else []

/-- The messages of a packet; one whose size is refused has none, and one of size
zero is refused by the first bound as well. -/
def messagesOf (packet : PeerPacket) : List Chunk :=
  if packet.size < peerNPacketMessages ∨ packet.size > peerPacketSize then []
  else messagesFrom packet.data packet.size peerPacketSize peerNPacketMessages

/-- The walk ends where less than a header is left. -/
theorem messagesFrom_done {fuel o : Nat} (h : ¬ (o : Int) + 30 ≤ size) :
    messagesFrom data size (fuel + 1) o = [] := if_neg h

/-- It ends at a size field that is zero or leads past the data array. -/
theorem messagesFrom_refuse {fuel o n : Nat} (hLeft : (o : Int) + 30 ≤ size)
    (hRead : peerReadMessageSize (data.elems.drop o) = .ok n) (hRefuse : n = 0 ∨ 400 < o + n) :
    messagesFrom data size (fuel + 1) o = [] := by
  rw [messagesFrom, if_pos (show (o : Int) + peerNMessageData ≤ size from hLeft), hRead]
  exact if_pos hRefuse

/-- Otherwise the message is cut out, and the walk goes on behind it. -/
theorem messagesFrom_step {fuel o n : Nat} (hLeft : (o : Int) + 30 ≤ size)
    (hRead : peerReadMessageSize (data.elems.drop o) = .ok n) (hStep : ¬ (n = 0 ∨ 400 < o + n)) :
    messagesFrom data size (fuel + 1) o =
      (data.elems.drop o).take n :: messagesFrom data size fuel (o + n) := by
  rw [messagesFrom, if_pos (show (o : Int) + peerNMessageData ≤ size from hLeft), hRead]
  exact if_neg hStep

/-- A size field inside the packet can be read, as the packet is no longer than its
array. -/
theorem readSize_isOk (hSize : size ≤ 400) {o : Nat} (hLeft : (o : Int) + 30 ≤ size) :
    ∃ n, peerReadMessageSize (data.elems.drop o) = .ok n := by
  obtain ⟨n, hRead, _⟩ := peerReadMessageSize_isOk (show 10 ≤ (data.elems.drop o).length by
    rw [List.length_drop, data.length_eq, peerPacketSize]
    omega)
  exact ⟨n, hRead⟩

/-- The messages are those of the walk over the size fields, if there is fuel for
the bytes that are left. -/
theorem walk_messagesFrom (hSize : size ≤ 400) {fuel o : Nat} (hFuel : 400 ≤ o + fuel) :
    Walk data size o (messagesFrom data size fuel o) := by
  induction fuel generalizing o with
  | zero => exact .done (by omega)
  | succ fuel ih =>
    by_cases hLeft : (o : Int) + 30 ≤ size
    · obtain ⟨n, hRead⟩ : ∃ n, peerReadMessageSize (data.elems.drop o) = .ok n :=
        readSize_isOk hSize hLeft
      by_cases hRefuse : n = 0 ∨ 400 < o + n
      · rw [messagesFrom_refuse hLeft hRead hRefuse]
        exact .refuse hRead hRefuse
      · rw [messagesFrom_step hLeft hRead hRefuse]
        exact .step hLeft hRead (by omega) (by omega) (ih (by omega))
    · rw [messagesFrom_done hLeft]
      exact .done hLeft

/-- No message is empty: the walk ends at a size field of zero. -/
theorem Walk.ne_nil {o : Nat} {cs : List Chunk} (h : Walk data size o cs) : [] ∉ cs := by
  induction h with
  | done _ => exact List.not_mem_nil
  | refuse _ _ => exact List.not_mem_nil
  | @step o n cs _ _ hPos hEnd _ ih =>
    rw [List.mem_cons, not_or]
    refine ⟨fun hNil => ?_, ih⟩
    have hLength := congrArg List.length hNil
    rw [List.length_nil, List.length_take, List.length_drop, data.length_eq, peerPacketSize] at hLength
    omega

/-- The messages of a packet, whatever its size. -/
theorem walk_messagesOf (packet : PeerPacket) :
    ∃ size, Walk packet.data size peerNPacketMessages (messagesOf packet) := by
  unfold messagesOf
  split
  · exact ⟨0, .done (by rw [peerNPacketMessages]; omega)⟩
  · next hInside =>
    rw [peerPacketSize, not_or] at hInside
    exact ⟨packet.size,
      walk_messagesFrom (Int.not_lt.mp hInside.2) (show 400 ≤ 15 + 400 by decide)⟩

/-- So an empty chunk in the list is never a message of a packet. -/
theorem nil_not_mem_messagesOf (packet : PeerPacket) : [] ∉ messagesOf packet := by
  obtain ⟨_, hWalk⟩ := walk_messagesOf packet
  exact hWalk.ne_nil

-- ---------------------------------------------------------------------------
-- The outcomes
-- What the two requests for each message decide.
-- ---------------------------------------------------------------------------

/-- The outcomes that are left behind a packet with `k` messages: each of them
takes two; a place that is refused ends the packet; and `none` is left where a
message is refused after its place was granted. -/
def outcomesAfter : Nat → (Nat → Bool) → Option (Nat → Bool)
  | 0, outcomes => some outcomes
  | k + 1, outcomes =>
    if outcomes 0 then
      if outcomes 1 then outcomesAfter k fun n => outcomes (n + 2) else none
    else some fun n => outcomes (n + 1)

/-- Over packets with these numbers of messages, no message is refused after its
place was granted. -/
def PlacesFilled : List Nat → (Nat → Bool) → Prop
  | [], _ => True
  | k :: counts, outcomes =>
    match outcomesAfter k outcomes with
    | some rest => PlacesFilled counts rest
    | none => False

/-- The chunks that a packet with these messages leaves: some of the first
messages, and behind them an empty chunk if the outcomes leave a place unfilled. -/
structure LeftBy (messages : List Chunk) (outcomes rest : Nat → Bool) (cs : List Chunk) : Prop where
  filled : ∀ r, outcomesAfter messages.length outcomes = some r → cs <+: messages ∧ rest = r
  unfilled : outcomesAfter messages.length outcomes = none →
    ∃ some, some <+: messages ∧ cs = some ++ [[]]

variable {messages cs : List Chunk} {outcomes rest : Nat → Bool}

/-- A packet without messages makes no request. -/
theorem leftBy_nil (outcomes : Nat → Bool) : LeftBy [] outcomes outcomes [] where
  filled r h := ⟨List.nil_prefix, Option.some.inj h⟩
  unfilled h := by cases h

/-- A place that is refused ends the packet, and leaves no trace of the message. -/
theorem leftBy_of_refused (c : Chunk) (messages : List Chunk) (h : outcomes 0 = false) :
    LeftBy (c :: messages) outcomes (fun n => outcomes (n + 1)) [] where
  filled r hr := by
    rw [List.length_cons, outcomesAfter, h] at hr
    exact ⟨List.nil_prefix, Option.some.inj hr⟩
  unfilled hr := by
    rw [List.length_cons, outcomesAfter, h] at hr
    cases hr

/-- A message that is refused behind its place leaves an empty chunk, and ends the
packet. -/
theorem leftBy_of_unfilled (c : Chunk) (messages : List Chunk) (hPlace : outcomes 0 = true)
    (hBytes : outcomes 1 = false) (rest : Nat → Bool) :
    LeftBy (c :: messages) outcomes rest [[]] where
  filled r hr := by
    rw [List.length_cons, outcomesAfter, if_pos hPlace, hBytes] at hr
    cases hr
  unfilled _ := ⟨[], List.nil_prefix, rfl⟩

/-- A message that is unpacked, in front of what becomes of the others. -/
theorem LeftBy.cons (h : LeftBy messages (fun n => outcomes (n + 2)) rest cs) (c : Chunk)
    (hPlace : outcomes 0 = true) (hBytes : outcomes 1 = true) :
    LeftBy (c :: messages) outcomes rest (c :: cs) where
  filled r hr := by
    rw [List.length_cons, outcomesAfter, if_pos hPlace, if_pos hBytes] at hr
    obtain ⟨hPrefix, hRest⟩ := h.filled r hr
    exact ⟨(List.prefix_cons_inj c).mpr hPrefix, hRest⟩
  unfilled hr := by
    rw [List.length_cons, outcomesAfter, if_pos hPlace, if_pos hBytes] at hr
    obtain ⟨some, hPrefix, rfl⟩ := h.unfilled hr
    exact ⟨c :: some, (List.prefix_cons_inj c).mpr hPrefix, rfl⟩

/-- A turn of the loop that comes to the requests, by their two outcomes. -/
theorem unpackMessages_turn {fuel o n : Nat} (hLeft : (o : Int) + 30 ≤ size)
    (hRead : peerReadMessageSize (data.elems.drop o) = .ok n) (hStep : ¬ (n = 0 ∨ 400 < o + n))
    (acc : List Chunk) (al : Allocator) :
    unpackMessages data size (fuel + 1) o acc al =
      if al.outcomes 0 = true then
        if al.outcomes 1 = true then
          unpackMessages data size fuel (o + n) (acc ++ [(data.elems.drop o).take n])
            al.request.2.request.2
        else .ok (peerErrorBadAlloc, acc ++ [[]], al.request.2.request.2)
      else .ok (peerErrorBadAlloc, acc, al.request.2) := by
  obtain ⟨hPos, hInside⟩ := not_or.mp hStep
  rw [unpackMessages, if_pos (show (o : Int) + peerNMessageData ≤ size from hLeft), hRead, ok_bind,
    if_neg hPos, if_neg (show ¬ o + n > peerPacketSize from hInside)]
  cases hPlace : al.outcomes 0 <;> cases hBytes : al.outcomes 1 <;>
    simp [Allocator.request, Allocator.daInit, hPos, hPlace, hBytes]

/-- **What one packet leaves** in the list of chunks, whatever the outcomes: the
messages up to the first refused request and, if that was the request for a
message's bytes, an empty chunk. -/
theorem unpackMessages_outcomes (hSize : size ≤ 400) (fuel o : Nat) (acc : List Chunk)
    (al : Allocator) :
    ∃ s cs al', unpackMessages data size fuel o acc al = .ok (s, acc ++ cs, al') ∧
      LeftBy (messagesFrom data size fuel o) al.outcomes al'.outcomes cs := by
  -- one turn of the loop after the other; the fuel bounds their number
  induction fuel generalizing o acc al with
  | zero => exact ⟨kitOk, [], al, by rw [unpackMessages, List.append_nil], leftBy_nil _⟩
  | succ fuel ih =>
    by_cases hLeft : (o : Int) + 30 ≤ size
    swap
    · rw [messagesFrom_done hLeft, unpackMessages,
        if_neg (show ¬ (o : Int) + peerNMessageData ≤ size from hLeft)]
      exact ⟨kitOk, [], al, by rw [List.append_nil], leftBy_nil _⟩
    obtain ⟨n, hRead⟩ : ∃ n, peerReadMessageSize (data.elems.drop o) = .ok n :=
        readSize_isOk hSize hLeft
    -- the walk ends at a size of zero, or at one that reaches out of the packet
    by_cases hStep : n = 0 ∨ 400 < o + n
    · rw [messagesFrom_refuse hLeft hRead hStep, unpackMessages,
        if_pos (show (o : Int) + peerNMessageData ≤ size from hLeft), hRead, ok_bind]
      by_cases hZero : n = 0
      · exact ⟨kitOk, [], al, by rw [if_pos hZero, List.append_nil]; rfl, leftBy_nil _⟩
      · rw [if_neg hZero, if_pos (show o + n > peerPacketSize from hStep.resolve_left hZero)]
        exact ⟨peerErrorInvalidMessageSize, [], al, by rw [List.append_nil]; rfl, leftBy_nil _⟩
    rw [messagesFrom_step hLeft hRead hStep, unpackMessages_turn hLeft hRead hStep]
    -- two requests a message: its place in the list, and its bytes
    by_cases hPlace : al.outcomes 0 = true
    swap
    · rw [if_neg hPlace]
      exact ⟨peerErrorBadAlloc, [], _, by rw [List.append_nil],
        leftBy_of_refused _ _ (Bool.not_eq_true _ ▸ hPlace)⟩
    rw [if_pos hPlace]
    by_cases hBytes : al.outcomes 1 = true
    · obtain ⟨s, cs, al', hLoop, hLeftBy⟩ := ih (o + n) (acc ++ [(data.elems.drop o).take n])
        al.request.2.request.2
      refine ⟨s, (data.elems.drop o).take n :: cs, al', ?_, hLeftBy.cons _ hPlace hBytes⟩
      rw [if_pos hBytes, hLoop, List.append_assoc, List.singleton_append]
    · rw [if_neg hBytes]
      exact ⟨peerErrorBadAlloc, [[]], _, rfl,
        leftBy_of_unfilled _ _ hPlace (Bool.not_eq_true _ ▸ hBytes) _⟩

/-- The same for a packet of any size: an empty or refused one has no messages and
makes no requests, and any other leaves what its message loop leaves. -/
theorem unpackPacket_outcomes (packet : PeerPacket) (acc : List Chunk) (al : Allocator) :
    ∃ s cs al', unpackPacket packet acc al = .ok (s, acc ++ cs, al') ∧
      LeftBy (messagesOf packet) al.outcomes al'.outcomes cs := by
  unfold unpackPacket
  by_cases hRefuse : packet.size < peerNPacketMessages ∨ packet.size > peerPacketSize
  · rw [show messagesOf packet = [] from if_pos hRefuse]
    by_cases hZero : packet.size = 0
    · exact ⟨kitOk, [], al, by rw [if_pos hZero, List.append_nil], leftBy_nil _⟩
    · rw [if_neg hZero, if_pos hRefuse]
      exact ⟨peerErrorInvalidPacketSize, [], al, by rw [List.append_nil], leftBy_nil _⟩
  · have hNonzero : ¬ packet.size = 0 := by
      intro hZero
      rw [hZero] at hRefuse
      exact hRefuse (Or.inl (by decide))
    rw [show messagesOf packet = _ from if_neg hRefuse, if_neg hNonzero, if_neg hRefuse]
    exact unpackMessages_outcomes (Int.not_lt.mp (not_or.mp hRefuse).2) ..

-- ---------------------------------------------------------------------------
-- The list of packets
-- ---------------------------------------------------------------------------

/-- **What the packets leave**: only messages where all places are filled, and an
empty chunk where one is not. A message makes two requests, for its place in the
array and for its bytes, and its place stays unfilled where the second alone is
refused. -/
theorem peerUnpack_outcomes (packets : List PeerPacket) (acc : List Chunk) (al : Allocator) :
    ∃ s cs al', peerUnpack packets acc al = .ok (s, acc ++ cs, al') ∧
      (PlacesFilled (packets.map fun packet => (messagesOf packet).length) al.outcomes →
        ∃ css, List.Forall₂ (fun packet cs => cs <+: messagesOf packet) packets css ∧
          cs = css.flatten) ∧
      (¬ PlacesFilled (packets.map fun packet => (messagesOf packet).length) al.outcomes →
        [] ∈ cs) := by
  induction packets generalizing acc al with
  | nil => exact ⟨kitOk, [], al, by rw [peerUnpack, List.append_nil], fun _ => ⟨[], .nil, rfl⟩,
      fun h => absurd trivial h⟩
  | cons packet packets ih =>
    obtain ⟨s1, cs1, al1, hPacket, hLeftBy⟩ := unpackPacket_outcomes packet acc al
    obtain ⟨s2, cs2, al2, hRest, hFilled, hUnfilled⟩ := ih (acc ++ cs1) al1
    refine ⟨s1 ||| s2, cs1 ++ cs2, al2, ?_, ?_, ?_⟩
    · rw [peerUnpack, hPacket, ok_bind]
      dsimp only
      rw [hRest, ok_bind, List.append_assoc]
      rfl
    -- whether all places are filled is decided by the first packet, or by the rest
    all_goals
      rw [List.map_cons, PlacesFilled]
      cases hAfter : outcomesAfter (messagesOf packet).length al.outcomes with
      | none => ?_
      | some rest => ?_
    · exact fun h => absurd h id
    · intro hPlaces
      obtain ⟨hPrefix, hOutcomes⟩ := hLeftBy.filled rest hAfter
      obtain ⟨css, hEach, rfl⟩ := hFilled (hOutcomes ▸ hPlaces)
      exact ⟨cs1 :: css, .cons hPrefix hEach, rfl⟩
    · intro _
      obtain ⟨some, _, rfl⟩ := hLeftBy.unfilled hAfter
      simp
    · intro hPlaces
      obtain ⟨_, hOutcomes⟩ := hLeftBy.filled rest hAfter
      exact List.mem_append_right _ (hUnfilled (hOutcomes ▸ hPlaces))

/-- What `peer_input` relies on: behind what was in the list before are only
complete copies of messages of the packets. -/
def CompleteChunks (packets : List PeerPacket) (initial : List Chunk) (al : Allocator) : Prop :=
  ∃ s added al', peerUnpack packets initial al = .ok (s, initial ++ added, al') ∧
    ∀ c ∈ added, ∃ packet ∈ packets, c ∈ messagesOf packet

/-- Where all chunks are messages, no place was left empty: an empty chunk would be
in the list. -/
theorem CompleteChunks.placesFilled {packets : List PeerPacket} {initial : List Chunk}
    {al : Allocator} (h : CompleteChunks packets initial al) :
    PlacesFilled (packets.map fun packet => (messagesOf packet).length) al.outcomes := by
  obtain ⟨s, added, al', hUnpack, hAll⟩ := h
  obtain ⟨s', added', al'', hUnpack', _, hUnfilled⟩ := peerUnpack_outcomes packets initial al
  rw [hUnpack, Except.ok.injEq, Prod.mk.injEq, Prod.mk.injEq, List.append_cancel_left_eq] at hUnpack'
  obtain ⟨_, rfl, _⟩ := hUnpack'
  -- an empty chunk would have to be a message
  by_contra hPlaces
  obtain ⟨packet, _, hNil⟩ := hAll [] (hUnfilled hPlaces)
  exact nil_not_mem_messagesOf packet hNil

/-- **Unpacking under allocation failures.** For every list of packets, every
initial list and every pattern of outcomes, only complete copies of messages are
added exactly when no message is refused after its place was granted. -/
theorem completeChunks_iff (packets : List PeerPacket) (initial : List Chunk) (al : Allocator) :
    CompleteChunks packets initial al ↔
      PlacesFilled (packets.map fun packet => (messagesOf packet).length) al.outcomes := by
  refine ⟨CompleteChunks.placesFilled, fun hPlaces => ?_⟩
  obtain ⟨s, added, al', hUnpack, hFilled, _⟩ := peerUnpack_outcomes packets initial al
  obtain ⟨css, hEach, rfl⟩ := hFilled hPlaces
  refine ⟨s, css.flatten, al', hUnpack, fun c hc => ?_⟩
  obtain ⟨cs, hMem, hc⟩ := List.mem_flatten.mp hc
  obtain ⟨packet, hPacket, hPrefix⟩ := exists_of_forall₂_right hEach hMem
  exact ⟨packet, hPacket, hPrefix.subset hc⟩

/-- A packet with a message that is only a header, the shortest there can be. -/
def headerPacket : PeerPacket :=
  ((PeerPacket.blank 1 2).copyChunk 15 (encode peerMessageModeService 0 0 0 [])).toOption.getD
    (PeerPacket.blank 1 2) |>.writeHeader 45

/-- Where the second request is refused, an empty chunk stays behind, and
`peer_input` reads a header from it. -/
theorem not_completeChunks_refused :
    ¬ CompleteChunks [headerPacket] [] ⟨fun n => n == 0, false⟩ ∧
      faultOf (peerInput { peerInit .host ⟨fun n => n == 0, false⟩ ⟨fun _ => 0⟩ with
        slots := [(openSlot .host 0 2).assign 0 1] } [headerPacket]) = some .access := by
  refine ⟨fun h => ?_, by decide +kernel⟩
  have hOne : (messagesOf headerPacket).length = 1 := by decide +kernel
  have hPlaces := h.placesFilled
  rw [List.map_singleton, hOne] at hPlaces
  exact hPlaces

end PeerProtocol
