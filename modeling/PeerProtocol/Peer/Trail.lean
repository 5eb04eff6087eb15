import PeerProtocol.Model.Tick
import PeerProtocol.Peer.Queue
import PeerProtocol.Wire.Packing

/-!
# peer — what is sent from a queue

The emitting functions without allocation failures, in closed form: which
entries of a queue become chunks, and which packets carry them. The results
about delivery start from the last lemmas of this module, and none of them
unfolds an emitting function.

A chunk list is described by the indices of its entries. `queue_pack` sends a
range of them, the new ones, and a trail behind it; a heartbeat sends the
trail alone. The trail is a range of the last entries, and a number of entries
that the generator picks among those before: below index 105 the range is
everything, and from there on the last five, with five of the last hundred.
The generator goes on as the loop leaves it, so the indices come with the
generator behind them (`trailIndices`).

## Plan

* `PeerMessage.chunk`, `chunksAt` — the chunk of an entry, and those at given
  indices; `serialChunks_reliable`, `scatterChunks_reliable` — the two loops
  make such lists.
* `trailIndices`, `mem_trailIndices` — the indices that `chunks_append_trail`
  resends.
* `peerPack_ok` — only chunks that fit a packet are packed, so that a status
  without errors says something about the sizes of messages.
* `Carried` — sealed packets between two ids that carry given chunks.
* `queuePack_carried`, `sendHeartbeat_carried`, `sendSessionResponse_carried`
  — what each emission path appends to the packets of a tick.
-/

namespace PeerProtocol

open Lib

-- ---------------------------------------------------------------------------
-- Chunks of entries
-- ---------------------------------------------------------------------------

/-- The chunk of a message at index `k` of its queue: an application's message,
whatever was its mode when it came. -/
def PeerMessage.chunk (m : PeerMessage) (k : Nat) : Chunk :=
  encode peerMessageModeApplication k m.time m.actor m.data

/-- The chunks of the messages at the indices `ks`. An index past the queue has
none, but the loops never come to such a one. -/
def chunksAt (q : PeerQueue) (ks : List Nat) : List Chunk :=
  ks.filterMap fun k => (q[k]?).map (·.chunk k)

/-- Each of them is the chunk of an entry at one of the indices. -/
theorem mem_chunksAt {q : PeerQueue} {ks : List Nat} {c : Chunk} :
    c ∈ chunksAt q ks ↔ ∃ k m, k ∈ ks ∧ q[k]? = some m ∧ c = m.chunk k := by
  unfold chunksAt
  rw [List.mem_filterMap]
  constructor
  · rintro ⟨k, hk, hc⟩
    obtain ⟨m, hm, rfl⟩ := Option.map_eq_some_iff.mp hc
    exact ⟨k, m, hk, hm, rfl⟩
  · rintro ⟨k, m, hk, hm, rfl⟩
    exact ⟨k, hk, by rw [hm]; rfl⟩

/-- Indices in a row give chunks in a row. -/
theorem chunksAt_append (q : PeerQueue) (ks ls : List Nat) :
    chunksAt q (ks ++ ls) = chunksAt q ks ++ chunksAt q ls := List.filterMap_append

/-- The first index gives the first chunk. -/
theorem chunksAt_cons {q : PeerQueue} {k : Nat} {m : PeerMessage} (h : q[k]? = some m)
    (ks : List Nat) : chunksAt q (k :: ks) = m.chunk k :: chunksAt q ks := by
  rw [chunksAt, List.filterMap_cons_some (by rw [h]; rfl)]
  rfl

/-- A chunk is a header and the data. -/
theorem length_chunk (m : PeerMessage) (k : Nat) : (m.chunk k).length = 30 + m.data.length :=
  length_encode ..

/-- The data fits a packet, with both headers. -/
def PeerMessage.Small (m : PeerMessage) : Prop := m.data.length ≤ peerMaxMessageSize

theorem small_iff {m : PeerMessage} : m.Small ↔ m.data.length ≤ 355 := Iff.rfl

/-- The chunk of a message that fits a packet is framed, so packing and unpacking
give it back. -/
theorem framed_chunk {m : PeerMessage} (h : m.Small) (k : Nat) : Framed (m.chunk k) where
  fits := by
    rw [small_iff] at h
    rw [Fits, length_chunk]
    omega
  size := by
    rw [small_iff] at h
    exact peerReadMessageSize_encode_of_le (by omega)

/-- A chunk of a message is as long as its data and a header. -/
theorem small_of_length_chunk {m : PeerMessage} {k : Nat} (h : (m.chunk k).length ≤ 385) :
    m.Small := by
  rw [length_chunk] at h
  rw [small_iff]
  omega

/-- The same for a service message. -/
theorem framed_service {data : List UInt8} (h : data.length ≤ peerMaxMessageSize)
    (index time actor : Int) : Framed (encode peerMessageModeService index time actor data) where
  fits := by
    simp only [peerMaxMessageSize, peerPacketSize, peerNPacketMessages, peerNMessageData] at h
    rw [Fits, length_encode]
    omega
  size := by
    simp only [peerMaxMessageSize, peerPacketSize, peerNPacketMessages, peerNMessageData] at h
    exact peerReadMessageSize_encode_of_le (by omega)

theorem messageChunk_reliable {q : PeerQueue} {k : Nat} {m : PeerMessage} (h : q[k]? = some m) :
    messageChunk q k .reliable = .ok (some (m.chunk k), .reliable) := by
  unfold messageChunk
  rw [readAt_eq_ok.mpr h, ok_bind]
  simp only [Allocator.daInit_reliable, peerNMessageData]
  rw [peerWriteMessage_eq (by simp), ok_bind, List.drop_eq_nil_of_le (by simp), List.append_nil]
  rfl

/-- The loop over consecutive messages gives the chunks of a range. -/
theorem serialChunks_reliable {q : PeerQueue} {start count : Nat} (h : start + count ≤ q.length) :
    serialChunks q start count .reliable =
      .ok (some (chunksAt q (List.range' start count)), .reliable) := by
  induction count generalizing start with
  | zero => rfl
  | succ count ih =>
    have hm : q[start]? = some q[start] := List.getElem?_eq_getElem (by omega)
    rw [serialChunks, messageChunk_reliable hm, ok_bind]
    dsimp only
    rw [ih (by omega), ok_bind, List.range'_succ, chunksAt_cons hm]
    rfl

-- ---------------------------------------------------------------------------
-- The trail
-- ---------------------------------------------------------------------------

/-- The indices of the scatter trail, and the generator after choosing them. One
index may be chosen several times. -/
def scatterIndices (start distance : Nat) : Nat → Mt64 → List Nat × Mt64
  | 0, rng => ([], rng)
  | count + 1, rng =>
    let rest := scatterIndices start distance count rng.generate.2
    ((start + rng.generate.1.toNat % distance) :: rest.1, rest.2)

/-- A chosen index is a word of the generator away from where the window starts. -/
theorem mem_scatterIndices_iff {start distance count : Nat} {rng : Mt64} {k : Nat} :
    k ∈ (scatterIndices start distance count rng).1 ↔
      ∃ i < count, k = start + (rng.words i).toNat % distance := by
  induction count generalizing rng with
  | zero => simp [scatterIndices]
  | succ count ih => rw [scatterIndices, List.mem_cons, ih, Nat.exists_lt_succ_left]; rfl

/-- Each of them lies in the window. -/
theorem mem_scatterIndices {start distance count : Nat} {rng : Mt64} {k : Nat}
    (hPos : 0 < distance) (h : k ∈ (scatterIndices start distance count rng).1) :
    start ≤ k ∧ k < start + distance := by
  obtain ⟨i, _, rfl⟩ := mem_scatterIndices_iff.mp h
  have := Nat.mod_lt (rng.words i).toNat hPos
  omega

/-- The loop over picked messages gives the chunks of those indices, in the order in
which they are drawn. Each is inside the window, so it is read inside the queue, and
one may be drawn more than once. -/
theorem scatterChunks_reliable {q : PeerQueue} {start distance : Nat} (hPos : 0 < distance)
    (h : start + distance ≤ q.length) (count : Nat) (rng : Mt64) :
    scatterChunks q start distance count rng .reliable =
      .ok (some (chunksAt q (scatterIndices start distance count rng).1),
        (scatterIndices start distance count rng).2, .reliable) := by
  induction count generalizing rng with
  | zero => rfl
  | succ count ih =>
    have hLt := Nat.mod_lt rng.generate.1.toNat hPos
    have hm : q[start + rng.generate.1.toNat % distance]? =
        some q[start + rng.generate.1.toNat % distance] := List.getElem?_eq_getElem (by omega)
    rw [scatterChunks]
    dsimp only
    rw [messageChunk_reliable hm, ok_bind]
    dsimp only
    rw [ih, ok_bind, scatterIndices, chunksAt_cons hm]
    rfl

/-- The indices that `chunks_append_trail` resends: the serial range, then the
scatter part. -/
def trailIndices (rng : Mt64) (index : Nat) : List Nat × Mt64 :=
  let scatter := scatterIndices (index - scatterTrailDistance index) (scatterTrailDistance index)
    (scatterTrailSize index) rng
  (List.range' (index - trailSize index) (trailSize index) ++ scatter.1, scatter.2)

/-- With fewer than 105 messages the trail is all of them. -/
theorem trailSize_of_lt {index : Nat} (h : index < 105) : trailSize index = index := by
  rw [trailSize, peerTrailSerialSize, peerTrailScatterDistance, if_pos (by omega)]

/-- From there on it is the last five. -/
theorem trailSize_of_ge {index : Nat} (h : 105 ≤ index) : trailSize index = 5 := by
  rw [trailSize, peerTrailSerialSize, peerTrailScatterDistance, if_neg (by omega)]

/-- The range never starts before the queue. -/
theorem trailSize_le (index : Nat) : trailSize index ≤ index := by
  rcases Nat.lt_or_ge index 105 with h | h
  · rw [trailSize_of_lt h]
  · rw [trailSize_of_ge h]
    omega

/-- **The trail in closed form**: the chunks at those indices are appended. Which
indices they are depends on the generator and the index alone, so what is said of
them needs no queue. -/
theorem chunksAppendTrail_reliable {q : PeerQueue} {index : Nat} (h : index ≤ q.length)
    (rng : Mt64) (chunks : List Chunk) :
    chunksAppendTrail rng q index chunks .reliable =
      .ok (kitOk, chunks ++ chunksAt q (trailIndices rng index).1, (trailIndices rng index).2,
        .reliable) := by
  have hSize := trailSize_le index
  -- the serial part, which is empty only at index 0
  have hSerial : appendSerialTrail q index chunks .reliable =
      .ok (kitOk, chunks ++ chunksAt q (List.range' (index - trailSize index) (trailSize index)),
        .reliable) := by
    unfold appendSerialTrail
    split
    · next hZero =>
      rw [hZero]
      simp [chunksAt]
    · rw [Allocator.request_reliable]
      dsimp only
      rw [serialChunks_reliable (by omega), ok_bind]
      rfl
  rw [chunksAppendTrail, if_neg (by omega), hSerial, ok_bind]
  dsimp only
  rw [if_neg (by simp), appendScatterTrail]
  split
  · next hZero =>
    rw [trailIndices, hZero]
    simp [scatterIndices]
  -- the scatter part chooses inside the queue
  · next hCount =>
    have hPos : 0 < scatterTrailDistance index := by
      unfold scatterTrailSize at hCount
      omega
    have hDistance : scatterTrailDistance index ≤ index := by
      unfold scatterTrailDistance
      omega
    rw [Allocator.request_reliable]
    dsimp only
    rw [scatterChunks_reliable hPos (by omega), ok_bind, trailIndices, chunksAt_append,
      ← List.append_assoc]
    rfl

/-- The trail looks back, and once it no longer takes everything, at most a hundred entries. -/
theorem mem_trailIndices {rng : Mt64} {index k : Nat} (h : k ∈ (trailIndices rng index).1) :
    k < index ∧ (index < 105 ∨ index ≤ k + 100) := by
  have hSize := trailSize_le index
  -- The serial part is the last five entries, or all; the window lies before the index.
  rcases List.mem_append.mp h with hSerial | hScatter
  · rw [List.mem_range'_1] at hSerial
    rcases Nat.lt_or_ge index 105 with hLt | hGe
    · omega
    · rw [trailSize_of_ge hGe] at hSerial
      omega
  · have hPos : 0 < scatterTrailDistance index := by
      by_contra hZero
      have hCount : scatterTrailSize index = 0 := by
        unfold scatterTrailSize
        omega
      rw [hCount] at hScatter
      simp [scatterIndices] at hScatter
    have hRange := mem_scatterIndices hPos hScatter
    have hDistance : scatterTrailDistance index ≤ index ∧ scatterTrailDistance index ≤ 100 := by
      unfold scatterTrailDistance peerTrailScatterDistance
      omega
    omega

/-- Below index 105 the trail takes everything, whatever the generator says. -/
theorem mem_trailIndices_of_lt {index k : Nat} (hIndex : index < 105) (hk : k < index) (rng : Mt64) :
    k ∈ (trailIndices rng index).1 := by
  refine List.mem_append_left _ ?_
  rw [trailSize_of_lt hIndex, List.mem_range'_1]
  omega

/-- The trail always takes the last five entries: what a receiver can count on. -/
theorem mem_trailIndices_recent {index k : Nat} (hRecent : index ≤ k + peerTrailSerialSize)
    (hk : k < index) (rng : Mt64) : k ∈ (trailIndices rng index).1 := by
  rw [peerTrailSerialSize] at hRecent
  rcases Nat.lt_or_ge index 105 with hLt | hGe
  · exact mem_trailIndices_of_lt hLt hk rng
  · refine List.mem_append_left _ ?_
    rw [trailSize_of_ge hGe, List.mem_range'_1]
    omega

/-- Both in one: the condition under which an entry is resent for certain. -/
theorem mem_trailIndices_covered {index k : Nat} (hk : k < index)
    (hCovered : index ≤ k + peerTrailSerialSize ∨
      index < peerTrailSerialSize + peerTrailScatterDistance) (rng : Mt64) :
    k ∈ (trailIndices rng index).1 := by
  rcases hCovered with hRecent | hLow
  · exact mem_trailIndices_recent hRecent hk rng
  · exact mem_trailIndices_of_lt hLow hk rng

-- ---------------------------------------------------------------------------
-- What is packed
-- ---------------------------------------------------------------------------

/-- The packing loop packs only chunks that fit a packet, and keeps a reliable
allocator. A chunk that is too large would be copied past the end of the packet,
which the hypothesis that the loop ends well excludes. -/
theorem packLoop_ok {src dst : Int} {previousSize : Nat} {chunks : List Chunk}
    {out out' : List PeerPacket} {offset offset' : Nat} {al al' : Allocator} {s : Status}
    (hOffset : 15 ≤ offset)
    (h : packLoop src dst previousSize chunks out offset al = .ok (s, out', offset', al')) :
    (s = kitOk → ∀ c ∈ chunks, c.length ≤ 385) ∧ (al = .reliable → al' = .reliable) := by
  induction chunks generalizing out offset al with
  | nil =>
    obtain ⟨_, _, _, rfl⟩ : _ ∧ _ ∧ _ ∧ al = al' := by simpa [packLoop] using h
    exact ⟨by simp, id⟩
  | cons c chunks ih =>
    obtain ⟨s1, out1, offset1, al1, hRoom, hTurn⟩ := packLoop_cons_cases h
    -- making room leaves an offset behind a header
    obtain ⟨hOffset1, hReliable1⟩ : 15 ≤ offset1 ∧ (al = .reliable → al1 = .reliable) := by
      split at hRoom
      · unfold startPacket at hRoom
        rcases hRequest : al.request with ⟨b, al2⟩
        have hReliable : al = .reliable → al2 = .reliable := Allocator.reliable_of_request hRequest
        rw [hRequest] at hRoom
        cases b with
        | true =>
          obtain ⟨_, _, rfl, rfl⟩ : _ ∧ _ ∧ 15 = offset1 ∧ al2 = al1 := by simpa using hRoom
          exact ⟨Nat.le_refl _, hReliable⟩
        | false =>
          obtain ⟨_, _, rfl, rfl⟩ : _ ∧ _ ∧ offset = offset1 ∧ al2 = al1 := by simpa using hRoom
          exact ⟨hOffset, hReliable⟩
      · obtain ⟨_, _, rfl, rfl⟩ : _ ∧ _ ∧ offset = offset1 ∧ al = al1 := by simpa using hRoom
        exact ⟨hOffset, id⟩
    -- the loop ends with the first status that is not ok
    rcases hTurn with ⟨hBad, hEnd⟩ | ⟨_, s2, out2, hAdd, hTurn⟩
    · obtain ⟨rfl, _, _, rfl⟩ : s = s1 ∧ _ ∧ _ ∧ al' = al1 := by simpa using hEnd
      exact ⟨fun hOk => absurd hOk hBad, hReliable1⟩
    rcases hTurn with ⟨hBad, hEnd⟩ | ⟨hAdded, hLoop⟩
    · obtain ⟨rfl, _, _, rfl⟩ : s = s2 ∧ _ ∧ _ ∧ al' = al1 := by simpa using hEnd
      exact ⟨fun hOk => absurd hOk hBad, hReliable1⟩
    obtain ⟨hRest, hReliable⟩ := ih (by omega) hLoop
    refine ⟨fun hOk d hd => ?_, fun hal => hReliable (hReliable1 hal)⟩
    -- a chunk is added behind a header of 15 bytes, in 400 at most
    rcases List.mem_cons.mp hd with rfl | hLater
    · rcases addChunk_cases hAdd with ⟨rfl, _⟩ | ⟨_, hInside⟩
      · exact absurd hAdded (by decide)
      · omega
    · exact hRest hOk d hLater

/-- `peer_pack` only succeeds with chunks that fit a packet, for every allocator. So
where a cursor has moved, everything it has moved over was small enough to go out. -/
theorem peerPack_ok {src dst : Int} {chunks : List Chunk} {out out' : List PeerPacket}
    {al al' : Allocator} {s : Status} (h : peerPack src dst chunks out al = .ok (s, out', al')) :
    (s = kitOk → ∀ c ∈ chunks, c.length ≤ 385) ∧ (al = .reliable → al' = .reliable) := by
  obtain ⟨⟨s1, out1, offset, al1⟩, hLoop, h⟩ := bind_eq_ok.mp h
  obtain ⟨hFit, hReliable⟩ := packLoop_ok (by decide) hLoop
  dsimp only at h
  split at h
  · next hBad =>
    obtain ⟨rfl, _, rfl⟩ : s1 = s ∧ _ ∧ al1 = al' := by simpa using h
    exact ⟨fun hOk => absurd hOk hBad, hReliable⟩
  next hOk1 =>
  rw [ne_eq, not_not] at hOk1
  split at h
  -- without a packet one more is appended, or its place is refused
  · rcases hRequest : al1.request with ⟨b, al2⟩
    rw [hRequest] at h
    have hReliable2 : al = .reliable → al2 = .reliable := by
      exact fun hal => Allocator.reliable_of_request hRequest (hReliable hal)
    cases b with
    | false =>
      obtain ⟨_, _, rfl⟩ : _ ∧ _ ∧ al2 = al' := by simpa using h
      exact ⟨fun _ => hFit hOk1, hReliable2⟩
    | true =>
      obtain ⟨_, _, rfl⟩ : _ ∧ _ ∧ al2 = al' := by simpa using h
      exact ⟨fun _ => hFit hOk1, hReliable2⟩
  · obtain ⟨_, _, rfl⟩ : _ ∧ _ ∧ al1 = al' := by simpa using h
    exact ⟨fun _ => hFit hOk1, hReliable⟩

/-- Sealed packets between two ids that carry the chunks, in order and without
others. -/
def Carried (src dst : Int) (ps : List PeerPacket) (cs : List Chunk) : Prop :=
  ∃ css, List.Forall₂ (Sealed src dst) ps css ∧ css.flatten = cs

/-- Each of the packets yields some of the chunks. -/
theorem Carried.of_mem {src dst : Int} {ps : List PeerPacket} {cs : List Chunk}
    (h : Carried src dst ps cs) {p : PeerPacket} (hp : p ∈ ps) :
    ∃ some, Sealed src dst p some ∧ ∀ c ∈ some, c ∈ cs := by
  obtain ⟨css, hSealed, rfl⟩ := h
  induction hSealed with
  | nil => simp at hp
  | @cons q some ps css hHead _ ih =>
    rcases List.mem_cons.mp hp with rfl | hLater
    · exact ⟨some, hHead, fun c hc => by simp [hc]⟩
    · obtain ⟨some', hp', hSub⟩ := ih hLater
      exact ⟨some', hp', fun c hc => by simp [List.mem_flatten.mp (hSub c hc)]⟩

/-- Each of the chunks is carried by one of the packets. -/
theorem Carried.exists_packet {src dst : Int} {ps : List PeerPacket} {cs : List Chunk}
    (h : Carried src dst ps cs) {c : Chunk} (hc : c ∈ cs) :
    ∃ p ∈ ps, ∃ some, Sealed src dst p some ∧ c ∈ some := by
  obtain ⟨css, hSealed, rfl⟩ := h
  induction hSealed with
  | nil => simp at hc
  | @cons q some ps css hHead _ ih =>
    rw [List.flatten_cons, List.mem_append] at hc
    rcases hc with hHere | hLater
    · exact ⟨q, List.mem_cons_self .., some, hHead, hHere⟩
    · obtain ⟨p, hp, rest⟩ := ih hLater
      exact ⟨p, List.mem_cons_of_mem _ hp, rest⟩

/-- A chunk that a packet carries lies in its data array, in one piece. -/
theorem Sealed.infix {src dst : Int} {p : PeerPacket} {cs : List Chunk} (h : Sealed src dst p cs)
    {c : Chunk} (hc : c ∈ cs) : c <:+: p.data.elems := by
  rw [h.data]
  exact (List.infix_of_mem_flatten hc).trans ⟨_, _, rfl⟩

/-- What `peer_pack` appends carries the chunks that it was given. -/
theorem peerPack_carried (src dst : Int) {chunks : List Chunk} (hNe : chunks ≠ [])
    (hFramed : ∀ c ∈ chunks, Framed c) (prev : List PeerPacket) :
    ∃ ps, peerPack src dst chunks prev .reliable = .ok (kitOk, prev ++ ps, .reliable) ∧
      Carried src dst ps chunks := by
  obtain ⟨ps, css, hPack, hSealed, hFlatten⟩ := peerPack_framed src dst hNe hFramed prev
  exact ⟨ps, hPack, css, hSealed, hFlatten⟩

-- ---------------------------------------------------------------------------
-- The emission paths
-- What each of the three ways to send leaves in the packets of the tick.
-- ---------------------------------------------------------------------------

/-- The indices that `queue_pack` sends: the new entries, then the trail. -/
def packIndices (rng : Mt64) (size index : Nat) : List Nat :=
  List.range' index (size - index) ++ (trailIndices rng index).1

/-- Everything that is new goes out, and behind it the last five entries, and
while the cursor is low all of them. -/
theorem mem_packIndices {size index k : Nat} (hk : k < size)
    (hCovered : index ≤ k + peerTrailSerialSize ∨
      index < peerTrailSerialSize + peerTrailScatterDistance) (rng : Mt64) :
    k ∈ packIndices rng size index := by
  rcases Nat.lt_or_ge k index with hBehind | hNew
  · exact List.mem_append_right _ (mem_trailIndices_covered hBehind hCovered rng)
  · exact List.mem_append_left _ (List.mem_range'_1.mpr (by omega))

/-- `queue_pack` is one call of `peer_pack` on the chunks at those indices: the new
messages first, and then the trail behind the cursor. -/
theorem queuePack_reliable {q : PeerQueue} {index : Nat} (hIndex : index < q.length) (src dst : Int)
    {out : TickOutput} (hAlloc : out.alloc = .reliable) :
    queuePack q index src dst out = (do
      let (s, packets, al) ← peerPack src dst (chunksAt q (packIndices out.mt64 q.length index))
        out.packets .reliable
      .ok (s, { out with
        packets := packets, mt64 := (trailIndices out.mt64 index).2, alloc := al })) := by
  rw [queuePack, if_neg (by omega), if_neg (by omega), hAlloc, Allocator.request_reliable]
  dsimp only
  rw [serialChunks_reliable (by omega), ok_bind]
  dsimp only
  rw [chunksAppendTrail_reliable (by omega), ok_bind]
  dsimp only
  rw [chunksWrap, Allocator.daInit_reliable]
  dsimp only
  rw [if_neg (by simp), packIndices, chunksAt_append]
  simp only [kitOk, UInt32.zero_or]
  rfl

/-- New messages: `queue_pack` sends them and the trail behind them, if all of them
fit. The packets carry exactly these chunks, so what a receiver can learn from them
is known. -/
theorem queuePack_carried {q : PeerQueue} {index : Nat} (hIndex : index < q.length)
    (hSmall : ∀ m ∈ q, m.Small) (src dst : Int)
    (out : TickOutput) (hAlloc : out.alloc = .reliable) :
    ∃ ps, queuePack q index src dst out = .ok (kitOk, { out with
        packets := out.packets ++ ps, mt64 := (trailIndices out.mt64 index).2 }) ∧
      Carried src dst ps (chunksAt q (packIndices out.mt64 q.length index)) := by
  have hFirst : q[index]? = some q[index] := List.getElem?_eq_getElem hIndex
  have hNe : chunksAt q (packIndices out.mt64 q.length index) ≠ [] := by
    refine List.ne_nil_of_mem (mem_chunksAt.mpr ⟨index, _, ?_, hFirst, rfl⟩)
    exact List.mem_append_left _ (List.mem_range'_1.mpr (by omega))
  have hFramed : ∀ c ∈ chunksAt q (packIndices out.mt64 q.length index), Framed c := by
    intro c hc
    obtain ⟨k, m, _, hm, rfl⟩ := mem_chunksAt.mp hc
    exact framed_chunk (hSmall m (List.mem_of_getElem? hm)) k
  obtain ⟨ps, hPack, hCarried⟩ := peerPack_carried src dst hNe hFramed out.packets
  refine ⟨ps, ?_, hCarried⟩
  rw [queuePack_reliable hIndex src dst hAlloc, hPack, ← hAlloc]
  rfl

/-- New messages are sent with success only if they fit; the trail was sent before. -/
theorem small_of_queuePack {q : PeerQueue} {index : Nat} (hIndex : index < q.length) {src dst : Int}
    {out out' : TickOutput} (hAlloc : out.alloc = .reliable)
    (h : queuePack q index src dst out = .ok (kitOk, out')) :
    ∀ k m, index ≤ k → q[k]? = some m → m.Small := by
  rw [queuePack_reliable hIndex src dst hAlloc] at h
  obtain ⟨⟨s, packets, al⟩, hPack, h⟩ := bind_eq_ok.mp h
  obtain ⟨rfl, _⟩ := Prod.mk.inj (Except.ok.inj h)
  intro k m hk hm
  have hLt := (List.getElem?_eq_some_iff.mp hm).1
  have hMem : m.chunk k ∈ chunksAt q (packIndices out.mt64 q.length index) := by
    refine mem_chunksAt.mpr ⟨k, m, ?_, hm, rfl⟩
    exact List.mem_append_left _ (List.mem_range'_1.mpr (by omega))
  exact small_of_length_chunk ((peerPack_ok hPack).1 rfl _ hMem)

/-- The heartbeat message, which has one byte of data and no index. -/
def heartbeatChunk (time actor : Int) : Chunk :=
  encode peerMessageModeService peerUndefined time actor [peerMHeartbeat]

/-- A heartbeat is one call of `peer_pack` on its message and the trail; the clock
is started again whatever that call reports, which the flag of the result says. -/
theorem sendHeartbeat_reliable {q : PeerQueue} {index : Nat} (hIndex : index ≤ q.length)
    (time actor src dst : Int) {out : TickOutput} (hAlloc : out.alloc = .reliable) :
    sendHeartbeat q index time actor src dst out = (do
      let (s, packets, al) ← peerPack src dst
        (heartbeatChunk time actor :: chunksAt q (trailIndices out.mt64 index).1) out.packets .reliable
      .ok (true, {
        status := out.status ||| s
        packets := packets
        mt64 := (trailIndices out.mt64 index).2
        alloc := al })) := by
  -- The heartbeat's own chunk is written as a whole.
  have hChunk : heartbeatChunks time actor .reliable =
      .ok (kitOk, some [heartbeatChunk time actor], .reliable) := by
    simp only [heartbeatChunks, Allocator.request_reliable, peerNMessageData]
    rw [peerWriteMessage_eq (by simp), ok_bind, List.drop_eq_nil_of_le (by simp), List.append_nil]
    rfl
  rw [sendHeartbeat, hAlloc, hChunk, ok_bind]
  dsimp only
  rw [chunksAppendTrail_reliable hIndex, ok_bind]
  dsimp only
  rw [chunksWrap, Allocator.daInit_reliable]
  simp only [kitOk, UInt32.or_zero, List.singleton_append]
  rfl

/-- No new messages: a heartbeat goes out with the trail, if that fits. There is a
packet in any case, as the heartbeat's own chunk is one that fits. -/
theorem sendHeartbeat_carried {q : PeerQueue} {index : Nat} (hIndex : index ≤ q.length)
    (hSmall : ∀ m ∈ q, m.Small) (time actor src dst : Int)
    (out : TickOutput) (hAlloc : out.alloc = .reliable) :
    ∃ ps, sendHeartbeat q index time actor src dst out = .ok (true, { out with
        packets := out.packets ++ ps, mt64 := (trailIndices out.mt64 index).2 }) ∧
      Carried src dst ps
        (heartbeatChunk time actor :: chunksAt q (trailIndices out.mt64 index).1) := by
  have hFramed : ∀ c ∈ heartbeatChunk time actor :: chunksAt q (trailIndices out.mt64 index).1,
      Framed c := by
    intro c hc
    -- A service message of one byte, or the message of an entry that fits.
    rcases List.mem_cons.mp hc with rfl | hc
    · exact framed_service (by decide) _ _ _
    · obtain ⟨k, m, _, hm, rfl⟩ := mem_chunksAt.mp hc
      exact framed_chunk (hSmall m (List.mem_of_getElem? hm)) k
  obtain ⟨ps, hPack, hCarried⟩ :=
    peerPack_carried src dst (List.cons_ne_nil _ _) hFramed out.packets
  refine ⟨ps, ?_, hCarried⟩
  rw [sendHeartbeat_reliable hIndex time actor src dst hAlloc, hPack, ← hAlloc]
  simp only [ok_bind, kitOk, UInt32.or_zero]

/-- The address of an endpoint: the part of its array that is in use. -/
def PeerEndpoint.address (e : PeerEndpoint) : List UInt8 :=
  e.addressData.elems.take e.addressSize.toNat

/-- The address of an endpoint lies inside its array, as every write of the code
leaves it. -/
def PeerEndpoint.AddressFits (e : PeerEndpoint) : Prop :=
  0 ≤ e.addressSize ∧ e.addressSize ≤ peerAddressSize

/-- So it has as many bytes as its size says. -/
theorem PeerEndpoint.AddressFits.length_address {e : PeerEndpoint} (h : e.AddressFits) :
    e.address.length = e.addressSize.toNat := by
  obtain ⟨hLo, hHi⟩ := h
  rw [PeerEndpoint.address, List.length_take, e.addressData.length_eq]
  rw [peerAddressSize] at hHi ⊢
  omega

/-- The session response message of a slot: the actor id of the client in its
header, and the slot's own address as its data. -/
def sessionResponseChunk (time : Int) (slot : PeerSlot) : Chunk :=
  encode peerMessageModeService peerUndefined time slot.actor
    (peerMSessionResponse :: slot.localEnd.address)

/-- A session request: the session response goes out, from the listening id to the
client that has asked. It has the slot's address in its data, and fits a packet
because the address fits its array. -/
theorem sendSessionResponse_carried {slot : PeerSlot} (hAddress : slot.localEnd.AddressFits)
    (listenId time : Int) {out : TickOutput} (hAlloc : out.alloc = .reliable) :
    ∃ ps, sendSessionResponse listenId time slot out = .ok { out with packets := out.packets ++ ps } ∧
      Carried listenId slot.remoteEnd.id ps [sessionResponseChunk time slot] := by
  have hLen := hAddress.length_address
  obtain ⟨hLo, hHi⟩ := hAddress
  rw [peerAddressSize] at hHi
  have hData : chunkData slot.localEnd.addressData.elems 0 slot.localEnd.addressSize =
      .ok slot.localEnd.address := by
    rw [chunkData, if_pos, List.drop_zero]
    · rfl
    · rw [slot.localEnd.addressData.length_eq, peerAddressSize]
      omega
  have hFramed : ∀ c ∈ [sessionResponseChunk time slot], Framed c := by
    intro c hc
    rw [List.mem_singleton.mp hc]
    refine framed_service ?_ _ _ _
    simp only [List.length_cons, hLen, peerMaxMessageSize, peerPacketSize, peerNPacketMessages,
      peerNMessageData]
    omega
  obtain ⟨ps, hPack, hCarried⟩ := peerPack_carried listenId slot.remoteEnd.id
    (List.cons_ne_nil _ _) hFramed out.packets
  refine ⟨ps, ?_, hCarried⟩
  -- of the buffer only the message is packed
  have hTake (rest : List UInt8) : (sessionResponseChunk time slot ++ rest).take
      (peerNMessageData + 1 + slot.localEnd.address.length) = sessionResponseChunk time slot := by
    refine List.take_left' ?_
    rw [sessionResponseChunk, length_encode, List.length_cons, peerNMessageData]
    omega
  rw [sendSessionResponse, hData, ok_bind, peerWriteMessage_eq]
  · rw [ok_bind, ← sessionResponseChunk, hTake, hAlloc, hPack]
    simp only [ok_bind, kitOk, UInt32.or_zero, pure_eq_ok]
  · rw [List.length_replicate, List.length_cons, peerNMessageData, peerAddressSize]
    omega

end PeerProtocol
