import PeerProtocol.Peer.Input

/-!
# peer — what a delivered packet says

Without allocation failures a packet's chunks depend on the packet alone, and
what a peer learns from them is a list of entries for one of its queues. So
the effect of many packets is one list of insertions, and the question whether
their order matters is one about insertions.

It does not: an insertion does nothing where an entry is known, and packets of
one sender never disagree about the entry at an index. The second half of this
is general (`Lib.GapLog`); what is left is that a queue has more in it than
its entries. A hole is a zeroed message wherever it came from, so two queues
that have the same entries, and holes that came from the same start, are equal
(`eq_of_entries`).

## Results

* `packetChunks` — the chunks of a packet, as a function of it;
  `unpackPacket_walk` — unpacking never faults, whatever the packet holds.
* `LegalPacket`, `InsertableChunk` — complete messages, with indices that can
  be inserted: on these the readers do not fault either.
* `insertedAll`, `entries_insertedAll` — a queue after many insertions, and
  its log.
* `insertedAll_eq_of_mem_iff` — the order of the insertions does not matter,
  nor do repetitions.
-/

namespace PeerProtocol

open Lib

-- ---------------------------------------------------------------------------
-- The chunks of a packet
-- ---------------------------------------------------------------------------

/-- What `peer_unpack` extracts from a packet when no request is refused. -/
def packetChunks (packet : PeerPacket) : List Chunk :=
  match unpackPacket packet [] .reliable with
  | .ok (_, chunks, _) => chunks
  | .error _ => []

/-- A packet that yields chunks has these. -/
theorem Yields.packetChunks_eq {p : PeerPacket} {cs : List Chunk} (h : Yields p cs) :
    packetChunks p = cs := by
  have hUnpack := h []
  rw [packetChunks, hUnpack, List.nil_append]

/-- A chunk in the walk over a packet has its length as size field, if it has one at all. -/
theorem Walk.sizeMatches {data : Buffer UInt8 peerPacketSize} {size : Int} {o : Nat}
    {cs : List Chunk} (h : Walk data size o cs) : ∀ c ∈ cs, 30 ≤ c.length → SizeMatches c := by
  induction h with
  | done => simp
  | refuse => simp
  | @step o n cs hLeft hRead hPos hEnd hRest ih =>
    intro c hc hMin
    rcases List.mem_cons.mp hc with rfl | hLater
    · have hLen : ((data.elems.drop o).take n).length = n := by
        rw [List.length_take, List.length_drop, data.length_eq, peerPacketSize]
        omega
      rw [SizeMatches, ← peerReadMessageSize_append (by omega) (data.elems.drop (o + n)), hLen,
        ← List.drop_drop, List.take_append_drop, hRead]
    · exact ih c hLater hMin

/-- Unpacking a packet never faults, and what it gives are the chunks of the walk. -/
theorem unpackPacket_walk (packet : PeerPacket) :
    ∃ s cs, unpackPacket packet [] .reliable = .ok (s, cs, .reliable) ∧
      ∃ size, Walk packet.data size peerNPacketMessages cs := by
  by_cases hInside : 0 ≤ packet.size ∧ packet.size ≤ peerPacketSize
  · obtain ⟨s, cs, hUnpack, hWalk⟩ := peerUnpack_walk hInside.1 hInside.2
    rw [peerUnpack_singleton] at hUnpack
    exact ⟨s, cs, hUnpack, packet.size, hWalk⟩
  · refine ⟨peerErrorInvalidPacketSize, [], ?_, 0, .done (by rw [peerNPacketMessages]; omega)⟩
    rw [peerPacketSize] at hInside
    rw [unpackPacket, if_neg (by omega), if_pos (by rw [peerNPacketMessages, peerPacketSize]; omega)]

/-- Unpacking as a function of the packet; the status is not needed. -/
theorem unpackPacket_packetChunks (packet : PeerPacket) :
    ∃ s, unpackPacket packet [] .reliable = .ok (s, packetChunks packet, .reliable) := by
  obtain ⟨s, cs, hUnpack, _⟩ := unpackPacket_walk packet
  exact ⟨s, by rw [packetChunks, hUnpack]⟩

/-- A chunk of a packet is as long as its size field says, if it has one. -/
theorem sizeMatches_of_mem {packet : PeerPacket} {c : Chunk} (h : c ∈ packetChunks packet)
    (hMin : 30 ≤ c.length) : SizeMatches c := by
  obtain ⟨s, cs, hUnpack, _, hWalk⟩ := unpackPacket_walk packet
  rw [packetChunks, hUnpack] at h
  exact hWalk.sizeMatches c h hMin

-- ---------------------------------------------------------------------------
-- Legal messages
-- ---------------------------------------------------------------------------

/-- A chunk with room for a header, whose index is `PEER_UNDEFINED` or can be
inserted. Such a chunk is read without a fault, whatever its other fields say. -/
def LegalChunk (c : Chunk) : Prop :=
  peerNMessageData ≤ c.length ∧
    ∀ header, readHeader c = .ok header → peerUndefined ≤ header.index ∧ header.index < int64Max

/-- A packet of such chunks only. -/
def LegalPacket (packet : PeerPacket) : Prop := ∀ c ∈ packetChunks packet, LegalChunk c

/-- A chunk with room for a header, whose index is not the last 64-bit one: the
host stores it, or refuses it. -/
def InsertableChunk (c : Chunk) : Prop :=
  peerNMessageData ≤ c.length ∧ ∀ header, readHeader c = .ok header → header.index < int64Max

/-- A legal chunk can be inserted. -/
theorem LegalChunk.insertable {c : Chunk} (h : LegalChunk c) : InsertableChunk c :=
  ⟨h.1, fun header hHeader => (h.2 header hHeader).2⟩

/-- The readers on a chunk whose size field is its length: none of them faults, and
the data is what follows the header. -/
theorem readers_of_sizeMatches {c : Chunk} (hMin : 30 ≤ c.length) (hSize : SizeMatches c) :
    ∃ header id, readHeader c = .ok header ∧ readServiceId c header = .ok id ∧
      header.dataSize = (c.length : Int) - 30 ∧
      chunkData c peerNMessageData header.dataSize = .ok (c.drop peerNMessageData) := by
  obtain ⟨header, n, hHeader, hn, hData, _, _⟩ := readHeader_of_length hMin
  obtain rfl : n = c.length := by
    rw [SizeMatches, hn] at hSize
    exact Except.ok.inj hSize
  -- The service id is read only where the header says that there is data, and then there is.
  obtain ⟨id, hId⟩ : ∃ id, readServiceId c header = .ok id := by
    unfold readServiceId
    split
    · next hService =>
      have hLt : 30 < c.length := by
        have := hService.2
        omega
      obtain ⟨b, hByte⟩ : ∃ b, readAt c 30 = .ok b :=
        ⟨_, readAt_eq_ok.mpr (List.getElem?_eq_getElem hLt)⟩
      exact ⟨some b, by rw [peerNMessageData, hByte, ok_bind]; rfl⟩
    · exact ⟨_, rfl⟩
  refine ⟨header, id, hHeader, hId, hData, ?_⟩
  rw [chunkData, peerNMessageData, if_pos (by omega), List.take_of_length_le]
  rw [List.length_drop]
  omega

/-- The readers on a chunk of a packet, with an index that has a successor. -/
theorem readers_of_insertable {packet : PeerPacket} {c : Chunk} (hMem : c ∈ packetChunks packet)
    (hInsertable : InsertableChunk c) :
    ∃ header id, readHeader c = .ok header ∧ readServiceId c header = .ok id ∧
      chunkData c peerNMessageData header.dataSize = .ok (c.drop peerNMessageData) ∧
      header.index < int64Max := by
  obtain ⟨hMin, hIndex⟩ := hInsertable
  obtain ⟨header, id, hHeader, hId, _, hData⟩ :=
    readers_of_sizeMatches hMin (sizeMatches_of_mem hMem hMin)
  exact ⟨header, id, hHeader, hId, hData, hIndex header hHeader⟩

/-- The same for a legal one, whose index is not negative, or stands for none. -/
theorem readers_of_legal {packet : PeerPacket} {c : Chunk} (hMem : c ∈ packetChunks packet)
    (hLegal : LegalChunk c) :
    ∃ header id, readHeader c = .ok header ∧ readServiceId c header = .ok id ∧
      chunkData c peerNMessageData header.dataSize = .ok (c.drop peerNMessageData) ∧
      peerUndefined ≤ header.index ∧ header.index < int64Max := by
  obtain ⟨header, id, hHeader, hId, hData, hHi⟩ := readers_of_insertable hMem hLegal.insertable
  exact ⟨header, id, hHeader, hId, hData, (hLegal.2 header hHeader).1, hHi⟩

-- ---------------------------------------------------------------------------
-- Many insertions
-- ---------------------------------------------------------------------------

/-- The queue after the insertions, in order. -/
def insertedAll (q : PeerQueue) (es : List (Nat × Entry)) : PeerQueue :=
  es.foldl (fun q e => inserted q e.1 e.2) q

theorem insertedAll_append (q : PeerQueue) (es fs : List (Nat × Entry)) :
    insertedAll q (es ++ fs) = insertedAll (insertedAll q es) fs := List.foldl_append

/-- Many insertions are many entries learned: the log does not see the holes. -/
theorem entries_insertedAll (q : PeerQueue) (es : List (Nat × Entry)) :
    entries (insertedAll q es) = GapLog.learn (entries q) es := by
  induction es generalizing q with
  | nil => rfl
  | cons e es ih => rw [insertedAll, List.foldl_cons, ← insertedAll, ih, entries_inserted]; rfl

/-- An entry that is not ready is as it was, or is one that growing made. -/
def SameGaps (q q' : PeerQueue) : Prop :=
  ∀ (i : Nat) (m : PeerMessage), q'[i]? = some m → m.isReady = false →
    q[i]? = some m ∨ (q.length ≤ i ∧ m = PeerMessage.zero)

theorem sameGaps_refl (q : PeerQueue) : SameGaps q q := fun _ _ h _ => Or.inl h

/-- An insertion makes a queue longer by holes, and fills one of them at most. -/
theorem sameGaps_inserted (q : PeerQueue) (i : Nat) (e : Entry) : SameGaps q (inserted q i e) := by
  intro k m hk hGap
  unfold inserted at hk
  split at hk
  · exact Or.inl hk
  rcases getElem?_set_cases hk with ⟨_, rfl⟩ | ⟨_, hGrown⟩
  · cases hGap
  unfold grown at hGrown
  split at hGrown
  · exact Or.inl hGrown
  · rw [queueGrow, List.getElem?_append] at hGrown
    split at hGrown
    · exact Or.inl hGrown
    · obtain ⟨_, rfl⟩ := List.getElem?_eq_some_iff.mp hGrown
      exact Or.inr ⟨by omega, List.getElem_replicate ..⟩

/-- Changes in a row, of a queue that does not become shorter. -/
theorem SameGaps.trans {q r t : PeerQueue} (h : SameGaps q r) (h' : SameGaps r t)
    (hLen : q.length ≤ r.length) : SameGaps q t := by
  intro i m hi hGap
  rcases h' i m hi hGap with hOld | ⟨hPast, hZero⟩
  · exact h i m hOld hGap
  · exact Or.inr ⟨by omega, hZero⟩

/-- An insertion does not make a queue shorter. -/
theorem length_le_inserted (q : PeerQueue) (i : Nat) (e : Entry) :
    q.length ≤ (inserted q i e).length := by
  rw [← length_entries, ← length_entries, entries_inserted, GapLog.length_put]
  exact Nat.le_max_left _ _

theorem sameGaps_insertedAll (q : PeerQueue) (es : List (Nat × Entry)) :
    SameGaps q (insertedAll q es) := by
  induction es generalizing q with
  | nil => exact sameGaps_refl q
  | cons e es ih =>
    exact (sameGaps_inserted q e.1 e.2).trans (ih (inserted q e.1 e.2))
      (length_le_inserted q e.1 e.2)

/-- A message with an entry is that of the entry. -/
theorem eq_message_of_entry {m : PeerMessage} {e : Entry} (h : m.entry = some e) : m = e.message := by
  unfold PeerMessage.entry at h
  split at h
  · next hReady =>
    rw [← Option.some.inj h, Entry.message, ← hReady]
  · cases h

/-- A message without an entry is not ready. -/
theorem entry_eq_none_iff {m : PeerMessage} : m.entry = none ↔ m.isReady = false := by
  unfold PeerMessage.entry
  cases m.isReady <;> simp

/-- The entries and the gaps make the queue. -/
theorem eq_of_entries {q r t : PeerQueue} (hEntries : entries r = entries t) (hr : SameGaps q r)
    (ht : SameGaps q t) : r = t := by
  have hLen : r.length = t.length := by
    rw [← length_entries, hEntries, length_entries]
  refine List.ext_getElem hLen fun i hi hi' => ?_
  have hAt : r[i].entry = t[i].entry := by
    have := congrArg (·[i]?) hEntries
    simpa [entries, hi, hi'] using this
  cases hEntry : r[i].entry with
  | some e =>
    have hEntry' : t[i].entry = some e := hAt ▸ hEntry
    rw [eq_message_of_entry hEntry, eq_message_of_entry hEntry']
  | none =>
    -- a gap of both: an old one, or one behind the old queue
    rcases hr i _ (List.getElem?_eq_getElem hi) (entry_eq_none_iff.mp hEntry) with hOld | ⟨hPast, hZero⟩
    all_goals
      rcases ht i _ (List.getElem?_eq_getElem hi') (entry_eq_none_iff.mp (hAt ▸ hEntry)) with
        hOld' | ⟨hPast', hZero'⟩
    · rw [hOld] at hOld'
      exact Option.some.inj hOld'
    · rw [List.getElem?_eq_none hPast'] at hOld
      cases hOld
    · rw [List.getElem?_eq_none hPast] at hOld'
      cases hOld'
    · rw [hZero, hZero']

/-- **Insertion in any order**: only which entries are inserted matters, as long as
they do not contradict each other. A queue keeps the first entry for an index, so
with two for one index the order would decide. -/
theorem insertedAll_eq_of_mem_iff {q : PeerQueue} {es fs : List (Nat × Entry)}
    (hMem : ∀ e, e ∈ es ↔ e ∈ fs) (hCon : GapLog.Consistent es) :
    insertedAll q es = insertedAll q fs := by
  refine eq_of_entries ?_ (sameGaps_insertedAll q es) (sameGaps_insertedAll q fs)
  rw [entries_insertedAll, entries_insertedAll, GapLog.learn_eq_of_mem_iff hMem hCon]

end PeerProtocol
