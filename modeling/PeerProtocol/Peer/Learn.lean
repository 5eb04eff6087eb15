import PeerProtocol.Peer.Log

/-!
# peer — what a client learns

A client that is given packets of a host: each chunk is taken without an
error, and the mutual queue stays a part of the host's log.

A host sends three kinds of chunks (`HostChunk`), and each of them is followed
through the readers and the branches of `peer_input`: a heartbeat moves the
mutual time, a session response gives the client its actor id and an address,
and an entry of the log is inserted at its index. The entry that is read is
the entry that was sent, because it survives the header; and an index that is
filled already holds the same entry, because both are entries of one log at
one index.

What a client has is never lost: `Learns` relates two states of a client of
which the second holds everything that the first does, and matches the same
packets.

## Results

* `inputChunkClient_heartbeat`, `inputChunkClient_response`,
  `inputChunkClient_entry` — the three kinds, in closed form.
* `Follows` — the client's mutual queue agrees with a log.
* `Taken` — a chunk has had its effect: an entry of the log is held.
* `Follows.chunk`, `Follows.packet`, `Follows.input` — one chunk, one packet,
  and any packets; those that are for another client change nothing.
-/

namespace PeerProtocol

open Lib

-- ---------------------------------------------------------------------------
-- The three kinds of chunks
-- ---------------------------------------------------------------------------

/-- The index of a service message fits its field. -/
theorem isInt64_peerUndefined : IsInt64 peerUndefined := ⟨by decide, by decide⟩

/-- A service message has its id read back. -/
theorem readServiceId_service (index time actor : Int) (id : UInt8) (data : List UInt8)
    {header : MessageHeader} (hMode : header.mode = peerMessageModeService)
    (hSize : header.dataSize = (id :: data).length) :
    readServiceId (encode peerMessageModeService index time actor (id :: data)) header =
      .ok (some id) := by
  rw [readServiceId_encode, if_pos]
  rw [List.length_cons] at hSize
  exact ⟨hMode, by omega⟩

/-- The rest of its data is what follows the id. -/
theorem chunkData_encode_tail {mode id : UInt8} {index time actor : Int} {data : List UInt8} :
    chunkData (encode mode index time actor (id :: data)) (peerNMessageData + 1) data.length =
      .ok data := by
  unfold chunkData
  rw [if_pos (by rw [length_encode, List.length_cons, peerNMessageData]; omega)]
  have hSplit : ∃ c, encode mode index time actor (id :: data) = c ++ data ∧ c.length = 31 :=
    ⟨encodeHeader mode ((30 + (data.length + 1)) % 0x10000) index time actor ++ [id], by simp [encode],
      by simp⟩
  obtain ⟨c, hEq, hc⟩ := hSplit
  rw [hEq, List.drop_left' hc, Int.toNat_natCast, List.take_length]

/-- A heartbeat moves the mutual time, and nothing else. -/
theorem inputChunkClient_heartbeat (client : Peer) (j : Nat) {time : Int} (hTime : IsInt64 time)
    (actor : Int) :
    inputChunkClient client j (heartbeatChunk time actor) =
      .ok (kitOk, { client with time := max client.time time }) := by
  rw [heartbeatChunk, inputChunkClient,
    readHeader_encode (by decide) isInt64_peerUndefined hTime (by simp), ok_bind]
  dsimp only
  rw [readServiceId_service _ _ _ _ _ rfl rfl, ok_bind, if_pos rfl, if_pos rfl]
  simp only [pure_eq_ok, ok_bind, max_time]

/-- A session response, whose address fits the client's array because it fits the
host's. Without that bound on the sender the client would write past its array, as
the source copies as many bytes as the header says. -/
theorem inputChunkClient_response {client : Peer} {j : Nat} {slot : PeerSlot}
    (hSlot : client.slots[j]? = some slot) {time : Int} (hTime : IsInt64 time) {sender : PeerSlot}
    (hAddress : sender.localEnd.AddressFits) :
    ∃ hRoom, inputChunkClient client j (sessionResponseChunk time sender) =
      .ok (kitOk, { client with
        actor := toU32 sender.actor
        slots := client.slots.set j
          (slot.respond (toU32 sender.actor) sender.localEnd.address hRoom)
        time := max client.time time }) := by
  have hLen := hAddress.length_address
  have hRoom : 0 + sender.localEnd.address.length ≤ peerAddressSize := by
    have := hAddress.2
    omega
  refine ⟨hRoom, ?_⟩
  -- an address has 22 bytes at most, so the message is a legal one
  have hData : (peerMSessionResponse :: sender.localEnd.address).length ≤ 993 := by
    rw [peerAddressSize] at hRoom
    rw [List.length_cons]
    omega
  have hSize : ((peerMSessionResponse :: sender.localEnd.address).length : Int) - 1 =
      sender.localEnd.address.length := by
    rw [List.length_cons]
    omega
  rw [sessionResponseChunk, inputChunkClient,
    readHeader_encode (by decide) isInt64_peerUndefined hTime hData, ok_bind]
  dsimp only
  rw [readServiceId_service _ _ _ _ _ rfl rfl, ok_bind, if_pos rfl, if_neg (by decide), if_pos rfl,
    readAt_eq_ok.mpr hSlot, ok_bind, sessionResponse, hSize, chunkData_encode_tail, ok_bind,
    dif_pos hRoom]
  simp only [pure_eq_ok, ok_bind, max_time, PeerSlot.respond]

/-- The header of a chunk of the log: all its fields are read back. -/
theorem readHeader_entry {log : List Entry} (hLog : WireLog log) {k : Nat} {e : Entry}
    (hEntry : log[k]? = some e) :
    readHeader (e.message.chunk k) = .ok
      { dataSize := e.data.length, mode := peerMessageModeApplication, index := k, time := e.time,
        actor := toU32 e.actor } := by
  have hWire := hLog.entry e (List.mem_of_getElem? hEntry)
  have hk := (List.getElem?_eq_some_iff.mp hEntry).1
  have hLen := hLog.length_le
  have hIndex : IsInt64 k := by
    unfold IsInt64
    omega
  exact readHeader_encode (by decide) hIndex hWire.time (Nat.le_trans hWire.small (by decide))

/-- An entry of the log is inserted at its index, unless one is there: then the
insertion leaves the queue, and only the time of the message is looked at. -/
theorem inputChunkClient_entry {client : Peer} (hAlloc : client.alloc = .reliable) (j : Nat)
    {log : List Entry} (hLog : WireLog log) {k : Nat} {e : Entry} (hEntry : log[k]? = some e) :
    ∃ q, inputChunkClient client j (e.message.chunk k) =
        .ok (kitOk, { client with queue := q, time := max client.time e.time }) ∧
      entries q = GapLog.put (entries client.queue) k e := by
  have hWire := hLog.entry e (List.mem_of_getElem? hEntry)
  have hk : (k : Int) < int64Max := by
    have := (List.getElem?_eq_some_iff.mp hEntry).1
    have := hLog.length_le
    omega
  obtain ⟨q, hInsert, hEntries⟩ := entries_queueInsert client.queue hk e
  refine ⟨q, ?_, hEntries⟩
  -- The actor id comes back from its 32 bits as it was.
  have hActor : ((toU32 e.actor : Nat) : Int) = e.actor := by
    obtain ⟨hLo, hHi⟩ := hWire.actor
    unfold toU32
    omega
  have hChunk : e.message.chunk k = encode peerMessageModeApplication k e.time e.actor e.data := rfl
  rw [inputChunkClient, readHeader_entry hLog hEntry, ok_bind, hChunk]
  have hApplication : peerMessageModeApplication ≠ peerMessageModeService := by decide
  dsimp only
  rw [readServiceId, if_neg (fun h => hApplication h.1), ok_bind, if_neg hApplication,
    chunkData_encode, ok_bind, hActor, hAlloc, hInsert, ok_bind]
  simp only [pure_eq_ok, ok_bind, ← hAlloc, max_time]

-- ---------------------------------------------------------------------------
-- Any packets
-- ---------------------------------------------------------------------------

/-- A client whose mutual queue follows a log: it holds entries of the log, at their
indices, and has gaps for the others. It may be shorter than the log, and is never
longer. -/
structure Follows (log : List Entry) (client : Peer) : Prop where
  mode : client.mode = .client
  alloc : client.alloc = .reliable
  agrees : GapLog.Agrees log (entries client.queue)

/-- What an input leaves of a client: the entries it holds, and whom its slots listen to. -/
structure Learns (client client' : Peer) : Prop where
  filled : ∀ i, GapLog.Filled (entries client.queue) i → GapLog.Filled (entries client'.queue) i
  matches_iff : ∀ j packet, Matches client' j packet ↔ Matches client j packet

theorem Learns.refl (client : Peer) : Learns client client := ⟨fun _ h => h, fun _ _ => Iff.rfl⟩

theorem Learns.trans {client client' client'' : Peer} (h : Learns client client')
    (h' : Learns client' client'') : Learns client client'' :=
  ⟨fun i hi => h'.filled i (h.filled i hi),
    fun j packet => (h'.matches_iff j packet).trans (h.matches_iff j packet)⟩

/-- If the chunk is a message, the client holds an entry at its index. -/
def Taken (client : Peer) (c : Chunk) : Prop :=
  ∀ header (k : Nat), readHeader c = .ok header → header.mode ≠ peerMessageModeService →
    header.index = k → GapLog.Filled (entries client.queue) k

/-- A chunk that was taken stays so. -/
theorem Taken.mono {client client' : Peer} {c : Chunk} (h : Taken client c)
    (hLearns : Learns client client') : Taken client' c :=
  fun header k hHeader hMode hIndex => hLearns.filled k (h header k hHeader hMode hIndex)

/-- A service message is taken at once: it holds no entry. -/
theorem taken_service {client : Peer} {index time actor : Int} {data : List UInt8}
    (hIndex : IsInt64 index) (hTime : IsInt64 time) (hData : data.length ≤ 993) :
    Taken client (encode peerMessageModeService index time actor data) := by
  intro header k hHeader hMode _
  rw [readHeader_encode (by decide) hIndex hTime hData, Except.ok.injEq] at hHeader
  rw [← hHeader] at hMode
  exact absurd rfl hMode

/-- **One chunk** of the host is taken without an error, and the queue still follows
the log. A heartbeat and a session response leave the queue as it is. -/
theorem Follows.chunk {log : List Entry} (hLog : WireLog log) {client : Peer}
    (h : Follows log client) {j : Nat} {slot : PeerSlot} (hSlot : client.slots[j]? = some slot)
    {c : Chunk} (hc : HostChunk log c) :
    ∃ client', inputChunk client j c = .ok (kitOk, client') ∧ Follows log client' ∧
      Learns client client' ∧ Taken client' c := by
  have hInput : inputChunk client j c = inputChunkClient client j c := by
    rw [inputChunk, h.mode]
  have hMatches {client' : Peer} (hOk : inputChunkClient client j c = .ok (kitOk, client')) :
      ∀ k packet, Matches client' k packet ↔ Matches client k packet :=
    fun k packet => (inputChunk_cases (hInput.trans hOk)).matches_iff
  rw [hInput]
  cases hc with
  | @heartbeat _ actor hTime =>
    have hOk := inputChunkClient_heartbeat client j hTime actor
    exact ⟨_, hOk, ⟨h.mode, h.alloc, h.agrees⟩, ⟨fun _ hi => hi, hMatches hOk⟩,
      taken_service isInt64_peerUndefined hTime (by simp)⟩
  | response hTime hAddress =>
    obtain ⟨hRoom, hOk⟩ := inputChunkClient_response hSlot hTime hAddress
    refine ⟨_, hOk, ⟨h.mode, h.alloc, h.agrees⟩, ⟨fun _ hi => hi, hMatches hOk⟩,
      taken_service isInt64_peerUndefined hTime ?_⟩
    rw [peerAddressSize] at hRoom
    rw [List.length_cons]
    omega
  | @entry k e hEntry =>
    obtain ⟨q, hOk, hEntries⟩ := inputChunkClient_entry h.alloc j hLog hEntry
    refine ⟨_, hOk, ⟨h.mode, h.alloc, ?_⟩, ⟨?_, hMatches hOk⟩, ?_⟩
    · dsimp only
      rw [hEntries]
      exact h.agrees.put hEntry
    · intro i hi
      dsimp only
      rw [hEntries]
      exact GapLog.filled_put_of_filled hi
    -- the entry that the chunk carries is there now
    · intro header i hHeader _ hIndex
      rw [readHeader_entry hLog hEntry, Except.ok.injEq] at hHeader
      obtain rfl : k = i := by
        rw [← hHeader] at hIndex
        exact Int.ofNat.inj hIndex
      dsimp only
      rw [hEntries]
      exact GapLog.filled_put_self _ _ _

theorem Follows.chunks {log : List Entry} (hLog : WireLog log) {cs : List Chunk}
    (hcs : ∀ c ∈ cs, HostChunk log c) {client : Peer} (h : Follows log client) {j : Nat}
    {packet : PeerPacket} (hMatch : Matches client j packet) :
    ∃ client', inputChunks j cs client = .ok (kitOk, client') ∧ Follows log client' ∧
      Learns client client' ∧ ∀ c ∈ cs, Taken client' c := by
  induction cs generalizing client with
  | nil => exact ⟨client, rfl, h, .refl client, by simp⟩
  | cons c cs ih =>
    obtain ⟨slot, hSlot, _⟩ := id hMatch
    obtain ⟨client1, hFirst, h1, hLearns1, hTaken1⟩ :=
      h.chunk hLog hSlot (hcs c (List.mem_cons_self ..))
    -- A chunk changes no ids, so those behind it are still for this slot.
    obtain ⟨client2, hRest, h2, hLearns2, hTaken2⟩ :=
      ih (fun d hd => hcs d (List.mem_cons_of_mem _ hd)) h1 ((hLearns1.matches_iff j packet).mpr hMatch)
    refine ⟨client2, ?_, h2, hLearns1.trans hLearns2, ?_⟩
    · rw [inputChunks, hFirst, ok_bind]
      dsimp only
      rw [hRest, ok_bind]
      simp only [pure_eq_ok, kitOk, UInt32.or_zero]
    · intro d hd
      rcases List.mem_cons.mp hd with rfl | hLater
      · exact hTaken1.mono hLearns2
      · exact hTaken2 d hLater

/-- What a packet yields is determined by it. -/
theorem Yields.unique {p : PeerPacket} {cs cs' : List Chunk} (h : Yields p cs) (h' : Yields p cs') :
    cs = cs' := by
  have hEq := h []
  rw [h' [], Except.ok.injEq, Prod.mk.injEq, Prod.mk.injEq] at hEq
  exact hEq.2.1.symm

/-- One packet, for this client or for another: it goes through without an error,
the client still agrees with the log, it listens to the same packets as before, and
what was for it is taken. -/
theorem Follows.packet {log : List Entry} (hLog : WireLog log) {client : Peer}
    (h : Follows log client) {p : PeerPacket} (hp : HostPacket log p) :
    ∃ client', inputPacket client p = .ok (kitOk, client') ∧ Follows log client' ∧
      Learns client client' ∧
      ∀ j cs, Matches client j p → Yields p cs → ∀ c ∈ cs, Taken client' c := by
  obtain ⟨src, dst, cs, hSealed, hcs⟩ := hp
  have hYields := hSealed.yields
  unfold inputPacket
  split
  · cases hFind : client.slots.findIdx? (·.matchesPacket p) with
    | some j =>
      obtain ⟨client', hOk, h', hLearns, hTaken⟩ := h.chunks hLog hcs (findIdx?_matches hFind)
      refine ⟨client', ?_, h', hLearns, ?_⟩
      · dsimp only
        rw [peerUnpack_singleton, h.alloc, hYields [], ok_bind]
        dsimp only
        rw [List.nil_append, ← h.alloc, hOk, ok_bind]
        simp only [pure_eq_ok, kitOk, UInt32.or_zero]
      · intro _ cs' _ hYields' c hc
        rw [hYields'.unique hYields] at hc
        exact hTaken c hc
    -- a client assigns no slot
    | none =>
      have hSame : assignSlot client p = (kitOk, client) := by
        rw [assignSlot, if_pos (Or.inl (by rw [h.mode]; decide))]
      exact ⟨client, by rw [hSame], h, .refl client,
        fun j _ hMatch => absurd hMatch (findIdx?_eq_none_iff_not_matches.mp hFind j)⟩
  · next hOther =>
    refine ⟨client, rfl, h, .refl client, ?_⟩
    rintro j _ ⟨slot, hSlot, hMatch⟩
    simp only [PeerSlot.matchesPacket, Bool.and_eq_true] at hMatch
    exact absurd (List.any_eq_true.mpr ⟨slot, List.mem_of_getElem? hSlot, hMatch.1⟩) hOther

/-- **Any packets** of the host are taken without an error; the client keeps
following the log, and holds what was in them. -/
theorem Follows.input {log : List Entry} (hLog : WireLog log) {packets : List PeerPacket}
    (hPackets : ∀ p ∈ packets, HostPacket log p) {client : Peer} (h : Follows log client) :
    ∃ client', peerInput client packets = .ok (kitOk, client') ∧ Follows log client' ∧
      Learns client client' ∧
      ∀ p ∈ packets, ∀ j cs, Matches client j p → Yields p cs → ∀ c ∈ cs, Taken client' c := by
  induction packets generalizing client with
  | nil => exact ⟨client, rfl, h, .refl client, by simp⟩
  | cons p packets ih =>
    obtain ⟨client1, hFirst, h1, hLearns1, hTaken1⟩ :=
      h.packet hLog (hPackets p (List.mem_cons_self ..))
    obtain ⟨client2, hRest, h2, hLearns2, hTaken2⟩ :=
      ih (fun q hq => hPackets q (List.mem_cons_of_mem _ hq)) h1
    refine ⟨client2, ?_, h2, hLearns1.trans hLearns2, ?_⟩
    · exact peerInput_of_cons hFirst hRest
    · intro q hq j cs hMatch hYields c hc
      rcases List.mem_cons.mp hq with rfl | hLater
      · exact (hTaken1 j cs hMatch hYields c hc).mono hLearns2
      · exact hTaken2 q hLater j cs ((hLearns1.matches_iff j q).mpr hMatch) hYields c hc

end PeerProtocol
