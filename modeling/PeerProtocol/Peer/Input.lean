import PeerProtocol.Lib.Lists
import PeerProtocol.Peer.Queue

/-!
# peer — what an input can do

`peer_input` is three nested loops: over the packets, over the chunks of a
packet, and over the messages in it. Everything its turns can do to a peer is
said once here, for every allocator and every packet, so that an invariant of
a peer is shown by going through a short list of cases and never by unfolding
the loops.

A turn of the loop over the chunks reads five fields before it looks at any,
compares some of them, and then does one of five things: nothing; storing a
message, in the slot's queue on a host or in the mutual queue on a client;
taking over a session response; or moving the mutual clock. `ChunkStep` is
that list, with everything that the code has tested on the way as a premise.

A turn of the loop over the packets drops the packet, or unpacks it for the
first slot that matches, or assigns a slot to a new client. No chunk changes
which packets a slot is for (`ChunkStep.matches_iff`), so the slot is the same
for all chunks of a packet.

## Results

* `unpackMessages_keeps` — unpacked chunks fit a packet, whatever the packet
  holds.
* `ChunkStep`, `inputChunk_cases` — the five things a turn of the loop over
  the chunks does; `HostChunkStep`, `ChunkStep.onHost` — the two of them that
  happen on a host.
* `inputPacket_cases`, `assignSlot_cases` — what a turn of the loop over the
  packets does, and a packet that matches no slot.
* `peerInput_invariant` — the rule that derives the invariants of `peer_input`
  from those.
-/

namespace PeerProtocol

open Lib

-- ---------------------------------------------------------------------------
-- Unpacking, whatever the allocator does
-- ---------------------------------------------------------------------------

/-- `peer_input` unpacks one packet at a time. -/
theorem peerUnpack_singleton (packet : PeerPacket) (al : Allocator) :
    peerUnpack [packet] [] al = unpackPacket packet [] al := by
  simp only [peerUnpack, ok_bind]
  cases unpackPacket packet [] al with
  | error e => rfl
  | ok r =>
    obtain ⟨s, cs, al'⟩ := r
    simp only [ok_bind, pure_eq_ok, kitOk, UInt32.or_zero]

/-- No chunk is longer than what a packet has behind its header, and a reliable
allocator stays one. -/
theorem unpackMessages_keeps {data : Buffer UInt8 peerPacketSize} {size : Int} {fuel o : Nat}
    {acc cs : List Chunk} {al al' : Allocator} {s : Status} (ho : 15 ≤ o)
    (hAcc : ∀ c ∈ acc, c.length ≤ 385)
    (h : unpackMessages data size fuel o acc al = .ok (s, cs, al')) :
    (∀ c ∈ cs, c.length ≤ 385) ∧ (al = .reliable → al' = .reliable) := by
  -- every way out of the loop before an allocation returns what is there
  have hStop : ∀ {s' : Status}, (.ok (s', acc, al) : Except Fault _) = .ok (s, cs, al') →
      (∀ c ∈ cs, c.length ≤ 385) ∧ (al = .reliable → al' = .reliable) := by
    rintro s' ⟨⟩
    exact ⟨hAcc, id⟩
  induction fuel generalizing o acc al with
  | zero => exact hStop h
  | succ fuel ih =>
    rw [unpackMessages] at h
    split at h
    · obtain ⟨n, hRead, h⟩ := bind_eq_ok.mp h
      split at h
      · exact hStop h
      split at h
      · exact hStop h
      next hEnd =>
      rw [peerPacketSize] at hEnd
      cases hRequest : al.request with
      | mk b al1 =>
      rw [hRequest] at h
      have hReliable1 : al = .reliable → al1 = .reliable := Allocator.reliable_of_request hRequest
      cases b with
      | false =>
        obtain ⟨rfl, rfl, rfl⟩ : _ ∧ acc = cs ∧ al1 = al' := by simpa using h
        exact ⟨hAcc, hReliable1⟩
      | true =>
      dsimp only at h
      cases hInit : al1.daInit n with
      | mk b al2 =>
      rw [hInit] at h
      have hReliable2 : al = .reliable → al2 = .reliable := fun hal =>
        Allocator.reliable_of_daInit hInit (hReliable1 hal)
      cases b with
      | false =>
        -- the array has grown, but its new element has no bytes
        obtain ⟨rfl, rfl, rfl⟩ : _ ∧ acc ++ [[]] = cs ∧ al2 = al' := by simpa using h
        refine ⟨?_, hReliable2⟩
        intro c hc
        rcases List.mem_append.mp hc with hOld | hNew
        · exact hAcc c hOld
        · simp [List.mem_singleton.mp hNew]
      | true =>
        -- a chunk starts behind the header and ends inside the 400 bytes
        have hAcc' : ∀ c ∈ acc ++ [(data.elems.drop o).take n], c.length ≤ 385 := by
          intro c hc
          rcases List.mem_append.mp hc with hOld | hNew
          · exact hAcc c hOld
          · rw [List.mem_singleton.mp hNew, List.length_take]
            omega
        obtain ⟨hLen, hReliable⟩ := ih (by omega) hAcc' h (by rintro s' ⟨⟩; exact ⟨hAcc', id⟩)
        exact ⟨hLen, fun hal => hReliable (hReliable2 hal)⟩
    · exact hStop h

/-- The same for a packet, whose size may be refused. -/
theorem unpackPacket_keeps {packet : PeerPacket} {cs : List Chunk} {al al' : Allocator} {s : Status}
    (h : unpackPacket packet [] al = .ok (s, cs, al')) :
    (∀ c ∈ cs, c.length ≤ 385) ∧ (al = .reliable → al' = .reliable) := by
  have hNil : ∀ {s' : Status}, (.ok (s', [], al) : Except Fault _) = .ok (s, cs, al') →
      (∀ c ∈ cs, c.length ≤ 385) ∧ (al = .reliable → al' = .reliable) := by
    rintro s' ⟨⟩
    exact ⟨by simp, id⟩
  unfold unpackPacket at h
  split at h
  · exact hNil h
  split at h
  · exact hNil h
  · exact unpackMessages_keeps (Nat.le_refl _) (by simp) h

/-- The data of a message lies inside its chunk, or reading it has faulted. -/
theorem length_of_chunkData {chunk : Chunk} {o : Nat} {size : Int} {data : List UInt8}
    (h : chunkData chunk o size = .ok data) :
    (data.length : Int) = size ∧ o + data.length ≤ chunk.length := by
  unfold chunkData at h
  split at h
  · next hInside =>
    obtain rfl : _ = data := by simpa using h
    rw [List.length_take, List.length_drop]
    omega
  · simp at h

-- ---------------------------------------------------------------------------
-- One chunk
-- ---------------------------------------------------------------------------

/-- A client's slot after a session response: the address of the host's slot, to be
resolved, and the new actor id on all messages that wait there. -/
def PeerSlot.respond (slot : PeerSlot) (actor : Nat) (address : List UInt8)
    (h : 0 + address.length ≤ peerAddressSize) : PeerSlot :=
  { slot with
    remoteEnd := { slot.remoteEnd with
      isIdResolved := false
      addressSize := address.length
      addressData := slot.remoteEnd.addressData.blit 0 address h }
    queue := slot.queue.map fun m => { m with actor := actor } }

/-- What one turn of the loop over the chunks does to the peer, for the slot at
position `j`: the inversion of `inputChunk`, which later proofs use in place of its
branches. -/
inductive ChunkStep (j : Nat) (chunk : Chunk) (peer : Peer) : Peer → Prop where
  /-- the host refuses the message, or it is a service message -/
  | hostSkip (hMode : peer.mode = .host) : ChunkStep j chunk peer peer
  /-- the host inserts the message into the slot's queue -/
  | hostStore {slot : PeerSlot} {header : MessageHeader} {data : List UInt8} {s : Status}
      {q : PeerQueue} {al : Allocator} (hMode : peer.mode = .host)
      (hSlot : peer.slots[j]? = some slot) (hHeader : readHeader chunk = .ok header)
      (hTime : header.time = 0) (hActor : (header.actor : Int) = slot.actor)
      (hApplication : header.mode ≠ peerMessageModeService)
      (hData : chunkData chunk peerNMessageData header.dataSize = .ok data)
      (hInsert : queueInsert slot.queue header.index 0 slot.actor data peer.alloc =
        .ok (s, q, al)) :
      ChunkStep j chunk peer
        { peer with slots := peer.slots.set j { slot with queue := q }, alloc := al }
  /-- a service message that leaves the client as it is, but for its time -/
  | clientSkip {header : MessageHeader} (hMode : peer.mode = .client)
      (hHeader : readHeader chunk = .ok header) :
      ChunkStep j chunk peer { peer with time := max peer.time header.time }
  /-- a session response -/
  | clientRespond {slot : PeerSlot} {header : MessageHeader} {address : List UInt8}
      (hMode : peer.mode = .client) (hSlot : peer.slots[j]? = some slot)
      (hHeader : readHeader chunk = .ok header) (hService : header.mode = peerMessageModeService)
      (hId : readServiceId chunk header = .ok (some peerMSessionResponse))
      (hAddress : chunkData chunk (peerNMessageData + 1) (header.dataSize - 1) = .ok address)
      (hRoom : 0 + address.length ≤ peerAddressSize) :
      ChunkStep j chunk peer { peer with
        actor := header.actor
        slots := peer.slots.set j (slot.respond header.actor address hRoom)
        time := max peer.time header.time }
  /-- the client inserts the message into its mutual queue -/
  | clientLearn {header : MessageHeader} {data : List UInt8} {s : Status} {q : PeerQueue}
      {al : Allocator} (hMode : peer.mode = .client) (hHeader : readHeader chunk = .ok header)
      (hApplication : header.mode ≠ peerMessageModeService)
      (hData : chunkData chunk peerNMessageData header.dataSize = .ok data)
      (hInsert : queueInsert peer.queue header.index header.time header.actor data peer.alloc =
        .ok (s, q, al)) :
      ChunkStep j chunk peer
        { peer with queue := q, alloc := al, time := max peer.time header.time }

/-- What a chunk does to a host: nothing, or one message is stored in the slot's
queue. The premises are the tests that the code makes on the way. -/
inductive HostChunkStep (j : Nat) (chunk : Chunk) (peer : Peer) : Peer → Prop where
  | skip : HostChunkStep j chunk peer peer
  | store {slot : PeerSlot} {header : MessageHeader} {data : List UInt8} {s : Status}
      {q : PeerQueue} {al : Allocator}
      (hSlot : peer.slots[j]? = some slot) (hHeader : readHeader chunk = .ok header)
      (hTime : header.time = 0) (hActor : (header.actor : Int) = slot.actor)
      (hApplication : header.mode ≠ peerMessageModeService)
      (hData : chunkData chunk peerNMessageData header.dataSize = .ok data)
      (hInsert : queueInsert slot.queue header.index 0 slot.actor data peer.alloc =
        .ok (s, q, al)) :
      HostChunkStep j chunk peer
        { peer with slots := peer.slots.set j { slot with queue := q }, alloc := al }

/-- On a host, no other case is left. -/
theorem ChunkStep.onHost {j : Nat} {chunk : Chunk} {peer peer' : Peer}
    (h : ChunkStep j chunk peer peer') (hMode : peer.mode = .host) :
    HostChunkStep j chunk peer peer' := by
  cases h with
  | hostSkip => exact .skip
  | hostStore _ hSlot hHeader hTime hActor hApplication hData hInsert =>
    exact .store hSlot hHeader hTime hActor hApplication hData hInsert
  | clientSkip hClient => exact absurd hClient (by rw [hMode]; decide)
  | clientRespond hClient => exact absurd hClient (by rw [hMode]; decide)
  | clientLearn hClient => exact absurd hClient (by rw [hMode]; decide)

/-- The turn on a host, taken apart test by test: the slot is left as it was, or one
message with time zero and the slot's actor id goes into its queue. -/
theorem inputChunkHost_cases {slot slot' : PeerSlot} {chunk : Chunk} {al al' : Allocator}
    {s : Status} (h : inputChunkHost slot chunk al = .ok (s, slot', al')) :
    (slot' = slot ∧ al' = al) ∨
    ∃ header data q, readHeader chunk = .ok header ∧ header.time = 0 ∧
      (header.actor : Int) = slot.actor ∧ header.mode ≠ peerMessageModeService ∧
      chunkData chunk peerNMessageData header.dataSize = .ok data ∧
      queueInsert slot.queue header.index 0 slot.actor data al = .ok (s, q, al') ∧
      slot' = { slot with queue := q } := by
  obtain ⟨header, hHeader, h⟩ := bind_eq_ok.mp h
  -- whichever check fails, the slot stays
  have hSkip : ∀ {s' : Status}, (.ok (s', slot, al) : Except Fault _) = .ok (s, slot', al') →
      slot' = slot ∧ al' = al := by
    rintro s' ⟨⟩
    exact ⟨rfl, rfl⟩
  split at h
  · exact Or.inl (hSkip h)
  next hTime =>
  split at h
  · exact Or.inl (hSkip h)
  next hActor =>
  obtain ⟨serviceId, _, h⟩ := bind_eq_ok.mp h
  split at h
  · split at h
    · exact Or.inl (hSkip h)
    · exact Or.inl (hSkip h)
  next hApplication =>
  obtain ⟨data, hData, h⟩ := bind_eq_ok.mp h
  obtain ⟨⟨s1, q, al1⟩, hInsert, h⟩ := bind_eq_ok.mp h
  obtain ⟨rfl, rfl, rfl⟩ : s1 = s ∧ { slot with queue := q } = slot' ∧ al1 = al' := by
    simpa using h
  rw [ne_eq, not_not] at hTime hActor
  rw [hTime, hActor] at hInsert
  exact Or.inr ⟨header, data, q, hHeader, hTime, hActor, hApplication, hData, hInsert, rfl⟩

/-- The mutual clock after a message: the later of the two times. -/
theorem max_time (peer : Peer) (time : Int) :
    (if peer.time < time then { peer with time := time } else peer) =
      { peer with time := max peer.time time } := by
  split
  · next h => rw [max_eq_right (Int.le_of_lt h)]
  · next h => rw [max_eq_left (Int.not_lt.mp h)]

/-- The turn on a client. Each of its ways ends with the update of the clock, also
those that report an error; a message goes into the mutual queue, and a session
response rewrites the slot that the packet came to. -/
theorem inputChunkClient_cases {peer peer' : Peer} {j : Nat} {chunk : Chunk} {s : Status}
    (hMode : peer.mode = .client) (h : inputChunkClient peer j chunk = .ok (s, peer')) :
    ChunkStep j chunk peer peer' := by
  obtain ⟨header, hHeader, h⟩ := bind_eq_ok.mp h
  obtain ⟨serviceId, hId, h⟩ := bind_eq_ok.mp h
  -- the end of the turn: synchronize the time
  have hEnd : ∀ {s1 : Status} {peer1 : Peer},
      (.ok (s1, if peer1.time < header.time then { peer1 with time := header.time } else peer1) :
        Except Fault _) = .ok (s, peer') → peer' = { peer1 with time := max peer1.time header.time } := by
    intro s1 peer1 hEq
    rw [max_time, Except.ok.injEq, Prod.mk.injEq] at hEq
    exact hEq.2.symm
  dsimp only at h
  split at h
  · next hService =>
    split at h
    · rw [hEnd h]
      exact .clientSkip hMode hHeader
    split at h
    · next hResponse =>
      obtain ⟨slot, hSlot, h⟩ := bind_eq_ok.mp h
      obtain ⟨peer2, hRespond, h⟩ := bind_eq_ok.mp h
      obtain ⟨address, hAddress, hRespond⟩ := bind_eq_ok.mp hRespond
      split at hRespond
      · next hRoom =>
        -- a session response, whose address has room
        have hSize := (length_of_chunkData hAddress).1
        have hStep := ChunkStep.clientRespond hMode (readAt_eq_ok.mp hSlot) hHeader hService
          (hResponse ▸ hId) hAddress hRoom
        rw [PeerSlot.respond, hSize] at hStep
        rw [hEnd h, ← Except.ok.inj hRespond]
        exact hStep
      · simp [throw, throwThe, MonadExceptOf.throw] at hRespond
    · rw [hEnd h]
      exact .clientSkip hMode hHeader
  · next hApplication =>
    obtain ⟨data, hData, h⟩ := bind_eq_ok.mp h
    obtain ⟨⟨s2, q, al⟩, hInsert, h⟩ := bind_eq_ok.mp h
    rw [hEnd h]
    exact .clientLearn hMode hHeader hApplication hData hInsert

/-- **What one chunk does**, in either mode: one of the five cases, with what the
code has tested before. All invariants of inputs are proved from these. -/
theorem inputChunk_cases {peer peer' : Peer} {j : Nat} {chunk : Chunk} {s : Status}
    (h : inputChunk peer j chunk = .ok (s, peer')) : ChunkStep j chunk peer peer' := by
  unfold inputChunk at h
  split at h
  · next hMode =>
    obtain ⟨slot, hSlot, h⟩ := bind_eq_ok.mp h
    obtain ⟨⟨s1, slot', al⟩, hChunk, h⟩ := bind_eq_ok.mp h
    rw [readAt_eq_ok] at hSlot
    obtain ⟨_, rfl⟩ : _ ∧ { peer with slots := peer.slots.set j slot', alloc := al } = peer' := by
      simpa using h
    rcases inputChunkHost_cases hChunk with
      ⟨rfl, rfl⟩ | ⟨header, data, q, hHeader, hTime, hActor, hApp, hData, hInsert, rfl⟩
    · obtain ⟨hj, rfl⟩ := List.getElem?_eq_some_iff.mp hSlot
      rw [List.set_getElem_self]
      exact .hostSkip hMode
    · exact .hostStore hMode hSlot hHeader hTime hActor hApp hData hInsert
  · next hMode => exact inputChunkClient_cases hMode h

-- ---------------------------------------------------------------------------
-- One packet
-- ---------------------------------------------------------------------------

/-- The slot at position `j` is one that the packet is for. -/
def Matches (peer : Peer) (j : Nat) (packet : PeerPacket) : Prop :=
  ∃ slot, peer.slots[j]? = some slot ∧ slot.matchesPacket packet = true

/-- No chunk changes which packets a slot is for: ids are only written elsewhere,
where a slot is bound or its remote end is resolved. So the chunks of one packet all
go to one slot. -/
theorem ChunkStep.matches_iff {j k : Nat} {chunk : Chunk} {peer peer' : Peer} {packet : PeerPacket}
    (h : ChunkStep j chunk peer peer') : Matches peer' k packet ↔ Matches peer k packet := by
  have hSet {slot slot' : PeerSlot} (hSlot : peer.slots[j]? = some slot)
      (hIds : slot'.matchesPacket packet = slot.matchesPacket packet) :
      (∃ t, (peer.slots.set j slot')[k]? = some t ∧ t.matchesPacket packet = true) ↔
        Matches peer k packet := by
    unfold Matches
    by_cases hk : j = k
    · subst hk
      rw [List.getElem?_set_self (List.getElem?_eq_some_iff.mp hSlot).1, hSlot]
      simp [hIds]
    · rw [List.getElem?_set_ne hk]
  cases h with
  | hostSkip => rfl
  | hostStore _ hSlot => exact hSet hSlot rfl
  | clientSkip => rfl
  | clientRespond _ hSlot => exact hSet hSlot rfl
  | clientLearn => rfl

/-- A free slot is never the first one, which listens. -/
theorem freeSlot_eq_some {slots : List PeerSlot} {j : Nat} (h : freeSlot slots = some j) :
    ∃ slot, 1 ≤ j ∧ slots[j]? = some slot ∧ slot.isFree = true := by
  obtain ⟨i, hi, rfl⟩ := Option.map_eq_some_iff.mp h
  obtain ⟨hLt, hFree, _⟩ := List.findIdx?_eq_some_iff_getElem.mp hi
  refine ⟨slots.tail[i], by omega, ?_, hFree⟩
  rw [← List.getElem?_tail, List.getElem?_eq_getElem hLt]

/-- A packet that matches no slot changes at most one free slot above the
listening slot, in host mode, while the listening slot is not bound. -/
theorem assignSlot_cases (peer : Peer) (packet : PeerPacket) :
    (assignSlot peer packet).2 = peer ∨
    ∃ j first slot, peer.mode = .host ∧ peer.slots[0]? = some first ∧
      first.remoteEnd.id = peerUndefined ∧ 1 ≤ j ∧ freeSlot peer.slots = some j ∧
      peer.slots[j]? = some slot ∧ slot.isFree = true ∧
      (assignSlot peer packet).2 =
        { peer with slots := peer.slots.set j (slot.assign j packet.sourceId) } := by
  unfold assignSlot
  split
  · exact Or.inl rfl
  next hListen =>
  rw [not_or, not_not, not_not] at hListen
  obtain ⟨hMode, hFirst⟩ := hListen
  -- A host that listens: the lowest free slot, if there is one, is all that changes.
  cases hFree : freeSlot peer.slots with
  | none => exact Or.inl rfl
  | some j =>
    obtain ⟨slot, hj, hSlot, hIsFree⟩ := freeSlot_eq_some hFree
    rw [List.head?_eq_getElem?] at hFirst
    obtain ⟨first, hZero, hUndefined⟩ := (Option.any_eq_true _ _).mp hFirst
    refine Or.inr ⟨j, first, slot, hMode, hZero, by simpa using hUndefined, hj, rfl, hSlot,
      hIsFree, ?_⟩
    dsimp only
    rw [modify_eq_set_of_getElem? hSlot]

/-- The loop over the chunks keeps what each of its turns keeps. -/
theorem inputChunks_invariant {I : Peer → Prop} {j : Nat} {chunks : List Chunk}
    (hStep : ∀ p p' chunk, chunk ∈ chunks → I p → ChunkStep j chunk p p' → I p')
    {peer peer' : Peer} {s : Status} (h : inputChunks j chunks peer = .ok (s, peer'))
    (hI : I peer) : I peer' := by
  induction chunks generalizing peer s with
  | nil =>
    obtain ⟨_, rfl⟩ : _ ∧ peer = peer' := by simpa [inputChunks] using h
    exact hI
  | cons chunk chunks ih =>
    obtain ⟨⟨s1, p1⟩, hOne, h⟩ := bind_eq_ok.mp h
    obtain ⟨⟨s2, p2⟩, hRest, h⟩ := bind_eq_ok.mp h
    obtain ⟨_, rfl⟩ : _ ∧ p2 = peer' := by simpa using h
    exact ih (fun p p' c hc => hStep p p' c (List.mem_cons_of_mem _ hc)) hRest
      (hStep peer p1 chunk (List.mem_cons_self ..) hI (inputChunk_cases hOne))

/-- The slot that the search finds matches. -/
theorem findIdx?_matches {peer : Peer} {packet : PeerPacket} {j : Nat}
    (h : peer.slots.findIdx? (·.matchesPacket packet) = some j) : Matches peer j packet := by
  obtain ⟨hj, hMatch, _⟩ := List.findIdx?_eq_some_iff_getElem.mp h
  exact ⟨_, List.getElem?_eq_getElem hj, hMatch⟩

/-- Where it finds none, none does. -/
theorem findIdx?_eq_none_iff_not_matches {peer : Peer} {packet : PeerPacket} :
    peer.slots.findIdx? (·.matchesPacket packet) = none ↔ ∀ j, ¬ Matches peer j packet := by
  rw [List.findIdx?_eq_none_iff]
  constructor
  · rintro h j ⟨slot, hSlot, hMatch⟩
    exact absurd hMatch (by simp [h slot (List.mem_of_getElem? hSlot)])
  · intro h slot hSlot
    obtain ⟨j, hj⟩ := List.mem_iff_getElem?.mp hSlot
    exact Bool.eq_false_iff.mpr fun hMatch => h j ⟨slot, hj, hMatch⟩

/-- The packet is addressed to one of the peer's slots, whoever has sent it. -/
def Addressed (peer : Peer) (packet : PeerPacket) : Prop :=
  peer.slots.any (fun slot => slot.localEnd.id == packet.destinationId) = true

/-- What one turn of the loop over the packets does: nothing, if the packet is
for another peer; or the chunks go to the slot it matches; or it matches none. -/
theorem inputPacket_cases {peer peer' : Peer} {packet : PeerPacket} {s : Status}
    (h : inputPacket peer packet = .ok (s, peer')) :
    (¬ Addressed peer packet ∧ peer' = peer) ∨
    (∃ j s1 s2 cs al, Matches peer j packet ∧ unpackPacket packet [] peer.alloc = .ok (s1, cs, al) ∧
      inputChunks j cs { peer with alloc := al } = .ok (s2, peer')) ∨
    (Addressed peer packet ∧ (∀ j, ¬ Matches peer j packet) ∧
      peer' = (assignSlot peer packet).2) := by
  unfold inputPacket at h
  split at h
  · next hAddressed =>
    -- the first slot that matches takes the packet
    cases hFind : peer.slots.findIdx? (·.matchesPacket packet) with
    | some j =>
      rw [hFind] at h
      obtain ⟨⟨s1, cs, al⟩, hCs, h⟩ := bind_eq_ok.mp h
      obtain ⟨⟨s2, p2⟩, hRest, h⟩ := bind_eq_ok.mp h
      obtain ⟨_, rfl⟩ : _ ∧ p2 = peer' := by simpa using h
      rw [peerUnpack_singleton] at hCs
      exact Or.inr (Or.inl ⟨j, s1, s2, cs, al, findIdx?_matches hFind, hCs, hRest⟩)
    | none =>
      rw [hFind] at h
      exact Or.inr (Or.inr ⟨hAddressed, findIdx?_eq_none_iff_not_matches.mp hFind,
        (congrArg Prod.snd (Except.ok.inj h)).symm⟩)
  · next hOther =>
    obtain ⟨_, rfl⟩ : _ ∧ peer = peer' := by simpa using h
    exact Or.inl ⟨hOther, rfl⟩

/-- The input of a packet that matches a slot. -/
theorem inputPacket_of_findIdx? {peer : Peer} {packet : PeerPacket} {j : Nat} {s : Status}
    {cs : List Chunk} {al : Allocator}
    (hFind : peer.slots.findIdx? (·.matchesPacket packet) = some j)
    (hUnpack : unpackPacket packet [] peer.alloc = .ok (s, cs, al)) :
    inputPacket peer packet = (do
      let (status, peer) ← inputChunks j cs { peer with alloc := al }
      return (s ||| status, peer)) := by
  obtain ⟨slot, hSlot, hMatch⟩ := findIdx?_matches hFind
  have hAddressed : peer.slots.any (fun slot => slot.localEnd.id == packet.destinationId) = true := by
    refine List.any_eq_true.mpr ⟨slot, List.mem_of_getElem? hSlot, ?_⟩
    rw [PeerSlot.matchesPacket, Bool.and_eq_true] at hMatch
    exact hMatch.1
  rw [inputPacket, if_pos hAddressed, hFind]
  dsimp only
  rw [peerUnpack_singleton, hUnpack, ok_bind]

-- ---------------------------------------------------------------------------
-- All packets
-- ---------------------------------------------------------------------------

theorem peerInput_of_cons {peer p1 peer' : Peer} {packet : PeerPacket} {packets : List PeerPacket}
    {s1 s2 : Status} (hFirst : inputPacket peer packet = .ok (s1, p1))
    (hRest : peerInput p1 packets = .ok (s2, peer')) :
    peerInput peer (packet :: packets) = .ok (s1 ||| s2, peer') := by
  rw [peerInput, hFirst, ok_bind]
  dsimp only
  rw [hRest, ok_bind]
  rfl

/-- The input of a single packet. -/
theorem peerInput_singleton {peer peer' : Peer} {packet : PeerPacket} {s : Status}
    (h : inputPacket peer packet = .ok (s, peer')) : peerInput peer [packet] = .ok (s, peer') := by
  rw [peerInput_of_cons h (show peerInput peer' [] = .ok (kitOk, peer') from rfl), kitOk, UInt32.or_zero]

/-- The loop over the packets, one packet further. -/
theorem peerInput_cons {peer peer' : Peer} {packet : PeerPacket} {packets : List PeerPacket}
    {s : Status} (h : peerInput peer (packet :: packets) = .ok (s, peer')) :
    ∃ s1 s2 p1, inputPacket peer packet = .ok (s1, p1) ∧ peerInput p1 packets = .ok (s2, peer') := by
  obtain ⟨⟨s1, p1⟩, hFirst, h⟩ := bind_eq_ok.mp h
  obtain ⟨⟨s2, p2⟩, hRest, h⟩ := bind_eq_ok.mp h
  obtain ⟨_, rfl⟩ : _ ∧ p2 = peer' := by simpa using h
  exact ⟨s1, s2, p1, hFirst, hRest⟩

/-- **Invariant rule of `peer_input`.** What unpacking, each turn of the loop
over the chunks, and the assignment of a slot preserve, `peer_input` preserves. -/
theorem peerInput_invariant {I : Peer → Prop} {packets : List PeerPacket}
    (hUnpack : ∀ peer packet s cs al, packet ∈ packets → I peer →
      unpackPacket packet [] peer.alloc = .ok (s, cs, al) → I { peer with alloc := al })
    (hChunk : ∀ start peer peer' packet j s cs al chunk, packet ∈ packets → I start →
      unpackPacket packet [] start.alloc = .ok (s, cs, al) → chunk ∈ cs →
      I peer → Matches peer j packet → ChunkStep j chunk peer peer' → I peer')
    (hAssign : ∀ peer packet, packet ∈ packets → I peer → Addressed peer packet →
      (∀ j, ¬ Matches peer j packet) → I (assignSlot peer packet).2)
    {peer peer' : Peer} {s : Status} (h : peerInput peer packets = .ok (s, peer'))
    (hI : I peer) : I peer' := by
  induction packets generalizing peer s with
  | nil =>
    obtain ⟨_, rfl⟩ : _ ∧ peer = peer' := by simpa [peerInput] using h
    exact hI
  | cons packet packets ih =>
    obtain ⟨s1, s2, p1, hFirst, hRest⟩ := peerInput_cons h
    have hHere : packet ∈ packet :: packets := List.mem_cons_self ..
    have hp1 : I p1 := by
      rcases inputPacket_cases hFirst with ⟨_, rfl⟩ | ⟨j, s3, s4, cs, al, hMatch, hCs, hChunks⟩ |
        ⟨hAddressed, hNone, rfl⟩
      · exact hI
      · -- the slot stays the one that the packet is for
        refine (inputChunks_invariant (I := fun p => I p ∧ Matches p j packet) ?_ hChunks
          ⟨hUnpack peer packet s3 cs al hHere hI hCs, hMatch⟩).1
        rintro p p' chunk hMem ⟨hp, hSlot⟩ hStep
        exact ⟨hChunk peer p p' packet j s3 cs al chunk hHere hI hCs hMem hp hSlot hStep,
          hStep.matches_iff.mpr hSlot⟩
      · exact hAssign peer packet hHere hI hAddressed hNone
    exact ih (fun p q s cs al hq => hUnpack p q s cs al (List.mem_cons_of_mem _ hq))
      (fun st p p' q j s cs al c hq => hChunk st p p' q j s cs al c (List.mem_cons_of_mem _ hq))
      (fun p q hq => hAssign p q (List.mem_cons_of_mem _ hq)) hRest hp1

end PeerProtocol
