import Mathlib.Data.List.Fold
import PeerProtocol.Peer.Order

/-!
# peer — a client and the order of arrival

A client with one slot that is given application messages and heartbeats of
its host, in any order, in any grouping into calls, and any number of times:
it ends up the same.

It differs from a host in two ways. What comes is inserted into its mutual
queue, under the index, the actor id and the time that the host has set,
whichever these are. And every message moves its mutual time, to the latest
time of all that have come, which does not depend on their order because a
maximum does not.

A session response is left out: it changes the actor id of the client, and of
its queued messages, so that of two different ones the later wins. As for a
host, no request may be refused.

## Results

* `learnedMessage`, `messageTime` — what a client takes from a chunk;
  `deliveredMessages`, `deliveredTimes` — from many packets.
* `learned` — the client after packets: the messages inserted, the time the
  latest of all. `inputPacket_learned`, `peerInput_learned`,
  `inputCalls_learned` — a packet, a call, and many calls lead there.
* `Gathered` — what that is, field by field, in terms of the client before and
  of what was delivered: sizes, ready entries and the mutual time, without the
  words of the model.
* `client_order_independent` — the client is the same for any two sequences of
  the same packets.
-/

namespace PeerProtocol

open Lib

-- ---------------------------------------------------------------------------
-- What a client takes from a chunk
-- ---------------------------------------------------------------------------

/-- The message that a client inserts for a chunk, at its index, if it is an
application's and has one. -/
def learnedMessage (c : Chunk) : Option (Nat × Entry) :=
  match readHeader c with
  | .error _ => none
  | .ok header =>
    if header.mode ≠ peerMessageModeService ∧ 0 ≤ header.index then
      some (header.index.toNat,
        { time := header.time, actor := header.actor, data := c.drop peerNMessageData })
    else none

/-- The time that a chunk carries, whatever its kind. -/
def messageTime (c : Chunk) : Option Int := (readHeader c).toOption.map MessageHeader.time

/-- The messages delivered by the packets, in order. -/
def deliveredMessages (packets : List PeerPacket) : List (Nat × Entry) :=
  packets.flatMap fun packet => (packetChunks packet).filterMap learnedMessage

/-- The times delivered by the packets, those of heartbeats included. -/
def deliveredTimes (packets : List PeerPacket) : List Int :=
  packets.flatMap fun packet => (packetChunks packet).filterMap messageTime

/-- A chunk that holds an application message or a heartbeat, and no other service
message. -/
def IsMessageOrHeartbeat (c : Chunk) : Prop :=
  ∀ header, readHeader c = .ok header → header.mode = peerMessageModeService →
    readServiceId c header = .ok (some peerMHeartbeat)

/-- A packet of such chunks. -/
def OnlyMessagesAndHeartbeats (packet : PeerPacket) : Prop :=
  ∀ c ∈ packetChunks packet, IsMessageOrHeartbeat c

/-- The client after chunks: insertions into its mutual queue, and a maximum of
times. -/
def learnedChunks (client : Peer) (cs : List Chunk) : Peer :=
  { client with
    queue := insertedAll client.queue (cs.filterMap learnedMessage)
    time := (cs.filterMap messageTime).foldl max client.time }

/-- The client after packets. -/
def learned (client : Peer) (packets : List PeerPacket) : Peer :=
  { client with
    queue := insertedAll client.queue (deliveredMessages packets)
    time := (deliveredTimes packets).foldl max client.time }

theorem learnedChunks_append (client : Peer) (cs ds : List Chunk) :
    learnedChunks (learnedChunks client cs) ds = learnedChunks client (cs ++ ds) := by
  simp only [learnedChunks, List.filterMap_append, insertedAll_append, List.foldl_append]

theorem learned_append (client : Peer) (ps qs : List PeerPacket) :
    learned (learned client ps) qs = learned client (ps ++ qs) := by
  simp only [learned, deliveredMessages, deliveredTimes, List.flatMap_append, insertedAll_append,
    List.foldl_append]

theorem learned_singleton (client : Peer) (packet : PeerPacket) :
    learned client [packet] = learnedChunks client (packetChunks packet) := by
  simp only [learned, learnedChunks, deliveredMessages, deliveredTimes, List.flatMap_singleton]

-- ---------------------------------------------------------------------------
-- The input
-- ---------------------------------------------------------------------------

/-- **One chunk** of a packet, whichever of the two kinds it is: a message is
inserted at its index, and any chunk may move the time on. -/
theorem inputChunk_learned {packet : PeerPacket} {c : Chunk} (hMem : c ∈ packetChunks packet)
    (hLegal : LegalChunk c) (hKind : IsMessageOrHeartbeat c) {client : Peer}
    (hMode : client.mode = .client) (hAlloc : client.alloc = .reliable) (j : Nat) :
    ∃ s, inputChunk client j c = .ok (s, learnedChunks client [c]) := by
  obtain ⟨header, id, hHeader, hId, hData, hLo, hHi⟩ := readers_of_legal hMem hLegal
  have hTime : [c].filterMap messageTime = [header.time] := by
    rw [List.filterMap_cons, messageTime, hHeader]
    rfl
  have hLearned : learnedMessage c =
      if header.mode ≠ peerMessageModeService ∧ 0 ≤ header.index then
        some (header.index.toNat,
          { time := header.time, actor := header.actor, data := c.drop peerNMessageData })
      else none := by
    rw [learnedMessage, hHeader]
  rw [inputChunk, hMode]
  dsimp only
  rw [inputChunkClient, hHeader, ok_bind, hId, ok_bind, learnedChunks, hTime]
  by_cases hService : header.mode = peerMessageModeService
  · -- a heartbeat carries nothing but its time
    have hBeat : id = some peerMHeartbeat := by
      have := hKind header hHeader hService
      rw [hId, Except.ok.injEq] at this
      exact this
    have hNone : [c].filterMap learnedMessage = [] := by
      rw [List.filterMap_cons, hLearned, if_neg (fun h => h.1 hService)]
      rfl
    rw [if_pos hService, if_pos hBeat, hNone, pure_eq_ok, ok_bind]
    exact ⟨kitOk, congrArg (fun p => Except.ok (kitOk, p)) (max_time client header.time)⟩
  rw [if_neg hService, hData, ok_bind, hAlloc]
  by_cases hIndex : 0 ≤ header.index
  · have hSome : [c].filterMap learnedMessage = [(header.index.toNat,
        { time := header.time, actor := header.actor, data := c.drop peerNMessageData })] := by
      rw [List.filterMap_cons, hLearned, if_pos ⟨hService, hIndex⟩]
      rfl
    have hInsert := queueInsert_reliable client.queue (i := header.index.toNat) (by omega)
      { time := header.time, actor := header.actor, data := c.drop peerNMessageData }
    rw [show ((header.index.toNat : Nat) : Int) = header.index by omega] at hInsert
    rw [hInsert, hSome, ok_bind]
    dsimp only
    rw [pure_eq_ok, ok_bind, ← hAlloc]
    exact ⟨kitOk, congrArg (fun p => Except.ok (kitOk, p)) (max_time _ header.time)⟩
  · -- messages without an index are not saved
    have hUndefined : header.index = peerUndefined := by
      rw [peerUndefined] at hLo ⊢
      omega
    have hNone : [c].filterMap learnedMessage = [] := by
      rw [List.filterMap_cons, hLearned, if_neg (fun h => hIndex h.2)]
      rfl
    rw [queueInsert, if_pos hUndefined, hNone, ok_bind]
    dsimp only
    rw [pure_eq_ok, ok_bind, ← hAlloc]
    exact ⟨kitOk, congrArg (fun p => Except.ok (kitOk, p)) (max_time client header.time)⟩

theorem inputChunks_learned {packet : PeerPacket} {cs : List Chunk}
    (hMem : ∀ c ∈ cs, c ∈ packetChunks packet) (hLegal : ∀ c ∈ cs, LegalChunk c)
    (hKind : ∀ c ∈ cs, IsMessageOrHeartbeat c) {client : Peer} (hMode : client.mode = .client)
    (hAlloc : client.alloc = .reliable) (j : Nat) :
    ∃ s, inputChunks j cs client = .ok (s, learnedChunks client cs) := by
  induction cs generalizing client with
  | nil => exact ⟨kitOk, rfl⟩
  | cons c cs ih =>
    obtain ⟨hHead, hTail⟩ := List.forall_mem_cons.mp hMem
    obtain ⟨hHeadLegal, hTailLegal⟩ := List.forall_mem_cons.mp hLegal
    obtain ⟨hHeadKind, hTailKind⟩ := List.forall_mem_cons.mp hKind
    obtain ⟨s1, hFirst⟩ := inputChunk_learned hHead hHeadLegal hHeadKind hMode hAlloc j
    -- The rest is learned by the client that the first chunk has left, which has the same mode
    -- and allocator.
    obtain ⟨s2, hRest⟩ := ih hTail hTailLegal hTailKind
      (show (learnedChunks client [c]).mode = .client from hMode) hAlloc
    refine ⟨s1 ||| s2, ?_⟩
    rw [inputChunks, hFirst, ok_bind]
    dsimp only
    rw [hRest, ok_bind, learnedChunks_append]
    rfl

/-- What the packets of a delivery have in common: they are for the client's
slot, and hold legal messages and heartbeats. -/
structure Deliverable (slot : PeerSlot) (packet : PeerPacket) : Prop where
  matched : slot.matchesPacket packet = true
  legal : LegalPacket packet
  kind : OnlyMessagesAndHeartbeats packet

/-- **One packet** for the slot of the client. -/
theorem inputPacket_learned {client : Peer} {slot : PeerSlot} {packet : PeerPacket}
    (hMode : client.mode = .client) (hAlloc : client.alloc = .reliable)
    (hSlots : client.slots = [slot]) (h : Deliverable slot packet) :
    ∃ s, inputPacket client packet = .ok (s, learned client [packet]) := by
  have hFind : client.slots.findIdx? (·.matchesPacket packet) = some 0 := by
    rw [hSlots, List.findIdx?_cons, h.matched]
    rfl
  obtain ⟨s1, hUnpack⟩ := unpackPacket_packetChunks packet
  rw [← hAlloc] at hUnpack
  obtain ⟨s2, hChunks⟩ := inputChunks_learned (fun c hc => hc) h.legal h.kind hMode hAlloc 0
  refine ⟨s1 ||| s2, ?_⟩
  rw [inputPacket_of_findIdx? hFind hUnpack, hChunks, ok_bind, learned_singleton]
  rfl

theorem peerInput_learned {client : Peer} {slot : PeerSlot} {packets : List PeerPacket}
    (hMode : client.mode = .client) (hAlloc : client.alloc = .reliable)
    (hSlots : client.slots = [slot]) (h : ∀ p ∈ packets, Deliverable slot p) :
    ∃ s, peerInput client packets = .ok (s, learned client packets) := by
  induction packets generalizing client with
  | nil => exact ⟨kitOk, rfl⟩
  | cons packet packets ih =>
    obtain ⟨hHead, hTail⟩ := List.forall_mem_cons.mp h
    obtain ⟨s1, hFirst⟩ := inputPacket_learned hMode hAlloc hSlots hHead
    obtain ⟨s2, hRest⟩ := ih (show (learned client [packet]).mode = .client from hMode)
      hAlloc hSlots hTail
    refine ⟨s1 ||| s2, ?_⟩
    rw [peerInput_of_cons hFirst hRest, learned_append]
    rfl

/-- **Any calls**: the client has learned the packets of all of them, in a row, as
if they had come in one. -/
theorem inputCalls_learned {client : Peer} {slot : PeerSlot} {calls : List (List PeerPacket)}
    (hMode : client.mode = .client) (hAlloc : client.alloc = .reliable)
    (hSlots : client.slots = [slot]) (h : ∀ p ∈ calls.flatten, Deliverable slot p) :
    inputCalls client calls = .ok (learned client calls.flatten) := by
  induction calls generalizing client with
  | nil => rfl
  | cons packets calls ih =>
    rw [List.flatten_cons, List.forall_mem_append] at h
    obtain ⟨s, hFirst⟩ := peerInput_learned hMode hAlloc hSlots h.1
    rw [inputCalls, hFirst, ok_bind]
    dsimp only
    rw [ih (show (learned client packets).mode = .client from hMode) hAlloc hSlots h.2,
      learned_append, List.flatten_cons]

-- ---------------------------------------------------------------------------
-- The order of arrival
-- ---------------------------------------------------------------------------

/-- What a client is that has been given packets, in terms of what it was: its size,
its time, and every entry, in closed form. Nothing in it depends on an order. -/
structure Gathered (client : Peer) (packets : List PeerPacket) (client' : Peer) : Prop where
  /-- the old size, or one past the highest index -/
  length : client'.queue.length =
    ((deliveredMessages packets).map (·.1 + 1)).foldr max client.queue.length
  /-- ready before, or delivered -/
  ready : ∀ i : Nat, (client'.queue[i]?).any (·.isReady) = true ↔
    (client.queue[i]?).any (·.isReady) = true ∨ ∃ e, (i, e) ∈ deliveredMessages packets
  /-- a message that was ready stays -/
  old : ∀ (i : Nat) (m : PeerMessage), client.queue[i]? = some m → m.isReady = true → client'.queue[i]? = some m
  /-- a message that was not holds what was delivered -/
  new : ∀ (i : Nat) (e : Entry), (i, e) ∈ deliveredMessages packets → (client.queue[i]?).any (·.isReady) = false →
    client'.queue[i]? = some e.message
  time : client'.time = (deliveredTimes packets).foldr max client.time
  rest : client' = { client with queue := client'.queue, time := client'.time }

/-- The client after packets that do not contradict each other, field by field. Each
field of the description is a fact about a replica that learns entries, read on the
client's mutual queue. -/
theorem gathered_learned {client : Peer} {packets : List PeerPacket}
    (hCon : GapLog.Consistent (deliveredMessages packets)) :
    Gathered client packets (learned client packets) where
  length := by
    show (insertedAll client.queue (deliveredMessages packets)).length = _
    rw [← length_entries, entries_insertedAll, GapLog.length_learn, length_entries]
  ready := by
    intro i
    show ((insertedAll client.queue (deliveredMessages packets))[i]?).any (·.isReady) = true ↔ _
    rw [← filled_entries_iff, ← filled_entries_iff, entries_insertedAll]
    constructor
    · rintro ⟨e, he⟩
      rcases (GapLog.holds_learn_iff hCon).mp he with hOld | ⟨_, hMem⟩
      · exact Or.inl ⟨e, hOld⟩
      · exact Or.inr ⟨e, hMem⟩
    · rintro (⟨e, he⟩ | ⟨e, he⟩)
      · exact ⟨e, (GapLog.holds_learn_iff hCon).mpr (Or.inl he)⟩
      -- what was there before is not replaced
      · by_cases hOld : GapLog.Filled (entries client.queue) i
        · obtain ⟨f, hf⟩ := hOld
          exact ⟨f, (GapLog.holds_learn_iff hCon).mpr (Or.inl hf)⟩
        · exact ⟨e, (GapLog.holds_learn_iff hCon).mpr (Or.inr ⟨hOld, he⟩)⟩
  old := by
    intro i m hi hReady
    have hEntry := isReady_iff_entry.mp hReady
    rw [eq_message_of_entry hEntry] at hi ⊢
    refine holds_entries_iff.mp ?_
    show GapLog.Holds (entries (insertedAll client.queue (deliveredMessages packets))) i _
    rw [entries_insertedAll]
    exact (GapLog.holds_learn_iff hCon).mpr (Or.inl (holds_entries_iff.mpr hi))
  new := by
    intro i e hMem hFree
    refine holds_entries_iff.mp ?_
    show GapLog.Holds (entries (insertedAll client.queue (deliveredMessages packets))) i e
    rw [entries_insertedAll]
    refine (GapLog.holds_learn_iff hCon).mpr (Or.inr ⟨fun hFilled => ?_, hMem⟩)
    rw [filled_entries_iff, hFree] at hFilled
    cases hFilled
  time := by
    show (deliveredTimes packets).foldl max client.time = _
    exact List.foldl_eq_foldr
  rest := rfl

/-- Only which packets were delivered matters. -/
theorem learned_eq_of_mem_iff {client : Peer} {ps qs : List PeerPacket}
    (hSame : ∀ p, p ∈ ps ↔ p ∈ qs) (hCon : GapLog.Consistent (deliveredMessages ps)) :
    learned client ps = learned client qs := by
  have hMessages (m : Nat × Entry) : m ∈ deliveredMessages ps ↔ m ∈ deliveredMessages qs := by
    simp only [deliveredMessages, List.mem_flatMap, hSame]
  have hTimes (t : Int) : t ∈ deliveredTimes ps ↔ t ∈ deliveredTimes qs := by
    simp only [deliveredTimes, List.mem_flatMap, hSame]
  rw [learned, learned, insertedAll_eq_of_mem_iff hMessages hCon, List.foldl_eq_foldr,
    List.foldl_eq_foldr, foldr_max_eq_of_mem_iff hTimes]

/-- **A client does not depend on the order of delivery**, where nothing fails
to allocate: two sequences of calls with the same packets, whose messages do
not contradict each other, leave the same client. -/
theorem client_order_independent {client : Peer} {slot : PeerSlot} (hMode : client.mode = .client)
    (hAlloc : client.alloc = .reliable) (hSlots : client.slots = [slot])
    {calls calls' : List (List PeerPacket)} (hSame : ∀ p, p ∈ calls.flatten ↔ p ∈ calls'.flatten)
    (h : ∀ p ∈ calls.flatten, Deliverable slot p)
    (hCon : GapLog.Consistent (deliveredMessages calls.flatten)) :
    ∃ client', inputCalls client calls = .ok client' ∧ inputCalls client calls' = .ok client' ∧
      Gathered client calls.flatten client' := by
  refine ⟨learned client calls.flatten, inputCalls_learned hMode hAlloc hSlots h, ?_,
    gathered_learned hCon⟩
  rw [inputCalls_learned hMode hAlloc hSlots (fun p hp => h p ((hSame p).mpr hp)),
    learned_eq_of_mem_iff hSame hCon]

/-- A packet of the host with id 1 for the client with id 5, with the first mutual message. -/
def firstMutualMessage : PeerPacket :=
  ((PeerPacket.blank 1 5).copyChunk 15 (encode peerMessageModeApplication 0 3 1 [9])).toOption.getD
    (PeerPacket.blank 1 5) |>.writeHeader 46

theorem packetChunks_firstMutualMessage :
    packetChunks firstMutualMessage = [encode peerMessageModeApplication 0 3 1 [9]] := by
  decide +kernel

/-- It can be delivered to the client it is addressed to. -/
theorem deliverable_firstMutualMessage {slot : PeerSlot} (hLocal : slot.localEnd.id = 5)
    (hRemote : slot.remoteEnd.id = 1) : ∀ p ∈ [firstMutualMessage], Deliverable slot p := by
  intro p hp
  have hHeader : readHeader (encode peerMessageModeApplication 0 3 1 [9]) = .ok
      { dataSize := 1, mode := peerMessageModeApplication, index := 0, time := 3, actor := 1 } :=
    readHeader_encode (by decide) ⟨by decide, by decide⟩ ⟨by decide, by decide⟩ (by decide)
  rw [List.mem_singleton.mp hp]
  refine ⟨?_, fun c hc => ?_, fun c hc header h hService => ?_⟩
  · rw [PeerSlot.matchesPacket, hLocal, hRemote]
    rfl
  -- The packet has the one chunk, whose header is known.
  all_goals rw [packetChunks_firstMutualMessage, List.mem_singleton] at hc
  · subst hc
    refine ⟨by decide, fun header h => ?_⟩
    rw [hHeader, Except.ok.injEq] at h
    rw [← h]
    exact ⟨by decide, by decide⟩
  · rw [hc, hHeader, Except.ok.injEq] at h
    rw [← h] at hService
    cases hService

theorem deliveredMessages_firstMutualMessage :
    deliveredMessages [firstMutualMessage] = [(0, { time := 3, actor := 1, data := [9] })] := by
  decide +kernel

theorem consistent_firstMutualMessage :
    GapLog.Consistent (deliveredMessages [firstMutualMessage]) := by
  rw [deliveredMessages_firstMutualMessage]
  exact GapLog.consistent_singleton _

/-- The same packet twice, and once. -/
theorem client_order_independent_repeated :
    ∃ client', inputCalls (connectedClient 5 1 .reliable ⟨fun _ => 0⟩) [[firstMutualMessage]] =
        .ok client' ∧
      inputCalls (connectedClient 5 1 .reliable ⟨fun _ => 0⟩)
        [[firstMutualMessage], [firstMutualMessage]] = .ok client' ∧
      Gathered (connectedClient 5 1 .reliable ⟨fun _ => 0⟩) [firstMutualMessage] client' :=
  client_order_independent rfl rfl rfl
    (show ∀ p, p ∈ [[firstMutualMessage]].flatten ↔
      p ∈ [[firstMutualMessage], [firstMutualMessage]].flatten by simp)
    (deliverable_firstMutualMessage rfl rfl) consistent_firstMutualMessage

/-- Where an allocation may fail, a packet that is repeated gets a second chance:
one client is given a packet whose message a refused request loses, the other is
given the same packet once more and holds the message. -/
theorem not_client_order_independent_lossy :
    ¬ ∀ (client : Peer) (slot : PeerSlot) (calls calls' : List (List PeerPacket)),
      client.mode = .client → client.slots = [slot] →
      (∀ p, p ∈ calls.flatten ↔ p ∈ calls'.flatten) →
      (∀ p ∈ calls.flatten, Deliverable slot p) →
      GapLog.Consistent (deliveredMessages calls.flatten) →
      ∃ client1 client2, inputCalls client calls = .ok client1 ∧
        inputCalls client calls' = .ok client2 ∧ client1.queue = client2.queue ∧
        client1.time = client2.time := by
  intro h
  -- the second request of the run fails: the list of chunks of the first input
  let alloc : Allocator := ⟨fun n => n != 1, false⟩
  obtain ⟨client1, client2, hCalls, hCalls', hQueue, _⟩ := h
    (connectedClient 5 1 alloc ⟨fun _ => 0⟩) _ [[firstMutualMessage]]
    [[firstMutualMessage], [firstMutualMessage]] rfl rfl (by simp)
    (deliverable_firstMutualMessage rfl rfl) consistent_firstMutualMessage
  have hOnce : (inputCalls (connectedClient 5 1 alloc ⟨fun _ => 0⟩)
      [[firstMutualMessage]]).toOption.map Peer.queue = some [] := by
    decide +kernel
  have hTwice : (inputCalls (connectedClient 5 1 alloc ⟨fun _ => 0⟩)
      [[firstMutualMessage], [firstMutualMessage]]).toOption.map Peer.queue =
        some [Entry.message { time := 3, actor := 1, data := [9] }] := by
    decide +kernel
  rw [hCalls, Except.toOption, Option.map_some, Option.some.injEq, hQueue] at hOnce
  rw [hCalls', Except.toOption, Option.map_some, hOnce] at hTwice
  cases hTwice

end PeerProtocol
