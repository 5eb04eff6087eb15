import PeerProtocol.Lib.Run
import PeerProtocol.Model.World
import PeerProtocol.Peer.Delivery

/-!
# peer — the order of arrival

Packets of clients that have their slots, input in any order, in any grouping
into calls, and any number of times: the host ends up the same, and so does
its next tick, for every elapsed time.

Two things could depend on the order, and neither does. A message that comes
first is kept, and another one for the same index is ignored; so the packets
must not contradict each other (`PacketsConsistent`), as the packets of one
client do not. And a slot's queue becomes longer by holes in an order that
depends on what comes first; but a hole is a zeroed message in any case
(`Peer.Delivery`).

No request may be refused: an allocation that fails drops a message, and which
one it drops depends on the order. `not_order_independent_lossy` is two orders
of the same packets that leave different hosts because of one refused request.

## Results

* `inputCalls` — one call of `peer_input` after another.
* `storedMessage`, `messagesFor` — what a slot stores of a chunk, and of many
  packets.
* `Received` — what a host is after input: its slots have inserted the
  messages they were sent, and nothing else has changed.
  `inputPacket_received`, `peerInput_received`, `inputCalls_received` — a
  packet, a call, and many calls lead there.
* `order_independent` — the host is the same, and so is its next tick, for any
  two sequences of the same packets.
-/

namespace PeerProtocol

open Lib

/-- Calls of `peer_input`, one after another; their statuses are not looked at. -/
def inputCalls (peer : Peer) : List (List PeerPacket) → Except Fault Peer
  | [] => .ok peer
  | packets :: calls => do
    let (_, peer) ← peerInput peer packets
    inputCalls peer calls

-- ---------------------------------------------------------------------------
-- What a host stores
-- As a function of the packets and of the slots' ids, which input leaves
-- alone.
-- ---------------------------------------------------------------------------

/-- The message that a host stores from a chunk, in a slot with the actor id. -/
def storedMessage (actor : Int) (c : Chunk) : Option (Nat × Entry) :=
  match readHeader c with
  | .error _ => none
  | .ok header =>
    if header.time = 0 ∧ (header.actor : Int) = actor ∧ header.mode ≠ peerMessageModeService ∧
        0 ≤ header.index then
      some (header.index.toNat, { time := 0, actor := actor, data := c.drop peerNMessageData })
    else none

/-- The slot that a packet is for: the first that matches it. -/
def slotOf (peer : Peer) (packet : PeerPacket) : Option Nat :=
  peer.slots.findIdx? (·.matchesPacket packet)

/-- The messages for slot `j` in the packets, in order, with their indices. -/
def messagesFor (peer : Peer) (j : Nat) (actor : Int) (packets : List PeerPacket) :
    List (Nat × Entry) :=
  packets.flatMap fun packet =>
    if slotOf peer packet = some j then (packetChunks packet).filterMap (storedMessage actor) else []

/-- A message is for the slot if a chunk of one of its packets is. -/
theorem mem_messagesFor {peer : Peer} {j : Nat} {actor : Int} {packets : List PeerPacket}
    {m : Nat × Entry} :
    m ∈ messagesFor peer j actor packets ↔ ∃ packet ∈ packets, slotOf peer packet = some j ∧
      ∃ c ∈ packetChunks packet, storedMessage actor c = some m := by
  unfold messagesFor
  rw [List.mem_flatMap]
  refine exists_congr fun packet => and_congr_right fun _ => ?_
  split
  · next h => simp [h]
  · next h => simp [h]

/-- What is stored of a chunk, by its header: an application's message without a
time, under the slot's actor id, at an index that is not negative. -/
theorem storedMessage_eq {c : Chunk} {header : MessageHeader} (h : readHeader c = .ok header)
    (actor : Int) :
    storedMessage actor c =
      if header.time = 0 ∧ (header.actor : Int) = actor ∧ header.mode ≠ peerMessageModeService ∧
          0 ≤ header.index then
        some (header.index.toNat, { time := 0, actor := actor, data := c.drop peerNMessageData })
      else none := by
  rw [storedMessage, h]

/-- One chunk of a packet: it is inserted or it is not, and nothing else happens.
Which of the two is decided by its bytes and the slot's actor id, neither of which
depends on the packets before. -/
theorem inputChunkHost_inserted {packet : PeerPacket} {c : Chunk} (hMem : c ∈ packetChunks packet)
    (hInsertable : InsertableChunk c) (slot : PeerSlot) :
    ∃ s, inputChunkHost slot c .reliable = .ok (s, { slot with
      queue := insertedAll slot.queue (storedMessage slot.actor c).toList }, .reliable) := by
  obtain ⟨header, id, hHeader, hId, hData, hHi⟩ := readers_of_insertable hMem hInsertable
  have hStored := storedMessage_eq hHeader slot.actor
  rw [inputChunkHost, hHeader, ok_bind]
  -- the checks in the order of the source: each that fails leaves the queue
  by_cases hTime : header.time = 0
  swap
  · rw [if_pos hTime, hStored, if_neg (fun h => hTime h.1)]
    exact ⟨_, rfl⟩
  rw [if_neg (not_not.mpr hTime)]
  by_cases hActor : (header.actor : Int) = slot.actor
  swap
  · rw [if_pos hActor, hStored, if_neg (fun h => hActor h.2.1)]
    exact ⟨_, rfl⟩
  rw [if_neg (not_not.mpr hActor), hId, ok_bind]
  by_cases hService : header.mode = peerMessageModeService
  · have hNone : storedMessage slot.actor c = none := by
      rw [hStored, if_neg (fun h => h.2.2.1 hService)]
    rw [if_pos hService, hNone]
    by_cases hBeat : id = some peerMHeartbeat
    · rw [if_pos hBeat]
      exact ⟨_, rfl⟩
    · rw [if_neg hBeat]
      exact ⟨_, rfl⟩
  rw [if_neg hService, hData, ok_bind]
  by_cases hIndex : 0 ≤ header.index
  · rw [hStored, if_pos ⟨hTime, hActor, hService, hIndex⟩, hTime, hActor]
    have hEq : header.index = (header.index.toNat : Int) := by omega
    have hInsert := queueInsert_reliable slot.queue (i := header.index.toNat) (by omega)
      { time := 0, actor := slot.actor, data := c.drop peerNMessageData }
    rw [← hEq] at hInsert
    rw [hInsert]
    exact ⟨_, rfl⟩
  · -- messages without an index are not saved, and other negative indices are refused
    rw [hStored, if_neg (fun h => hIndex h.2.2.2), queueInsert]
    by_cases hUndefined : header.index = peerUndefined
    · rw [if_pos hUndefined]
      exact ⟨_, rfl⟩
    · rw [if_neg hUndefined, if_pos (by omega)]
      exact ⟨_, rfl⟩

/-- What a host is after the input of packets, slot by slot. The status of the input
is left out: it does depend on the order. -/
structure Received (peer : Peer) (packets : List PeerPacket) (peer' : Peer) : Prop where
  rest : peer' = { peer with slots := peer'.slots }
  length : peer'.slots.length = peer.slots.length
  slot : ∀ (j : Nat) (slot : PeerSlot), peer.slots[j]? = some slot → peer'.slots[j]? = some { slot with
    queue := insertedAll slot.queue (messagesFor peer j slot.actor packets) }

/-- The chunks of a packet, for its slot, one insertion after the other. The status
is left open, as it unites the errors of the chunks and so does depend on which of
them come. -/
theorem inputChunks_inserted {packet : PeerPacket} {cs : List Chunk}
    (hMem : ∀ c ∈ cs, c ∈ packetChunks packet) (hInsertable : ∀ c ∈ cs, InsertableChunk c)
    {peer : Peer} (hMode : peer.mode = .host) (hAlloc : peer.alloc = .reliable) {j : Nat} {slot : PeerSlot}
    (hSlot : peer.slots[j]? = some slot) :
    ∃ s, inputChunks j cs peer = .ok (s, { peer with slots := peer.slots.set j { slot with
      queue := insertedAll slot.queue (cs.filterMap (storedMessage slot.actor)) } }) := by
  induction cs generalizing peer slot with
  | nil =>
    refine ⟨kitOk, ?_⟩
    have hSame : peer.slots.set j slot = peer.slots := by
      obtain ⟨hj, rfl⟩ := List.getElem?_eq_some_iff.mp hSlot
      exact List.set_getElem_self hj
    show Except.ok (kitOk, peer) = .ok (kitOk, { peer with slots := peer.slots.set j slot })
    rw [hSame]
  | cons c cs ih =>
    obtain ⟨hHead, hTail⟩ := List.forall_mem_cons.mp hMem
    obtain ⟨hHeadInsertable, hTailInsertable⟩ := List.forall_mem_cons.mp hInsertable
    obtain ⟨s1, hChunk⟩ := inputChunkHost_inserted hHead hHeadInsertable slot
    set slot1 : PeerSlot := { slot with
      queue := insertedAll slot.queue (storedMessage slot.actor c).toList } with hSlot1
    have hOne : inputChunk peer j c = .ok (s1, { peer with slots := peer.slots.set j slot1 }) := by
      rw [inputChunk, hMode]
      dsimp only
      rw [readAt_eq_ok.mpr hSlot, ok_bind, hAlloc, hChunk, ok_bind, ← hAlloc]
      rfl
    -- the rest of the chunks finds the slot that the first has left
    have hSet : (peer.slots.set j slot1)[j]? = some slot1 :=
      List.getElem?_set_self (List.getElem?_eq_some_iff.mp hSlot).1
    obtain ⟨s2, hRest⟩ := ih hTail hTailInsertable
      (show ({ peer with slots := peer.slots.set j slot1 } : Peer).mode = .host from hMode) hAlloc hSet
    refine ⟨s1 ||| s2, ?_⟩
    have hQueue : insertedAll slot1.queue (cs.filterMap (storedMessage slot1.actor)) =
        insertedAll slot.queue ((c :: cs).filterMap (storedMessage slot.actor)) := by
      rw [hSlot1]
      dsimp only
      rw [← insertedAll_append, List.filterMap_cons]
      cases storedMessage slot.actor c <;> rfl
    rw [inputChunks, hOne, ok_bind]
    dsimp only
    rw [hRest, ok_bind, hQueue, List.set_set]
    rfl

/-- Input changes no slot's ids, so packets stay for the slots that they are for.
With this, the packets of several calls can be told apart by their slot before any
of them is input. -/
theorem Received.slotOf_eq {peer peer' : Peer} {packets : List PeerPacket}
    (h : Received peer packets peer') (packet : PeerPacket) :
    slotOf peer' packet = slotOf peer packet := by
  have hMap : peer'.slots.map (·.matchesPacket packet) = peer.slots.map (·.matchesPacket packet) := by
    refine List.ext_getElem? fun j => ?_
    rw [List.getElem?_map, List.getElem?_map]
    cases hSlot : peer.slots[j]? with
    | some slot =>
      rw [h.slot j slot hSlot]
      rfl
    | none =>
      rw [List.getElem?_eq_none_iff] at hSlot
      rw [List.getElem?_eq_none (by rw [h.length]; exact hSlot)]
  have hFind (p : Peer) : slotOf p packet = (p.slots.map (·.matchesPacket packet)).findIdx? id := by
    rw [List.findIdx?_map]
    rfl
  rw [hFind, hFind, hMap]

theorem messagesFor_append (peer : Peer) (j : Nat) (actor : Int) (ps qs : List PeerPacket) :
    messagesFor peer j actor (ps ++ qs) =
      messagesFor peer j actor ps ++ messagesFor peer j actor qs := List.flatMap_append

theorem received_refl (peer : Peer) : Received peer [] peer where
  rest := rfl
  length := rfl
  slot := fun _ _ h => h

/-- Packets in a row: the slots are for the same packets as before. -/
theorem Received.trans {peer peer1 peer2 : Peer} {ps qs : List PeerPacket}
    (h : Received peer ps peer1) (h' : Received peer1 qs peer2) : Received peer (ps ++ qs) peer2 where
  rest := by rw [h'.rest, h.rest]
  length := h'.length.trans h.length
  slot := by
    intro j slot hSlot
    have hLater : messagesFor peer1 j slot.actor qs = messagesFor peer j slot.actor qs := by
      unfold messagesFor
      simp only [h.slotOf_eq]
    rw [h'.slot j _ (h.slot j slot hSlot), hLater, messagesFor_append, insertedAll_append]

/-- Input does not change the mode. -/
theorem Received.mode {peer peer' : Peer} {ps : List PeerPacket} (h : Received peer ps peer') :
    peer'.mode = peer.mode := by
  rw [h.rest]

/-- Nor, if it is reliable, the allocator. -/
theorem Received.alloc {peer peer' : Peer} {ps : List PeerPacket} (h : Received peer ps peer') :
    peer'.alloc = peer.alloc := by
  rw [h.rest]

/-- The packet is for one of the slots, so that it asks for none. -/
def HasSlot (peer : Peer) (packet : PeerPacket) : Prop := (slotOf peer packet).isSome = true

/-- **One packet** for a slot: what it leaves is a function of it, of the slot and
of nothing else. -/
theorem inputPacket_received {peer : Peer} {packet : PeerPacket} (hMode : peer.mode = .host)
    (hAlloc : peer.alloc = .reliable) (hHas : HasSlot peer packet)
    (hInsertable : ∀ c ∈ packetChunks packet, InsertableChunk c) :
    ∃ s peer', inputPacket peer packet = .ok (s, peer') ∧ Received peer [packet] peer' := by
  obtain ⟨j, hj⟩ := Option.isSome_iff_exists.mp hHas
  have hFind : peer.slots.findIdx? (·.matchesPacket packet) = some j := hj
  obtain ⟨slot, hSlot, _⟩ := findIdx?_matches hFind
  obtain ⟨s1, hUnpack⟩ := unpackPacket_packetChunks packet
  rw [← hAlloc] at hUnpack
  obtain ⟨s2, hChunks⟩ := inputChunks_inserted (fun c hc => hc) hInsertable hMode hAlloc hSlot
  refine ⟨s1 ||| s2, { peer with slots := peer.slots.set j { slot with
      queue := insertedAll slot.queue ((packetChunks packet).filterMap (storedMessage slot.actor)) } },
    ?_, rfl, List.length_set .., ?_⟩
  · rw [inputPacket_of_findIdx? hFind hUnpack, hChunks, ok_bind]
    rfl
  · intro k slot' hSlot'
    dsimp only
    by_cases hk : k = j
    · subst hk
      rw [hSlot, Option.some.injEq] at hSlot'
      subst hSlot'
      rw [List.getElem?_set_self (List.getElem?_eq_some_iff.mp hSlot).1, messagesFor,
        List.flatMap_singleton, if_pos hj]
    -- the packet is for one slot, and no other has a message in it
    · have hOther : slotOf peer packet ≠ some k := by
        rw [hj, ne_eq, Option.some.injEq]
        exact Ne.symm hk
      rw [List.getElem?_set_ne (Ne.symm hk), hSlot', messagesFor, List.flatMap_singleton,
        if_neg hOther]
      rfl

theorem peerInput_received {peer : Peer} {packets : List PeerPacket} (hMode : peer.mode = .host)
    (hAlloc : peer.alloc = .reliable) (hHas : ∀ p ∈ packets, HasSlot peer p)
    (hLegal : ∀ p ∈ packets, LegalPacket p) :
    ∃ s peer', peerInput peer packets = .ok (s, peer') ∧ Received peer packets peer' := by
  induction packets generalizing peer with
  | nil => exact ⟨kitOk, peer, rfl, received_refl peer⟩
  | cons packet packets ih =>
    obtain ⟨hHead, hTail⟩ := List.forall_mem_cons.mp hHas
    obtain ⟨hHeadLegal, hTailLegal⟩ := List.forall_mem_cons.mp hLegal
    obtain ⟨s1, peer1, hOne, hReceived⟩ := inputPacket_received hMode hAlloc hHead
      fun c hc => (hHeadLegal c hc).insertable
    -- The packets behind this one have their slots still.
    have hHas1 : ∀ p ∈ packets, HasSlot peer1 p := by
      intro p hp
      rw [HasSlot, hReceived.slotOf_eq]
      exact hTail p hp
    obtain ⟨s2, peer2, hRest, hReceived'⟩ := ih (hReceived.mode.trans hMode)
      (hReceived.alloc.trans hAlloc) hHas1 hTailLegal
    refine ⟨s1 ||| s2, peer2, ?_, hReceived.trans hReceived'⟩
    exact peerInput_of_cons hOne hRest

/-- **Any calls**: no input fails, and the slots have received the packets of all
calls. How the packets are divided into calls does not matter, nor in which order
the calls come. -/
theorem inputCalls_received {peer : Peer} {calls : List (List PeerPacket)}
    (hMode : peer.mode = .host) (hAlloc : peer.alloc = .reliable)
    (hHas : ∀ p ∈ calls.flatten, HasSlot peer p) (hLegal : ∀ p ∈ calls.flatten, LegalPacket p) :
    ∃ peer', inputCalls peer calls = .ok peer' ∧ Received peer calls.flatten peer' := by
  induction calls generalizing peer with
  | nil => exact ⟨peer, rfl, received_refl peer⟩
  | cons packets calls ih =>
    rw [List.flatten_cons, List.forall_mem_append] at hHas hLegal
    obtain ⟨s, peer1, hOne, hReceived⟩ := peerInput_received hMode hAlloc hHas.1 hLegal.1
    have hHas1 : ∀ p ∈ calls.flatten, HasSlot peer1 p := by
      intro p hp
      rw [HasSlot, hReceived.slotOf_eq]
      exact hHas.2 p hp
    obtain ⟨peer2, hRest, hReceived'⟩ := ih (hReceived.mode.trans hMode)
      (hReceived.alloc.trans hAlloc) hHas1 hLegal.2
    refine ⟨peer2, ?_, hReceived.trans hReceived'⟩
    rw [inputCalls, hOne, ok_bind]
    exact hRest

-- ---------------------------------------------------------------------------
-- The order of arrival
-- ---------------------------------------------------------------------------

/-- The messages that a slot would store from the packets do not contradict each
other: one index, one message. -/
def PacketsConsistent (peer : Peer) (packets : List PeerPacket) : Prop :=
  ∀ (j : Nat) (slot : PeerSlot), peer.slots[j]? = some slot →
    GapLog.Consistent (messagesFor peer j slot.actor packets)

/-- Only which packets were received matters, neither their order nor how often they
came. Two packets that put different messages at one index are excluded, since there
the first to come is kept. -/
theorem Received.eq_of_mem_iff {peer peer1 peer2 : Peer} {ps qs : List PeerPacket}
    (h1 : Received peer ps peer1) (h2 : Received peer qs peer2) (hMem : ∀ p, p ∈ ps ↔ p ∈ qs)
    (hCon : PacketsConsistent peer ps) : peer1 = peer2 := by
  have hSlots : peer1.slots = peer2.slots := by
    refine List.ext_getElem? fun j => ?_
    cases hSlot : peer.slots[j]? with
    | none =>
      rw [List.getElem?_eq_none_iff] at hSlot
      rw [List.getElem?_eq_none (by rw [h1.length]; exact hSlot),
        List.getElem?_eq_none (by rw [h2.length]; exact hSlot)]
    | some slot =>
      rw [h1.slot j slot hSlot, h2.slot j slot hSlot]
      have hMessages (m : Nat × Entry) : m ∈ messagesFor peer j slot.actor ps ↔
          m ∈ messagesFor peer j slot.actor qs := by
        simp only [mem_messagesFor, hMem]
      rw [insertedAll_eq_of_mem_iff hMessages (hCon j slot hSlot)]
  rw [h1.rest, h2.rest, hSlots]

/-- **The mutual order does not depend on arrival order**, where nothing fails
to allocate: two sequences of calls with the same packets, whose messages do
not contradict each other, leave a host that ticks the same. -/
theorem order_independent {peer : Peer} (hMode : peer.mode = .host) (hAlloc : peer.alloc = .reliable)
    {calls calls' : List (List PeerPacket)} (hSame : ∀ p, p ∈ calls.flatten ↔ p ∈ calls'.flatten)
    (hHas : ∀ p ∈ calls.flatten, HasSlot peer p) (hLegal : ∀ p ∈ calls.flatten, LegalPacket p)
    (hCon : PacketsConsistent peer calls.flatten) :
    ∃ peer1 peer2, inputCalls peer calls = .ok peer1 ∧ inputCalls peer calls' = .ok peer2 ∧
      ∀ e, peerTick peer1 e = peerTick peer2 e := by
  obtain ⟨peer1, hCalls, hReceived⟩ := inputCalls_received hMode hAlloc hHas hLegal
  obtain ⟨peer2, hCalls', hReceived'⟩ := inputCalls_received hMode hAlloc
    (fun p hp => hHas p ((hSame p).mpr hp)) (fun p hp => hLegal p ((hSame p).mpr hp))
  have hEq := hReceived.eq_of_mem_iff hReceived' hSame hCon
  exact ⟨peer1, peer2, hCalls, hCalls', fun e => by rw [hEq]⟩

/-- A host that has bound its second slot to the client with id 5. -/
def boundHost (alloc : Allocator) : Peer :=
  { peerInit .host alloc ⟨fun _ => 0⟩ with
    slots := [openSlot .host 0 1,
      ((openSlot .host 1 2).setAddress oneByte (Buffer.fill peerAddressSize 7)).assign 1 5] }

/-- A packet of that client with its first message, of one byte. -/
def firstMessage : PeerPacket :=
  ((PeerPacket.blank 5 2).copyChunk 15 (encode peerMessageModeApplication 0 0 1 [9])).toOption.getD
    (PeerPacket.blank 5 2) |>.writeHeader 46

theorem packetChunks_firstMessage :
    packetChunks firstMessage = [encode peerMessageModeApplication 0 0 1 [9]] := by
  decide +kernel

/-- The chunk is a legal message. -/
theorem legal_firstMessage : ∀ p ∈ [firstMessage], LegalPacket p := by
  intro p hp c hc
  rw [List.mem_singleton.mp hp, packetChunks_firstMessage, List.mem_singleton] at hc
  subst hc
  refine ⟨by decide, fun header hHeader => ?_⟩
  rw [readHeader_encode (by decide) ⟨by decide, by decide⟩ ⟨by decide, by decide⟩ (by decide),
    Except.ok.injEq] at hHeader
  rw [← hHeader]
  exact ⟨by decide, by decide⟩

/-- The packet is for the slot of its client. -/
theorem hasSlot_firstMessage (alloc : Allocator) :
    ∀ p ∈ [firstMessage], HasSlot (boundHost alloc) p := by
  intro p hp
  rw [List.mem_singleton.mp hp]
  rfl

/-- One packet with one message contradicts nothing. -/
theorem consistent_firstMessage (peer : Peer) : PacketsConsistent peer [firstMessage] := by
  intro j slot _ i a b ha hb
  obtain ⟨p, hp, _, c, hc, hStored⟩ := mem_messagesFor.mp ha
  obtain ⟨p', hp', _, c', hc', hStored'⟩ := mem_messagesFor.mp hb
  rw [List.mem_singleton.mp hp, packetChunks_firstMessage, List.mem_singleton] at hc
  rw [List.mem_singleton.mp hp', packetChunks_firstMessage, List.mem_singleton] at hc'
  rw [hc'] at hStored'
  rw [hc, hStored'] at hStored
  exact ((Prod.mk.inj (Option.some.inj hStored)).2).symm

/-- The same packet twice, in calls of its own, and once. -/
theorem order_independent_repeated :
    ∃ peer1 peer2, inputCalls (boundHost .reliable) [[firstMessage]] = .ok peer1 ∧
      inputCalls (boundHost .reliable) [[firstMessage], [firstMessage]] = .ok peer2 ∧
      ∀ e, peerTick peer1 e = peerTick peer2 e :=
  order_independent rfl rfl (by simp) (hasSlot_firstMessage _) legal_firstMessage
    (consistent_firstMessage _)

/-- The data of the mutual queue after a tick: what an application sees of the
difference. -/
def mutualData (r : Except Fault Peer) : Option (List (List UInt8)) :=
  match r with
  | .error _ => none
  | .ok peer =>
    match peerTick peer 0 with
    | .error _ => none
    | .ok (_, _, peer) => some (peer.queue.map (·.data))

/-- Where an allocation may fail, a packet that is repeated gets a second chance:
the refused request loses its message once, and the call sequence that gives the
packet again ends with the message stored. -/
theorem not_order_independent_lossy :
    ¬ ∀ (alloc : Allocator) (rng : Mt64) (peer : Peer) (calls calls' : List (List PeerPacket)),
      Reaches Peer.step (fun _ _ _ => True) (peerInit .host alloc rng) peer →
      (∀ p, p ∈ calls.flatten ↔ p ∈ calls'.flatten) →
      (∀ p ∈ calls.flatten, HasSlot peer p) → (∀ p ∈ calls.flatten, LegalPacket p) →
      PacketsConsistent peer calls.flatten →
      ∃ peer1 peer2, inputCalls peer calls = .ok peer1 ∧ inputCalls peer calls' = .ok peer2 ∧
        ∀ e, peerTick peer1 e = peerTick peer2 e := by
  intro h
  -- the second request of the run fails: the list of chunks of the first input
  let alloc : Allocator := ⟨fun n => n != 1, false⟩
  have hReach : Reaches Peer.step (fun _ _ _ => True) (peerInit .host alloc ⟨fun _ => 0⟩)
      (boundHost alloc.request.2) :=
    ((Relation.ReflTransGen.single ⟨.openSlots (some [1, 2]), rfl, trivial⟩).tail
      ⟨.setAddress 1 oneByte (Buffer.fill peerAddressSize 7), rfl, trivial⟩).tail
      ⟨.input [PeerPacket.blank 5 1], rfl, trivial⟩
  obtain ⟨peer1, peer2, hCalls, hCalls', hTick⟩ := h alloc _ _ [[firstMessage]]
    [[firstMessage], [firstMessage]] hReach (by simp) (hasSlot_firstMessage _) legal_firstMessage
    (consistent_firstMessage _)
  have hOnce : mutualData (inputCalls (boundHost alloc.request.2) [[firstMessage]]) = some [] := by
    decide +kernel
  have hTwice : mutualData (inputCalls (boundHost alloc.request.2) [[firstMessage], [firstMessage]]) =
      some [[9]] := by
    decide +kernel
  rw [hCalls, mutualData, hTick] at hOnce
  rw [hCalls', mutualData, hOnce] at hTwice
  cases hTwice

end PeerProtocol
