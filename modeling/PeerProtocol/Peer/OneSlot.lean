import PeerProtocol.Peer.Order

/-!
# peer — a packet touches one slot

What one packet does to a host, in any state of it and without allocation
failures: the packet goes to the first slot that it matches, or it binds the
lowest free slot, or it does nothing. All else is as before: the mutual queue,
the clocks, and every other slot, with its queue and its cursors.

The three searches of `peer_input` are put as conditions on the list of slots,
so that the statement can be read without the loops: `FirstMatch` is the first
slot with the packet's ids, `Binds` says that a packet for which there is none
may ask for a slot, and `LowestFree` is the slot that it gets. At most one
slot satisfies each.

What the matched slot receives is described by its entries and not by its
list: each ready message stays, a new one is a message of the packet under the
slot's own actor id, and no other index is filled. The packet may hold
messages of any kind; what a host does not accept leaves no trace in the
queue, and is reported in the status.

## Results

* `FirstMatch`, `Binds`, `LowestFree` — the three searches; `Receives` — what
  may happen to the queue of the matched slot.
* `inputPacket_matched`, `inputPacket_unmatched` — a packet that has a slot,
  and one that has none.
* `peerInput_oneSlot` — the cases together, with their status.
-/

namespace PeerProtocol

open Lib

-- ---------------------------------------------------------------------------
-- The searches
-- ---------------------------------------------------------------------------

/-- The slot at position `j` is the first one with the packet's ids. -/
def FirstMatch (slots : List PeerSlot) (packet : PeerPacket) (j : Nat) (slot : PeerSlot) : Prop :=
  slots[j]? = some slot ∧
    (slot.localEnd.id = packet.destinationId ∧ slot.remoteEnd.id = packet.sourceId) ∧
    ∀ i < j, ∀ s, slots[i]? = some s →
      ¬ (s.localEnd.id = packet.destinationId ∧ s.remoteEnd.id = packet.sourceId)

/-- The packet asks for a slot: it is addressed to the host, whose first slot is not bound. -/
def Binds (slots : List PeerSlot) (packet : PeerPacket) : Prop :=
  (∃ slot ∈ slots, slot.localEnd.id = packet.destinationId) ∧
    ∃ first, slots[0]? = some first ∧ first.remoteEnd.id = peerUndefined

/-- The slot at position `j` is the lowest one above the first that is not bound
and has a local address. -/
def LowestFree (slots : List PeerSlot) (j : Nat) (slot : PeerSlot) : Prop :=
  1 ≤ j ∧ slots[j]? = some slot ∧
    (slot.remoteEnd.id = peerUndefined ∧ 0 < slot.localEnd.addressSize) ∧
    ∀ i < j, 1 ≤ i → ∀ s, slots[i]? = some s →
      ¬ (s.remoteEnd.id = peerUndefined ∧ 0 < s.localEnd.addressSize)

/-- The test of the code, as two equations. -/
theorem matchesPacket_iff {slot : PeerSlot} {packet : PeerPacket} :
    slot.matchesPacket packet = true ↔
      slot.localEnd.id = packet.destinationId ∧ slot.remoteEnd.id = packet.sourceId := by
  rw [PeerSlot.matchesPacket, Bool.and_eq_true, beq_iff_eq, beq_iff_eq]

/-- A free slot: nobody has it, and its address is known. -/
theorem isFree_iff {slot : PeerSlot} :
    slot.isFree = true ↔ slot.remoteEnd.id = peerUndefined ∧ 0 < slot.localEnd.addressSize := by
  rw [PeerSlot.isFree, Bool.and_eq_true, beq_iff_eq, decide_eq_true_iff, gt_iff_lt]

theorem slotOf_eq_some_iff {peer : Peer} {packet : PeerPacket} {j : Nat} :
    slotOf peer packet = some j ↔ ∃ slot, FirstMatch peer.slots packet j slot := by
  unfold slotOf FirstMatch
  rw [findIdx?_eq_some_iff_getElem?]
  refine exists_congr fun slot => and_congr_right fun _ => and_congr matchesPacket_iff ?_
  refine forall₄_congr fun i _ s _ => ?_
  rw [← Bool.not_eq_true, matchesPacket_iff]

/-- The second one, which skips the listening slot: the position it finds is the
lowest of a slot that is not bound and has a local address, counted from the second
slot on. -/
theorem freeSlot_eq_some_iff {slots : List PeerSlot} {j : Nat} :
    freeSlot slots = some j ↔ ∃ slot, LowestFree slots j slot := by
  unfold freeSlot LowestFree
  rw [Option.map_eq_some_iff]
  -- positions of the tail are those of the slots, one lower
  have hTail (i : Nat) : slots.tail[i]? = slots[i + 1]? := List.getElem?_tail
  constructor
  · rintro ⟨i, hi, rfl⟩
    obtain ⟨slot, hSlot, hFree, hBefore⟩ := findIdx?_eq_some_iff_getElem?.mp hi
    refine ⟨slot, Nat.le_add_left .., hTail i ▸ hSlot, isFree_iff.mp hFree, ?_⟩
    intro k hk hOne s hs
    obtain ⟨k, rfl⟩ := Nat.exists_eq_add_of_le' hOne
    rw [← isFree_iff, hBefore k (Nat.lt_of_add_lt_add_right hk) s (hTail k ▸ hs)]
    exact Bool.false_ne_true
  · rintro ⟨slot, hOne, hSlot, hFree, hBefore⟩
    obtain ⟨i, rfl⟩ := Nat.exists_eq_add_of_le' hOne
    refine ⟨i, findIdx?_eq_some_iff_getElem?.mpr ⟨slot, hTail i ▸ hSlot, isFree_iff.mpr hFree, ?_⟩, rfl⟩
    intro k hk s hs
    rw [← Bool.not_eq_true, isFree_iff]
    exact hBefore (k + 1) (Nat.add_lt_add_right hk 1) (Nat.le_add_left ..) s (hTail k ▸ hs)

/-- A packet is for this peer if one of its slots has the destination id. -/
theorem addressed_iff {peer : Peer} {packet : PeerPacket} :
    Addressed peer packet ↔ ∃ slot ∈ peer.slots, slot.localEnd.id = packet.destinationId := by
  rw [Addressed, List.any_eq_true]
  simp only [beq_iff_eq]

-- ---------------------------------------------------------------------------
-- The queue of the matched slot
-- ---------------------------------------------------------------------------

/-- A message that a chunk of the packet carries, at its index, for a slot with
the actor id: without a time, with that actor id, and not a service message. -/
def Carries (packet : PeerPacket) (actor : Int) (i : Nat) (m : PeerMessage) : Prop :=
  ∃ c ∈ packetChunks packet, ∃ header, readHeader c = .ok header ∧ header.index = i ∧
    header.time = 0 ∧ (header.actor : Int) = actor ∧ header.mode ≠ peerMessageModeService ∧
    m = { isReady := true, time := 0, actor := actor, data := c.drop peerNMessageData }

/-- What may happen to the queue of a slot: what is ready stays as it is, the
queue does not shrink, and where nothing was ready only a message of the packet
can be. -/
structure Receives (packet : PeerPacket) (actor : Int) (q q' : PeerQueue) : Prop where
  ready : ∀ (i : Nat) (m : PeerMessage), q[i]? = some m → m.isReady = true → q'[i]? = some m
  length : q.length ≤ q'.length
  news : ∀ (i : Nat) (m : PeerMessage), q'[i]? = some m → m.isReady = true →
    q[i]? = some m ∨ ((q[i]?).any (·.isReady) = false ∧ Carries packet actor i m)
  gaps : ∀ (i : Nat) (m : PeerMessage), q'[i]? = some m → m.isReady = false →
    q[i]? = some m ∨ (q.length ≤ i ∧ m = PeerMessage.zero)

/-- A ready message is that of some entry. -/
theorem exists_entry_of_isReady {m : PeerMessage} (h : m.isReady = true) :
    ∃ e : Entry, m = e.message := ⟨_, eq_message_of_entry (isReady_iff_entry.mp h)⟩

/-- What is stored came in the packet, with the slot's actor id. -/
theorem carries_of_stored {packet : PeerPacket} {actor : Int} {i : Nat} {e : Entry} {c : Chunk}
    (hMem : c ∈ packetChunks packet) (hStored : storedMessage actor c = some (i, e)) :
    Carries packet actor i e.message := by
  cases hHeader : readHeader c with
  | error err =>
    rw [storedMessage, hHeader] at hStored
    cases hStored
  | ok header =>
    rw [storedMessage_eq hHeader, Option.ite_none_right_eq_some, Option.some.injEq,
      Prod.mk.injEq] at hStored
    obtain ⟨⟨hTime, hActor, hMode, hIndex⟩, rfl, rfl⟩ := hStored
    exact ⟨c, hMem, header, hHeader, (Int.toNat_of_nonneg hIndex).symm, hTime, hActor, hMode, rfl⟩

/-- The insertion of a packet's messages, one after the other: what was ready stays,
what becomes ready is carried by the packet for an index that was free, and every
other entry is as it was or a gap behind the old end. -/
theorem receives_insertedAll (packet : PeerPacket) (actor : Int) (q : PeerQueue) :
    Receives packet actor q
      (insertedAll q ((packetChunks packet).filterMap (storedMessage actor))) where
  ready i m hm hReady := by
    obtain ⟨e, rfl⟩ := exists_entry_of_isReady hReady
    rw [← holds_entries_iff, entries_insertedAll]
    exact GapLog.holds_learn_of_holds (holds_entries_iff.mpr hm)
  length := by
    rw [← length_entries, ← length_entries, entries_insertedAll, GapLog.length_learn]
    exact (foldr_max_le_iff.mp (Nat.le_refl _)).1
  news i m hm hReady := by
    obtain ⟨e, rfl⟩ := exists_entry_of_isReady hReady
    rw [← holds_entries_iff, entries_insertedAll] at hm
    -- It was held before, or it is of the packet, at an index that was free.
    rcases GapLog.holds_learn_cases hm with hOld | ⟨hFree, hNew⟩
    · exact Or.inl (holds_entries_iff.mp hOld)
    · obtain ⟨c, hMem, hStored⟩ := List.mem_filterMap.mp hNew
      rw [filled_entries_iff, Bool.not_eq_true] at hFree
      exact Or.inr ⟨hFree, carries_of_stored hMem hStored⟩
  gaps := sameGaps_insertedAll q _

-- ---------------------------------------------------------------------------
-- A packet that asks for a slot
-- ---------------------------------------------------------------------------

/-- A packet that matches no slot binds the lowest free one, if it may. Its content
is not looked at, so the message it carries is lost here and has to come again. -/
theorem assignSlot_binds {peer : Peer} (packet : PeerPacket) (hMode : peer.mode = .host)
    (hFirst : ∃ first, peer.slots[0]? = some first ∧ first.remoteEnd.id = peerUndefined) :
    (∀ j slot, LowestFree peer.slots j slot → assignSlot peer packet =
      (kitOk, { peer with slots := peer.slots.set j (slot.assign j packet.sourceId) })) ∧
    ((∀ j slot, ¬ LowestFree peer.slots j slot) →
      assignSlot peer packet = (peerErrorNoFreeSlots, peer)) := by
  obtain ⟨first, hZero, hUnbound⟩ := hFirst
  have hListens : (peer.slots.head?).any (fun slot => slot.remoteEnd.id == peerUndefined) = true := by
    rw [List.head?_eq_getElem?, hZero, Option.any_some, beq_iff_eq]
    exact hUnbound
  have hNot : ¬ (peer.mode ≠ .host ∨
      ¬ (peer.slots.head?).any (fun slot => slot.remoteEnd.id == peerUndefined) = true) :=
    not_or.mpr ⟨not_not.mpr hMode, not_not.mpr hListens⟩
  rw [assignSlot, if_neg hNot]
  -- the host listens, so the lowest free slot decides
  constructor
  · intro j slot hFree
    rw [freeSlot_eq_some_iff.mpr ⟨slot, hFree⟩]
    dsimp only
    rw [modify_eq_set_of_getElem? hFree.2.1]
  · intro hNone
    have hNoSlot : freeSlot peer.slots = none := by
      rw [Option.eq_none_iff_forall_ne_some]
      intro j hj
      obtain ⟨slot, hFree⟩ := freeSlot_eq_some_iff.mp hj
      exact hNone j slot hFree
    rw [hNoSlot]

/-- A packet that matches no slot and may bind none changes nothing, and is no
error. -/
theorem assignSlot_of_not_unbound {peer : Peer} {packet : PeerPacket}
    (h : ¬ ∃ first, peer.slots[0]? = some first ∧ first.remoteEnd.id = peerUndefined) :
    assignSlot peer packet = (kitOk, peer) := by
  rw [assignSlot, if_pos]
  refine Or.inr fun hListens => h ?_
  obtain ⟨first, hZero, hUnbound⟩ := (Option.any_eq_true _ _).mp hListens
  rw [List.head?_eq_getElem?] at hZero
  exact ⟨first, hZero, beq_iff_eq.mp hUnbound⟩

-- ---------------------------------------------------------------------------
-- One packet
-- ---------------------------------------------------------------------------

/-- What a packet may change in a host: one slot at most, and nothing outside the
slots. -/
structure TouchesOneSlot (peer peer' : Peer) : Prop where
  queue : peer'.queue = peer.queue
  queueIndex : peer'.queueIndex = peer.queueIndex
  time : peer'.time = peer.time
  timeLocal : peer'.timeLocal = peer.timeLocal
  actor : peer'.actor = peer.actor
  mode : peer'.mode = peer.mode
  slots : ∃ j : Nat, ∀ k : Nat, k ≠ j → peer'.slots[k]? = peer.slots[k]?

theorem touchesOneSlot_refl (peer : Peer) : TouchesOneSlot peer peer :=
  ⟨rfl, rfl, rfl, rfl, rfl, rfl, 0, fun _ _ => rfl⟩

theorem touchesOneSlot_set (peer : Peer) (j : Nat) (slot : PeerSlot) :
    TouchesOneSlot peer { peer with slots := peer.slots.set j slot } :=
  ⟨rfl, rfl, rfl, rfl, rfl, rfl, j, fun _ hk => List.getElem?_set_ne (Ne.symm hk)⟩

/-- The input of a packet for the first slot that it matches: only the queue of that
slot is changed, and that by messages of the packet. -/
theorem inputPacket_matched {peer : Peer} {packet : PeerPacket} {j : Nat} {slot : PeerSlot}
    (hMode : peer.mode = .host) (hAlloc : peer.alloc = .reliable)
    (hInsertable : ∀ c ∈ packetChunks packet, InsertableChunk c)
    (hMatch : FirstMatch peer.slots packet j slot) :
    ∃ s q, inputPacket peer packet =
        .ok (s, { peer with slots := peer.slots.set j { slot with queue := q } }) ∧
      Receives packet slot.actor slot.queue q := by
  have hOf : slotOf peer packet = some j := slotOf_eq_some_iff.mpr ⟨slot, hMatch⟩
  obtain ⟨s, peer', hInput, hReceived⟩ := inputPacket_received hMode hAlloc
    (show HasSlot peer packet by rw [HasSlot, hOf]; rfl) hInsertable
  have hMessages (k : Nat) (actor : Int) : messagesFor peer k actor [packet] =
      if j = k then (packetChunks packet).filterMap (storedMessage actor) else [] := by
    rw [messagesFor, List.flatMap_singleton, hOf]
    simp only [Option.some.injEq]
  refine ⟨s, _, ?_, receives_insertedAll packet slot.actor slot.queue⟩
  have hSlots : peer'.slots = peer.slots.set j { slot with
      queue := insertedAll slot.queue ((packetChunks packet).filterMap (storedMessage slot.actor)) } := by
    -- slot by slot: only the one at `j` has messages in the packet
    refine List.ext_getElem? fun k => ?_
    rw [List.getElem?_set]
    split
    · next hk =>
      subst hk
      rw [hReceived.slot j slot hMatch.1, hMessages, if_pos rfl,
        if_pos (List.getElem?_eq_some_iff.mp hMatch.1).1]
    · next hk =>
      cases hSlot : peer.slots[k]? with
      | none =>
        rw [List.getElem?_eq_none_iff] at hSlot ⊢
        rw [hReceived.length]
        exact hSlot
      | some other =>
        rw [hReceived.slot k other hSlot, hMessages, if_neg hk]
        rfl
  rw [hInput, hReceived.rest, hSlots]

/-- There is one first match at most. -/
theorem FirstMatch.unique {slots : List PeerSlot} {packet : PeerPacket} {j k : Nat}
    {slot slot' : PeerSlot} (h : FirstMatch slots packet j slot)
    (h' : FirstMatch slots packet k slot') : k = j ∧ slot' = slot := by
  obtain rfl : k = j := by
    rcases Nat.lt_trichotomy k j with hLt | hEq | hLt
    · exact absurd h'.2.1 (h.2.2 k hLt slot' h'.1)
    · exact hEq
    · exact absurd h.2.1 (h'.2.2 j hLt slot h.1)
  exact ⟨rfl, Option.some.inj (h'.1.symm.trans h.1)⟩

/-- The input of a packet that matches no slot: it binds one, finds none free, or is
dropped. -/
theorem inputPacket_unmatched {peer : Peer} {packet : PeerPacket} (hMode : peer.mode = .host)
    (hNone : ∀ j slot, ¬ FirstMatch peer.slots packet j slot) :
    ∃ s peer', inputPacket peer packet = .ok (s, peer') ∧ TouchesOneSlot peer peer' ∧
      (Binds peer.slots packet →
        (∀ j slot, LowestFree peer.slots j slot → s = kitOk ∧
          peer' = { peer with slots := peer.slots.set j (slot.assign j packet.sourceId) }) ∧
        ((∀ j slot, ¬ LowestFree peer.slots j slot) → s = peerErrorNoFreeSlots ∧ peer' = peer)) ∧
      (¬ Binds peer.slots packet → peer' = peer) := by
  have hFind : peer.slots.findIdx? (·.matchesPacket packet) = none := by
    rw [Option.eq_none_iff_forall_ne_some]
    intro j hj
    obtain ⟨slot, hMatch⟩ := slotOf_eq_some_iff.mp hj
    exact hNone j slot hMatch
  have hInput (hAddressed : Addressed peer packet) :
      inputPacket peer packet = .ok (assignSlot peer packet) := by
    unfold inputPacket
    rw [if_pos (show _ = true from hAddressed), hFind]
  by_cases hBinds : Binds peer.slots packet
  · have hAssign := hInput (addressed_iff.mpr hBinds.1)
    obtain ⟨hBound, hNoSlot⟩ := assignSlot_binds packet hMode hBinds.2
    -- the host listens: the lowest free slot is bound, if there is one
    by_cases hFree : ∃ j slot, LowestFree peer.slots j slot
    · obtain ⟨j, slot, hFree⟩ := hFree
      have hOnly := hBound j slot hFree
      rw [hOnly] at hAssign
      refine ⟨_, _, hAssign, touchesOneSlot_set .., fun _ => ⟨fun k other hOther => ?_, ?_⟩,
        fun hNot => absurd hBinds hNot⟩
      · exact Prod.mk.inj (hOnly.symm.trans (hBound k other hOther))
      · exact fun hNoFree => absurd hFree (hNoFree j slot)
    · have hNoFree : ∀ j slot, ¬ LowestFree peer.slots j slot :=
        fun j slot hThis => hFree ⟨j, slot, hThis⟩
      rw [hNoSlot hNoFree] at hAssign
      exact ⟨_, _, hAssign, touchesOneSlot_refl peer,
        fun _ => ⟨fun j slot hThis => absurd hThis (hNoFree j slot), fun _ => ⟨rfl, rfl⟩⟩,
        fun _ => rfl⟩
  · refine ⟨kitOk, peer, ?_, touchesOneSlot_refl peer, fun h => absurd h hBinds, fun _ => rfl⟩
    -- a packet for another peer, or for one that does not listen
    by_cases hAddressed : Addressed peer packet
    · rw [hInput hAddressed, assignSlot_of_not_unbound
        fun hFirst => hBinds ⟨addressed_iff.mp hAddressed, hFirst⟩]
    · exact if_neg hAddressed

/-- **One packet touches at most one slot.** In any state of a host, without
allocation failures, the input of one packet whose chunks have room for a header
and whose indices are below the last one goes through and touches one slot at
most: the queue of the first slot that matches it; otherwise, if it is addressed
to the host and the first slot is not bound, the lowest free slot, which is
bound to its source, or none where no slot is free; otherwise none. -/
theorem peerInput_oneSlot (peer : Peer) (packet : PeerPacket) (hMode : peer.mode = .host)
    (hAlloc : peer.alloc = .reliable)
    (hSizes : ∀ c ∈ packetChunks packet, peerNMessageData ≤ c.length)
    (hIndices : ∀ c ∈ packetChunks packet, ∀ index, peerReadMessageIndex c = .ok index →
      index < int64Max) :
    ∃ status peer', peerInput peer [packet] = .ok (status, peer') ∧ TouchesOneSlot peer peer' ∧
      (∀ j slot, FirstMatch peer.slots packet j slot →
        ∃ q, peer' = { peer with slots := peer.slots.set j { slot with queue := q } } ∧
          Receives packet slot.actor slot.queue q) ∧
      ((∀ j slot, ¬ FirstMatch peer.slots packet j slot) → Binds peer.slots packet →
        (∀ j slot, LowestFree peer.slots j slot → status = kitOk ∧
          peer' = { peer with slots := peer.slots.set j (slot.assign j packet.sourceId) }) ∧
        ((∀ j slot, ¬ LowestFree peer.slots j slot) →
          status = peerErrorNoFreeSlots ∧ peer' = peer)) ∧
      ((∀ j slot, ¬ FirstMatch peer.slots packet j slot) → ¬ Binds peer.slots packet →
        peer' = peer) := by
  by_cases hMatched : ∃ j slot, FirstMatch peer.slots packet j slot
  · obtain ⟨j, slot, hMatch⟩ := hMatched
    -- what is said of the bytes of a chunk is what storing it needs
    have hInsertable : ∀ c ∈ packetChunks packet, InsertableChunk c := by
      intro c hc
      refine ⟨hSizes c hc, fun header hHeader => ?_⟩
      exact hIndices c hc header.index (index_of_readHeader hHeader)
    obtain ⟨s, q, hInput, hReceives⟩ := inputPacket_matched hMode hAlloc hInsertable hMatch
    refine ⟨s, _, peerInput_singleton hInput, touchesOneSlot_set .., ?_,
      fun hNone => absurd hMatch (hNone j slot), fun hNone => absurd hMatch (hNone j slot)⟩
    intro j' slot' hMatch'
    obtain ⟨rfl, rfl⟩ := hMatch.unique hMatch'
    exact ⟨q, rfl, hReceives⟩
  · have hNone : ∀ j slot, ¬ FirstMatch peer.slots packet j slot :=
      fun j slot hMatch => hMatched ⟨j, slot, hMatch⟩
    obtain ⟨s, peer', hInput, hTouches, hBinds, hRest⟩ := inputPacket_unmatched hMode hNone
    exact ⟨s, peer', peerInput_singleton hInput, hTouches,
      fun j slot hMatch => absurd hMatch (hNone j slot), fun _ => hBinds, fun _ => hRest⟩

/-- A packet of a client for its slot: one message is stored, and the case of the
theorem that applies is the one of a match, not of a binding. -/
theorem peerInput_oneSlot_message :
    ∃ status peer', peerInput (boundHost .reliable) [firstMessage] = .ok (status, peer') ∧
      TouchesOneSlot (boundHost .reliable) peer' ∧
      (∀ j slot, FirstMatch (boundHost .reliable).slots firstMessage j slot →
        ∃ q, peer' = { boundHost .reliable with
            slots := (boundHost .reliable).slots.set j { slot with queue := q } } ∧
          Receives firstMessage slot.actor slot.queue q) ∧
      ((∀ j slot, ¬ FirstMatch (boundHost .reliable).slots firstMessage j slot) →
        Binds (boundHost .reliable).slots firstMessage →
        (∀ j slot, LowestFree (boundHost .reliable).slots j slot → status = kitOk ∧
          peer' = { boundHost .reliable with
            slots := (boundHost .reliable).slots.set j (slot.assign j firstMessage.sourceId) }) ∧
        ((∀ j slot, ¬ LowestFree (boundHost .reliable).slots j slot) →
          status = peerErrorNoFreeSlots ∧ peer' = boundHost .reliable)) ∧
      ((∀ j slot, ¬ FirstMatch (boundHost .reliable).slots firstMessage j slot) →
        ¬ Binds (boundHost .reliable).slots firstMessage → peer' = boundHost .reliable) := by
  -- the packet carries one message
  have hChunk (c : Chunk) (hc : c ∈ packetChunks firstMessage) :
      c = encode peerMessageModeApplication 0 0 1 [9] := by
    rw [packetChunks_firstMessage] at hc
    exact List.mem_singleton.mp hc
  refine peerInput_oneSlot (boundHost .reliable) firstMessage rfl rfl (fun c hc => ?_)
    fun c hc index hIndex => ?_
  · rw [hChunk c hc]
    decide
  · rw [hChunk c hc, show peerReadMessageIndex (encode peerMessageModeApplication 0 0 1 [9]) = .ok 0
      by decide +kernel, Except.ok.injEq] at hIndex
    rw [← hIndex]
    decide

end PeerProtocol
