import PeerProtocol.Peer.Bound
import PeerProtocol.Peer.Emission

/-!
# peer — the sessions of a host

The state of each slot above the listening slot, and its cursors, whatever
packets come from sources with an id. A session has three states and goes
through them in one direction: a slot is empty until a client's first packet
binds it; it then has a session request, which the next tick answers; and from
then on it is ready.

`SessionSlot` says of a slot at its position what goes with its state. An
empty slot has no client, no messages, and cursors at zero; a slot with a
client has its position as actor id; what it holds came under that id and
without a time; its sending cursor is no further than what the host has
stamped. `SlotMoved` is the other half, about two states of one slot: its own
id never changes, its remote id not once it has one, and its state only goes
forward.

Both are shown for a single step, in the form in which a run composes them:
input gives the invariant and, for any earlier state, how the slots have moved
since.

## Results

* `SessionSlot`, `SessionInv` — the invariant of the slots, over that of bound
  slots.
* `SlotMoved`, `SlotsMoved`, `SlotTaken`, `SlotsTaken` — what an action may do
  to a slot: bind it, answer it, and never take that back.
* `SessionInv.input`, `SessionInv.tick`, `SessionInv.act` — the step lemmas.
-/

namespace PeerProtocol

open Lib

-- ---------------------------------------------------------------------------
-- The invariant
-- ---------------------------------------------------------------------------

/-- The slot at position `j` of a host that has sent the mutual queue up to `n`: its
state tells whether it is bound, its cursor is not ahead, and what it holds was
accepted from its client. -/
structure SessionSlot (n j : Nat) (slot : PeerSlot) : Prop extends BoundSlot j slot where
  empty_iff : slot.state = .empty ↔ slot.remoteEnd.id = peerUndefined
  fresh : slot.remoteEnd.id = peerUndefined → slot.outIndex = 0
  outIndex : slot.outIndex ≤ n
  entry : ∀ m ∈ slot.queue, m.isReady = true → m.actor = j ∧ m.time = 0

theorem sessionSlot_openSlot (n j i : Nat) (mode : PeerMode) (id : Int) :
    SessionSlot n j (openSlot mode i id) where
  toBoundSlot := boundSlot_openSlot mode j i id
  empty_iff := ⟨fun _ => rfl, fun _ => rfl⟩
  fresh := fun _ => rfl
  outIndex := Nat.zero_le n
  entry := by simp [openSlot]

theorem SessionSlot.mono {n n' j : Nat} {slot : PeerSlot} (h : SessionSlot n j slot) (hn : n ≤ n') :
    SessionSlot n' j slot :=
  ⟨h.toBoundSlot, h.empty_iff, h.fresh, Nat.le_trans h.outIndex hn, h.entry⟩

/-- What the slot is given under its actor id: a message that is new at its index
comes without a time, and no other is written, so every ready one still is the
client's own. -/
theorem SessionSlot.store {n j : Nat} {slot : PeerSlot} (h : SessionSlot n j slot)
    (hBound : slot.remoteEnd.id ≠ peerUndefined) {q : PeerQueue} {index : Int} {data : List UInt8}
    {al al' : Allocator} {s : Status}
    (hInsert : queueInsert slot.queue index 0 slot.actor data al = .ok (s, q, al')) :
    SessionSlot n j { slot with queue := q } := by
  refine ⟨h.toBoundSlot.store hBound hInsert, h.empty_iff, h.fresh, h.outIndex, ?_⟩
  intro m hm hReady
  dsimp only at hm
  rcases (queueInsert_cases hInsert).2 with rfl | ⟨i, _, _, rfl | rfl⟩
  · exact h.entry m hm hReady
  · rcases mem_grown hm with hOld | rfl
    · exact h.entry m hOld hReady
    · cases hReady
  · rcases mem_stored hm with hOld | rfl | rfl
    · exact h.entry m hOld hReady
    · cases hReady
    · exact ⟨(h.bound hBound).2, rfl⟩

/-- A free slot is bound to a client: it has a session request, and still holds
nothing. -/
theorem SessionSlot.assign {n j : Nat} {slot : PeerSlot} (h : SessionSlot n j slot) (hj : 1 ≤ j)
    (hFree : slot.isFree = true) {sourceId : Int} (hSource : sourceId ≠ peerUndefined) :
    SessionSlot n j (slot.assign j sourceId) where
  toBoundSlot := h.toBoundSlot.assign hj hFree sourceId
  empty_iff := ⟨nofun, fun hNone => absurd hNone hSource⟩
  fresh := fun hNone => absurd hNone hSource
  outIndex := h.outIndex
  entry := h.entry

/-- The clock is of no account. -/
theorem SessionSlot.tickClock {n j : Nat} {slot : PeerSlot} (h : SessionSlot n j slot) (e : Int) :
    SessionSlot n j (slot.tickClock e) := by
  have hBound := h.toBoundSlot.tickClock e
  rw [PeerSlot.tickClock_eq] at hBound ⊢
  exact ⟨hBound, h.empty_iff, h.fresh, h.outIndex, h.entry⟩

theorem SessionSlot.merged {n j : Nat} {slot : PeerSlot} (h : SessionSlot n j slot) :
    SessionSlot n j slot.merged :=
  ⟨h.toBoundSlot.merged, h.empty_iff, h.fresh, h.outIndex, h.entry⟩

/-- A slot that is sent to is bound, and its cursor ends at the end of the mutual
queue or stays where it was. An empty slot is left alone by the loop, and its cursor
stays at zero. -/
theorem SessionSlot.sent {n j : Nat} {slot slot' : PeerSlot} {q : PeerQueue}
    (h : SessionSlot n j slot) (hn : n ≤ q.length) (hSent : SlotSent q slot slot')
    (hEmpty : slot.state = .empty → slot'.outIndex = slot.outIndex) :
    SessionSlot q.length j slot' where
  toBoundSlot := h.toBoundSlot.sent hSent
  empty_iff := by
    rw [hSent.state, hSent.remoteEnd]
    exact h.empty_iff
  fresh := by
    rw [hSent.remoteEnd]
    intro hNone
    rw [hEmpty (h.empty_iff.mpr hNone)]
    exact h.fresh hNone
  outIndex := by
    have := h.outIndex
    rcases hSent.outIndex with hSame | ⟨_, hEnd⟩ <;> omega
  entry := by
    rw [hSent.queue]
    exact h.entry

/-- A host whose slots are such, up to what it has sent. This is the invariant that
the modules about sessions and about clients begin with. -/
structure SessionInv (peer : Peer) : Prop extends BoundInv peer where
  session : ∀ j slot, peer.slots[j]? = some slot → SessionSlot peer.queueIndex j slot

/-- A new host has no slots. -/
theorem sessionInv_peerInit (rng : Mt64) : SessionInv (peerInit .host .reliable rng) where
  toBoundInv := boundInv_peerInit rng
  session := by simp [peerInit]

-- ---------------------------------------------------------------------------
-- Moves of a slot
-- ---------------------------------------------------------------------------

/-- What an action may do to a slot: its local id stays, its remote id stays
once there is one, and its state moves at most one step further. -/
structure SlotMoved (slot slot' : PeerSlot) : Prop where
  localId : slot'.localEnd.id = slot.localEnd.id
  remoteId : slot.remoteEnd.id ≠ peerUndefined → slot'.remoteEnd.id = slot.remoteEnd.id
  state : slot'.state = slot.state ∨ (slot.state = .empty ∧ slot'.state = .sessionRequest) ∨
    (slot.state = .sessionRequest ∧ slot'.state = .ready)

/-- A slot that nothing has happened to. -/
theorem slotMoved_refl (slot : PeerSlot) : SlotMoved slot slot := ⟨rfl, fun _ => rfl, Or.inl rfl⟩

/-- Every slot of a peer is still there, moved. There may be more of them. -/
def SlotsMoved (peer peer' : Peer) : Prop :=
  ∀ (j : Nat) (slot : PeerSlot), peer.slots[j]? = some slot →
    ∃ slot', peer'.slots[j]? = some slot' ∧ SlotMoved slot slot'

theorem slotsMoved_refl (peer : Peer) : SlotsMoved peer peer :=
  fun _ slot hSlot => ⟨slot, hSlot, slotMoved_refl slot⟩

/-- What input may do to a slot: nothing to its state and ids, or bind it. -/
structure SlotTaken (slot slot' : PeerSlot) : Prop where
  localId : slot'.localEnd.id = slot.localEnd.id
  bind : (slot'.state = slot.state ∧ slot'.remoteEnd.id = slot.remoteEnd.id) ∨
    (slot.state = .empty ∧ slot'.state = .sessionRequest)

/-- Every slot of a peer is still there after input, which can bind it and cannot
answer it. -/
def SlotsTaken (peer peer' : Peer) : Prop :=
  ∀ (j : Nat) (slot : PeerSlot), peer.slots[j]? = some slot →
    ∃ slot', peer'.slots[j]? = some slot' ∧ SlotTaken slot slot'

theorem SlotsTaken.moved {peer peer' : Peer} (h : SlotsTaken peer peer') (hInv : SessionInv peer) :
    SlotsMoved peer peer' := by
  intro j slot hSlot
  obtain ⟨slot', hSlot', hTaken⟩ := h j slot hSlot
  refine ⟨slot', hSlot', hTaken.localId, fun hBound => ?_, ?_⟩
  · rcases hTaken.bind with ⟨_, hSame⟩ | ⟨hEmpty, _⟩
    · exact hSame
    · exact absurd ((hInv.session j slot hSlot).empty_iff.mp hEmpty) hBound
  · rcases hTaken.bind with ⟨hSame, _⟩ | hBind
    · exact Or.inl hSame
    · exact Or.inr (Or.inl hBind)

-- ---------------------------------------------------------------------------
-- Input
-- ---------------------------------------------------------------------------

/-- Unpacking uses the allocator, and nothing else. -/
theorem SessionInv.unpack {peer : Peer} {packet : PeerPacket} {cs : List Chunk} {s : Status}
    {al : Allocator} (h : SessionInv peer)
    (hCs : unpackPacket packet [] peer.alloc = .ok (s, cs, al)) : SessionInv { peer with alloc := al } :=
  ⟨h.toBoundInv.unpack hCs, h.session⟩

/-- A chunk of a packet is stored in a bound slot: the packet has a source, and only
a slot bound to that source matches it. No slot is freed or bound by a chunk, and
none changes its state. -/
theorem SessionInv.chunk {peer peer' : Peer} {packet : PeerPacket} {j : Nat} {chunk : Chunk}
    (h : SessionInv peer) (hChunk : chunk.length ≤ 385) (hSource : packet.sourceId ≠ peerUndefined)
    (hMatch : Matches peer j packet) (hStep : ChunkStep j chunk peer peer') :
    SessionInv peer' ∧ ∀ start, SlotsTaken start peer → SlotsTaken start peer' := by
  have hInv := h.toBoundInv.chunk hChunk hSource hMatch hStep
  cases hStep.onHost h.mode with
  | skip => exact ⟨h, fun _ hTaken => hTaken⟩
  | store hSlot _ _ _ _ _ hInsert =>
    obtain ⟨slot, hSlot', hMatch⟩ := hMatch
    rw [hSlot, Option.some.injEq] at hSlot'
    subst hSlot'
    have hStored := (h.session j _ hSlot).store (bound_of_matchesPacket hSource hMatch) hInsert
    refine ⟨⟨hInv, slots_set h.session hStored⟩, fun start hTaken i first hFirst => ?_⟩
    obtain ⟨slot', hi, hSlotTaken⟩ := hTaken i first hFirst
    -- The slot of the chunk keeps its state and ids; the others are not touched.
    by_cases hij : j = i
    · subst hij
      rw [hSlot, Option.some.injEq] at hi
      subst hi
      exact ⟨_, List.getElem?_set_self (List.getElem?_eq_some_iff.mp hSlot).1, hSlotTaken.1,
        hSlotTaken.2⟩
    · exact ⟨slot', (List.getElem?_set_ne hij).trans hi, hSlotTaken⟩

theorem SessionInv.assign {peer : Peer} (h : SessionInv peer) {packet : PeerPacket}
    (hSource : packet.sourceId ≠ peerUndefined) :
    SessionInv (assignSlot peer packet).2 ∧
      ∀ start, SlotsTaken start peer → SlotsTaken start (assignSlot peer packet).2 := by
  have hInv := h.toBoundInv.assign packet
  rcases assignSlot_cases peer packet with hSame | ⟨j, _, slot, _, _, _, hj, _, hSlot, hFree, hSet⟩
  · rw [hSame]
    exact ⟨h, fun _ hTaken => hTaken⟩
  · rw [hSet] at hInv ⊢
    have hOld := h.session j slot hSlot
    refine ⟨⟨hInv, slots_set h.session (hOld.assign hj hFree hSource)⟩,
      fun start hTaken i first hFirst => ?_⟩
    obtain ⟨slot', hi, hSlotTaken⟩ := hTaken i first hFirst
    by_cases hij : j = i
    · subst hij
      rw [hSlot, Option.some.injEq] at hi
      subst hi
      -- a free slot is empty, so it was empty before the input
      have hEmpty : slot.state = .empty := by
        refine hOld.empty_iff.mpr ?_
        simp only [PeerSlot.isFree, Bool.and_eq_true, beq_iff_eq] at hFree
        exact hFree.1
      refine ⟨_, List.getElem?_set_self (List.getElem?_eq_some_iff.mp hSlot).1, hSlotTaken.localId,
        Or.inr ⟨?_, rfl⟩⟩
      rcases hSlotTaken.bind with ⟨hSame, _⟩ | ⟨hFirstEmpty, _⟩
      · rw [← hSame]
        exact hEmpty
      · exact hFirstEmpty
    · exact ⟨slot', (List.getElem?_set_ne hij).trans hi, hSlotTaken⟩

/-- Any packets whose sources have ids. -/
theorem SessionInv.input {peer peer' : Peer} {packets : List PeerPacket} {s : Status}
    (h : SessionInv peer) (hSource : ∀ p ∈ packets, p.sourceId ≠ peerUndefined)
    (hInput : peerInput peer packets = .ok (s, peer')) : SessionInv peer' ∧ SlotsTaken peer peer' := by
  refine peerInput_invariant (I := fun p => SessionInv p ∧ SlotsTaken peer p) ?_ ?_ ?_ hInput
    ⟨h, fun j slot hSlot => ⟨slot, hSlot, rfl, Or.inl ⟨rfl, rfl⟩⟩⟩
  · rintro p packet s cs al _ ⟨hp, hTaken⟩ hCs
    exact ⟨hp.unpack hCs, hTaken⟩
  · rintro start p p' packet j s cs al chunk hPacket _ hCs hMem ⟨hp, hTaken⟩ hMatch hStep
    obtain ⟨hp', hKeep⟩ :=
      hp.chunk ((unpackPacket_keeps hCs).1 chunk hMem) (hSource packet hPacket) hMatch hStep
    exact ⟨hp', hKeep peer hTaken⟩
  · rintro p packet hPacket ⟨hp, hTaken⟩ _ _
    obtain ⟨hp', hKeep⟩ := hp.assign (hSource packet hPacket)
    exact ⟨hp', hKeep peer hTaken⟩

-- ---------------------------------------------------------------------------
-- The tick
-- ---------------------------------------------------------------------------

/-- What sending does to the state of a slot: a request becomes ready, all else
stays. -/
theorem SlotPosts.state {listenId time actor : Int} {queue : PeerQueue} {slot slot' : PeerSlot}
    {ps : List PeerPacket} (h : SlotPosts listenId time actor queue slot slot' ps) :
    (slot.state = .sessionRequest ∧ slot'.state = .ready) ∨
      (slot.state ≠ .sessionRequest ∧ slot'.state = slot.state) := by
  cases h with
  | idle hIdle =>
    refine Or.inr ⟨?_, rfl⟩
    rcases hIdle with hState | ⟨hState, _⟩ <;> rw [hState] <;> decide
  | response hState => exact Or.inl ⟨hState, rfl⟩
  | messages _ hState => exact Or.inr ⟨by rw [hState]; decide, rfl⟩
  | heartbeat _ hState => exact Or.inr ⟨by rw [hState]; decide, rfl⟩

/-- Nothing is sent to an empty slot, and nothing of it changes. -/
theorem SlotPosts.of_empty {listenId time actor : Int} {queue : PeerQueue} {slot slot' : PeerSlot}
    {ps : List PeerPacket} (h : SlotPosts listenId time actor queue slot slot' ps)
    (hEmpty : slot.state = .empty) : slot' = slot ∧ ps = [] := by
  cases h with
  | idle => exact ⟨rfl, rfl⟩
  | response hState => rw [hEmpty] at hState; cases hState
  | messages _ hState => rw [hEmpty] at hState; cases hState
  | heartbeat _ hState => rw [hEmpty] at hState; cases hState

/-- The slot at a position above the listening slot, after a tick: the same position
among those that were sent to. -/
theorem slot_of_posts {listenId time actor : Int} {peer peer' : Peer} {e : Int}
    {sent : List (PeerSlot × List PeerPacket)} (hSlots : peer'.slots.tail = sent.map Prod.fst)
    (hAll : List.Forall₂ (fun slot r => SlotPosts listenId time actor peer'.queue slot r.1 r.2)
      (peer.slots.tail.map fun slot => (slot.tickClock e).merged) sent)
    {j : Nat} (hj : 1 ≤ j) {slot : PeerSlot} (hSlot : peer.slots[j]? = some slot) :
    ∃ slot' ps, peer'.slots[j]? = some slot' ∧
      SlotPosts listenId time actor peer'.queue (slot.tickClock e).merged slot' ps := by
  obtain ⟨i, rfl⟩ : ∃ i, j = i + 1 := ⟨j - 1, by omega⟩
  rw [← List.getElem?_tail] at hSlot
  have hMerged : (peer.slots.tail.map fun slot => (slot.tickClock e).merged)[i]? =
      some (slot.tickClock e).merged := by
    rw [List.getElem?_map, hSlot]
    rfl
  obtain ⟨r, hr, hPosts⟩ := getElem?_of_forall₂ hAll hMerged
  refine ⟨r.1, r.2, ?_, hPosts⟩
  rw [← List.getElem?_tail, hSlots, List.getElem?_map, hr]
  rfl

/-- A tick answers requests, and moves cursors up to what it has stamped. Each slot
is still there and still bound to whom it was, and the only change of state is from
a request to a session. -/
theorem SessionInv.tick {peer peer' : Peer} {e : Int} {s : Status} {ps : List PeerPacket}
    (h : SessionInv peer) (hTick : peerTick peer e = .ok (s, ps, peer')) :
    SessionInv peer' ∧ SlotsMoved peer peer' := by
  by_cases hValid : ValidElapsed peer e
  swap
  · obtain ⟨_, _, rfl⟩ := eq_of_peerTick_invalid hValid hTick
    exact ⟨h, slotsMoved_refl _⟩
  have hTicked := h.ticked hValid hTick
  obtain ⟨sent, hSlots, _, hAll⟩ := peerTick_host_posts h.mode h.alloc hValid
    (fun slot hSlot => (h.slot slot hSlot).cursor) hTick
  have hLen : peer.queueIndex ≤ peer'.queue.length := by
    rw [hTicked.queue]
    exact Nat.le_trans h.queueIndex (length_le_merged peer e)
  constructor
  · refine ⟨h.toBoundInv.tick hTick, fun j slot' hSlot' => ?_⟩
    rw [hTicked.queueIndex]
    -- the listening slot is neither merged nor sent to
    rcases Nat.eq_zero_or_pos j with rfl | hj
    · rw [hTicked.first] at hSlot'
      obtain ⟨slot, hSlot, rfl⟩ := Option.map_eq_some_iff.mp hSlot'
      exact ((h.session 0 slot hSlot).tickClock e).mono hLen
    · obtain ⟨slot, hSlot⟩ := exists_getElem?_of_length_eq hTicked.length hSlot'
      obtain ⟨slot'', _, hSlot'', hPosts⟩ := slot_of_posts hSlots hAll hj hSlot
      rw [hSlot', Option.some.injEq] at hSlot''
      subst hSlot''
      refine ((h.session j _ hSlot).tickClock e).merged.sent hLen
        (hTicked.slot j _ slot' hj hSlot hSlot').1 fun hEmpty => ?_
      rw [(hPosts.of_empty hEmpty).1]
  · intro j slot hSlot
    rcases Nat.eq_zero_or_pos j with rfl | hj
    · refine ⟨slot.tickClock e, by rw [hTicked.first, hSlot]; rfl, ?_⟩
      rw [PeerSlot.tickClock_eq]
      exact ⟨rfl, fun _ => rfl, Or.inl rfl⟩
    · obtain ⟨slot', _, hSlot', hPosts⟩ := slot_of_posts hSlots hAll hj hSlot
      have hSent := (hTicked.slot j slot slot' hj hSlot hSlot').1
      refine ⟨slot', hSlot', ?_, fun _ => ?_, ?_⟩
      · rw [hSent.localEnd, merged_localEnd, tickClock_localEnd]
      · rw [hSent.remoteEnd, merged_remoteEnd, tickClock_remoteEnd]
      · rcases hPosts.state with ⟨hRequest, hReady⟩ | ⟨_, hSame⟩
        · rw [merged_state, tickClock_state] at hRequest
          exact Or.inr (Or.inr ⟨hRequest, hReady⟩)
        · rw [merged_state, tickClock_state] at hSame
          exact Or.inl hSame

-- ---------------------------------------------------------------------------
-- Every action
-- ---------------------------------------------------------------------------

/-- **Step lemma of the sessions**: the invariant, and how the slots have moved. A
slot moves from empty over a session request to ready, and never back. -/
theorem SessionInv.act {peer peer' : Peer} {a : PeerAction} {s : Status} {ps : List PeerPacket}
    (h : SessionInv peer) (hMay : a.IsHostStep) (hAct : peer.act a = .ok (s, ps, peer')) :
    SessionInv peer' ∧ SlotsMoved peer peer' := by
  have hInv := h.toBoundInv.act hMay hAct
  have hCase := Peer.act_cases hAct
  cases a with
  | openSlots ids =>
    obtain ⟨_, rfl⟩ := hCase
    rw [peerOpen_reliable h.alloc] at hInv ⊢
    refine ⟨⟨hInv, slots_open h.session fun j i id _ _ => sessionSlot_openSlot _ j i _ id⟩,
      fun j slot hSlot => ⟨slot, ?_, slotMoved_refl slot⟩⟩
    -- the old slots stay where they are
    exact (List.getElem?_append_left (List.getElem?_eq_some_iff.mp hSlot).1).trans hSlot
  | queue messageData =>
    obtain ⟨_, rfl⟩ := hCase
    cases messageData with
    | none => exact ⟨h, slotsMoved_refl peer⟩
    | some data =>
      rw [peerQueue_host h.mode h.alloc] at hInv ⊢
      exact ⟨⟨hInv, h.session⟩, slotsMoved_refl peer⟩
  | input packets => exact (h.input hMay hCase.2).imp id fun hTaken => hTaken.moved h
  | tick e => exact h.tick hCase
  | setAddress j size data =>
    obtain ⟨_, rfl⟩ := hCase
    refine ⟨⟨hInv, slots_modify h.session _ fun i slot hSlot => ?_⟩, fun i slot hSlot => ?_⟩
    · exact ⟨⟨hSlot.unbound, hSlot.bound, hSlot.inIndex, hSlot.taken⟩, hSlot.empty_iff, hSlot.fresh,
        hSlot.outIndex, hSlot.entry⟩
    · refine ⟨_, (List.getElem?_modify ..).trans (by rw [hSlot]; rfl), ?_⟩
      dsimp only
      split
      · exact ⟨rfl, fun _ => rfl, Or.inl rfl⟩
      · exact slotMoved_refl slot
  | connect serverId => cases hMay
  | resolve j id => cases hMay

end PeerProtocol
