import PeerProtocol.Peer.Transmit

/-!
# peer — what a host keeps

The invariants of a host without allocation failures, whatever its application
does and whatever packets it is given. `Peer.Transmit` has what the sending
relies on; here is what the mutual queue relies on, entry by entry.

Two invariants are kept apart because they need different things. `HostInv`
asks nothing of the packets: every entry of the mutual queue is ready and has
a time that the host's clock showed, and the listening slot is never sent to.
`ActorsFit` says that every entry has an actor id that a message can carry,
and needs a reason: either the packets come from ids, so that slots are bound
before they store anything, or there are no more slots than such actor ids.

## Plan

Most of a step is about a list of slots of which one has changed, and the
property is one of a slot with its position. `slots_set`, `slots_modify`,
`slots_open` and `slots_input` are that argument, for any property;
`HostTicked.slots` is the same for a tick. With them an invariant is left with
what a single slot does.

## Results

* `HostInv.act` — the step lemma of the entries and the listening slot.
* `PeerAction.IsHostStep` — what may happen to a host: the calls that its
  application makes, and packets whose sources have ids.
* `ActorsFit.act` — the step lemma of the actor ids.
-/

namespace PeerProtocol

open Lib

/-- An entry of the mutual queue of a host: never a hole, and with a time of the
host's clock. Holes are made by inserting at an index, and a host only appends to
this queue. -/
structure MutualEntry (m : PeerMessage) : Prop where
  ready : m.isReady = true
  time : 0 ≤ m.time ∧ m.time ≤ int64Max

/-- A host of which no request was refused: its own actor id, its clock, its mutual
queue, and the slot it listens at, which no client can be bound to. -/
structure HostInv (peer : Peer) : Prop extends HostSendInv peer where
  actor : peer.actor = 0
  clock : 0 ≤ peer.timeLocal ∧ peer.timeLocal ≤ int64Max
  queueIndex : peer.queueIndex ≤ peer.queue.length
  entry : ∀ m ∈ peer.queue, MutualEntry m
  listening : ∀ slot, peer.slots[0]? = some slot → slot.state = .empty

/-- A new host has an empty queue and a clock at zero. -/
theorem hostInv_peerInit (rng : Mt64) : HostInv (peerInit .host .reliable rng) where
  mode := rfl
  alloc := rfl
  slot := by simp [peerInit]
  actor := rfl
  clock := ⟨Int.le_refl 0, by simp [peerInit, int64Max]⟩
  queueIndex := Nat.le_refl _
  entry := by simp [peerInit]
  listening := by simp [peerInit]

-- ---------------------------------------------------------------------------
-- Slots by position
-- For any property `P` of a position and a slot.
-- ---------------------------------------------------------------------------

section Slots

variable {P : Nat → PeerSlot → Prop} {slots : List PeerSlot}

/-- A property of all slots by position, after one of them was replaced. -/
theorem slots_set (h : ∀ j slot, slots[j]? = some slot → P j slot) {i : Nat} {slot' : PeerSlot}
    (hSlot : P i slot') : ∀ j slot, (slots.set i slot')[j]? = some slot → P j slot := by
  intro j slot hj
  rcases getElem?_set_cases hj with ⟨rfl, rfl⟩ | ⟨_, hOld⟩
  · exact hSlot
  · exact h j slot hOld

/-- The same after one of them was modified, whichever it was. -/
theorem slots_modify (h : ∀ j slot, slots[j]? = some slot → P j slot) (i : Nat)
    {f : PeerSlot → PeerSlot} (hf : ∀ j slot, P j slot → P j (f slot)) :
    ∀ j slot, (slots.modify i f)[j]? = some slot → P j slot := by
  intro j slot' hj
  obtain ⟨slot, hSlot, rfl | rfl⟩ := exists_of_getElem?_modify hj
  · exact h j slot' hSlot
  · exact hf j slot (h j slot hSlot)

/-- The same after slots were opened behind them. -/
theorem slots_open (h : ∀ j slot, slots[j]? = some slot → P j slot) {mode : PeerMode}
    {ids : List Int} (hNew : ∀ j i id, slots.length ≤ j → i < ids.length → P j (openSlot mode i id)) :
    ∀ j slot, (slots ++ ids.mapIdx (openSlot mode))[j]? = some slot → P j slot := by
  intro j slot hj
  by_cases hOld : j < slots.length
  · rw [List.getElem?_append_left hOld] at hj
    exact h j slot hj
  · rw [List.getElem?_append_right (by omega)] at hj
    obtain ⟨i, hi, rfl⟩ := List.mem_mapIdx.mp (List.mem_of_getElem? hj)
    exact hNew j i _ (by omega) hi

/-- A property of the slots of a host by position that a queue does not matter
to, where a packet matches the slot, and that an assignment keeps, after an
input, whatever the allocator does. -/
theorem slots_input {peer peer' : Peer} {packets : List PeerPacket} {s : Status}
    (h : ∀ j slot, peer.slots[j]? = some slot → P j slot) (hMode : peer.mode = .host)
    (hStore : ∀ j slot packet q, packet ∈ packets → slot.matchesPacket packet = true → P j slot →
      P j { slot with queue := q })
    (hAssign : ∀ j slot packet, packet ∈ packets → 1 ≤ j → slot.isFree = true → P j slot →
      P j (slot.assign j packet.sourceId))
    (hInput : peerInput peer packets = .ok (s, peer')) :
    ∀ j slot, peer'.slots[j]? = some slot → P j slot := by
  have hAll : peer'.mode = .host ∧ ∀ j slot, peer'.slots[j]? = some slot → P j slot := by
    refine peerInput_invariant (I := fun p => p.mode = .host ∧
      ∀ j slot, p.slots[j]? = some slot → P j slot) ?_ ?_ ?_ hInput ⟨hMode, h⟩
    · intro p packet s cs al _ hp _
      exact hp
    · intro start p p' packet j s cs al chunk hPacket _ _ _ hp hMatch hStep
      obtain ⟨hHost, hSlots⟩ := hp
      -- a chunk is refused, or stored in the slot that the packet is for
      cases hStep.onHost hHost with
      | skip => exact ⟨hHost, hSlots⟩
      | store hSlot =>
        obtain ⟨slot, hSlot', hMatch⟩ := hMatch
        rw [hSlot, Option.some.injEq] at hSlot'
        subst hSlot'
        exact ⟨hHost, slots_set hSlots (hStore j _ packet _ hPacket hMatch (hSlots j _ hSlot))⟩
    · intro p packet hPacket hp _ _
      rcases assignSlot_cases p packet with
        hSame | ⟨j, _, slot, _, _, _, hj, _, hSlot, hFree, hSet⟩
      · rw [hSame]
        exact hp
      · rw [hSet]
        exact ⟨hp.1, slots_set hp.2 (hAssign j slot packet hPacket hj hFree (hp.2 j slot hSlot))⟩
  exact hAll.2

end Slots

/-- A property of the slots of a host by position that its clocks, the merge
and sending keep, after a tick. -/
theorem HostTicked.slots {peer peer' : Peer} {e : Int} (hTicked : HostTicked peer e peer')
    {P : Nat → PeerSlot → Prop} (h : ∀ j slot, peer.slots[j]? = some slot → P j slot)
    (hClock : ∀ j slot, P j slot → P j (slot.tickClock e))
    (hSend : ∀ j slot slot', 1 ≤ j → P j slot → SlotSent peer'.queue slot.merged slot' → P j slot') :
    ∀ j slot, peer'.slots[j]? = some slot → P j slot := by
  intro j slot' hj'
  rcases Nat.eq_zero_or_pos j with rfl | hPos
  · rw [hTicked.first] at hj'
    obtain ⟨slot, hSlot, rfl⟩ := Option.map_eq_some_iff.mp hj'
    exact hClock 0 slot (h 0 slot hSlot)
  · obtain ⟨slot, hSlot⟩ := exists_getElem?_of_length_eq hTicked.length hj'
    exact hSend j _ slot' hPos (hClock j _ (h j _ hSlot)) (hTicked.slot j _ slot' hPos hSlot hj').1

/-- An input leaves the mutual queue of a host, and the number of its slots. What
clients send is kept in their slots until a tick merges it. -/
theorem peerInput_host_queue {peer peer' : Peer} {packets : List PeerPacket} {s : Status}
    (hMode : peer.mode = .host) (h : peerInput peer packets = .ok (s, peer')) :
    peer'.queue = peer.queue ∧ peer'.queueIndex = peer.queueIndex ∧
      peer'.slots.length = peer.slots.length := by
  have hAll : peer'.mode = .host ∧ peer'.queue = peer.queue ∧
      peer'.queueIndex = peer.queueIndex ∧ peer'.slots.length = peer.slots.length := by
    refine peerInput_invariant (I := fun p => p.mode = .host ∧ p.queue = peer.queue ∧
      p.queueIndex = peer.queueIndex ∧ p.slots.length = peer.slots.length) ?_ ?_ ?_ h
      ⟨hMode, rfl, rfl, rfl⟩
    · intro p packet s cs al _ hp _
      exact hp
    · intro start p p' packet j s cs al chunk _ _ _ _ hp _ hStep
      -- A chunk goes into a slot's queue, or nowhere.
      cases hStep.onHost hp.1 with
      | skip => exact hp
      | store =>
        exact ⟨hp.1, hp.2.1, hp.2.2.1, by rw [List.length_set]; exact hp.2.2.2⟩
    · intro p packet _ hp _ _
      rcases assignSlot_cases p packet with hSame | ⟨_, _, _, _, _, _, _, _, _, _, hSet⟩
      · rw [hSame]
        exact hp
      · rw [hSet]
        exact ⟨hp.1, hp.2.1, hp.2.2.1, by rw [List.length_set]; exact hp.2.2.2⟩
  exact hAll.2

-- ---------------------------------------------------------------------------
-- The entries and the listening slot
-- ---------------------------------------------------------------------------

/-- A chunk changes the queue of one slot. -/
theorem HostInv.chunk {peer peer' : Peer} {j : Nat} {chunk : Chunk} (h : HostInv peer)
    (hChunk : chunk.length ≤ 385) (hStep : ChunkStep j chunk peer peer') : HostInv peer' := by
  have hSend := h.toHostSendInv.chunk hChunk hStep
  cases hStep.onHost h.mode with
  | skip => exact h
  | store hSlot _ _ _ _ _ _ =>
    refine ⟨hSend, h.actor, h.clock, h.queueIndex, h.entry, ?_⟩
    intro slot hFirst
    rcases getElem?_set_cases hFirst with ⟨rfl, rfl⟩ | ⟨_, hOld⟩
    · have hFirst := h.listening _ hSlot
      exact hFirst
    · exact h.listening slot hOld

/-- Unpacking uses the allocator, and nothing else. -/
theorem HostInv.unpack {peer : Peer} {packet : PeerPacket} {cs : List Chunk} {s : Status}
    {al : Allocator} (h : HostInv peer)
    (hCs : unpackPacket packet [] peer.alloc = .ok (s, cs, al)) : HostInv { peer with alloc := al } :=
  ⟨⟨h.mode, (unpackPacket_keeps hCs).2 h.alloc, h.slot⟩, h.actor, h.clock, h.queueIndex, h.entry,
    h.listening⟩

/-- A slot that is assigned is never the listening one. -/
theorem HostInv.assign {peer : Peer} (h : HostInv peer) (packet : PeerPacket) :
    HostInv (assignSlot peer packet).2 := by
  have hSend := h.toHostSendInv.assign packet
  rcases assignSlot_cases peer packet with hSame | ⟨j, _, slot, _, _, _, hj, _, hSlot, _, hSet⟩
  · rw [hSame]
    exact h
  · rw [hSet] at hSend ⊢
    refine ⟨hSend, h.actor, h.clock, h.queueIndex, h.entry, ?_⟩
    intro first hFirst
    dsimp only at hFirst
    rw [List.getElem?_set_ne (by omega)] at hFirst
    exact h.listening first hFirst

theorem HostInv.input {peer peer' : Peer} {packets : List PeerPacket} {s : Status}
    (h : HostInv peer) (hInput : peerInput peer packets = .ok (s, peer')) : HostInv peer' := by
  refine peerInput_invariant ?_ ?_ ?_ hInput h
  · intro p packet s cs al _ hp hCs
    exact hp.unpack hCs
  · intro start p p' packet j s cs al chunk _ _ hCs hMem hp _ hStep
    exact hp.chunk ((unpackPacket_keeps hCs).1 chunk hMem) hStep
  · intro p packet _ hp _ _
    exact hp.assign packet

/-- What the tick of a host does to it, if its elapsed time is accepted. -/
theorem HostInv.ticked {peer peer' : Peer} {e : Int} {s : Status} {ps : List PeerPacket}
    (h : HostInv peer) (hValid : ValidElapsed peer e)
    (hTick : peerTick peer e = .ok (s, ps, peer')) : HostTicked peer e peer' :=
  peerTick_host_ticked h.mode h.alloc hValid (fun slot hSlot => (h.slot slot hSlot).cursor) hTick

/-- Stamped and merged entries have the time of the tick, which is a valid one
because the elapsed time was accepted. A tick that is refused changes nothing. -/
theorem HostInv.tick {peer peer' : Peer} {e : Int} {s : Status} {ps : List PeerPacket}
    (h : HostInv peer) (hTick : peerTick peer e = .ok (s, ps, peer')) : HostInv peer' := by
  by_cases hValid : ValidElapsed peer e
  · have hTicked := h.ticked hValid hTick
    have hClock := h.clock
    have hTime : 0 ≤ peer.timeLocal + e ∧ peer.timeLocal + e ≤ int64Max := by
      obtain ⟨hLo, hHi⟩ := hValid
      omega
    refine ⟨h.toHostSendInv.tick hTick, hTicked.actor.trans h.actor, ?_,
      Nat.le_of_eq hTicked.queueIndex, ?_, ?_⟩
    · rw [hTicked.timeLocal]
      exact hTime
    · intro m' hm'
      rw [hTicked.queue] at hm'
      -- An entry was there before, and is kept or stamped now, or this tick has merged it.
      rcases mem_merged_queue hm' with ⟨m, hm, rfl | rfl⟩ | ⟨slot, hSlot, m, hm, hReady, rfl⟩
      · exact h.entry m' hm
      · exact ⟨(h.entry m hm).ready, hTime⟩
      · exact ⟨rfl, hTime⟩
    · intro slot' hSlot'
      rw [hTicked.first] at hSlot'
      obtain ⟨slot, hSlot, rfl⟩ := Option.map_eq_some_iff.mp hSlot'
      rw [tickClock_state]
      exact h.listening slot hSlot
  · obtain ⟨_, _, rfl⟩ := eq_of_peerTick_invalid hValid hTick
    exact h

/-- The time of a tick fits its field in a message. -/
theorem HostInv.isInt64_time {peer peer' : Peer} {e : Int} {s : Status} {ps : List PeerPacket}
    (h : HostInv peer) (hValid : ValidElapsed peer e)
    (hTick : peerTick peer e = .ok (s, ps, peer')) : IsInt64 peer'.time := by
  have hTicked := h.ticked hValid hTick
  have hClock := (h.tick hTick).clock
  rw [hTicked.time, ← hTicked.timeLocal]
  unfold IsInt64
  omega

/-- **Step lemma of the host's invariant**, for every action and every packet:
nothing is asked of the sources, nor of what is in the packets. -/
theorem HostInv.act {peer peer' : Peer} {a : PeerAction} {s : Status} {ps : List PeerPacket}
    (h : HostInv peer) (hAct : peer.act a = .ok (s, ps, peer')) : HostInv peer' := by
  have hCase := Peer.act_cases hAct
  have hSend : HostSendInv peer' := h.toHostSendInv.step (Peer.step_eq_ok.mpr ⟨s, ps, hAct⟩)
  -- a slot that is written to keeps its state
  have hModify (i : Nat) (f : PeerSlot → PeerSlot) (hf : ∀ slot, (f slot).state = slot.state) :
      ∀ slot, (peer.slots.modify i f)[0]? = some slot → slot.state = .empty := by
    intro slot' hSlot'
    obtain ⟨slot, hSlot, rfl | rfl⟩ := exists_of_getElem?_modify hSlot'
    · exact h.listening slot' hSlot
    · rw [hf]
      exact h.listening slot hSlot
  cases a with
  | openSlots ids =>
    obtain ⟨_, rfl⟩ := hCase
    rw [peerOpen_reliable h.alloc] at hSend ⊢
    refine ⟨hSend, h.actor, h.clock, h.queueIndex, h.entry, ?_⟩
    -- new slots are empty, also one that becomes the first
    have hAll : ∀ j slot, peer.slots[j]? = some slot → (j = 0 → slot.state = .empty) := by
      rintro j slot hSlot rfl
      exact h.listening slot hSlot
    exact fun slot hSlot => slots_open hAll (fun _ _ _ _ _ _ => rfl) 0 slot hSlot rfl
  | queue messageData =>
    obtain ⟨_, rfl⟩ := hCase
    cases messageData with
    | none => exact h
    | some data =>
      rw [peerQueue_host h.mode h.alloc] at hSend ⊢
      refine ⟨hSend, h.actor, h.clock, ?_, ?_, h.listening⟩
      · rw [List.length_append]
        exact Nat.le_add_right_of_le h.queueIndex
      · intro m hm
        rcases List.mem_append.mp hm with hOld | hNew
        · exact h.entry m hOld
        · rw [List.mem_singleton.mp hNew]
          exact ⟨rfl, ⟨Int.le_refl 0, by simp [Entry.message, int64Max]⟩⟩
  | input packets => exact h.input hCase.2
  | tick e => exact h.tick hCase
  | connect serverId =>
    obtain ⟨_, rfl⟩ := hCase
    obtain ⟨i, hConnect⟩ := peerConnect_modifies peer serverId
    rw [hConnect] at hSend ⊢
    exact ⟨hSend, h.actor, h.clock, h.queueIndex, h.entry, hModify _ _ fun _ => rfl⟩
  | setAddress j size data =>
    obtain ⟨_, rfl⟩ := hCase
    exact ⟨hSend, h.actor, h.clock, h.queueIndex, h.entry, hModify _ _ fun _ => rfl⟩
  | resolve j id =>
    obtain ⟨_, rfl⟩ := hCase
    exact ⟨hSend, h.actor, h.clock, h.queueIndex, h.entry, hModify _ _ fun _ => rfl⟩

-- ---------------------------------------------------------------------------
-- The actor ids
-- ---------------------------------------------------------------------------

/-- What a host may be asked to do: the calls of its application, and the input
of packets from sources with an id. -/
def PeerAction.IsHostStep : PeerAction → Prop
  | .input packets => ∀ p ∈ packets, p.sourceId ≠ peerUndefined
  | a => a.isHostCall = true

instance : (a : PeerAction) → Decidable a.IsHostStep
  | .input packets => inferInstanceAs (Decidable (∀ p ∈ packets, p.sourceId ≠ peerUndefined))
  | .openSlots _ | .queue _ | .tick _ | .setAddress _ _ _ => .isTrue rfl
  | .connect _ | .resolve _ _ => .isFalse nofun

/-- An actor id that a message can carry: 32 bits, without a sign. -/
def ActorFits (actor : Int) : Prop := 0 ≤ actor ∧ actor < 0x100000000

/-- A slot that has received messages has such an actor id, and gets one when it is assigned. -/
structure ActorSlot (j : Nat) (slot : PeerSlot) : Prop where
  nonneg : 0 ≤ slot.actor
  received : slot.queue ≠ [] → slot.actor < 0x100000000
  unbound : slot.queue ≠ [] → slot.remoteEnd.id = peerUndefined → j < 0x100000000

/-- The actor ids of the entries, and of the slots, which entries get theirs from:
they fit the field of a message, so that what is sent is read back. -/
structure ActorsFit (peer : Peer) : Prop where
  entry : ∀ m ∈ peer.queue, ActorFits m.actor
  slot : ∀ j slot, peer.slots[j]? = some slot → ActorSlot j slot

/-- A new peer has no slots and no entries. -/
theorem actorsFit_peerInit (mode : PeerMode) (alloc : Allocator) (rng : Mt64) :
    ActorsFit (peerInit mode alloc rng) where
  entry := by simp [peerInit]
  slot := by simp [peerInit]

/-- The actor id, the queue and the remote end are all that matters of a slot. -/
theorem ActorSlot.of_eq {j : Nat} {slot slot' : PeerSlot} (h : ActorSlot j slot)
    (hActor : slot'.actor = slot.actor) (hQueue : slot'.queue = slot.queue)
    (hRemote : slot'.remoteEnd = slot.remoteEnd) : ActorSlot j slot' where
  nonneg := by
    rw [hActor]
    exact h.nonneg
  received := by
    rw [hActor, hQueue]
    exact h.received
  unbound := by
    rw [hQueue, hRemote]
    exact h.unbound

/-- An actor id that was read is one that can be carried. -/
theorem actor_lt_of_readHeader {chunk : Chunk} {header : MessageHeader}
    (h : readHeader chunk = .ok header) : header.actor < 0x100000000 := by
  obtain ⟨header', _, hHeader, _, _, hActor, _⟩ := readHeader_of_length (length_of_readHeader h)
  rw [h, Except.ok.injEq] at hHeader
  rw [hHeader]
  exact hActor

/-- One chunk: what is stored came under the slot's actor id, in 32 bits. A slot
that nobody is bound to can be given a message only by a packet without a source,
which is why such packets need the bound on the number of slots. -/
theorem ActorsFit.chunk {peer peer' : Peer} {j : Nat} {chunk : Chunk} {packet : PeerPacket}
    (h : ActorsFit peer) (hMode : peer.mode = .host)
    (hMay : packet.sourceId ≠ peerUndefined ∨ peer.slots.length ≤ 0x100000000)
    (hMatch : Matches peer j packet) (hStep : ChunkStep j chunk peer peer') : ActorsFit peer' := by
  cases hStep.onHost hMode with
  | skip => exact h
  | store hSlot hHeader _ hActor _ _ _ =>
    have hOld := h.slot j _ hSlot
    have hLt := actor_lt_of_readHeader hHeader
    obtain ⟨slot, hSlot', hMatch⟩ := hMatch
    rw [hSlot, Option.some.injEq] at hSlot'
    subst hSlot'
    refine ⟨h.entry, slots_set h.slot ⟨hOld.nonneg, fun _ => by dsimp only; omega, ?_⟩⟩
    intro _ hUnbound
    dsimp only at hUnbound
    -- A match of an unbound slot is by a packet without a source.
    rcases hMay with hSource | hCount
    · simp only [PeerSlot.matchesPacket, Bool.and_eq_true, beq_iff_eq] at hMatch
      rw [hMatch.2] at hUnbound
      exact absurd hUnbound hSource
    · have := (List.getElem?_eq_some_iff.mp hSlot).1
      omega

/-- A slot gets its position as actor id, which is one if there are no more slots
than ids. -/
theorem ActorsFit.assign {peer : Peer} (h : ActorsFit peer) (packet : PeerPacket) :
    ActorsFit (assignSlot peer packet).2 := by
  rcases assignSlot_cases peer packet with hSame | ⟨j, _, slot, _, _, _, _, _, hSlot, hFree, hSet⟩
  · rw [hSame]
    exact h
  · rw [hSet]
    have hOld := h.slot j slot hSlot
    simp only [PeerSlot.isFree, Bool.and_eq_true, beq_iff_eq] at hFree
    refine ⟨h.entry, slots_set h.slot ⟨Int.natCast_nonneg j, ?_, ?_⟩⟩
    · intro hReceived
      have := hOld.unbound hReceived hFree.1
      simp only [PeerSlot.assign]
      omega
    · exact fun hReceived _ => hOld.unbound hReceived hFree.1

/-- Packets with sources, or few slots. Either of the two conditions stays true from
packet to packet, so the step for one chunk can be repeated. -/
theorem ActorsFit.input {peer peer' : Peer} {packets : List PeerPacket} {s : Status}
    (h : ActorsFit peer) (hMode : peer.mode = .host)
    (hMay : (∀ p ∈ packets, p.sourceId ≠ peerUndefined) ∨ peer.slots.length ≤ 0x100000000)
    (hInput : peerInput peer packets = .ok (s, peer')) : ActorsFit peer' := by
  refine (peerInput_invariant (I := fun p => p.mode = .host ∧
    p.slots.length = peer.slots.length ∧ ActorsFit p) ?_ ?_ ?_ hInput ⟨hMode, rfl, h⟩).2.2
  · intro p packet s cs al _ hp _
    exact ⟨hp.1, hp.2.1, hp.2.2.entry, hp.2.2.slot⟩
  · rintro start p p' packet j s cs al chunk hPacket _ _ _ ⟨hMode, hCount, hp⟩ hMatch hStep
    -- the number of slots does not change, so the condition holds in between
    have hMay' : packet.sourceId ≠ peerUndefined ∨ p.slots.length ≤ 0x100000000 := by
      rw [hCount]
      exact hMay.imp (fun hSource => hSource packet hPacket) id
    refine ⟨?_, ?_, hp.chunk hMode hMay' hMatch hStep⟩
    · cases hStep <;> exact hMode
    · rw [← hCount]
      cases hStep <;> simp
  · rintro p packet _ ⟨hMode, hCount, hp⟩ _ _
    refine ⟨?_, ?_, hp.assign packet⟩
    all_goals
      rcases assignSlot_cases p packet with hSame | ⟨_, _, _, _, _, _, _, _, _, _, hSet⟩
    · rw [hSame, hMode]
    · rw [hSet, hMode]
    · rw [hSame, hCount]
    · rw [hSet, List.length_set, hCount]

/-- What the merge appends has the actor id of its slot, which fits because messages
are only stored in slots whose actor id does; what was there before is stamped and
keeps its own. -/
theorem ActorsFit.tick {peer peer' : Peer} {e : Int} {s : Status} {ps : List PeerPacket}
    (h : ActorsFit peer) (hInv : HostInv peer) (hTick : peerTick peer e = .ok (s, ps, peer')) :
    ActorsFit peer' := by
  by_cases hValid : ValidElapsed peer e
  · have hTicked := hInv.ticked hValid hTick
    refine ⟨?_, hTicked.slots h.slot ?_ ?_⟩
    · intro m' hm'
      rw [hTicked.queue] at hm'
      rcases mem_merged_queue hm' with ⟨m, hm, rfl | rfl⟩ | ⟨slot, hSlot, m, hm, _, rfl⟩
      · exact h.entry m' hm
      · exact h.entry m hm
      -- It was merged, so its slot has received something, and its actor id fits.
      · obtain ⟨i, hi⟩ := List.mem_iff_getElem?.mp (List.mem_of_mem_tail hSlot)
        have hFits := h.slot i slot hi
        exact ⟨hFits.nonneg, hFits.received (List.ne_nil_of_mem hm)⟩
    · intro j slot hSlot
      exact hSlot.of_eq (tickClock_actor slot e) (tickClock_queue slot e) (tickClock_remoteEnd slot e)
    · intro j slot slot' _ hSlot hSent
      exact hSlot.of_eq hSent.actor hSent.queue hSent.remoteEnd
  · obtain ⟨_, _, rfl⟩ := eq_of_peerTick_invalid hValid hTick
    exact h

/-- Where there are no more slots than actor ids, a slot may also be written to, by
the resolving of addresses or by the application: its messages and its actor id are
not touched. -/
theorem ActorsFit.modify {peer : Peer} (h : ActorsFit peer)
    (hCount : peer.slots.length ≤ 0x100000000) (i : Nat) {f : PeerSlot → PeerSlot}
    (hActor : ∀ slot, (f slot).actor = slot.actor) (hQueue : ∀ slot, (f slot).queue = slot.queue) :
    ActorsFit { peer with slots := peer.slots.modify i f } where
  entry := h.entry
  slot := by
    intro j slot' hj
    have hLt := (List.getElem?_eq_some_iff.mp hj).1
    rw [List.length_modify] at hLt
    obtain ⟨slot, hSlot, rfl | rfl⟩ := exists_of_getElem?_modify hj
    · exact h.slot j slot' hSlot
    · have hOld := h.slot j slot hSlot
      refine ⟨?_, ?_, fun _ _ => by omega⟩
      · rw [hActor]
        exact hOld.nonneg
      · rw [hActor, hQueue]
        exact hOld.received

/-- **Step lemma of the actor ids**, for sources with an id, or no more slots than
actor ids. A packet without a source can be merged under the actor id that
`peer_open` wrote. -/
theorem ActorsFit.act {peer peer' : Peer} {a : PeerAction} {s : Status} {ps : List PeerPacket}
    (h : ActorsFit peer) (hInv : HostInv peer)
    (hMay : a.IsHostStep ∨ peer'.slots.length ≤ 0x100000000)
    (hAct : peer.act a = .ok (s, ps, peer')) : ActorsFit peer' := by
  have hCase := Peer.act_cases hAct
  cases a with
  | openSlots ids =>
    obtain ⟨_, rfl⟩ := hCase
    rw [peerOpen_reliable hInv.alloc, hInv.mode]
    refine ⟨h.entry, slots_open h.slot fun j i id _ _ => ?_⟩
    -- a new slot is not bound, and its queue is empty
    exact ⟨Int.natCast_nonneg i, fun hSome => absurd rfl hSome, fun hSome => absurd rfl hSome⟩
  | queue messageData =>
    obtain ⟨_, rfl⟩ := hCase
    cases messageData with
    | none => exact h
    | some data =>
      rw [peerQueue_host hInv.mode hInv.alloc]
      refine ⟨?_, h.slot⟩
      intro m hm
      rcases List.mem_append.mp hm with hOld | hNew
      · exact h.entry m hOld
      · rw [List.mem_singleton.mp hNew]
        simp [Entry.message, hInv.actor, ActorFits]
  | input packets =>
    rw [(peerInput_host_queue hInv.mode hCase.2).2.2] at hMay
    exact h.input hInv.mode hMay hCase.2
  | tick e => exact h.tick hInv hCase
  | setAddress j size data =>
    obtain ⟨_, rfl⟩ := hCase
    exact ⟨h.entry, slots_modify h.slot _ fun _ _ hSlot => hSlot.of_eq rfl rfl rfl⟩
  | connect serverId =>
    obtain ⟨_, rfl⟩ := hCase
    have hCount := hMay.resolve_left (by simp [PeerAction.IsHostStep, PeerAction.isHostCall])
    obtain ⟨i, hConnect⟩ := peerConnect_modifies peer serverId
    rw [hConnect, List.length_modify] at hCount
    rw [hConnect]
    exact h.modify hCount _ (fun _ => rfl) (fun _ => rfl)
  | resolve j id =>
    obtain ⟨_, rfl⟩ := hCase
    have hCount := hMay.resolve_left (by simp [PeerAction.IsHostStep, PeerAction.isHostCall])
    rw [List.length_modify] at hCount
    exact h.modify hCount _ (fun _ => rfl) (fun _ => rfl)

end PeerProtocol
