import PeerProtocol.Peer.Actors
import PeerProtocol.Peer.MergeFailures
import PeerProtocol.Peer.Uplink
import PeerProtocol.Wire.Unpacking

/-!
# peer — where the messages of a host come from

A host takes what the network gives it: any bytes, in any packets whose source
has an id, and its allocator may refuse anything. Whatever it then holds under
the actor id of a slot was in a packet from the client that the slot is bound
to, as a message for that slot under that actor id.

This is what the library promises without any promise of the network, other
than that source ids are right; whether they are is the pool's business
(`Pool.Routing`, `Pool.Speakers`). No message is made up by the host, or moved
from one client to another, or from one index to another; and what the host's
own actor id says was queued by its application.

## Plan

A run carries the list of its actions, so that "has come in" and "was queued"
are statements about the run and not about the state. `CameIn` says of a slot,
an index and some data that one of the packets so far, between the ids of the
slot, carried a message with them. Slots keep their ids once they are bound
(`slotIdsKept_act`), so what came in for a slot stays so (`CameIn.mono`). The
merge copies a message with its data, under the actor id of its slot, so the
entries of the mutual queue inherit it.

## Results

* `mem_messagesOf` — what can be read from an unpacked chunk was in the
  packet.
* `HeldSlot`, `heldSlots_input` — what a slot holds came in.
* `Attributed`, `Provenance`, `Provenance.act` — and what the mutual queue
  holds came in or was queued by the host's application: the invariant, and
  its step lemma.
* `provenance_of_reaches` — the run lemma.
-/

namespace PeerProtocol

open Lib

-- ---------------------------------------------------------------------------
-- Messages in packets
-- ---------------------------------------------------------------------------

/-- An unpacked chunk is a message of the packet, or is empty where its bytes could
not be allocated. -/
theorem mem_messagesOf {packet : PeerPacket} {cs : List Chunk} {al al' : Allocator} {s : Status}
    (h : unpackPacket packet [] al = .ok (s, cs, al')) {c : Chunk} (hc : c ∈ cs) (hNe : c ≠ []) :
    c ∈ messagesOf packet := by
  obtain ⟨s1, cs1, al1, hUnpack, hLeft⟩ := unpackPacket_outcomes packet [] al
  rw [h, List.nil_append, Except.ok.injEq, Prod.mk.injEq, Prod.mk.injEq] at hUnpack
  obtain ⟨_, rfl, _⟩ := hUnpack
  cases hAfter : outcomesAfter (messagesOf packet).length al.outcomes with
  | some rest => exact (hLeft.filled rest hAfter).1.subset hc
  | none =>
    obtain ⟨unpacked, hPrefix, rfl⟩ := hLeft.unfilled hAfter
    rcases List.mem_append.mp hc with hBefore | hLast
    · exact hPrefix.subset hBefore
    · exact absurd (List.mem_singleton.mp hLast) hNe

/-- An empty chunk has no header. -/
theorem ne_nil_of_readHeader {c : Chunk} {header : MessageHeader} (h : readHeader c = .ok header) :
    c ≠ [] := by
  rintro rfl
  cases h

/-- The chunk is an application message for index `i`, under the actor id and
without a time. -/
def IsMessage (c : Chunk) (i : Nat) (actor : Int) (data : List UInt8) : Prop :=
  ∃ header, readHeader c = .ok header ∧ header.mode ≠ peerMessageModeService ∧ header.index = i ∧
    header.time = 0 ∧ (header.actor : Int) = actor ∧
    chunkData c peerNMessageData header.dataSize = .ok data

/-- A packet from the remote id of the slot to its local id carried the message:
whoever sent it did so under the id that the slot is bound to. -/
def CameIn (packets : List PeerPacket) (slot : PeerSlot) (i : Nat) (actor : Int)
    (data : List UInt8) : Prop :=
  ∃ p ∈ packets, p.sourceId = slot.remoteEnd.id ∧ p.destinationId = slot.localEnd.id ∧
    ∃ c ∈ messagesOf p, IsMessage c i actor data

-- ---------------------------------------------------------------------------
-- Slots
-- ---------------------------------------------------------------------------

/-- The slot keeps its own id, and the remote one from when it has one. -/
structure IdsKept (slot slot' : PeerSlot) : Prop where
  localId : slot'.localEnd.id = slot.localEnd.id
  remoteId : slot.remoteEnd.id ≠ peerUndefined → slot'.remoteEnd.id = slot.remoteEnd.id

/-- Every slot is still there, and keeps its ids. -/
def SlotIdsKept (host host' : Peer) : Prop :=
  ∀ (j : Nat) (slot : PeerSlot), host.slots[j]? = some slot →
    ∃ slot', host'.slots[j]? = some slot' ∧ IdsKept slot slot'

theorem slotIdsKept_refl (host : Peer) : SlotIdsKept host host :=
  fun _ slot hSlot => ⟨slot, hSlot, rfl, fun _ => rfl⟩

/-- **The slots of a host keep their ids**, whatever its allocator does: a slot that
is bound stays bound to the same remote id, and its local id is never written. New
slots come behind those there are. -/
theorem slotIdsKept_act {host host' : Peer} {a : PeerAction} {s : Status} {ps : List PeerPacket}
    (hMode : host.mode = .host) (hMay : a.IsHostStep) (hAct : host.act a = .ok (s, ps, host')) :
    SlotIdsKept host host' := by
  have hCase := Peer.act_cases hAct
  cases a with
  | openSlots ids =>
    obtain ⟨_, rfl⟩ := hCase
    obtain ⟨opened, al, hOpen⟩ := peerOpen_opens host ids
    rw [hOpen]
    intro j slot hSlot
    refine ⟨slot, ?_, rfl, fun _ => rfl⟩
    exact (List.getElem?_append_left (List.getElem?_eq_some_iff.mp hSlot).1).trans hSlot
  | queue messageData =>
    obtain ⟨_, rfl⟩ := hCase
    obtain ⟨data, hQueued⟩ := peerQueue_queued host messageData
    generalize (peerQueue host messageData).2 = host' at hQueued
    cases hQueued with
    | refused => exact slotIdsKept_refl host
    | host => exact slotIdsKept_refl host
    | client hClient =>
      rw [hMode] at hClient
      cases hClient
  | input packets =>
    intro j slot hSlot
    obtain ⟨slot', hSlot'⟩ := exists_getElem?_of_length_eq (peerInput_host_queue hMode hCase.2).2.2.symm
      hSlot
    refine ⟨slot', hSlot', ?_⟩
    refine slots_input (P := fun j slot' => ∀ slot, host.slots[j]? = some slot → IdsKept slot slot')
      ?_ hMode ?_ ?_ hCase.2 j slot' hSlot' slot hSlot
    · intro k before hBefore start hStart
      rw [hBefore, Option.some.injEq] at hStart
      exact hStart ▸ ⟨rfl, fun _ => rfl⟩
    · intro k before packet q _ _ hKept start hStart
      exact ⟨(hKept start hStart).localId, (hKept start hStart).remoteId⟩
    · intro k before packet _ _ hFree hKept start hStart
      refine ⟨(hKept start hStart).localId, fun hBound => ?_⟩
      -- a slot that is assigned was not bound before
      simp only [PeerSlot.isFree, Bool.and_eq_true, beq_iff_eq] at hFree
      exact absurd (((hKept start hStart).remoteId hBound).symm.trans hFree.1) hBound
  | tick e =>
    intro j slot hSlot
    obtain ⟨slot', hSlot', hTicked⟩ := getElem?_of_forall₂ (peerTick_frame hCase).slots hSlot
    exact ⟨slot', hSlot', by rw [hTicked.localEnd], fun _ => by rw [hTicked.remoteEnd]⟩
  | setAddress i size data =>
    obtain ⟨_, rfl⟩ := hCase
    intro j slot hSlot
    refine ⟨_, (List.getElem?_modify ..).trans (by rw [hSlot]; rfl), ?_⟩
    dsimp only
    split <;> exact ⟨rfl, fun _ => rfl⟩
  | connect serverId => cases hMay
  | resolve i id => cases hMay

/-- A slot that holds only what came in for it, at its position, which is its actor
id once it is bound. The listening slot is never bound. -/
structure HeldSlot (packets : List PeerPacket) (j : Nat) (slot : PeerSlot) : Prop
    extends PlacedSlot j slot where
  above : slot.remoteEnd.id ≠ peerUndefined → 1 ≤ j
  entry : ∀ (i : Nat) (m : PeerMessage), slot.queue[i]? = some m → m.isReady = true →
    CameIn packets slot i j m.data

/-- More packets have come, and the slot has the same ids. -/
theorem CameIn.mono {packets packets' : List PeerPacket} {slot slot' : PeerSlot} {i : Nat}
    {actor : Int} {data : List UInt8} (h : CameIn packets slot i actor data)
    (hPackets : packets ⊆ packets') (hLocal : slot'.localEnd.id = slot.localEnd.id)
    (hRemote : slot'.remoteEnd.id = slot.remoteEnd.id) : CameIn packets' slot' i actor data := by
  obtain ⟨p, hp, hSource, hDestination, hMessage⟩ := h
  exact ⟨p, hPackets hp, hSource.trans hRemote.symm, hDestination.trans hLocal.symm, hMessage⟩

/-- Neither the state, nor the cursors, nor the address matter; and a longer history
only makes it easier to have come in by one of its packets. -/
theorem HeldSlot.mono {packets packets' : List PeerPacket} {j : Nat} {slot slot' : PeerSlot}
    (h : HeldSlot packets j slot) (hPackets : packets ⊆ packets')
    (hLocal : slot'.localEnd.id = slot.localEnd.id)
    (hRemote : slot'.remoteEnd.id = slot.remoteEnd.id) (hQueue : slot'.queue = slot.queue)
    (hActor : slot'.actor = slot.actor) : HeldSlot packets' j slot' where
  unbound := by
    rw [hRemote, hQueue]
    exact h.unbound
  bound := by
    rw [hRemote, hActor]
    exact h.bound
  above := by
    rw [hRemote]
    exact h.above
  entry := by
    rw [hQueue]
    exact fun i m hm hReady => (h.entry i m hm hReady).mono hPackets hLocal hRemote

theorem heldSlot_openSlot (packets : List PeerPacket) (j i : Nat) (mode : PeerMode) (id : Int) :
    HeldSlot packets j (openSlot mode i id) where
  unbound _ := rfl
  bound h := absurd rfl h
  above h := absurd rfl h
  entry := by simp [openSlot]

/-- **What a slot stores** came in: all tests of the code on the way are used, the
two ids of the packet, the time, the actor id and the mode of the message. -/
theorem HeldSlot.store {packets : List PeerPacket} {j : Nat} {slot : PeerSlot} {packet : PeerPacket}
    {c : Chunk} (h : HeldSlot packets j slot) (hPacket : packet ∈ packets)
    (hSource : packet.sourceId ≠ peerUndefined) (hMatch : slot.matchesPacket packet = true)
    (hc : c ∈ messagesOf packet) {header : MessageHeader} (hHeader : readHeader c = .ok header)
    (hTime : header.time = 0) (hActor : (header.actor : Int) = slot.actor)
    (hApplication : header.mode ≠ peerMessageModeService) {data : List UInt8}
    (hData : chunkData c peerNMessageData header.dataSize = .ok data) {q : PeerQueue}
    {al al' : Allocator} {s : Status}
    (hInsert : queueInsert slot.queue header.index 0 slot.actor data al = .ok (s, q, al')) :
    HeldSlot packets j { slot with queue := q } := by
  have hBound := bound_of_matchesPacket hSource hMatch
  refine ⟨⟨fun hNone => absurd hNone hBound, h.bound⟩, h.above, fun i m hm hReady => ?_⟩
  rcases ready_of_queueInsert hInsert hm hReady with hOld | ⟨hIndex, _, hSame⟩
  · exact h.entry i m hOld hReady
  · simp only [PeerSlot.matchesPacket, Bool.and_eq_true, beq_iff_eq] at hMatch
    exact ⟨packet, hPacket, hMatch.2.symm, hMatch.1.symm, c, hc, header, hHeader, hApplication, hIndex,
      hTime, hActor.trans (h.bound hBound), by rw [hSame]; exact hData⟩

/-- **An input** of packets from sources with an id, whatever is in them and
whatever the allocator does: what a slot holds ready after it, it held before, or
one of these packets carried it from the slot's remote id. -/
theorem heldSlots_input {host host' : Peer} {before packets : List PeerPacket} {s : Status}
    (hMode : host.mode = .host)
    (h : ∀ j slot, host.slots[j]? = some slot → HeldSlot before j slot)
    (hSources : ∀ p ∈ packets, p.sourceId ≠ peerUndefined)
    (hInput : peerInput host packets = .ok (s, host')) :
    ∀ j slot, host'.slots[j]? = some slot → HeldSlot (before ++ packets) j slot := by
  have hAll : host'.mode = .host ∧
      ∀ j slot, host'.slots[j]? = some slot → HeldSlot (before ++ packets) j slot := by
    refine peerInput_invariant (I := fun p => p.mode = .host ∧
      ∀ j slot, p.slots[j]? = some slot → HeldSlot (before ++ packets) j slot) ?_ ?_ ?_ hInput
      ⟨hMode, fun j slot hSlot =>
        (h j slot hSlot).mono (List.subset_append_left _ _) rfl rfl rfl rfl⟩
    · intro p packet s cs al _ hp _
      exact hp
    · rintro start p p' packet j s cs al c hPacket _ hCs hMem ⟨hHost, hp⟩ ⟨slot, hSlot, hMatch⟩ hStep
      cases hStep.onHost hHost with
      | skip => exact ⟨hHost, hp⟩
      | @store same header data s1 q al1 hSame hHeader hTime hActor hApplication hData hInsert =>
        rw [hSlot, Option.some.injEq] at hSame
        subst hSame
        refine ⟨hHost, slots_set hp ((hp j slot hSlot).store (List.mem_append_right _ hPacket)
          (hSources packet hPacket) hMatch ?_ hHeader hTime hActor hApplication hData hInsert)⟩
        exact mem_messagesOf hCs hMem (ne_nil_of_readHeader hHeader)
    · rintro p packet hPacket ⟨hHost, hp⟩ _ _
      rcases assignSlot_cases p packet with hSame | ⟨j, _, slot, _, _, _, hj, _, hSlot, hFree, hSet⟩
      · rw [hSame]
        exact ⟨hHost, hp⟩
      · rw [hSet]
        -- a free slot holds nothing yet
        simp only [PeerSlot.isFree, Bool.and_eq_true, beq_iff_eq] at hFree
        have hNil := (hp j slot hSlot).unbound hFree.1
        refine ⟨hHost, slots_set hp ⟨⟨fun hNone => absurd hNone (hSources packet hPacket), fun _ => rfl⟩,
          fun _ => hj, fun i m hm _ => ?_⟩⟩
        rw [PeerSlot.assign, hNil] at hm
        cases hm
  exact hAll.2

-- ---------------------------------------------------------------------------
-- The mutual queue
-- ---------------------------------------------------------------------------

/-- The packets of the inputs among the actions, in order. -/
def inputsOf (history : List PeerAction) : List PeerPacket :=
  history.flatMap fun
    | .input packets => packets
    | _ => []

/-- The data of the messages that were queued by them, accepted or not. -/
def queuedOf (history : List PeerAction) : List (List UInt8) :=
  history.filterMap fun
    | .queue messageData => messageData
    | _ => none

theorem inputsOf_append (history : List PeerAction) (a : PeerAction) :
    inputsOf (history ++ [a]) = inputsOf history ++ inputsOf [a] :=
  List.flatMap_append

theorem queuedOf_append (history : List PeerAction) (a : PeerAction) :
    queuedOf (history ++ [a]) = queuedOf history ++ queuedOf [a] :=
  List.filterMap_append

/-- An entry is the host's, or came in for the slot of its actor id. -/
def Attributed (host : Peer) (history : List PeerAction) (m : PeerMessage) : Prop :=
  (m.actor = 0 ∧ m.data ∈ queuedOf history) ∨
    ∃ (j : Nat) (slot : PeerSlot) (i : Nat), 1 ≤ j ∧ m.actor = j ∧ host.slots[j]? = some slot ∧
      slot.remoteEnd.id ≠ peerUndefined ∧ CameIn (inputsOf history) slot i j m.data

/-- The slots have kept their ids, and the entry its actor id and data. -/
theorem Attributed.kept {host host' : Peer} {history : List PeerAction} {m m' : PeerMessage}
    (h : Attributed host history m) (hKept : SlotIdsKept host host') (hActor : m'.actor = m.actor)
    (hData : m'.data = m.data) : Attributed host' history m' := by
  rcases h with ⟨hZero, hQueued⟩ | ⟨j, slot, i, hj, hSlotActor, hSlot, hBound, hCameIn⟩
  · exact Or.inl ⟨hActor.trans hZero, by rwa [hData]⟩
  · obtain ⟨slot', hSlot', hIds⟩ := hKept j slot hSlot
    have hRemote := hIds.remoteId hBound
    refine Or.inr ⟨j, slot', i, hj, hActor.trans hSlotActor, hSlot', hRemote ▸ hBound, ?_⟩
    rw [hData]
    exact hCameIn.mono (List.Subset.refl _) hIds.localId hRemote

/-- The same after one more action. -/
theorem Attributed.mono {host host' : Peer} {history : List PeerAction} {m m' : PeerMessage}
    (h : Attributed host history m) (hKept : SlotIdsKept host host') (a : PeerAction)
    (hActor : m'.actor = m.actor) (hData : m'.data = m.data) :
    Attributed host' (history ++ [a]) m' := by
  rcases h.kept hKept hActor hData with ⟨hZero, hQueued⟩ | ⟨j, slot, i, hj, hSlotActor, hSlot, hBound,
    hCameIn⟩
  · refine Or.inl ⟨hZero, ?_⟩
    rw [queuedOf_append]
    exact List.mem_append_left _ hQueued
  · refine Or.inr ⟨j, slot, i, hj, hSlotActor, hSlot, hBound, ?_⟩
    rw [inputsOf_append]
    exact hCameIn.mono (List.subset_append_left _ _) rfl rfl

/-- Stamping leaves the actor id and the data. -/
theorem mem_stampQueue {n : Nat} {time : Int} {q : PeerQueue} {m' : PeerMessage}
    (h : m' ∈ stampQueue n time q) : ∃ m ∈ q, m'.actor = m.actor ∧ m'.data = m.data := by
  rcases List.mem_append.mp h with hSent | hNew
  · exact ⟨m', List.mem_of_mem_take hSent, rfl, rfl⟩
  · obtain ⟨m, hm, rfl⟩ := List.mem_map.mp hNew
    exact ⟨m, List.mem_of_mem_drop hm, rfl, rfl⟩

/-- What the merge appends for a slot that holds only what came in: each entry
appended is the payload of a ready message of the slot, under the slot's own actor
id. -/
theorem attributed_of_slotAdded {host host' : Peer} {history : List PeerAction} {j : Nat}
    {slot : PeerSlot} {added : PeerQueue} (hSlot : host.slots[j]? = some slot)
    (hHeld : HeldSlot (inputsOf history) j slot) (hAdded : SlotAdded slot added)
    (hKept : SlotIdsKept host host') (a : PeerAction) :
    ∀ m ∈ added, Attributed host' (history ++ [a]) m := by
  intro m hm
  obtain ⟨stored, hStored, hData⟩ := List.mem_map.mp (hAdded.data.subset (List.mem_map_of_mem hm))
  obtain ⟨hMem, hReady⟩ := mem_pending hStored
  -- A slot that nobody is bound to holds nothing that could be merged.
  have hBound : slot.remoteEnd.id ≠ peerUndefined := by
    intro hNone
    rw [hHeld.unbound hNone] at hMem
    cases hMem
  obtain ⟨i, hi⟩ := List.mem_iff_getElem?.mp hMem
  have hOld : Attributed host history m := by
    refine Or.inr ⟨j, slot, i, hHeld.above hBound, (hAdded.actor m hm).trans (hHeld.bound hBound), hSlot,
      hBound, ?_⟩
    rw [← hData]
    exact hHeld.entry i stored hi hReady
  exact hOld.mono hKept a rfl rfl

-- ---------------------------------------------------------------------------
-- The invariant
-- ---------------------------------------------------------------------------

/-- A host of which everything it holds is accounted for by the actions so far: its
slots by the packets of inputs, its mutual queue by the slots and by what was
queued. -/
structure Provenance (host : Peer) (history : List PeerAction) : Prop where
  mode : host.mode = .host
  actor : host.actor = 0
  slot : ∀ j slot, host.slots[j]? = some slot → HeldSlot (inputsOf history) j slot
  entry : ∀ m ∈ host.queue, Attributed host history m

theorem provenance_peerInit (alloc : Allocator) (rng : Mt64) :
    Provenance (peerInit .host alloc rng) [] where
  mode := rfl
  actor := rfl
  slot := by simp [peerInit]
  entry := by simp [peerInit]

/-- An action that neither queues nor merges leaves the entries attributed. -/
theorem Provenance.entry_of_queue_eq {host host' : Peer} {history : List PeerAction}
    (h : Provenance host history) (hKept : SlotIdsKept host host') (a : PeerAction)
    (hQueue : host'.queue = host.queue) : ∀ m ∈ host'.queue, Attributed host' (history ++ [a]) m := by
  rw [hQueue]
  exact fun m hm => (h.entry m hm).mono hKept a rfl rfl

/-- The host's application queues a message, or the allocator refuses it. The entry
that is appended, if there is one, is attributed to the call itself, and those
before it to what they were attributed to. -/
theorem Provenance.entry_queue {host : Peer} {history : List PeerAction} (h : Provenance host history)
    (messageData : Option (List UInt8)) (hKept : SlotIdsKept host (peerQueue host messageData).2) :
    ∀ m ∈ (peerQueue host messageData).2.queue,
      Attributed (peerQueue host messageData).2 (history ++ [.queue messageData]) m := by
  cases messageData with
  | none => exact h.entry_of_queue_eq hKept _ rfl
  | some data =>
    have hAppend : ∀ m ∈ (queueAppend host.queue 0 host.actor data host.alloc).2.1,
        m ∈ host.queue ∨ (m.actor = host.actor ∧ m.data = data) := by
      unfold queueAppend
      split
      -- A refused request leaves the queue as it was, at either of the two requests.
      · exact fun m hm => Or.inl hm
      split
      · exact fun m hm => Or.inl hm
      · intro m hm
        rcases List.mem_append.mp hm with hOld | hNew
        · exact Or.inl hOld
        · rw [List.mem_singleton.mp hNew]
          exact Or.inr ⟨rfl, rfl⟩
    intro m hm
    have hQueue : (peerQueue host (some data)).2.queue =
        (queueAppend host.queue 0 host.actor data host.alloc).2.1 := by
      simp only [peerQueue, h.mode]
    rw [hQueue] at hm
    rcases hAppend m hm with hOld | ⟨hActor, rfl⟩
    · exact (h.entry m hOld).mono hKept _ rfl rfl
    -- The entry added is the host's own, and the call that adds it is in the history.
    · refine Or.inl ⟨hActor.trans h.actor, ?_⟩
      rw [queuedOf_append]
      exact List.mem_append_right _ (List.mem_singleton.mpr rfl)

/-- **A tick** merges what the slots hold, as far as the allocator lets it. Stamping
changes the time of an entry and neither its actor id nor its data, so its
attribution stays. -/
theorem Provenance.entry_tick {host host' : Peer} {history : List PeerAction}
    (h : Provenance host history) {e : Int} {s : Status} {ps : List PeerPacket}
    (hTick : peerTick host e = .ok (s, ps, host')) (hKept : SlotIdsKept host host') :
    ∀ m ∈ host'.queue, Attributed host' (history ++ [.tick e]) m := by
  by_cases hValid : ValidElapsed host e
  swap
  · exact h.entry_of_queue_eq hKept _ (by rw [(eq_of_peerTick_invalid hValid hTick).2.2])
  obtain ⟨parts, hParts, _, hMerged⟩ := hostMerge_added host e
  have hTo := hMerged.of_mergesTo h.mode hValid (Or.inr ⟨s, ps, hTick⟩)
  intro m' hm'
  rw [hTo.queue] at hm'
  -- The entry was there, and is stamped or kept; or it is in the part of one slot.
  rcases List.mem_append.mp hm' with hOld | hNew
  · obtain ⟨m, hm, hActor, hData⟩ := mem_stampQueue hOld
    exact (h.entry m hm).mono hKept _ hActor hData
  · obtain ⟨added, hAdded, hIn⟩ := List.mem_flatten.mp hNew
    obtain ⟨i, hi⟩ := List.mem_iff_getElem?.mp hAdded
    obtain ⟨slot, hSlot, hSlotAdded⟩ := getElem?_of_forall₂_right hParts hi
    rw [List.getElem?_tail] at hSlot
    exact attributed_of_slotAdded hSlot (h.slot (i + 1) slot hSlot) hSlotAdded hKept _ m' hIn

/-- **Step lemma**, whatever the allocator does and whatever the packets hold. What
is refused is missing afterwards, and nothing is there in its place. -/
theorem Provenance.act {host host' : Peer} {history : List PeerAction} (h : Provenance host history)
    {a : PeerAction} {s : Status} {ps : List PeerPacket} (hMay : a.IsHostStep)
    (hAct : host.act a = .ok (s, ps, host')) : Provenance host' (history ++ [a]) := by
  have hKept := slotIdsKept_act h.mode hMay hAct
  have hMode : host'.mode = .host :=
    (Peer.mode_of_step (Peer.step_eq_ok.mpr ⟨s, ps, hAct⟩)).trans h.mode
  have hMore : inputsOf history ⊆ inputsOf (history ++ [a]) := by
    rw [inputsOf_append]
    exact List.subset_append_left _ _
  -- the slots as they are, with more packets
  have hSlots : ∀ j slot, host.slots[j]? = some slot → HeldSlot (inputsOf (history ++ [a])) j slot :=
    fun j slot hSlot => (h.slot j slot hSlot).mono hMore rfl rfl rfl rfl
  have hCase := Peer.act_cases hAct
  cases a with
  | openSlots ids =>
    obtain ⟨_, rfl⟩ := hCase
    obtain ⟨opened, al, hOpen⟩ := peerOpen_opens host ids
    rw [hOpen] at hKept hMode ⊢
    exact ⟨hMode, h.actor, slots_open hSlots fun j i id _ _ => heldSlot_openSlot _ j i _ id,
      h.entry_of_queue_eq hKept _ rfl⟩
  | queue messageData =>
    obtain ⟨_, rfl⟩ := hCase
    have hEntry := h.entry_queue messageData hKept
    obtain ⟨data, hQueued⟩ := peerQueue_queued host messageData
    generalize (peerQueue host messageData).2 = host' at hQueued hMode hEntry
    cases hQueued with
    | refused => exact ⟨hMode, h.actor, hSlots, hEntry⟩
    | host => exact ⟨hMode, h.actor, hSlots, hEntry⟩
    | client hClient =>
      rw [h.mode] at hClient
      cases hClient
  | input packets =>
    refine ⟨hMode, (actor_of_input h.mode hCase.2).trans h.actor, ?_,
      h.entry_of_queue_eq hKept _ (peerInput_host_queue h.mode hCase.2).1⟩
    rw [inputsOf_append, show inputsOf [.input packets] = packets from List.append_nil _]
    exact heldSlots_input h.mode h.slot hMay hCase.2
  | tick e =>
    refine ⟨hMode, (actor_of_tick h.mode hCase).trans h.actor, fun j slot' hSlot' => ?_,
      h.entry_tick hCase hKept⟩
    obtain ⟨slot, hSlot, hTicked⟩ := getElem?_of_forall₂_right (peerTick_frame hCase).slots hSlot'
    exact (hSlots j slot hSlot).mono (List.Subset.refl _) (by rw [hTicked.localEnd])
      (by rw [hTicked.remoteEnd]) hTicked.queue hTicked.actor
  | setAddress j size data =>
    obtain ⟨_, rfl⟩ := hCase
    refine ⟨hMode, h.actor, ?_, h.entry_of_queue_eq hKept _ rfl⟩
    exact slots_modify hSlots j fun _ _ hSlot => hSlot.mono (List.Subset.refl _) rfl rfl rfl rfl
  | connect serverId => cases hMay
  | resolve j id => cases hMay

-- ---------------------------------------------------------------------------
-- Runs
-- ---------------------------------------------------------------------------

/-- One action, and the actions so far. -/
def Peer.historyStep (r : Peer × List PeerAction) (a : PeerAction) :
    Except Fault (Peer × List PeerAction) := do
  let peer ← r.1.step a
  return (peer, r.2 ++ [a])

theorem historyStep_eq_ok {r r' : Peer × List PeerAction} {a : PeerAction} :
    Peer.historyStep r a = .ok r' ↔ r.1.step a = .ok r'.1 ∧ r'.2 = r.2 ++ [a] := by
  unfold Peer.historyStep
  rw [bind_eq_ok]
  constructor
  · rintro ⟨peer, hStep, hEq⟩
    rw [pure_eq_ok, Except.ok.injEq] at hEq
    subst hEq
    exact ⟨hStep, rfl⟩
  · rintro ⟨hStep, hHistory⟩
    exact ⟨r'.1, hStep, by rw [pure_eq_ok, ← hHistory]⟩

/-- **Nothing comes from nowhere.** A host that is given any bytes from sources
with an id, and whose allocator does anything, holds in a slot only what packets
from the client of the slot carried for it under its actor id; and in the mutual
queue only that, under that actor id, and under its own what its application
has queued. -/
theorem provenance_of_reaches {alloc : Allocator} {rng : Mt64} {host : Peer}
    {history : List PeerAction}
    (hReach : Reaches Peer.historyStep (fun _ a _ => a.IsHostStep) (peerInit .host alloc rng, [])
      (host, history)) :
    (∀ (j : Nat) (slot : PeerSlot), host.slots[j]? = some slot → ∀ (i : Nat) (m : PeerMessage),
      slot.queue[i]? = some m → m.isReady = true → CameIn (inputsOf history) slot i j m.data) ∧
    ∀ m ∈ host.queue, Attributed host history m := by
  have h : Provenance host history := by
    refine hReach.invariant (I := fun r => Provenance r.1 r.2) ?_ (provenance_peerInit alloc rng)
    rintro ⟨before, earlier⟩ a ⟨after, later⟩ hInv hOk hMay
    obtain ⟨hStep, rfl⟩ := historyStep_eq_ok.mp hOk
    obtain ⟨s, ps, hAct⟩ := Peer.step_eq_ok.mp hStep
    exact hInv.act hMay hAct
  exact ⟨fun j slot hSlot => (h.slot j slot hSlot).entry, h.entry⟩

/-- A host that binds a slot, stores a message of its client, queues one of its
own and merges. -/
theorem provenance_of_reaches_stored : ∃ r : Peer × List PeerAction,
    r.1.queue.map (fun m => (m.actor, m.data)) = [(0, [72]), (1, [9])] ∧
    (∀ (j : Nat) (slot : PeerSlot), r.1.slots[j]? = some slot → ∀ (i : Nat) (m : PeerMessage),
      slot.queue[i]? = some m → m.isReady = true → CameIn (inputsOf r.2) slot i j m.data) ∧
    ∀ m ∈ r.1.queue, Attributed r.1 r.2 m := by
  obtain ⟨r, hReach, hTest⟩ : ∃ r, Reaches Peer.historyStep (fun _ a _ => a.IsHostStep)
      (peerInit .host .reliable ⟨fun _ => 0⟩, []) r ∧
        decide (r.1.queue.map (fun m => (m.actor, m.data)) = [(0, [72]), (1, [9])]) = true :=
    exists_reaches_of_runGuarded (fun _ a _ => decide a.IsHostStep) (fun _ _ _ h => of_decide_eq_true h)
      (storingRun ++ [.queue (some [72]), .tick 0]) _
      (fun r : Peer × List PeerAction =>
        decide (r.1.queue.map (fun m => (m.actor, m.data)) = [(0, [72]), (1, [9])])) (by decide +kernel)
  exact ⟨r, of_decide_eq_true hTest, provenance_of_reaches hReach⟩

end PeerProtocol
