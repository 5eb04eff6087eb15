import PeerProtocol.Peer.Merge
import PeerProtocol.Peer.Order

/-!
# peer — the merge when allocations fail

The merge cursor of a slot moves in the header of a loop, and the message it
moves past is appended in the loop's body, which may fail. The failure is
reported, and the loop goes on: the cursor passes the message all the same,
the mutual queue does not have it, and no later tick looks at it again. The
loop that sends does it the other way, and moves its cursor only when nothing
has failed.

The module says exactly when a tick's merge keeps all messages. The requests
that it makes are counted: one for each message, and another for its data if
it has any (`requestsOf`). If that many are granted, everything is appended;
if one is refused, some message was passed and not appended. That the second
follows needs an argument, because a message could have been appended for a
slot in another's place: two slots with the same actor id can only be told
apart by their positions, and a refused message of one could be made up for by
the other's. In the runs of the statement actor ids are positions wherever
something is pending, or at least never above them, and then the lengths
decide.

## Plan

* `mergeMessages_added`, `mergeSlots_added`, `hostMerge_added` — what the
  merge appends, for any outcomes, from the inner loop outwards; `Added`,
  `SlotAdded`, `MergedTo`.
* `MergedTo.of_mergesTo` — sending leaves what the merge has done.
* `ActorsBelow`, `PlacedInv`, `PendingInPlace` — actor ids and positions, over
  runs.
* `inPlace_of_data` — if every slot's data is there under its position, all
  was appended.

## Result

* `KeepsMessages`, `MergeKeeps` — no message is passed that is not appended.
* `mergeKeeps_iff` — exactly when that is so.
-/

namespace PeerProtocol

open Lib

-- ---------------------------------------------------------------------------
-- What queue_append asks for
-- ---------------------------------------------------------------------------

/-- The next `n` requests are granted. -/
def Allocator.Grants (al : Allocator) (n : Nat) : Prop := ∀ i, i < n → al.outcomes i = true

/-- The requests of `queue_append` for messages with this data: a place in the
queue for each, and room for its data, if it has any. -/
def requestsOf (messages : List PeerMessage) : Nat :=
  (messages.map fun m => if m.data = [] then 1 else 2).sum

/-- The requests for some messages, and for more behind them, on what the first have
left. -/
theorem Allocator.grants_add {al al' : Allocator} {m : Nat}
    (hRest : ∀ i, al'.outcomes i = al.outcomes (m + i)) (n : Nat) :
    al.Grants (m + n) ↔ al.Grants m ∧ al'.Grants n := by
  constructor
  · intro h
    refine ⟨fun i hi => h i (by omega), fun i hi => ?_⟩
    rw [hRest]
    exact h (m + i) (by omega)
  · rintro ⟨hFirst, hNext⟩ i hi
    by_cases hLt : i < m
    · exact hFirst i hLt
    · have hLast := hNext (i - m) (by omega)
      rwa [hRest, Nat.add_sub_cancel' (by omega)] at hLast

/-- The requests for a list are those for its messages. -/
theorem requestsOf_cons (m : PeerMessage) (messages : List PeerMessage) :
    requestsOf (m :: messages) = requestsOf [m] + requestsOf messages := by
  simp [requestsOf]

/-- A message without data needs its entry only. -/
theorem requestsOf_nil_data {m : PeerMessage} (h : m.data = []) : requestsOf [m] = 1 := by
  simp [requestsOf, h]

/-- Any other needs its entry and its data. -/
theorem requestsOf_data {m : PeerMessage} (h : m.data ≠ []) : requestsOf [m] = 2 := by
  simp [requestsOf, h]

/-- Everything is granted, and the message is appended: one request is for its place
in the queue and, if it has data, another for the bytes. -/
theorem queueAppend_granted {al : Allocator} {m : PeerMessage} (h : al.Grants (requestsOf [m]))
    (q : PeerQueue) (time actor : Int) :
    ∃ al', queueAppend q time actor m.data al =
        (kitOk, q ++ [{ isReady := true, time, actor, data := m.data }], al') ∧
      ∀ i, al'.outcomes i = al.outcomes (requestsOf [m] + i) := by
  by_cases hData : m.data = []
  · rw [requestsOf_nil_data hData] at h ⊢
    -- Without data one request is made, for the place.
    have hPlace : al.request = (true, al.request.2) := Prod.ext (h 0 Nat.one_pos) rfl
    refine ⟨al.request.2, ?_, fun i => by rw [Nat.add_comm]; rfl⟩
    rw [queueAppend, hPlace]
    simp [hData, Allocator.daInit]
  · rw [requestsOf_data hData] at h ⊢
    have hPlace : al.request = (true, al.request.2) := Prod.ext (h 0 Nat.two_pos) rfl
    -- With data a second one, for the bytes.
    have hRoom : al.request.2.request = (true, al.request.2.request.2) :=
      Prod.ext (h 1 Nat.one_lt_two) rfl
    refine ⟨al.request.2.request.2, ?_, fun i => by rw [Nat.add_comm 2]; rfl⟩
    rw [queueAppend, hPlace]
    dsimp only
    rw [Allocator.daInit, if_neg (by simpa using hData), hRoom]

/-- Something is refused, and the queue is as it was, also if the entry was granted. -/
theorem queueAppend_refused {al : Allocator} {m : PeerMessage} (h : ¬ al.Grants (requestsOf [m]))
    (q : PeerQueue) (time actor : Int) :
    ∃ al', queueAppend q time actor m.data al = (peerErrorBadAlloc, q, al') := by
  cases hFirst : al.outcomes 0 with
  | false =>
    have hPlace : al.request = (false, al.request.2) := Prod.ext hFirst rfl
    exact ⟨al.request.2, by rw [queueAppend, hPlace]⟩
  | true =>
    have hPlace : al.request = (true, al.request.2) := Prod.ext hFirst rfl
    -- the place is granted, so it is the room for the data that is refused
    have hData : m.data ≠ [] := by
      intro hData
      rw [requestsOf_nil_data hData] at h
      exact h fun i hi => by rwa [show i = 0 by omega]
    have hSecond : al.outcomes 1 = false := by
      rw [← Bool.not_eq_true]
      intro hSecond
      rw [requestsOf_data hData] at h
      refine h fun i hi => ?_
      rcases (by omega : i = 0 ∨ i = 1) with rfl | rfl
      · exact hFirst
      · exact hSecond
    have hRoom : al.request.2.request = (false, al.request.2.request.2) := Prod.ext hSecond rfl
    refine ⟨al.request.2.request.2, ?_⟩
    rw [queueAppend, hPlace]
    dsimp only
    rw [Allocator.daInit, if_neg (by simpa using hData), hRoom]

-- ---------------------------------------------------------------------------
-- What the merge appends
-- ---------------------------------------------------------------------------

/-- A part of what the merge appends: for messages that were taken under an
actor id, in order, all of them exactly if everything asked for is granted. -/
structure Added (actor : Int) (taken : List PeerMessage) (al : Allocator) (added : PeerQueue)
    (al' : Allocator) : Prop where
  actor : ∀ m ∈ added, m.actor = actor
  data : (added.map (·.data)).Sublist (taken.map (·.data))
  all : added.length = taken.length ↔ al.Grants (requestsOf taken)
  rest : al.Grants (requestsOf taken) → ∀ i, al'.outcomes i = al.outcomes (requestsOf taken + i)

theorem added_nil (actor : Int) (al : Allocator) : Added actor [] al [] al where
  actor := by simp
  data := List.Sublist.refl _
  all := ⟨fun _ i hi => absurd hi (Nat.not_lt_zero i), fun _ => rfl⟩
  rest := fun _ i => by rw [requestsOf, List.map_nil, List.sum_nil, Nat.zero_add]

theorem Added.length_le {actor : Int} {taken : List PeerMessage} {al al' : Allocator}
    {added : PeerQueue} (h : Added actor taken al added al') : added.length ≤ taken.length := by
  simpa using h.data.length_le

/-- One message more, which is appended. -/
theorem Added.cons {actor : Int} {taken : List PeerMessage} {al al1 al' : Allocator}
    {added : PeerQueue} {m : PeerMessage} (h : Added actor taken al1 added al')
    (hGrants : al.Grants (requestsOf [m]))
    (hRest : ∀ i, al1.outcomes i = al.outcomes (requestsOf [m] + i)) (time : Int) :
    Added actor (m :: taken) al ({ isReady := true, time, actor, data := m.data } :: added) al' where
  actor := List.forall_mem_cons.mpr ⟨rfl, h.actor⟩
  data := h.data.cons_cons m.data
  all := by
    rw [requestsOf_cons, Allocator.grants_add hRest, List.length_cons, List.length_cons,
      Nat.add_right_cancel_iff, h.all]
    exact ⟨fun hAll => ⟨hGrants, hAll⟩, fun hAll => hAll.2⟩
  rest := by
    intro hAll i
    rw [requestsOf_cons] at hAll ⊢
    rw [h.rest ((Allocator.grants_add hRest _).mp hAll).2, hRest, Nat.add_assoc]

/-- One message more, which is not: the cursor passes it all the same. -/
theorem Added.skip {actor : Int} {taken : List PeerMessage} {al al1 al' : Allocator}
    {added : PeerQueue} {m : PeerMessage} (h : Added actor taken al1 added al')
    (hRefused : ¬ al.Grants (requestsOf [m])) : Added actor (m :: taken) al added al' := by
  have hNot : ¬ al.Grants (requestsOf (m :: taken)) := by
    rw [requestsOf_cons]
    exact fun hAll => hRefused fun i hi => hAll i (by omega)
  have hLen := h.length_le
  refine ⟨h.actor, h.data.cons m.data, ⟨fun hAll => ?_, fun hAll => absurd hAll hNot⟩,
    fun hAll => absurd hAll hNot⟩
  rw [List.length_cons] at hAll
  omega

/-- The inner loop, for any outcomes: the cursor passes every message that is
ready, up to the first that is not. -/
theorem mergeMessages_added (time actor : Int) (messages : List PeerMessage) (i : Nat)
    (queue : PeerQueue) (al : Allocator) :
    ∃ s added al', mergeMessages time actor messages i queue al =
        (s, i + (messages.takeWhile (·.isReady)).length, queue ++ added, al') ∧
      Added actor (messages.takeWhile (·.isReady)) al added al' := by
  induction messages generalizing i queue al with
  | nil => exact ⟨kitOk, [], al, by simp [mergeMessages], added_nil actor al⟩
  | cons m messages ih =>
    by_cases hReady : m.isReady = true
    · rw [List.takeWhile_cons_of_pos hReady, mergeMessages, if_pos hReady]
      -- the cursor passes the message in either case
      by_cases hGrants : al.Grants (requestsOf [m])
      · obtain ⟨al1, hAppend, hRest⟩ := queueAppend_granted hGrants queue time actor
        obtain ⟨s, added, al', hMerge, hAdded⟩ := ih (i + 1)
          (queue ++ [{ isReady := true, time, actor, data := m.data }]) al1
        refine ⟨kitOk ||| s, _, al', ?_, hAdded.cons hGrants hRest time⟩
        rw [hAppend]
        dsimp only
        rw [hMerge, List.append_assoc, List.singleton_append, List.length_cons, Nat.add_assoc,
          Nat.add_comm 1]
      · obtain ⟨al1, hAppend⟩ := queueAppend_refused hGrants queue time actor
        obtain ⟨s, added, al', hMerge, hAdded⟩ := ih (i + 1) queue al1
        refine ⟨peerErrorBadAlloc ||| s, added, al', ?_, hAdded.skip hGrants⟩
        rw [hAppend]
        dsimp only
        rw [hMerge, List.length_cons, Nat.add_assoc, Nat.add_comm 1]
    · rw [List.takeWhile_cons_of_neg hReady, mergeMessages, if_neg hReady]
      exact ⟨kitOk, [], al, by simp, added_nil actor al⟩

/-- A slot, and what was appended for it: messages of its actor id, with the data of
some of those pending, in their order. -/
structure SlotAdded (slot : PeerSlot) (added : PeerQueue) : Prop where
  actor : ∀ m ∈ added, m.actor = slot.actor
  data : (added.map (·.data)).Sublist (slot.pending.map (·.data))

/-- What the merge of all slots asks for, if nothing is refused. -/
def mergeRequests (slots : List PeerSlot) : Nat :=
  (slots.map fun slot => requestsOf slot.pending).sum

/-- The loop over the slots, for any outcomes: every slot's cursor passes all
that is pending, and all of it is appended exactly if everything is granted. -/
theorem mergeSlots_added (time : Int) (slots : List PeerSlot) (queue : PeerQueue) (al : Allocator) :
    ∃ s parts al', mergeSlots time slots queue al =
        (s, slots.map (·.merged), queue ++ parts.flatten, al') ∧
      List.Forall₂ SlotAdded slots parts ∧
      (List.Forall₂ (fun slot added => added.length = slot.pending.length) slots parts ↔
        al.Grants (mergeRequests slots)) := by
  induction slots generalizing queue al with
  | nil =>
    refine ⟨kitOk, [], al, by simp [mergeSlots], .nil, fun _ i hi => ?_, fun _ => .nil⟩
    exact absurd hi (Nat.not_lt_zero i)
  | cons slot slots ih =>
    obtain ⟨s, added, al1, hFirst, hAdded⟩ := mergeMessages_added time slot.actor
      (slot.queue.drop slot.inIndex) slot.inIndex queue al
    obtain ⟨s', parts, al', hRest, hParts, hAll⟩ := ih (queue ++ added) al1
    refine ⟨s ||| s', added :: parts, al', ?_, .cons ⟨hAdded.actor, hAdded.data⟩ hParts, ?_⟩
    · rw [mergeSlots, hFirst]
      dsimp only
      rw [hRest, List.flatten_cons, List.append_assoc]
      rfl
    -- all messages are there if the requests of the first slot and of the rest were granted
    · have hSum : mergeRequests (slot :: slots) = requestsOf slot.pending + mergeRequests slots := by
        simp [mergeRequests]
      rw [List.forall₂_cons, hSum]
      constructor
      · rintro ⟨hLen, hLens⟩
        have hGrants := hAdded.all.mp hLen
        exact (Allocator.grants_add (hAdded.rest hGrants) _).mpr ⟨hGrants, hAll.mp hLens⟩
      · intro hBoth
        have hGrants : al.Grants (requestsOf slot.pending) := fun i hi => hBoth i (by omega)
        exact ⟨hAdded.all.mpr hGrants,
          hAll.mpr ((Allocator.grants_add (hAdded.rest hGrants) _).mp hBoth).2⟩

-- ---------------------------------------------------------------------------
-- No message is lost
-- ---------------------------------------------------------------------------

/-- What was appended to the mutual queue under an actor id, whatever slot it is
from. -/
def appendedBy (peer peer' : Peer) (actor : Int) : PeerQueue :=
  (peer'.queue.drop peer.queue.length).filter (·.actor == actor)

/-- Under the position of a slot as actor id, exactly the messages are appended
that its merge cursor has passed, in order; the others are still behind it. -/
structure KeepsMessages (peer peer' : Peer) (j : Nat) (slot slot' : PeerSlot) : Prop where
  queue : slot'.queue = slot.queue
  count : ((appendedBy peer peer' j).length : Int) = slot'.inIndex - slot.inIndex
  data : (appendedBy peer peer' j).map (·.data) =
    ((slot.queue.drop slot.inIndex).take (slot'.inIndex - slot.inIndex)).map (·.data)

/-- This is so for every slot above the listening slot, each with its own actor id:
what a cursor has passed was appended. -/
def MergeKeeps (peer peer' : Peer) : Prop :=
  ∀ (j : Nat) (slot slot' : PeerSlot), 1 ≤ j → peer.slots[j]? = some slot →
    peer'.slots[j]? = some slot' → KeepsMessages peer peer' j slot slot'

/-- A state of the host behind the merge of a tick: the one that the merge
leaves, and the one that the tick leaves, if it ends. -/
def MergesTo (peer : Peer) (e : Int) (peer' : Peer) : Prop :=
  (ValidElapsed peer e ∧ peer' = (hostMerge (peer.tickClock e)).2) ∨
    ∃ s ps, peerTick peer e = .ok (s, ps, peer')

/-- What the merge has done: the entries that were not sent yet are stamped, the
parts are appended, and the cursors have passed what was pending. -/
structure MergedTo (peer : Peer) (time : Int) (parts : List PeerQueue) (peer' : Peer) : Prop where
  queue : peer'.queue = stampQueue peer.queueIndex time peer.queue ++ parts.flatten
  length : peer'.slots.length = peer.slots.length
  slot : ∀ (j : Nat) (slot slot' : PeerSlot), 1 ≤ j → peer.slots[j]? = some slot →
    peer'.slots[j]? = some slot' →
    slot'.queue = slot.queue ∧ slot'.inIndex = slot.inIndex + slot.pending.length

/-- The merge, for any outcomes: a part for each slot, and all of them in full
exactly if the requests were granted. -/
theorem hostMerge_added (peer : Peer) (e : Int) :
    ∃ parts, List.Forall₂ SlotAdded peer.slots.tail parts ∧
      (List.Forall₂ (fun slot added => added.length = slot.pending.length) peer.slots.tail parts ↔
        peer.alloc.Grants (mergeRequests peer.slots.tail)) ∧
      MergedTo peer (peer.timeLocal + e) parts (hostMerge (peer.tickClock e)).2 := by
  obtain ⟨s, parts, al', hMerge, hParts, hAll⟩ := mergeSlots_added (peer.timeLocal + e)
    (peer.slots.tail.map (·.tickClock e))
    (stampQueue peer.queueIndex (peer.timeLocal + e) peer.queue) peer.alloc
  -- the clocks do not matter to the merge
  have hRequests : mergeRequests (peer.slots.tail.map (·.tickClock e)) =
      mergeRequests peer.slots.tail := by
    simp [mergeRequests, Function.comp_def]
  rw [hRequests] at hAll
  rw [List.forall₂_map_left_iff] at hParts hAll
  simp only [tickClock_pending] at hAll
  rw [List.map_tail] at hMerge
  have hSame (slot : PeerSlot) (added : PeerQueue) (h : SlotAdded (slot.tickClock e) added) :
      SlotAdded slot added :=
    ⟨fun m hm => (h.actor m hm).trans (tickClock_actor slot e), tickClock_pending slot e ▸ h.data⟩
  refine ⟨parts, hParts.imp fun slot added h => hSame slot added h, hAll, ?_⟩
  rw [hostMerge]
  dsimp only [Peer.tickClock]
  rw [hMerge]
  dsimp only
  have hLen : ((peer.slots.map (·.tickClock e)).tail.map (·.merged)).length =
      (peer.slots.map (·.tickClock e)).tail.length := List.length_map ..
  refine ⟨rfl, ?_, fun j slot slot' hj hSlot hSlot' => ?_⟩
  -- the listening slot stays in front
  · cases peer.slots with
    | nil => rfl
    | cons first slots => simp
  · rw [getElem?_head_append hLen hj, List.getElem?_map, List.getElem?_tail, List.getElem?_map,
      Nat.sub_add_cancel hj, hSlot] at hSlot'
    obtain rfl := Option.some.inj hSlot'
    simp

/-- Sending leaves the mutual queue, the slots' queues and the merge cursors, so
what the merge has done can be read off the state that the whole tick leaves. -/
theorem MergedTo.of_mergesTo {peer peer' : Peer} {e time : Int} {parts : List PeerQueue}
    (h : MergedTo peer time parts (hostMerge (peer.tickClock e)).2) (hMode : peer.mode = .host)
    (hValid : ValidElapsed peer e) (hTo : MergesTo peer e peer') : MergedTo peer time parts peer' := by
  rcases hTo with ⟨_, rfl⟩ | ⟨s, ps, hTick⟩
  · exact h
  · rw [peerTick_host_eq hValid hMode, hostSend_eq] at hTick
    obtain ⟨⟨out, peer1⟩, hSend, hTick⟩ := bind_eq_ok.mp hTick
    obtain ⟨⟨slots', out1⟩, hSlots, hSend⟩ := bind_eq_ok.mp hSend
    obtain ⟨rfl, rfl⟩ := Prod.mk.inj (Except.ok.inj hSend)
    obtain ⟨_, hPeer⟩ := Prod.mk.inj (Except.ok.inj hTick)
    obtain ⟨_, rfl⟩ := Prod.mk.inj hPeer
    -- Sending writes clocks, states and out cursors.
    have hSent := sendSlots_sent hSlots
    have hLen : slots'.length = (hostMerge (peer.tickClock e)).2.slots.tail.length :=
      hSent.length_eq.symm
    refine ⟨h.queue, ?_, fun j slot slot' hj hSlot hSlot' => ?_⟩
    · rw [← h.length, List.length_append, List.length_take, hLen, List.length_tail]
      omega
    · dsimp only at hSlot'
      rw [getElem?_head_append hLen hj] at hSlot'
      obtain ⟨middle, hMiddle, hSlotSent⟩ := getElem?_of_forall₂_right hSent hSlot'
      rw [List.getElem?_tail, Nat.sub_add_cancel hj] at hMiddle
      obtain ⟨hQueue, hIndex⟩ := h.slot j slot middle hj hSlot hMiddle
      exact ⟨hSlotSent.queue.trans hQueue, hSlotSent.inIndex.trans hIndex⟩

/-- A tick that is refused changes nothing. -/
theorem mergeKeeps_of_invalid {peer peer' : Peer} {e : Int} (hInvalid : ¬ ValidElapsed peer e)
    (hTo : MergesTo peer e peer') : MergeKeeps peer peer' := by
  obtain rfl : peer' = peer := by
    rcases hTo with ⟨hValid, _⟩ | ⟨s, ps, hTick⟩
    · exact absurd hValid hInvalid
    · exact (eq_of_peerTick_invalid hInvalid hTick).2.2
  intro j slot slot' hj hSlot hSlot'
  obtain rfl : slot = slot' := by
    rw [hSlot] at hSlot'
    exact Option.some.inj hSlot'
  have hNone : appendedBy peer' peer' j = [] := by
    rw [appendedBy, List.drop_length, List.filter_nil]
  exact ⟨rfl, by rw [hNone, Int.sub_self]; rfl, by rw [hNone, Nat.sub_self, List.take_zero]⟩

/-- What the messages of a slot have to do with its part of the queue: nothing is
lost exactly if the entries appended under the slot's actor id are the messages that
the cursor has passed. -/
theorem MergedTo.keepsMessages_iff {peer peer' : Peer} {time : Int} {parts : List PeerQueue}
    (h : MergedTo peer time parts peer') {j : Nat} (hj : 1 ≤ j) {slot slot' : PeerSlot}
    (hSlot : peer.slots[j]? = some slot) (hSlot' : peer'.slots[j]? = some slot') :
    KeepsMessages peer peer' j slot slot' ↔
      (parts.flatten.filter (·.actor == (j : Int))).map (·.data) = slot.pending.map (·.data) := by
  obtain ⟨hQueue, hIndex⟩ := h.slot j slot slot' hj hSlot hSlot'
  have hAppended : appendedBy peer peer' j = parts.flatten.filter (·.actor == (j : Int)) := by
    rw [appendedBy, h.queue, ← length_stampQueue peer.queueIndex time peer.queue, List.drop_left]
  -- The cursor has passed what was pending, and nothing else.
  have hTaken : (slot.queue.drop slot.inIndex).take (slot'.inIndex - slot.inIndex) = slot.pending := by
    rw [hIndex, Nat.add_sub_cancel_left]
    exact (List.prefix_iff_eq_take.mp (List.takeWhile_prefix _)).symm
  constructor
  · intro hKeeps
    rw [← hAppended, hKeeps.data, hTaken]
  · intro hData
    refine ⟨hQueue, ?_, ?_⟩
    · have hLen := congrArg List.length hData
      rw [List.length_map, List.length_map] at hLen
      rw [hAppended, hLen, hIndex]
      omega
    · rw [hAppended, hData, hTaken]

-- ---------------------------------------------------------------------------
-- Actor ids and positions
-- What runs say of them, without an allocator that can be relied on.
-- ---------------------------------------------------------------------------

/-- Every slot with pending messages has its position as actor id. -/
def PendingInPlace (peer : Peer) : Prop :=
  ∀ (j : Nat) (slot : PeerSlot), 1 ≤ j → peer.slots[j]? = some slot → slot.pending ≠ [] →
    slot.actor = j

/-- A host none of whose slots has an actor id above its position: `peer_open`
writes the position among the ids of one call, an input the position among all
slots. -/
structure ActorsBelow (peer : Peer) : Prop where
  mode : peer.mode = .host
  slot : ∀ (j : Nat) (slot : PeerSlot), peer.slots[j]? = some slot → slot.actor ≤ j

/-- A new host has no slots. -/
theorem actorsBelow_peerInit (alloc : Allocator) (rng : Mt64) :
    ActorsBelow (peerInit .host alloc rng) where
  mode := rfl
  slot := by simp [peerInit]

/-- New slots get their positions among themselves, which are not above those among
all. -/
theorem ActorsBelow.openSlots {peer : Peer} (h : ActorsBelow peer) (ids : Option (List Int)) :
    ActorsBelow (peerOpen peer ids).2 := by
  obtain ⟨opened, al, hOpen⟩ := peerOpen_opens peer ids
  rw [hOpen]
  refine ⟨h.mode, fun j slot hSlot => ?_⟩
  dsimp only at hSlot
  by_cases hOld : j < peer.slots.length
  · rw [List.getElem?_append_left hOld] at hSlot
    exact h.slot j slot hSlot
  · -- a new slot counts its actor id from the slots of the same call
    rw [List.getElem?_append_right (by omega), List.getElem?_mapIdx] at hSlot
    obtain ⟨id, _, rfl⟩ := Option.map_eq_some_iff.mp hSlot
    simp only [openSlot, h.mode]
    omega

/-- A change of a slot's ends. -/
theorem ActorsBelow.modify {peer : Peer} (h : ActorsBelow peer) (i : Nat) {f : PeerSlot → PeerSlot}
    (hf : ∀ slot, (f slot).actor = slot.actor) :
    ActorsBelow { peer with slots := peer.slots.modify i f } where
  mode := h.mode
  slot := slots_modify h.slot i fun j slot hSlot => by rw [hf]; exact hSlot

/-- **Step lemma**, whatever the allocator does and whoever the packets are from.
`peer_open` gives positions among the ids of one call, which are not above those
among all slots, and binding gives the latter. -/
theorem ActorsBelow.step {peer peer' : Peer} {a : PeerAction} (h : ActorsBelow peer)
    (hStep : peer.step a = .ok peer') : ActorsBelow peer' := by
  have hMode : peer'.mode = .host := (Peer.mode_of_step hStep).trans h.mode
  obtain ⟨s, ps, hAct⟩ := Peer.step_eq_ok.mp hStep
  have hCase := Peer.act_cases hAct
  cases a with
  | openSlots ids =>
    obtain ⟨_, rfl⟩ := hCase
    exact h.openSlots ids
  | connect serverId =>
    obtain ⟨_, rfl⟩ := hCase
    obtain ⟨i, hConnect⟩ := peerConnect_modifies peer serverId
    rw [hConnect]
    exact h.modify _ fun _ => rfl
  | queue messageData =>
    obtain ⟨_, rfl⟩ := hCase
    obtain ⟨data, hQueued⟩ := peerQueue_queued peer messageData
    generalize (peerQueue peer messageData).2 = peer' at hQueued hMode
    cases hQueued with
    | refused => exact h
    | host => exact ⟨h.mode, h.slot⟩
    | client hClient =>
      rw [h.mode] at hClient
      cases hClient
  | input packets =>
    -- a slot that is bound gets its position as actor id
    exact ⟨hMode, slots_input h.slot h.mode (fun _ _ _ _ _ _ hBelow => hBelow)
      (fun j _ _ _ _ _ _ => Int.le_refl j) hCase.2⟩
  | tick e =>
    refine ⟨hMode, fun j slot' hSlot' => ?_⟩
    obtain ⟨slot, hSlot, hTicked⟩ := getElem?_of_forall₂_right (peerTick_frame hCase).slots hSlot'
    rw [hTicked.actor]
    exact h.slot j slot hSlot
  | setAddress j size data =>
    obtain ⟨_, rfl⟩ := hCase
    exact h.modify j fun _ => rfl
  | resolve j id =>
    obtain ⟨_, rfl⟩ := hCase
    exact h.modify j fun _ => rfl

/-- A slot has messages only when it is bound, and then its position as actor id. -/
structure PlacedSlot (j : Nat) (slot : PeerSlot) : Prop where
  unbound : slot.remoteEnd.id = peerUndefined → slot.queue = []
  bound : slot.remoteEnd.id ≠ peerUndefined → slot.actor = j

/-- A host whose slots hold messages only once they have their position as actor id.
Unlike `BoundInv` it says nothing that a refused request could break. -/
structure PlacedInv (peer : Peer) : Prop where
  mode : peer.mode = .host
  slot : ∀ (j : Nat) (slot : PeerSlot), peer.slots[j]? = some slot → PlacedSlot j slot

/-- A new host has no slots. -/
theorem placedInv_peerInit (alloc : Allocator) (rng : Mt64) :
    PlacedInv (peerInit .host alloc rng) where
  mode := rfl
  slot := by simp [peerInit]

/-- **Step lemma** for packets from sources with an id, whatever the allocator does:
a slot is given messages only once it is bound, and binding gives it its position as
actor id. -/
theorem PlacedInv.step {peer peer' : Peer} {a : PeerAction} (h : PlacedInv peer)
    (hMay : a.IsHostStep) (hStep : peer.step a = .ok peer') : PlacedInv peer' := by
  have hMode : peer'.mode = .host := (Peer.mode_of_step hStep).trans h.mode
  refine ⟨hMode, ?_⟩
  obtain ⟨s, ps, hAct⟩ := Peer.step_eq_ok.mp hStep
  have hCase := Peer.act_cases hAct
  cases a with
  | openSlots ids =>
    obtain ⟨_, rfl⟩ := hCase
    obtain ⟨opened, al, hOpen⟩ := peerOpen_opens peer ids
    rw [hOpen]
    exact slots_open h.slot fun _ _ _ _ _ => ⟨fun _ => rfl, fun hBound => absurd rfl hBound⟩
  | queue messageData =>
    obtain ⟨_, rfl⟩ := hCase
    obtain ⟨data, hQueued⟩ := peerQueue_queued peer messageData
    generalize (peerQueue peer messageData).2 = peer' at hQueued hMode
    cases hQueued with
    | refused => exact h.slot
    | host => exact h.slot
    | client hClient =>
      rw [h.mode] at hClient
      cases hClient
  | input packets =>
    -- a matched slot is bound already, and a free one is bound at its position
    refine slots_input h.slot h.mode (fun j slot packet q hPacket hMatch hSlot => ?_)
      (fun j slot packet hPacket _ hFree hSlot => ?_) hCase.2
    · have hBound := bound_of_matchesPacket (hMay packet hPacket) hMatch
      exact ⟨fun hNone => absurd hNone hBound, hSlot.bound⟩
    · exact ⟨fun hNone => absurd hNone (hMay packet hPacket), fun _ => rfl⟩
  | tick e =>
    intro j slot' hSlot'
    obtain ⟨slot, hSlot, hTicked⟩ := getElem?_of_forall₂_right (peerTick_frame hCase).slots hSlot'
    have hOld := h.slot j slot hSlot
    exact ⟨fun hNone => by rw [hTicked.queue, hOld.unbound (hTicked.remoteEnd ▸ hNone)],
      fun hBound => by rw [hTicked.actor, hOld.bound (hTicked.remoteEnd ▸ hBound)]⟩
  | setAddress j size data =>
    obtain ⟨_, rfl⟩ := hCase
    exact slots_modify h.slot j fun _ _ hSlot => ⟨hSlot.unbound, hSlot.bound⟩
  | connect serverId => cases hMay
  | resolve j id => cases hMay

/-- **Run lemma.** What is pending is in place, where packets come from sources
with an id. -/
theorem pendingInPlace_of_reaches {alloc : Allocator} {rng : Mt64} {peer : Peer}
    (hReach : Reaches Peer.step (fun _ a _ => a.IsHostStep) (peerInit .host alloc rng) peer) :
    PendingInPlace peer := by
  have h : PlacedInv peer :=
    hReach.invariant (fun _ _ _ hInv hStep hMay => hInv.step hMay hStep) (placedInv_peerInit alloc rng)
  intro j slot _ hSlot hNe
  refine (h.slot j slot hSlot).bound fun hNone => ?_
  obtain ⟨m, hm⟩ := List.exists_mem_of_ne_nil _ hNe
  have hQueue := (mem_pending hm).1
  rw [(h.slot j slot hSlot).unbound hNone] at hQueue
  cases hQueue

-- ---------------------------------------------------------------------------
-- When nothing is lost
-- ---------------------------------------------------------------------------

section

variable {slots : List PeerSlot} {parts : List PeerQueue}

/-- Everything was appended, each under its own actor id: so each actor's data is
there. As positions are distinct, the entries of one actor are the part of one slot
and of no other. -/
theorem data_of_inPlace (hParts : List.Forall₂ SlotAdded slots parts)
    (hAll : List.Forall₂ (fun slot added => added.length = slot.pending.length) slots parts)
    (hPlace : ∀ (i : Nat) (slot : PeerSlot), slots[i]? = some slot → slot.pending ≠ [] →
      slot.actor = (i + 1 : Nat))
    {i : Nat} {slot : PeerSlot} (hSlot : slots[i]? = some slot) :
    (parts.flatten.filter (·.actor == ((i + 1 : Nat) : Int))).map (·.data) =
      slot.pending.map (·.data) := by
  -- every message has the actor id of the slot that it came from, which is its position
  have hActor {k : Nat} {added : PeerQueue} (hAdded : parts[k]? = some added) {m : PeerMessage}
      (hm : m ∈ added) : m.actor = (k + 1 : Nat) := by
    obtain ⟨slotK, hSlotK, hAddedK⟩ := getElem?_of_forall₂_right hParts hAdded
    obtain ⟨slotK', hSlotK', hLen⟩ := getElem?_of_forall₂_right hAll hAdded
    rw [hSlotK, Option.some.injEq] at hSlotK'
    subst hSlotK'
    rw [hAddedK.actor m hm]
    refine hPlace k slotK hSlotK fun hNil => ?_
    rw [hNil, List.length_nil, List.length_eq_zero_iff] at hLen
    rw [hLen] at hm
    cases hm
  obtain ⟨added, hAdded, hSlotAdded⟩ := getElem?_of_forall₂ hParts hSlot
  obtain ⟨added', hAdded', hLen⟩ := getElem?_of_forall₂ hAll hSlot
  rw [hAdded, Option.some.injEq] at hAdded'
  subst hAdded'
  rw [filter_flatten_of_getElem? hAdded]
  · rw [List.filter_eq_self.mpr fun m hm => by rw [hActor hAdded hm, beq_self_eq_true]]
    exact hSlotAdded.data.eq_of_length (by rw [List.length_map, List.length_map, hLen])
  · intro k other hk hOther m hm
    rw [beq_eq_false_iff_ne, hActor hOther hm]
    omega

/-- The other way round: the slots are told apart from the last one down, since
no actor id is above its position. -/
theorem inPlace_of_data (hParts : List.Forall₂ SlotAdded slots parts)
    (hBelow : ∀ (i : Nat) (slot : PeerSlot), slots[i]? = some slot → slot.actor ≤ (i + 1 : Nat))
    (hData : ∀ (i : Nat) (slot : PeerSlot), slots[i]? = some slot →
      (parts.flatten.filter (·.actor == ((i + 1 : Nat) : Int))).map (·.data) =
        slot.pending.map (·.data)) :
    ∀ (i : Nat) (slot : PeerSlot) (added : PeerQueue), slots[i]? = some slot →
      parts[i]? = some added →
      added.length = slot.pending.length ∧ (slot.pending ≠ [] → slot.actor = (i + 1 : Nat)) := by
  -- the induction is on the number of slots from position `i` on
  suffices hFrom : ∀ n i, slots.length ≤ i + n → ∀ slot added, slots[i]? = some slot →
      parts[i]? = some added → added.length = slot.pending.length ∧
        (slot.pending ≠ [] → slot.actor = (i + 1 : Nat)) from
    fun i => hFrom slots.length i (by omega)
  intro n
  induction n with
  | zero =>
    intro i hi slot added hSlot
    rw [List.getElem?_eq_none (by omega)] at hSlot
    cases hSlot
  | succ n ih =>
    intro i hi slot added hSlot hAdded
    have hOther : ∀ k other, k ≠ i → parts[k]? = some other →
        ∀ m ∈ other, (m.actor == ((i + 1 : Nat) : Int)) = false := by
      intro k other hk hOther m hm
      obtain ⟨slotK, hSlotK, hAddedK⟩ := getElem?_of_forall₂_right hParts hOther
      rw [beq_eq_false_iff_ne, hAddedK.actor m hm]
      rcases Nat.lt_or_gt_of_ne hk with hLt | hGt
      · have hActor := hBelow k slotK hSlotK
        omega
      · obtain ⟨hLen, hPlace⟩ := ih k (by omega) slotK other hSlotK hOther
        rw [hPlace fun hNil => ?_]
        · omega
        · rw [hNil, List.length_nil, List.length_eq_zero_iff] at hLen
          rw [hLen] at hm
          cases hm
    have hSlotAdded : SlotAdded slot added := by
      obtain ⟨added', hAdded', h⟩ := getElem?_of_forall₂ hParts hSlot
      rw [hAdded, Option.some.injEq] at hAdded'
      exact hAdded' ▸ h
    have hOwn := hData i slot hSlot
    rw [filter_flatten_of_getElem? hAdded hOther] at hOwn
    have hLen := congrArg List.length hOwn
    have hLe := hSlotAdded.data.length_le
    have hFilter := List.length_filter_le (fun m : PeerMessage => m.actor == ((i + 1 : Nat) : Int)) added
    simp only [List.length_map] at hLen hLe
    refine ⟨by omega, fun hNe => ?_⟩
    -- one of the slot's own messages tells its actor id
    obtain ⟨m, hm⟩ := List.exists_mem_of_length_pos
      (l := added.filter (·.actor == ((i + 1 : Nat) : Int)))
      (by rw [hLen]; exact List.length_pos_iff.mpr hNe)
    rw [List.mem_filter, beq_iff_eq] at hm
    rw [← hSlotAdded.actor m hm.1, hm.2]

end

/-- **A merge keeps the clients' messages** exactly if it is refused no
allocation and what is pending is in place, for every host that any run
reaches, every tick from there, and every pattern of allocation failures. -/
theorem mergeKeeps_iff {alloc : Allocator} {rng : Mt64} {peer peer' : Peer}
    (hReach : Reaches Peer.step (fun _ _ _ => True) (peerInit .host alloc rng) peer) {e : Int}
    (hTo : MergesTo peer e peer') :
    MergeKeeps peer peer' ↔ (ValidElapsed peer e →
      peer.alloc.Grants (mergeRequests peer.slots.tail) ∧ PendingInPlace peer) := by
  by_cases hValid : ValidElapsed peer e
  swap
  · exact ⟨fun _ h => absurd h hValid, fun _ => mergeKeeps_of_invalid hValid hTo⟩
  have h : ActorsBelow peer :=
    hReach.invariant (fun _ _ _ hInv hStep _ => hInv.step hStep) (actorsBelow_peerInit alloc rng)
  obtain ⟨parts, hParts, hAll, hMerge⟩ := hostMerge_added peer e
  have hMerged := hMerge.of_mergesTo h.mode hValid hTo
  constructor
  · intro hKeeps _
    -- the messages of an actor in the queue are those of its slot, read slot by slot
    have hData : ∀ (i : Nat) (slot : PeerSlot), peer.slots.tail[i]? = some slot →
        (parts.flatten.filter (·.actor == ((i + 1 : Nat) : Int))).map (·.data) =
          slot.pending.map (·.data) := by
      intro i slot hSlot
      rw [List.getElem?_tail] at hSlot
      have hLt : i + 1 < peer'.slots.length := by
        rw [hMerged.length]
        exact (List.getElem?_eq_some_iff.mp hSlot).1
      have hSlot' := List.getElem?_eq_getElem hLt
      exact (hMerged.keepsMessages_iff (by omega) hSlot hSlot').mp (hKeeps _ _ _ (by omega) hSlot hSlot')
    -- no slot has an actor id above its position, so this decides the slots in order
    have hEach := inPlace_of_data hParts
      (fun i slot hSlot => h.slot (i + 1) slot (by rwa [List.getElem?_tail] at hSlot)) hData
    refine ⟨hAll.mp ?_, fun j slot hj hSlot hNe => ?_⟩
    · refine List.forall₂_iff_get.mpr ⟨hParts.length_eq, fun i hi hi' => ?_⟩
      exact (hEach i _ _ (List.getElem?_eq_getElem hi) (List.getElem?_eq_getElem hi')).1
    · obtain ⟨i, rfl⟩ : ∃ i, j = i + 1 := ⟨j - 1, by omega⟩
      rw [← List.getElem?_tail] at hSlot
      obtain ⟨added, hAdded, _⟩ := getElem?_of_forall₂ hParts hSlot
      exact (hEach i slot added hSlot hAdded).2 hNe
  · intro hCondition j slot slot' hj hSlot hSlot'
    obtain ⟨hGrants, hPlace⟩ := hCondition hValid
    rw [hMerged.keepsMessages_iff hj hSlot hSlot']
    obtain ⟨i, rfl⟩ : ∃ i, j = i + 1 := ⟨j - 1, by omega⟩
    rw [← List.getElem?_tail] at hSlot
    refine data_of_inPlace hParts (hAll.mpr hGrants) (fun k other hOther => ?_) hSlot
    rw [List.getElem?_tail] at hOther
    exact hPlace (k + 1) other (by omega) hOther

/-- A host that binds a slot to a client and stores the client's first message. -/
def storingRun : List PeerAction :=
  [.openSlots (some [1, 2]), .setAddress 1 oneByte (byteAddress 2), .input [PeerPacket.blank 5 1],
   .input [firstMessage]]

/-- With an allocator that refuses nothing its next tick merges the message: two
requests are made for it, and both are granted, so the condition of the theorem is
met and the message is kept. -/
theorem mergeKeeps_iff_granted :
    ∃ peer, Reaches Peer.step (fun _ _ _ => True) (peerInit .host .reliable ⟨fun _ => 0⟩) peer ∧
      mergeRequests peer.slots.tail = 2 ∧ MergeKeeps peer (hostMerge (peer.tickClock 0)).2 := by
  obtain ⟨peer, hReach, hTest⟩ :
      ∃ peer, Reaches Peer.step (fun _ a _ => a.IsHostStep)
          (peerInit .host .reliable ⟨fun _ => 0⟩) peer ∧
        decide (mergeRequests peer.slots.tail = 2 ∧ peer.timeLocal = 0 ∧
          peer.alloc.outcomes 0 ∧ peer.alloc.outcomes 1) = true :=
    exists_reaches_of_runGuarded (fun _ a _ => decide a.IsHostStep)
      (fun _ _ _ h => of_decide_eq_true h) storingRun _
      (fun peer : Peer => decide (mergeRequests peer.slots.tail = 2 ∧ peer.timeLocal = 0 ∧
        peer.alloc.outcomes 0 ∧ peer.alloc.outcomes 1)) (by decide +kernel)
  obtain ⟨hTwo, hLocal, hPlace, hRoom⟩ := of_decide_eq_true hTest
  have hAny := hReach.weaken fun _ _ _ _ => trivial
  have hValid : ValidElapsed peer 0 := ⟨by decide, by rw [hLocal]; decide⟩
  refine ⟨peer, hAny, hTwo, (mergeKeeps_iff hAny (Or.inl ⟨hValid, rfl⟩)).mpr fun _ => ⟨?_, ?_⟩⟩
  · intro i hi
    rw [hTwo] at hi
    -- The two requests that the merge makes.
    rcases (by omega : i = 0 ∨ i = 1) with rfl | rfl
    · exact hPlace
    · exact hRoom
  · exact pendingInPlace_of_reaches hReach

/-- The next tick moves the merge cursor of the second slot, and merges nothing. -/
def passesUnmerged (peer : Peer) : Bool :=
  match peerTick peer 0 with
  | .ok (_, _, peer') => decide (peer.slots.map (·.inIndex) = [0, 0] ∧
      peer'.slots.map (·.inIndex) = [0, 1] ∧ peer'.queue = [])
  | .error _ => false

/-- An allocator that refuses the sixth request and every later one: the place of
the message in the mutual queue. The tick moves the cursor past the message, and
appends nothing. -/
theorem not_mergeKeeps :
    ¬ ∀ (alloc : Allocator) (rng : Mt64) (peer : Peer) (e : Int) (s : Status)
        (ps : List PeerPacket) (peer' : Peer),
      Reaches Peer.step (fun _ _ _ => True) (peerInit .host alloc rng) peer →
      peerTick peer e = .ok (s, ps, peer') → MergeKeeps peer peer' := by
  intro hAll
  obtain ⟨peer, hReach, hTest⟩ :
      ∃ peer, Reaches Peer.step (fun _ _ _ => True)
          (peerInit .host ⟨fun n => decide (n < 5), false⟩ ⟨fun _ => 0⟩) peer ∧
        passesUnmerged peer = true :=
    exists_reaches_of_runGuarded (fun _ _ _ => true) (fun _ _ _ _ => trivial) storingRun _
      passesUnmerged (by decide +kernel)
  unfold passesUnmerged at hTest
  cases hTick : peerTick peer 0 with
  | error fault => simp [hTick] at hTest
  | ok r =>
    obtain ⟨s, ps, peer'⟩ := r
    rw [hTick] at hTest
    obtain ⟨hBefore, hAfter, hQueue⟩ := of_decide_eq_true hTest
    obtain ⟨slot, hSlot, hIndex⟩ : ∃ slot, peer.slots[1]? = some slot ∧ slot.inIndex = 0 := by
      rw [← Option.map_eq_some_iff, ← List.getElem?_map, hBefore]
      rfl
    obtain ⟨slot', hSlot', hIndex'⟩ : ∃ slot', peer'.slots[1]? = some slot' ∧ slot'.inIndex = 1 := by
      rw [← Option.map_eq_some_iff, ← List.getElem?_map, hAfter]
      rfl
    -- the cursor has passed one message, and none was appended
    have hCount := (hAll _ _ peer 0 s ps peer' hReach hTick 1 slot slot' (Nat.le_refl 1) hSlot hSlot').count
    rw [appendedBy, hQueue, List.drop_nil, List.filter_nil, hIndex, hIndex'] at hCount
    cases hCount

end PeerProtocol
