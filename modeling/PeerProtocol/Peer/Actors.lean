import PeerProtocol.Peer.Host

/-!
# peer — actor ids and slot indices

A host's slot gets an actor id in two places. `peer_input` gives a slot that
it binds the slot's index. `peer_open` gives a new slot its index among the
slots that the same call opens, which is its index among all slots in the
first call only. The comment in `peer_init` says that the actor id is the
slot's index, and a second `peer_open` breaks that: its first slot gets actor
id 0, which is also the host's.

The module says exactly when the comment is true. In a run of which every call
of `peer_open` either opens nothing or is the first to open anything, all
actor ids are indices, and different from each other; and from such a state,
one call that opens slots behind others breaks both at once. No other action
changes an actor id to anything but an index: not the input, which binds
slots, nor the tick.

Nothing is assumed of the packets, and the allocator may refuse what it likes:
a call that is refused opens nothing.

## Results

* `ActorsAreIndices`, `ActorsDistinct` — what the comment says, and what
  follows from it.
* `OpensFirst` — the calls that open slots behind none.
* `ActorsAreIndices.step` — what each action does, from a state where the
  comment is true.
* `actorsAreIndices_of_reaches` — both hold in every run with such calls only,
  and any other call breaks both.
-/

namespace PeerProtocol

open Lib

/-- The actor id of a slot is its index, and the host's own is that of the
first slot, which is reserved for it. -/
structure ActorsAreIndices (peer : Peer) : Prop where
  host : peer.actor = 0
  slot : ∀ (k : Nat) (slot : PeerSlot), peer.slots[k]? = some slot → slot.actor = k

/-- No two slots have the same actor id, bound or not, and none but the one that
is reserved for it has the host's. -/
structure ActorsDistinct (peer : Peer) : Prop where
  slots : (peer.slots.map (·.actor)).Nodup
  host : ∀ slot ∈ peer.slots.tail, slot.actor ≠ peer.actor

/-- A new host has its own actor id, and no slots. -/
theorem actorsAreIndices_peerInit (alloc : Allocator) (rng : Mt64) :
    ActorsAreIndices (peerInit .host alloc rng) where
  host := rfl
  slot := by simp [peerInit]

/-- Indices are pairwise distinct, and those of clients are not the host's, which is
the index of the listening slot. So where ids are indices no two slots can be
confused, and nobody speaks as the host. -/
theorem ActorsAreIndices.distinct {peer : Peer} (h : ActorsAreIndices peer) :
    ActorsDistinct peer where
  slots := by
    rw [List.nodup_iff_getElem?_ne_getElem?]
    intro i j hij hj hEq
    rw [List.length_map] at hj
    rw [List.getElem?_map, List.getElem?_map, List.getElem?_eq_getElem hj,
      List.getElem?_eq_getElem (Nat.lt_trans hij hj), Option.map_some, Option.map_some,
      Option.some.injEq, h.slot i _ (List.getElem?_eq_getElem _),
      h.slot j _ (List.getElem?_eq_getElem _)] at hEq
    omega
  host := by
    intro slot hSlot
    obtain ⟨i, hi⟩ := List.getElem?_of_mem hSlot
    rw [List.getElem?_tail] at hi
    rw [h.slot (i + 1) slot hi, h.host]
    omega

-- ---------------------------------------------------------------------------
-- Opening slots
-- ---------------------------------------------------------------------------

/-- The ids that a call of `peer_open` opens slots for: all of them, or none. -/
def openedIds (peer : Peer) (ids : Option (List Int)) : List Int :=
  if peer.alloc.outcomes 0 then ids.getD [] else []

/-- An action that opens no slot behind others: any action but `peer_open`, a call
that opens nothing, or the first one. -/
def OpensFirst (peer : Peer) : PeerAction → Prop
  | .openSlots ids => openedIds peer ids = [] ∨ peer.slots.length = 0
  | _ => True

instance (peer : Peer) : (a : PeerAction) → Decidable (OpensFirst peer a)
  | .openSlots ids => inferInstanceAs (Decidable (openedIds peer ids = [] ∨ peer.slots.length = 0))
  | .connect _ | .queue _ | .input _ | .tick _ | .setAddress _ _ _ | .resolve _ _ => .isTrue trivial

/-- What `peer_open` opens, behind the slots that there are. Each new slot's actor
id is its position among the ids of this call, which is the index of the slot only
where none was there before. -/
theorem peerOpen_openedIds (peer : Peer) (ids : Option (List Int)) :
    (peerOpen peer ids).2.actor = peer.actor ∧
    (peerOpen peer ids).2.slots =
      peer.slots ++ (openedIds peer ids).mapIdx (openSlot peer.mode) := by
  unfold peerOpen openedIds
  split
  · simp
  · simp
  · next id ids =>
    cases hPlace : peer.alloc.outcomes 0 with
    | false =>
      rw [show peer.alloc.request = (false, peer.alloc.request.2) from Prod.ext hPlace rfl]
      simp
    | true =>
      rw [show peer.alloc.request = (true, peer.alloc.request.2) from Prod.ext hPlace rfl]
      simp

/-- The first slot that is opened behind others is given the host's actor id. -/
theorem actor_opened {peer : Peer} (hMode : peer.mode = .host) {ids : Option (List Int)}
    (hSome : openedIds peer ids ≠ []) :
    ∃ slot, (peerOpen peer ids).2.slots[peer.slots.length]? = some slot ∧ slot.actor = 0 := by
  obtain ⟨id, rest, hIds⟩ := List.exists_cons_of_ne_nil hSome
  refine ⟨openSlot peer.mode 0 id, ?_, ?_⟩
  · rw [(peerOpen_openedIds peer ids).2, hIds, List.getElem?_append_right (Nat.le_refl _), Nat.sub_self,
      List.mapIdx_cons, List.getElem?_cons_zero]
  · rw [hMode]
    rfl

/-- An open keeps the actor ids if it opens nothing behind other slots. -/
theorem ActorsAreIndices.openSlots {peer : Peer} (h : ActorsAreIndices peer)
    (ids : Option (List Int)) (hFirst : OpensFirst peer (.openSlots ids)) (hMode : peer.mode = .host) :
    ActorsAreIndices (peerOpen peer ids).2 := by
  obtain ⟨hActor, hSlots⟩ := peerOpen_openedIds peer ids
  refine ⟨hActor.trans h.host, fun k slot hSlot => ?_⟩
  rw [hSlots] at hSlot
  rcases hFirst with hNone | hNil
  · rw [hNone, List.mapIdx_nil, List.append_nil] at hSlot
    exact h.slot k slot hSlot
  · -- the new slots are all that there are
    rw [List.length_eq_zero_iff.mp hNil, List.nil_append, List.getElem?_mapIdx] at hSlot
    obtain ⟨id, _, rfl⟩ := Option.map_eq_some_iff.mp hSlot
    rw [hMode]
    rfl

/-- Slots behind others get ids that are taken: the first of them gets actor id 0. -/
theorem not_of_opensBehind {peer : Peer} (h : ActorsAreIndices peer) (hMode : peer.mode = .host)
    {ids : Option (List Int)} (hBehind : ¬ OpensFirst peer (.openSlots ids)) :
    ¬ ActorsAreIndices (peerOpen peer ids).2 ∧ ¬ ActorsDistinct (peerOpen peer ids).2 := by
  obtain ⟨hSome, hOthers⟩ := not_or.mp hBehind
  obtain ⟨slot, hSlot, hZero⟩ := actor_opened hMode hSome
  constructor
  · intro hIndices
    have hIndex := hIndices.slot _ slot hSlot
    omega
  · intro hDistinct
    refine hDistinct.host slot ?_ ?_
    · have hLast : (peerOpen peer ids).2.slots.tail[peer.slots.length - 1]? = some slot := by
        rw [List.getElem?_tail, Nat.sub_add_cancel (Nat.one_le_iff_ne_zero.mpr hOthers), hSlot]
      exact List.mem_of_getElem? hLast
    · rw [hZero, (peerOpen_openedIds peer ids).1, h.host]

-- ---------------------------------------------------------------------------
-- The other actions
-- ---------------------------------------------------------------------------

/-- A host keeps its actor id, whatever comes in: only clients are told theirs, by a
session response, and a host reads none. -/
theorem actor_of_input {peer peer' : Peer} {packets : List PeerPacket} {s : Status}
    (hMode : peer.mode = .host) (h : peerInput peer packets = .ok (s, peer')) :
    peer'.actor = peer.actor := by
  have hBoth : peer'.mode = .host ∧ peer'.actor = peer.actor := by
    refine peerInput_invariant (I := fun p => p.mode = .host ∧ p.actor = peer.actor) ?_ ?_ ?_ h
      ⟨hMode, rfl⟩
    · intro p packet s cs al _ hp _
      exact hp
    · intro start p p' packet j s cs al chunk _ _ _ _ hp _ hChunk
      cases hChunk.onHost hp.1 <;> exact hp
    · intro p packet _ hp _ _
      rcases assignSlot_cases p packet with hSame | ⟨_, _, _, _, _, _, _, _, _, _, hSet⟩
      · rw [hSame]
        exact hp
      · rw [hSet]
        exact hp
  exact hBoth.2

theorem actor_of_tick {peer peer' : Peer} {e : Int} {s : Status} {ps : List PeerPacket}
    (hMode : peer.mode = .host) (h : peerTick peer e = .ok (s, ps, peer')) :
    peer'.actor = peer.actor := by
  by_cases hValid : ValidElapsed peer e
  · rw [peerTick_host_eq hValid hMode, hostSend_eq] at h
    obtain ⟨⟨out, peer1⟩, hSend, h⟩ := bind_eq_ok.mp h
    obtain ⟨⟨slots', out1⟩, _, hSend⟩ := bind_eq_ok.mp hSend
    obtain ⟨rfl, rfl⟩ := Prod.mk.inj (Except.ok.inj hSend)
    obtain ⟨_, hPeer⟩ := Prod.mk.inj (Except.ok.inj h)
    obtain ⟨_, rfl⟩ := Prod.mk.inj hPeer
    rfl
  · rw [(eq_of_peerTick_invalid hValid h).2.2]

/-- **Step lemma**: an action that opens no slot behind others keeps the actor ids.
An input may bind a slot, and writes the slot's position; a later `peer_open` is
what would write another number. -/
theorem ActorsAreIndices.step {peer peer' : Peer} {a : PeerAction} (h : ActorsAreIndices peer)
    (hMode : peer.mode = .host) (hFirst : OpensFirst peer a) (hStep : peer.step a = .ok peer') :
    ActorsAreIndices peer' := by
  obtain ⟨s, ps, hAct⟩ := Peer.step_eq_ok.mp hStep
  have hCase := Peer.act_cases hAct
  cases a with
  | openSlots ids =>
    obtain ⟨_, rfl⟩ := hCase
    exact h.openSlots ids hFirst hMode
  | connect serverId =>
    obtain ⟨_, rfl⟩ := hCase
    obtain ⟨i, hConnect⟩ := peerConnect_modifies peer serverId
    rw [hConnect]
    exact ⟨h.host, slots_modify h.slot i fun _ _ hSlot => hSlot⟩
  | queue messageData =>
    obtain ⟨_, rfl⟩ := hCase
    obtain ⟨data, hQueued⟩ := peerQueue_queued peer messageData
    generalize (peerQueue peer messageData).2 = peer' at hQueued
    cases hQueued with
    | refused => exact h
    | host => exact ⟨h.host, h.slot⟩
    | client hClient =>
      rw [hMode] at hClient
      cases hClient
  | input packets =>
    refine ⟨(actor_of_input hMode hCase.2).trans h.host, ?_⟩
    -- a slot that is bound gets its index, which it has already
    exact slots_input h.slot hMode (fun _ _ _ _ _ _ hSlot => hSlot) (fun _ _ _ _ _ _ _ => rfl) hCase.2
  | tick e =>
    refine ⟨(actor_of_tick hMode hCase).trans h.host, fun k slot' hSlot' => ?_⟩
    obtain ⟨slot, hSlot, hTicked⟩ := getElem?_of_forall₂_right (peerTick_frame hCase).slots hSlot'
    rw [hTicked.actor]
    exact h.slot k slot hSlot
  | setAddress j size data =>
    obtain ⟨_, rfl⟩ := hCase
    exact ⟨h.host, slots_modify h.slot j fun _ _ hSlot => hSlot⟩
  | resolve j id =>
    obtain ⟨_, rfl⟩ := hCase
    exact ⟨h.host, slots_modify h.slot j fun _ _ hSlot => hSlot⟩

/-- **Actor ids are slot indices** in every host that any run reaches in which
no call opens slots behind others, whatever the allocator does; and the next
action keeps this, or that the actor ids are distinct, exactly if it is no such
call either. -/
theorem actorsAreIndices_of_reaches {alloc : Allocator} {rng : Mt64} {peer : Peer}
    (hReach : Reaches Peer.step (fun p a _ => OpensFirst p a) (peerInit .host alloc rng) peer) :
    ActorsAreIndices peer ∧ ActorsDistinct peer ∧
    ∀ a peer', peer.step a = .ok peer' →
      (ActorsAreIndices peer' ↔ OpensFirst peer a) ∧ (ActorsDistinct peer' ↔ OpensFirst peer a) := by
  -- What every run keeps, and then the step behind it, in both directions.
  obtain ⟨hMode, h⟩ : peer.mode = .host ∧ ActorsAreIndices peer :=
    hReach.invariant (I := fun p => p.mode = .host ∧ ActorsAreIndices p)
      (fun _ _ _ hInv hStep hFirst =>
        ⟨(Peer.mode_of_step hStep).trans hInv.1, hInv.2.step hInv.1 hFirst hStep⟩)
      ⟨rfl, actorsAreIndices_peerInit alloc rng⟩
  refine ⟨h, h.distinct, fun a peer' hStep => ?_⟩
  by_cases hFirst : OpensFirst peer a
  · have h' := h.step hMode hFirst hStep
    exact ⟨iff_of_true h' hFirst, iff_of_true h'.distinct hFirst⟩
  -- Only a call of `peer_open` can fail the condition.
  · obtain ⟨ids, rfl⟩ : ∃ ids, a = .openSlots ids := by
      cases a with
      | openSlots ids => exact ⟨ids, rfl⟩
      | _ => exact absurd trivial hFirst
    obtain ⟨s, ps, hAct⟩ := Peer.step_eq_ok.mp hStep
    obtain ⟨_, rfl⟩ := Peer.act_cases hAct
    obtain ⟨hIndices, hDistinct⟩ := not_of_opensBehind h hMode hFirst
    exact ⟨iff_of_false hIndices hFirst, iff_of_false hDistinct hFirst⟩

/-- A host with two slots, opened by one call. -/
def openedHost : Peer := (peerOpen (peerInit .host .reliable ⟨fun _ => 0⟩) (some [1, 2])).2

/-- Its actor ids are indices, and stay so until it opens more slots. -/
theorem actorsAreIndices_of_reaches_opened :
    ActorsAreIndices openedHost ∧ ActorsDistinct openedHost ∧
    ∀ a peer', openedHost.step a = .ok peer' →
      (ActorsAreIndices peer' ↔ OpensFirst openedHost a) ∧
        (ActorsDistinct peer' ↔ OpensFirst openedHost a) := by
  have hStep : (peerInit .host .reliable ⟨fun _ => 0⟩).step (.openSlots (some [1, 2])) =
      .ok openedHost := rfl
  exact actorsAreIndices_of_reaches (Relation.ReflTransGen.single ⟨_, hStep, Or.inr rfl⟩)

/-- A third slot, opened by a second call, is given the actor id of the host and
of its first slot. -/
theorem not_actorsAreIndices_second :
    ∃ peer, Reaches Peer.step (fun _ a _ => a.IsHostStep) (peerInit .host .reliable ⟨fun _ => 0⟩) peer ∧
      peer.slots.map (·.actor) = [0, 1, 0] ∧ ¬ ActorsAreIndices peer ∧ ¬ ActorsDistinct peer := by
  have hOpen : (peerInit .host .reliable ⟨fun _ => 0⟩).step (.openSlots (some [1, 2])) =
      .ok openedHost := rfl
  have hSecond : openedHost.step (.openSlots (some [3])) =
      .ok (peerOpen openedHost (some [3])).2 := rfl
  have hActors : (peerOpen openedHost (some [3])).2.slots.map (·.actor) = [0, 1, 0] := by
    decide +kernel
  refine ⟨(peerOpen openedHost (some [3])).2,
    (Relation.ReflTransGen.single ⟨_, hOpen, rfl⟩).tail ⟨_, hSecond, rfl⟩, hActors, ?_, ?_⟩
  -- Indices would be distinct, and the list names 0 twice.
  · intro hIndices
    have hDistinct := hIndices.distinct.slots
    rw [hActors] at hDistinct
    exact absurd hDistinct (by decide)
  · intro hDistinct
    have hSlots := hDistinct.slots
    rw [hActors] at hSlots
    exact absurd hSlots (by decide)

end PeerProtocol
