import Mathlib.Data.List.ReduceOption
import PeerProtocol.Lib.GapLog

/-!
# Ordered broadcast

Submitters hand messages to a sequencer. The sequencer lends them actor ids,
and appends what they submitted to a log, under these ids and in the order of
its stamps. Replicas learn entries of the log, in any order and with gaps.

This is what the peer protocol is for, said without packets, slots or clocks:
the state is what each submitter has submitted, who has which actor id, the
log, and what each replica holds. Nothing in it depends on how entries travel.
A replica is a list with holes (`GapLog`), and an actor id is lent once and
for all.

The system is a relation and not a function, because a step leaves open when a
message is taken over, and what a replica learns. A program refines it when
each of its own steps is a run of these.

## Results

* `Step` — submit, bind, accept, learn: the whole of what such a system does.
* `Legal` — the log is in order, under each actor id it holds a first part of
  what the owner submitted, and every replica agrees with it.
* `Run.legal` — every run keeps that; `Run.grows` — and loses nothing.
* `run_accept` — a log may grow to any log that is in order and holds, under
  each actor id, a first part of what its owner submitted. A refinement uses
  it where the program takes over many messages in one go: it need not say in
  which order the single steps would come.
* `Legal.sublist_of_replica`, `Legal.prefix_of_replica` — what a replica holds
  under an actor id, with and without gaps. These two are what a user of the
  system relies on.
-/

namespace PeerProtocol.Lib

/-- The state of an ordered broadcast: submitters `κ`, actor ids `α`, data `δ`,
entries `ε`, replicas `ι`. -/
structure Broadcast (κ α δ ε ι : Type _) where
  submitted : κ → List δ
  owner : α → Option κ
  log : List ε
  replica : ι → List (Option ε)

namespace Broadcast

variable {κ α δ ε ι : Type _}

/-- The state before anything is submitted: the log is empty, no replica holds
anything, and one submitter, the sequencer itself in a typical use, already has an
actor id. -/
def start [DecidableEq α] (a : α) (k : κ) : Broadcast κ α δ ε ι where
  submitted := fun _ => []
  owner := fun c => if c = a then some k else none
  log := []
  replica := fun _ => []

/-- What no run takes back: messages that were submitted, actor ids that were lent,
entries of the log at their positions, and entries that a replica has learnt. -/
structure Grows (b b' : Broadcast κ α δ ε ι) : Prop where
  submitted : ∀ k, b.submitted k <+: b'.submitted k
  owner : ∀ a k, b.owner a = some k → b'.owner a = some k
  log : b.log <+: b'.log
  replica : ∀ r i e, GapLog.Holds (b.replica r) i e → GapLog.Holds (b'.replica r) i e

/-- Nothing is taken back by doing nothing. -/
theorem Grows.refl (b : Broadcast κ α δ ε ι) : Grows b b :=
  ⟨fun _ => List.prefix_rfl, fun _ _ h => h, List.prefix_rfl, fun _ _ _ h => h⟩

/-- Growing is transitive, so that it is enough to look at single steps. -/
theorem Grows.trans {b b' b'' : Broadcast κ α δ ε ι} (h : Grows b b') (h' : Grows b' b'') :
    Grows b b'' :=
  ⟨fun k => (h.submitted k).trans (h'.submitted k), fun a k hk => h'.owner a k (h.owner a k hk),
    h.log.trans h'.log, fun r i e he => h'.replica r i e (h.replica r i e he)⟩

variable [DecidableEq α] (actor : ε → α) (payload : ε → δ) (before : ε → ε → Prop)

/-- The data of the entries of an actor, in log order: what is compared with the
list of messages that the owner of the actor id has submitted. -/
def dataOf (log : List ε) (a : α) : List δ := (log.filter (actor · = a)).map payload

/-- What every state of the system satisfies. `owned` and `fifo` say that each entry
was submitted by somebody and that an owner's messages are taken over in order and
without omission; `ordered` that stamps never go back; `agrees` that replicas make
nothing up. -/
structure Legal (b : Broadcast κ α δ ε ι) : Prop where
  owned : ∀ e ∈ b.log, ∃ k, b.owner (actor e) = some k
  fifo : ∀ a k, b.owner a = some k → dataOf actor payload b.log a <+: b.submitted k
  ordered : b.log.Pairwise before
  agrees : ∀ r, GapLog.Agrees b.log (b.replica r)

/-- What the system does. Each rule changes one component of the state, and its
premises are what the sequencer or the replica has to know to take the step. -/
inductive Step [DecidableEq κ] [DecidableEq ι] (b : Broadcast κ α δ ε ι) :
    Broadcast κ α δ ε ι → Prop where
  -- a submitter submits a message
  | submit (k : κ) (d : δ) :
      Step b { b with submitted := Function.update b.submitted k (b.submitted k ++ [d]) }
  -- an actor id that nobody has is lent to a submitter
  | bind (a : α) (k : κ) (hFree : b.owner a = none) :
      Step b { b with owner := Function.update b.owner a (some k) }
  -- the next message of an owner is appended, with a stamp that is not before others
  | accept (e : ε) (k : κ) (hOwner : b.owner (actor e) = some k)
      (hNext : (b.submitted k)[(dataOf actor payload b.log (actor e)).length]? = some (payload e))
      (hOrder : ∀ f ∈ b.log, before f e) : Step b { b with log := b.log ++ [e] }
  -- a replica learns entries of the log, and forgets none
  | learn (r : ι) (g : List (Option ε))
      (hKeeps : ∀ i e, GapLog.Holds (b.replica r) i e → GapLog.Holds g i e)
      (hAgrees : GapLog.Agrees b.log g) :
      Step b { b with replica := Function.update b.replica r g }

/-- Any number of steps. -/
abbrev Run [DecidableEq κ] [DecidableEq ι] : (b b' : Broadcast κ α δ ε ι) → Prop :=
  Relation.ReflTransGen (Step actor payload before)

variable {actor payload before} {b b' : Broadcast κ α δ ε ι}

-- ---------------------------------------------------------------------------
-- The data of an actor
-- How the data recorded under one actor id grows with the log.
-- ---------------------------------------------------------------------------

/-- The data of a log in two parts is that of the parts, in this order. -/
theorem dataOf_append (l m : List ε) (a : α) :
    dataOf actor payload (l ++ m) a = dataOf actor payload l a ++ dataOf actor payload m a := by
  rw [dataOf, List.filter_append, List.map_append]
  rfl

/-- An entry comes first among the data of its own actor when it is first in the
log. -/
theorem dataOf_cons_self (e : ε) (l : List ε) :
    dataOf actor payload (e :: l) (actor e) = payload e :: dataOf actor payload l (actor e) := by
  simp [dataOf]

/-- One more entry adds its payload under its own actor id, and nothing under another. -/
theorem dataOf_concat (l : List ε) (e : ε) (a : α) :
    dataOf actor payload (l ++ [e]) a =
      if actor e = a then dataOf actor payload l a ++ [payload e] else dataOf actor payload l a := by
  rw [dataOf_append]
  split
  · next h => simp [dataOf, h]
  · next h => simp [dataOf, h]

/-- An actor id under which no entry was made has no data. -/
theorem dataOf_eq_nil {l : List ε} {a : α} (h : ∀ e ∈ l, actor e ≠ a) :
    dataOf actor payload l a = [] := by
  rw [dataOf, List.filter_eq_nil_iff.mpr (by simpa using h), List.map_nil]

-- ---------------------------------------------------------------------------
-- What a replica holds
-- A replica agrees with the log at the positions that it holds. Which part of
-- the log that is depends on its gaps.
-- ---------------------------------------------------------------------------

/-- What a replica holds is, in its order, a part of the log: skipping the gaps
leaves the entries in log order, because each is held at its own position. -/
theorem sublist_of_agrees {log : List ε} {g : List (Option ε)} (h : GapLog.Agrees log g) :
    g.reduceOption.Sublist log := by
  -- the first positions of both lists are matched or skipped together
  induction g generalizing log with
  | nil => exact List.nil_sublist _
  | cons x g ih =>
    cases log with
    | nil => exact absurd h.length_le (by simp)
    | cons e log =>
      have hTail : GapLog.Agrees log g :=
        ⟨Nat.le_of_succ_le_succ h.length_le, fun i a hi => h.entry (i + 1) a hi⟩
      cases x with
      | none =>
        rw [List.reduceOption_cons_of_none]
        exact (ih hTail).cons _
      | some f =>
        have hHead : e = f := Option.some.inj (h.entry 0 f rfl)
        rw [List.reduceOption_cons_of_some, hHead]
        exact (ih hTail).cons_cons _

/-- A replica without gaps below `n` holds there exactly what the log does. -/
theorem take_of_agrees {log : List ε} {g : List (Option ε)} (h : GapLog.Agrees log g) {n : Nat}
    (hFull : ∀ i < n, GapLog.Filled g i) : (g.take n).reduceOption = log.take n := by
  have hTake : g.take n = (log.take n).map some := by
    refine List.ext_getElem? fun i => ?_
    rw [List.getElem?_map]
    rcases Nat.lt_or_ge i n with hi | hi
    · obtain ⟨e, he⟩ := hFull i hi
      rw [List.getElem?_take_of_lt hi, List.getElem?_take_of_lt hi, h.entry i e he, he]
      rfl
    · rw [List.getElem?_eq_none (by rw [List.length_take]; omega),
        List.getElem?_eq_none (by rw [List.length_take]; omega)]
      rfl
  rw [hTake]
  simp [List.reduceOption]

/-- **With gaps**: what a replica holds under an actor id is, in its order, a
part of what the owner submitted; nothing is there twice or out of order. -/
theorem Legal.sublist_of_replica (h : Legal actor payload before b) {a : α} {k : κ}
    (hOwner : b.owner a = some k) (r : ι) :
    (dataOf actor payload (b.replica r).reduceOption a).Sublist (b.submitted k) :=
  (((sublist_of_agrees (h.agrees r)).filter _).map _).trans (h.fifo a k hOwner).sublist

/-- **Without gaps**: what a replica holds below `n` under an actor id is a first
part of what the owner submitted. -/
theorem Legal.prefix_of_replica (h : Legal actor payload before b) {a : α} {k : κ}
    (hOwner : b.owner a = some k) {r : ι} {n : Nat}
    (hFull : ∀ i < n, GapLog.Filled (b.replica r) i) :
    dataOf actor payload ((b.replica r).take n).reduceOption a <+: b.submitted k := by
  rw [take_of_agrees (h.agrees r) hFull]
  exact (((List.take_prefix n b.log).filter _).map _).trans (h.fifo a k hOwner)

-- ---------------------------------------------------------------------------
-- Runs
-- One case for each rule; the accepting step is the only one that touches the
-- log.
-- ---------------------------------------------------------------------------

variable [DecidableEq κ] [DecidableEq ι]

/-- **Step lemma**: each of the four steps leaves a legal state legal. Submitting
and binding only extend what the log is compared with, learning only adds entries of
the log. -/
theorem Step.legal (hStep : Step actor payload before b b') (h : Legal actor payload before b) :
    Legal actor payload before b' := by
  cases hStep with
  | submit k d =>
    refine ⟨h.owned, fun a j hOwner => ?_, h.ordered, h.agrees⟩
    dsimp only at hOwner ⊢
    by_cases hj : j = k
    · subst hj
      rw [Function.update_self]
      exact (h.fifo a j hOwner).trans (List.prefix_append _ _)
    · rw [Function.update_of_ne hj]
      exact h.fifo a j hOwner
  | bind a k hFree =>
    refine ⟨fun e he => ?_, fun c j hOwner => ?_, h.ordered, h.agrees⟩
    · obtain ⟨j, hj⟩ := h.owned e he
      have hNe : actor e ≠ a := by
        rintro rfl
        rw [hFree] at hj
        cases hj
      exact ⟨j, (Function.update_of_ne hNe _ _).trans hj⟩
    · dsimp only at hOwner ⊢
      by_cases hc : c = a
      · -- the id was nobody's, so no entry has it
        subst hc
        rw [dataOf_eq_nil fun e he hActor => ?_]
        · exact List.nil_prefix
        · obtain ⟨i, hi⟩ := h.owned e he
          rw [hActor, hFree] at hi
          cases hi
      · rw [Function.update_of_ne hc] at hOwner
        exact h.fifo c j hOwner
  | accept e k hOwner hNext hOrder =>
    refine ⟨fun f hf => ?_, fun a j hj => ?_, ?_, fun r => ?_⟩
    · rcases List.mem_append.mp hf with hOld | hNew
      · exact h.owned f hOld
      · rw [List.mem_singleton.mp hNew]
        exact ⟨k, hOwner⟩
    · dsimp only at hj ⊢
      rw [dataOf_concat]
      split
      · next hActor =>
        subst hActor
        rw [hOwner, Option.some.injEq] at hj
        subst hj
        -- what was taken is a first part, and the message is the one after it
        obtain ⟨rest, hRest⟩ := h.fifo _ k hOwner
        rw [← hRest, List.getElem?_append_right (Nat.le_refl _), Nat.sub_self] at hNext
        obtain ⟨later, rfl⟩ : ∃ later, rest = payload e :: later := by
          cases rest with
          | nil => cases hNext
          | cons d later => exact ⟨later, by rw [Option.some.inj hNext]⟩
        exact ⟨later, by rw [← hRest, List.append_assoc]; rfl⟩
      · exact h.fifo a j hj
    · dsimp only
      rw [List.pairwise_append]
      refine ⟨h.ordered, List.pairwise_singleton _ _, fun f hf g hg => ?_⟩
      rw [List.mem_singleton.mp hg]
      exact hOrder f hf
    · exact (h.agrees r).mono (List.prefix_append _ _)
  | learn r g _ hAgrees =>
    refine ⟨h.owned, h.fifo, h.ordered, fun q => ?_⟩
    dsimp only
    by_cases hq : q = r
    · subst hq
      rw [Function.update_self]
      exact hAgrees
    · rw [Function.update_of_ne hq]
      exact h.agrees q

/-- **Run lemma**: every state of a run is legal. -/
theorem Run.legal (hRun : Run actor payload before b b') (h : Legal actor payload before b) :
    Legal actor payload before b' := by
  induction hRun with
  | refl => exact h
  | tail _ hStep ih => exact hStep.legal ih

/-- **Step lemma**: no single step takes anything back. A submission makes one
sequence longer, a binding takes a free actor id, an acceptance makes the log
longer, and what a replica learns leaves what it held where it was. -/
theorem Step.grows (hStep : Step actor payload before b b') : Grows b b' := by
  cases hStep with
  | submit k d =>
    refine ⟨fun j => ?_, fun _ _ h => h, List.prefix_rfl, fun _ _ _ h => h⟩
    -- Only the submitter's own sequence gets longer.
    dsimp only
    by_cases hj : j = k
    · subst hj
      rw [Function.update_self]
      exact List.prefix_append _ _
    · rw [Function.update_of_ne hj]
  | bind a k hFree =>
    refine ⟨fun _ => List.prefix_rfl, fun c j hj => ?_, List.prefix_rfl, fun _ _ _ h => h⟩
    -- An actor that is bound already is not the one bound now, which was free.
    have hNe : c ≠ a := by
      rintro rfl
      rw [hFree] at hj
      cases hj
    exact (Function.update_of_ne hNe _ _).trans hj
  | accept e k _ _ _ =>
    exact ⟨fun _ => List.prefix_rfl, fun _ _ h => h, List.prefix_append _ _, fun _ _ _ h => h⟩
  | learn r g hKeeps _ =>
    refine ⟨fun _ => List.prefix_rfl, fun _ _ h => h, List.prefix_rfl, fun q i e he => ?_⟩
    -- A reader other than the one that learns keeps what it holds as it is.
    dsimp only
    by_cases hq : q = r
    · subst hq
      rw [Function.update_self]
      exact hKeeps i e he
    · rw [Function.update_of_ne hq]
      exact he

/-- **Run lemma**: no run takes anything back. -/
theorem Run.grows (hRun : Run actor payload before b b') : Grows b b' := by
  induction hRun with
  | refl => exact .refl b
  | tail _ hStep ih => exact ih.trans hStep.grows

-- ---------------------------------------------------------------------------
-- Growing the log
-- ---------------------------------------------------------------------------

/-- **The log may grow** to any log that is in order, whose new entries have
owners, and that holds, under each actor id, a first part of what was submitted. -/
theorem run_accept (new : List ε) (b : Broadcast κ α δ ε ι)
    (hOwned : ∀ e ∈ new, ∃ k, b.owner (actor e) = some k)
    (hFifo : ∀ a k, b.owner a = some k → dataOf actor payload (b.log ++ new) a <+: b.submitted k)
    (hOrdered : (b.log ++ new).Pairwise before) :
    Run actor payload before b { b with log := b.log ++ new } := by
  induction new generalizing b with
  | nil =>
    rw [List.append_nil]
  | cons e new ih =>
    obtain ⟨k, hOwner⟩ := hOwned e (List.mem_cons_self ..)
    have hSplit : b.log ++ e :: new = (b.log ++ [e]) ++ new := by simp
    -- the first of them is the next message of its owner
    have hNext : (b.submitted k)[(dataOf actor payload b.log (actor e)).length]? =
        some (payload e) := by
      have hPrefix := hFifo _ k hOwner
      rw [dataOf_append, dataOf_cons_self] at hPrefix
      obtain ⟨rest, hRest⟩ := hPrefix
      rw [← hRest, List.append_assoc, List.getElem?_append_right (Nat.le_refl _), Nat.sub_self]
      rfl
    have hOrder : ∀ f ∈ b.log, before f e := fun f hf =>
      (List.pairwise_append.mp hOrdered).2.2 f hf e (List.mem_cons_self ..)
    rw [hSplit] at hFifo hOrdered ⊢
    exact .head (.accept e k hOwner hNext hOrder)
      (ih { b with log := b.log ++ [e] } (fun f hf => hOwned f (List.mem_cons_of_mem _ hf)) hFifo
        hOrdered)

end Broadcast

end PeerProtocol.Lib
