import Mathlib.Tactic

/-!
# Guarded runs of a partial transition function

A system is a transition function `step : σ → α → Except ε σ` that may fail,
and a guard that says which actions its environment may take. A run takes
allowed actions that do not fail, one after another; a call that faults is not
a step, so nothing is claimed of the state behind it.

Everything that this development says about whole executions — of a peer
alone, of a host and its clients with the network between them, of a pool of
sockets — is an instance of `Reaches`: the transition function is the model's,
and the guard holds what the callers are promised to do (which packets may be
given to whom, how long a queued message may be). The guard may look at both
ends of the step, because some of these promises are about the state that is
reached, such as a bound on the size of a queue.

* `Reaches.invariant` — what one step preserves, a run preserves. This is the
  only induction over runs; the safety theorems are step lemmas with this rule
  on top.
* `Reaches.weaken` — a result about a lenient environment holds under a strict
  one.
* `reaches_of_runGuarded` — an executable run is a run, so a concrete trace
  can be checked by evaluation: `runGuarded` takes the actions and tests a
  decidable `check` at each of them, which only has to imply the guard.
* `exists_reaches_of_runGuarded`, `exists_reaches_where`, `exists_reaches_of_mem`
  — the forms in which witnesses and counterexamples use that: some state is
  reached that passes a test, or of which a decidable fact holds.
-/

namespace PeerProtocol.Lib

variable {σ α ε : Type _}

/-- One allowed step that does not fail. The guard is given the state before, the
action and the state reached, so that it can bound what a step may lead to. -/
def StepTo (step : σ → α → Except ε σ) (guard : σ → α → σ → Prop) (s s' : σ) : Prop :=
  ∃ a, step s a = .ok s' ∧ guard s a s'

/-- Any number of allowed steps, none included: the states that are reached from `s`
form the reflexive and transitive closure of a single step. -/
abbrev Reaches (step : σ → α → Except ε σ) (guard : σ → α → σ → Prop) : σ → σ → Prop :=
  Relation.ReflTransGen (StepTo step guard)

variable {step : σ → α → Except ε σ} {guard : σ → α → σ → Prop} {s s' : σ}

/-- **Invariant rule**: an invariant of every allowed step is an invariant of every
run. The step lemma may use that the step did not fail and that it was allowed. -/
theorem Reaches.invariant {I : σ → Prop} (h : Reaches step guard s s')
    (hStep : ∀ t a t', I t → step t a = .ok t' → guard t a t' → I t') (hs : I s) : I s' := by
  induction h with
  | refl => exact hs
  | tail _ hLast ih =>
    obtain ⟨a, hOk, hGuard⟩ := hLast
    exact hStep _ a _ ih hOk hGuard

/-- A run under a guard is a run under any weaker guard, so what holds in all runs
of the weaker one holds in those of the stronger one. -/
theorem Reaches.weaken {guard' : σ → α → σ → Prop} (h : Reaches step guard s s')
    (hGuard : ∀ t a t', guard t a t' → guard' t a t') : Reaches step guard' s s' :=
  h.lift id fun _ _ ⟨a, hOk, hg⟩ => ⟨a, hOk, hGuard _ a _ hg⟩

/-- Take a list of actions, checking the guard at each. The result is `none` as soon
as an action fails or is not allowed. -/
def runGuarded (step : σ → α → Except ε σ) (guard : σ → α → σ → Bool) : σ → List α → Option σ
  | s, [] => some s
  | s, a :: as =>
    match step s a with
    | .error _ => none
    | .ok s' => if guard s a s' then runGuarded step guard s' as else none

/-- An executable run is a run, if what is checked of its actions implies the guard.
Only the actions of this list matter, which helps where the guard of others is not
decidable. -/
theorem reaches_of_runGuarded_mem {check : σ → α → σ → Bool} {as : List α} {s s' : σ}
    (hCheck : ∀ a ∈ as, ∀ t t', check t a t' = true → guard t a t')
    (h : runGuarded step check s as = some s') : Reaches step guard s s' := by
  -- along the trace: its first action is a step, and the rest a run from there
  induction as generalizing s with
  | nil =>
    rw [runGuarded, Option.some.injEq] at h
    exact h ▸ Relation.ReflTransGen.refl
  | cons a as ih =>
    rw [runGuarded] at h
    cases hOk : step s a with
    | error e => simp [hOk] at h
    | ok t =>
      simp only [hOk, Option.ite_none_right_eq_some] at h
      have hRest := ih (fun b hb => hCheck b (List.mem_cons_of_mem _ hb)) h.2
      exact Relation.ReflTransGen.head ⟨a, hOk, hCheck a (List.mem_cons_self ..) _ _ h.1⟩ hRest

/-- An executable run is a run. -/
theorem reaches_of_runGuarded {check : σ → α → σ → Bool}
    (hCheck : ∀ t a t', check t a t' = true → guard t a t') {as : List α} {s s' : σ}
    (h : runGuarded step check s as = some s') : Reaches step guard s s' :=
  reaches_of_runGuarded_mem (fun a _ t t' => hCheck t a t') h

/-- A trace whose last state passes a test reaches a state that passes it. The state
itself is never written down: it can be large, and the test says all that is needed
of it. -/
theorem exists_reaches_of_runGuarded (check : σ → α → σ → Bool)
    (hCheck : ∀ t a t', check t a t' = true → guard t a t') (as : List α) (s : σ)
    (test : σ → Bool) (h : (runGuarded step check s as).any test = true) :
    ∃ s', Reaches step guard s s' ∧ test s' = true := by
  cases hRun : runGuarded step check s as with
  | none => simp [hRun] at h
  | some s' =>
    rw [hRun] at h
    exact ⟨s', reaches_of_runGuarded hCheck hRun, h⟩

/-- The same with a decidable fact about the state in place of the test. -/
theorem exists_reaches_where (step : σ → α → Except ε σ) (guard : σ → α → σ → Prop)
    (check : σ → α → σ → Bool) (hCheck : ∀ t a t', check t a t' = true → guard t a t')
    (as : List α) (s : σ) (P : σ → Prop) [DecidablePred P]
    (h : (runGuarded step check s as).any (fun t => decide (P t)) = true) :
    ∃ s', Reaches step guard s s' ∧ P s' := by
  obtain ⟨s', hReach, hTest⟩ := exists_reaches_of_runGuarded check hCheck as s _ h
  exact ⟨s', hReach, of_decide_eq_true hTest⟩

/-- The same where the guard of an action does not depend on the states. -/
theorem exists_reaches_of_mem (as : List α) (hAll : ∀ a ∈ as, ∀ t t', guard t a t') (s : σ)
    (test : σ → Bool) (h : (runGuarded step (fun _ _ _ => true) s as).any test = true) :
    ∃ s', Reaches step guard s s' ∧ test s' = true := by
  cases hRun : runGuarded step (fun _ _ _ => true) s as with
  | none => simp [hRun] at h
  | some s' =>
    rw [hRun] at h
    exact ⟨s', reaches_of_runGuarded_mem (fun a ha t t' _ => hAll a ha t t') hRun, h⟩

end PeerProtocol.Lib
