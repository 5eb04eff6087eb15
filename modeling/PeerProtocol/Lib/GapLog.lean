import PeerProtocol.Lib.Lists

/-!
# Logs with gaps

A replica of an append-only log that learns entries one at a time, in any
order: a list in which an entry not learnt yet is `none`. The first entry
learnt for an index stays.

This is the abstract shape of a queue that is filled from a network which
loses, repeats and reorders packets. Two facts make it work. What is learnt
does not depend on the order, as long as the network does not contradict
itself (`learn_eq_of_mem_iff`); and a replica that is only told true entries
stays a partial copy of the log, so that filling its gaps makes it the log
(`Agrees.eq_of_full`). Everything is phrased by what a replica *holds*, not by
the lists themselves: two replicas of one length that hold the same are equal
(`ext_holds`), which turns equalities of lists into pointwise statements.

* `put` — learn one entry, growing the replica by gaps when it lies past the
  end.
* `learn` — learn entries one after another; `learn_eq_of_mem_iff` — if they
  do not contradict each other, neither their order nor repetitions matter.
* `Agrees log g` — the replica is no longer than the log, and every entry it
  holds is the log's.
* `Agrees.put`, `Agrees.mono` — agreement survives learning true entries and
  the growth of the log.
* `Agrees.holds_of_filled` — so two replicas of one log agree with each other
  wherever both hold something.
* `Agrees.eq_of_full` — a replica without gaps that is as long as the log is
  the log.
-/

namespace PeerProtocol.Lib.GapLog

variable {α : Type _}

/-- The replica holds `a` at index `i`: the list reaches that far, and there is no
gap there. -/
def Holds (g : List (Option α)) (i : Nat) (a : α) : Prop := g[i]? = some (some a)

/-- The replica holds an entry at index `i`. -/
def Filled (g : List (Option α)) (i : Nat) : Prop := ∃ a, Holds g i a

/-- Extend the replica with gaps until index `i` exists. -/
def grow (g : List (Option α)) (i : Nat) : List (Option α) :=
  g ++ List.replicate (i + 1 - g.length) none

/-- Learn entry `i`, unless an entry is already held there: a second entry for the
same index is ignored, even where it is another one. -/
def put (g : List (Option α)) (i : Nat) (a : α) : List (Option α) :=
  match g[i]? with
  | some (some _) => g
  | _ => (grow g i).set i (some a)

theorem Holds.lt {g : List (Option α)} {i : Nat} {a : α} (h : Holds g i a) : i < g.length :=
  (List.getElem?_eq_some_iff.mp h).1

/-- What is held at an index is unique. -/
theorem Holds.inj {g : List (Option α)} {i : Nat} {a b : α} (ha : Holds g i a)
    (hb : Holds g i b) : a = b := by
  unfold Holds at ha hb
  rw [ha] at hb
  exact Option.some.inj (Option.some.inj hb)

/-- The replica reaches past the index, and never shrinks. -/
theorem length_grow (g : List (Option α)) (i : Nat) :
    (grow g i).length = max g.length (i + 1) := by
  simp [grow]
  omega

theorem holds_grow {g : List (Option α)} {i k : Nat} {a : α} :
    Holds (grow g i) k a ↔ Holds g k a := by
  unfold Holds grow
  rw [List.getElem?_append]
  split
  · rfl
  · rw [List.getElem?_replicate]
    have : g[k]? = none := List.getElem?_eq_none (by omega)
    split <;> simp [this]

/-- The first entry for an index stays. -/
theorem put_of_holds {g : List (Option α)} {i : Nat} {a b : α} (h : Holds g i b) :
    put g i a = g := by
  unfold Holds at h
  simp [put, h]

theorem put_of_not_filled {g : List (Option α)} {i : Nat} {a : α} (h : ¬ Filled g i) :
    put g i a = (grow g i).set i (some a) := by
  unfold put
  split
  · next b hb => exact absurd ⟨b, hb⟩ h
  · rfl

/-- What a replica holds after learning an entry: what it held, and the entry if its
index was free. An index that is filled keeps what came first, so the order in which
two entries for one index arrive can matter. -/
theorem holds_put_iff {g : List (Option α)} {i k : Nat} {a b : α} :
    Holds (put g i a) k b ↔ Holds g k b ∨ (k = i ∧ b = a ∧ ¬ Filled g i) := by
  by_cases hF : Filled g i
  · obtain ⟨c, hc⟩ := hF
    rw [put_of_holds hc]
    exact ⟨Or.inl, fun h => h.elim id fun ⟨_, _, hn⟩ => absurd ⟨c, hc⟩ hn⟩
  · rw [put_of_not_filled hF]
    have hLen : i < (grow g i).length := by rw [length_grow]; omega
    by_cases hk : k = i
    · subst hk
      have hNot : ¬ Holds g k b := fun h => hF ⟨b, h⟩
      simp only [Holds, List.getElem?_set_self hLen, Option.some.injEq] at hNot ⊢
      simp [hNot, hF, eq_comm]
    · have hSet : Holds ((grow g i).set i (some a)) k b ↔ Holds (grow g i) k b := by
        rw [Holds, List.getElem?_set_ne (Ne.symm hk), Holds]
      rw [hSet, holds_grow]
      simp [hk]

theorem holds_put_of_holds {g : List (Option α)} {i k : Nat} {a b : α} (h : Holds g k b) :
    Holds (put g i a) k b :=
  holds_put_iff.mpr (Or.inl h)

/-- Learning an entry fills its index. -/
theorem filled_put_self (g : List (Option α)) (i : Nat) (a : α) : Filled (put g i a) i := by
  by_cases hF : Filled g i
  · obtain ⟨b, hb⟩ := hF
    exact ⟨b, holds_put_of_holds hb⟩
  · exact ⟨a, holds_put_iff.mpr (Or.inr ⟨rfl, rfl, hF⟩)⟩

theorem filled_put_of_filled {g : List (Option α)} {i k : Nat} {a : α} (h : Filled g k) :
    Filled (put g i a) k :=
  let ⟨b, hb⟩ := h
  ⟨b, holds_put_of_holds hb⟩

/-- The length after learning does not depend on whether the entry was new. -/
theorem length_put (g : List (Option α)) (i : Nat) (a : α) :
    (put g i a).length = max g.length (i + 1) := by
  by_cases hF : Filled g i
  · obtain ⟨b, hb⟩ := hF
    have := hb.lt
    rw [put_of_holds hb]
    omega
  · rw [put_of_not_filled hF, List.length_set, length_grow]

/-- Replicas of one length that hold the same entries are the same: an index at
which nothing is held is a gap, so `Holds` and the length say all there is to a
replica. -/
theorem ext_holds {g g' : List (Option α)} (hLen : g.length = g'.length)
    (hHolds : ∀ i a, Holds g i a ↔ Holds g' i a) : g = g' := by
  -- inside, an index is held on both sides, or it is a gap on both
  refine List.ext_getElem hLen fun i hi hi' => ?_
  have hAt (a : α) : g[i] = some a ↔ g'[i] = some a := by
    have := hHolds i a
    rw [Holds, Holds, List.getElem?_eq_getElem hi, List.getElem?_eq_getElem hi'] at this
    simpa using this
  cases hg : g[i] with
  | some a => exact ((hAt a).mp hg).symm
  | none =>
    cases hg' : g'[i] with
    | none => rfl
    | some a =>
      rw [(hAt a).mpr hg'] at hg
      cases hg

-- ---------------------------------------------------------------------------
-- Learning many entries
-- A list of entries stands for what a sequence of packets carries:
-- repetitions and all.
-- ---------------------------------------------------------------------------

/-- Learn entries one after another, in the order in which they come. -/
def learn (g : List (Option α)) (es : List (Nat × α)) : List (Option α) :=
  es.foldl (fun g e => put g e.1 e.2) g

/-- No index has two different entries: the network repeats, but it does not
contradict itself. -/
def Consistent (es : List (Nat × α)) : Prop :=
  ∀ i a b, (i, a) ∈ es → (i, b) ∈ es → a = b

theorem learn_cons (g : List (Option α)) (e : Nat × α) (es : List (Nat × α)) :
    learn g (e :: es) = learn (put g e.1 e.2) es := rfl

theorem Consistent.tail {e : Nat × α} {es : List (Nat × α)} (h : Consistent (e :: es)) :
    Consistent es :=
  fun i a b ha hb => h i a b (List.mem_cons_of_mem _ ha) (List.mem_cons_of_mem _ hb)

theorem consistent_singleton (e : Nat × α) : Consistent [e] := by
  intro i a b ha hb
  rw [List.mem_singleton] at ha hb
  exact (Prod.mk.inj (ha.trans hb.symm)).2

/-- The length of a replica that has learned: it reaches past every entry. -/
theorem length_learn (g : List (Option α)) (es : List (Nat × α)) :
    (learn g es).length = (es.map (·.1 + 1)).foldr max g.length := by
  induction es generalizing g with
  | nil => rfl
  | cons e es ih =>
    have hSwap (l : List Nat) (a b : Nat) : l.foldr max (max a b) = max b (l.foldr max a) := by
      induction l with
      | nil => exact Nat.max_comm a b
      | cons c l ih => rw [List.foldr_cons, List.foldr_cons, ih, Nat.max_left_comm]
    rw [learn_cons, ih, length_put, hSwap, List.map_cons, List.foldr_cons]

/-- Learning keeps what a replica holds. -/
theorem holds_learn_of_holds {g : List (Option α)} {es : List (Nat × α)} {i : Nat} {a : α}
    (h : Holds g i a) : Holds (learn g es) i a := by
  induction es generalizing g with
  | nil => exact h
  | cons e es ih => exact ih (holds_put_of_holds h)

/-- A replica that has learned holds what it held, or something it learned where
it held nothing. -/
theorem holds_learn_cases {g : List (Option α)} {es : List (Nat × α)} {i : Nat} {a : α}
    (h : Holds (learn g es) i a) : Holds g i a ∨ (¬ Filled g i ∧ (i, a) ∈ es) := by
  induction es generalizing g with
  | nil => exact Or.inl h
  | cons e es ih =>
    rcases ih h with hPut | ⟨hFree, hMem⟩
    · rcases holds_put_iff.mp hPut with hOld | ⟨rfl, rfl, hFree⟩
      · exact Or.inl hOld
      · exact Or.inr ⟨hFree, List.mem_cons_self ..⟩
    · exact Or.inr ⟨fun hF => hFree (filled_put_of_filled hF), List.mem_cons_of_mem _ hMem⟩

/-- What a replica holds that has learned: what it held, and what it learned where
it held nothing. As nothing else about the list enters, neither the order of its
entries nor their repetitions matter, as long as no two of them disagree. -/
theorem holds_learn_iff {g : List (Option α)} {es : List (Nat × α)} (hCon : Consistent es)
    {i : Nat} {a : α} :
    Holds (learn g es) i a ↔ Holds g i a ∨ (¬ Filled g i ∧ (i, a) ∈ es) := by
  refine ⟨holds_learn_cases, ?_⟩
  rintro (hOld | ⟨hFree, hMem⟩)
  · exact holds_learn_of_holds hOld
  -- the first entry either fills its index, or finds it filled and changes nothing
  induction es generalizing g with
  | nil => cases hMem
  | cons e es ih =>
    obtain ⟨k, b⟩ := e
    rw [learn_cons]
    by_cases hHere : i = k
    · -- the first entry for the index stays, and all of them are equal
      subst hHere
      exact holds_learn_of_holds
        (holds_put_iff.mpr (Or.inr ⟨rfl, hCon i a b hMem (List.mem_cons_self ..), hFree⟩))
    · have hLater : (i, a) ∈ es := by
        rcases List.mem_cons.mp hMem with hEq | hLater
        · exact absurd (Prod.mk.inj hEq).1 hHere
        · exact hLater
      refine ih hCon.tail ?_ hLater
      rintro ⟨c, hc⟩
      rcases holds_put_iff.mp hc with hOld | ⟨hEq, _⟩
      · exact hFree ⟨c, hOld⟩
      · exact hHere hEq

/-- **Learning in any order**: only which entries are learned matters, neither how
often nor in which order. The lists need not even have the same length. -/
theorem learn_eq_of_mem_iff {g : List (Option α)} {es es' : List (Nat × α)}
    (hMem : ∀ e, e ∈ es ↔ e ∈ es') (hCon : Consistent es) : learn g es = learn g es' := by
  have hCon' : Consistent es' := fun i a b ha hb =>
    hCon i a b ((hMem _).mpr ha) ((hMem _).mpr hb)
  refine ext_holds ?_ fun i a => ?_
  · rw [length_learn, length_learn]
    refine foldr_max_eq_of_mem_iff (fun n => ?_) g.length
    simp only [List.mem_map, hMem]
  · rw [holds_learn_iff hCon, holds_learn_iff hCon', hMem]

-- ---------------------------------------------------------------------------
-- Agreement with a log
-- The log is only ever appended to; a replica may be behind it in length and
-- in its gaps.
-- ---------------------------------------------------------------------------

/-- The replica is no longer than the log and holds only the log's entries. Nothing
is said about which entries it holds. -/
structure Agrees (log : List α) (g : List (Option α)) : Prop where
  length_le : g.length ≤ log.length
  entry : ∀ i a, Holds g i a → log[i]? = some a

/-- A replica that has learnt nothing. -/
theorem agrees_nil (log : List α) : Agrees log [] where
  length_le := Nat.zero_le _
  entry := fun i a h => by simp [Holds] at h

/-- Learning an entry of the log keeps agreement. -/
theorem Agrees.put {log : List α} {g : List (Option α)} {i : Nat} {a : α}
    (h : Agrees log g) (hEntry : log[i]? = some a) : Agrees log (put g i a) where
  length_le := by
    have := (List.getElem?_eq_some_iff.mp hEntry).1
    have := h.length_le
    rw [length_put]
    omega
  entry := by
    intro k b hk
    rcases holds_put_iff.mp hk with hOld | ⟨rfl, rfl, _⟩
    · exact h.entry k b hOld
    · exact hEntry

/-- Agreement survives the growth of the log, because that leaves the old entries
where they are. -/
theorem Agrees.mono {log log' : List α} {g : List (Option α)} (h : Agrees log g)
    (hPre : log <+: log') : Agrees log' g where
  length_le := Nat.le_trans h.length_le hPre.length_le
  entry := fun i a hi => getElem?_of_isPrefix hPre (h.entry i a hi)

/-- Of two replicas that agree with a log, what one holds the other does where it
holds anything. -/
theorem Agrees.holds_of_filled {log : List α} {g g' : List (Option α)} (h : Agrees log g)
    (h' : Agrees log g') {i : Nat} {a : α} (ha : Holds g i a) (hFilled : Filled g' i) :
    Holds g' i a := by
  obtain ⟨b, hb⟩ := hFilled
  have hEq := h'.entry i b hb
  rw [h.entry i a ha, Option.some.injEq] at hEq
  rw [hEq]
  exact hb

/-- **Completeness**: a replica that agrees with the log and holds every index
of it is the log. -/
theorem Agrees.eq_of_full {log : List α} {g : List (Option α)} (h : Agrees log g)
    (hFull : ∀ i, i < log.length → Filled g i) : g = log.map some := by
  have hLen : g.length = log.length := by
    rcases Nat.eq_zero_or_pos log.length with h0 | hPos
    · have := h.length_le
      omega
    · obtain ⟨a, ha⟩ := hFull (log.length - 1) (by omega)
      have := ha.lt
      have := h.length_le
      omega
  apply List.ext_getElem? fun i => ?_
  by_cases hi : i < log.length
  · obtain ⟨a, ha⟩ := hFull i hi
    rw [ha, List.getElem?_map, h.entry i a ha, Option.map_some]
  · rw [List.getElem?_eq_none (by omega), List.getElem?_eq_none (by simpa using hi)]

end PeerProtocol.Lib.GapLog
