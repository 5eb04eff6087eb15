import Mathlib.Tactic

/-!
# Greedy splitting

Sizes that are put into consecutive groups, a new group only where the next
size does not fit the capacity any more, and where a new group may be refused.
This is what a packer does that fills one packet after another and never goes
back to an earlier one.

Two questions are answered about it, both without looking at any packer. The
first is how good it is: among all ways to cut a list into consecutive groups
that fit, the greedy one has the fewest groups (`Greedy.length_le`). The
argument is the usual one of staying ahead: after as many groups, the greedy
split has covered at least as much as any other. The second is what a packer
finds that looks at the total of a group only at the moment it closes the
group, with a limit below the capacity: whether every check succeeds is a
condition on the groups of the greedy split alone (`guarded_iff_greedy`).

* `Greedy` — the groups of such a split; `exists_greedy` — every list of sizes
  that fit has one.
* `Greedy.length_le` — no split with groups that fit has fewer groups.
* `Guarded` — what a splitter that looks at a group's total only when it
  closes the group finds: every total is below a limit.
* `guarded_iff_greedy` — that is a condition on the greedy groups, up to the
  first that is refused.
-/

namespace PeerProtocol.Lib

/-- Groups of sizes: each fits the capacity, and has no room for the first size
after it. Groups are never empty, so a size that does not fit by itself has no such
split. -/
inductive Greedy (cap : Nat) : List (List Nat) → Prop where
  | nil : Greedy cap []
  | cons {group : List Nat} {groups : List (List Nat)} (hNe : group ≠ [])
      (hFits : group.sum ≤ cap) (hFull : ∀ s, groups.flatten.head? = some s → cap < group.sum + s)
      (hRest : Greedy cap groups) : Greedy cap (group :: groups)

/-- The conditions on the first group, as a conjunction. -/
theorem greedy_cons_iff {cap : Nat} {group : List Nat} {groups : List (List Nat)} :
    Greedy cap (group :: groups) ↔ group ≠ [] ∧ group.sum ≤ cap ∧
      (∀ s, groups.flatten.head? = some s → cap < group.sum + s) ∧ Greedy cap groups := by
  constructor
  · rintro ⟨⟩
    exact ⟨by assumption, by assumption, by assumption, by assumption⟩
  · rintro ⟨hNe, hFits, hFull, hRest⟩
    exact .cons hNe hFits hFull hRest

theorem Greedy.ne_nil {cap : Nat} {groups : List (List Nat)} (h : Greedy cap groups) :
    ∀ group ∈ groups, group ≠ [] := by
  induction h with
  | nil => simp
  | cons hNe _ _ _ ih => exact List.forall_mem_cons.mpr ⟨hNe, ih⟩

theorem Greedy.sum_le {cap : Nat} {groups : List (List Nat)} (h : Greedy cap groups) :
    ∀ group ∈ groups, group.sum ≤ cap := by
  induction h with
  | nil => simp
  | cons _ hFits _ _ ih => exact List.forall_mem_cons.mpr ⟨hFits, ih⟩

/-- A group is closed before a size that has no room in it, which is the first
of the next group. -/
theorem Greedy.close {cap s : Nat} {opened group : List Nat} {groups : List (List Nat)}
    (h : Greedy cap ((s :: group) :: groups)) (hNe : opened ≠ []) (hOpen : opened.sum ≤ cap)
    (hFull : cap < opened.sum + s) : Greedy cap (opened :: (s :: group) :: groups) := by
  refine .cons hNe hOpen ?_ h
  intro t ht
  obtain rfl : s = t := by simpa using ht
  exact hFull

/-- The first size is the first one of the first group. -/
theorem Greedy.eq_cons {cap s : Nat} {sizes : List Nat} {groups : List (List Nat)}
    (h : Greedy cap groups) (hEq : groups.flatten = s :: sizes) :
    ∃ group rest, groups = (s :: group) :: rest ∧ group ++ rest.flatten = sizes := by
  cases h with
  | nil => cases hEq
  | @cons first rest hNe =>
    cases first with
    | nil => exact absurd rfl hNe
    | cons t group =>
      obtain ⟨rfl, hBehind⟩ := List.cons.inj hEq
      exact ⟨group, rest, rfl, hBehind⟩

/-- A group that is open can be filled and followed by others: the sizes left are
split into more members of the open group, up to the first that does not fit, and
the groups of a greedy split of what is behind. -/
theorem exists_greedy_open {cap : Nat} (sizes : List Nat) (hFits : ∀ s ∈ sizes, s ≤ cap)
    {opened : List Nat} (hNe : opened ≠ []) (hOpen : opened.sum ≤ cap) :
    ∃ more groups, more ++ groups.flatten = sizes ∧ Greedy cap ((opened ++ more) :: groups) := by
  induction sizes generalizing opened with
  | nil => exact ⟨[], [], rfl, by rw [List.append_nil]; exact .cons hNe hOpen (by simp) .nil⟩
  | cons s sizes ih =>
    have hRest : ∀ t ∈ sizes, t ≤ cap := fun t ht => hFits t (List.mem_cons_of_mem _ ht)
    rcases Nat.lt_or_ge cap (opened.sum + s) with hFull | hRoom
    · -- the size opens a group of its own
      obtain ⟨more, groups, hEq, hGreedy⟩ :=
        ih hRest (List.cons_ne_nil s []) (by simpa using hFits s (List.mem_cons_self ..))
      refine ⟨[], (s :: more) :: groups, by simp [hEq], ?_⟩
      rw [List.append_nil]
      exact hGreedy.close hNe hOpen hFull
    · obtain ⟨more, groups, hEq, hGreedy⟩ := ih hRest (show opened ++ [s] ≠ [] by simp)
        (by simpa using hRoom)
      exact ⟨s :: more, groups, by rw [List.cons_append, hEq], by simpa using hGreedy⟩

/-- Every list of sizes that fit can be split greedily. -/
theorem exists_greedy {cap : Nat} {sizes : List Nat} (hFits : ∀ s ∈ sizes, s ≤ cap) :
    ∃ groups, groups.flatten = sizes ∧ Greedy cap groups := by
  cases sizes with
  | nil => exact ⟨[], rfl, .nil⟩
  | cons s sizes =>
    obtain ⟨more, groups, hEq, hGreedy⟩ := exists_greedy_open sizes
      (fun t ht => hFits t (List.mem_cons_of_mem _ ht)) (List.cons_ne_nil s [])
      (by simpa using hFits s (List.mem_cons_self ..))
    exact ⟨([s] ++ more) :: groups, by simp [hEq], hGreedy⟩

/-- **A greedy split stays ahead** of any other split that has at least as much
to cover: when both have closed as many groups, no more is left of it. -/
theorem Greedy.length_le_of_suffix {cap : Nat} {groups other : List (List Nat)}
    (h : Greedy cap groups) (hFits : ∀ g ∈ other, g.sum ≤ cap)
    (hMore : groups.flatten <:+ other.flatten) : groups.length ≤ other.length := by
  induction h generalizing other with
  | nil => exact Nat.zero_le _
  | @cons group groups hNe _ hFull _ ih =>
    obtain ⟨before, hEq⟩ := hMore
    rw [List.flatten_cons, ← List.append_assoc] at hEq
    cases other with
    | nil =>
      -- the greedy group is not empty, so there is something to cover
      rw [List.flatten_nil, List.append_eq_nil_iff, List.append_eq_nil_iff] at hEq
      exact absurd hEq.1.2 hNe
    | cons first rest =>
      obtain ⟨hFirst, hRest⟩ := List.forall_mem_cons.mp hFits
      rw [List.flatten_cons] at hEq
      refine Nat.succ_le_succ (ih hRest ?_)
      rcases List.append_eq_append_iff.mp hEq with ⟨beyond, hFirstEq, hFlat⟩ | ⟨left, _, hFlat⟩
      · cases beyond with
        | nil =>
          rw [hFlat, List.nil_append]
        | cons s beyond =>
          -- the other's group would go past the greedy one
          have hOver := hFull s (by rw [hFlat]; rfl)
          rw [hFirstEq] at hFirst
          simp only [List.sum_append, List.sum_cons] at hFirst
          omega
      · exact ⟨left, hFlat.symm⟩

/-- **Optimality**: no split of the sizes into groups that fit has fewer groups. -/
theorem Greedy.length_le {cap : Nat} {groups other : List (List Nat)} (h : Greedy cap groups)
    (hFits : ∀ g ∈ other, g.sum ≤ cap) (hFlat : other.flatten = groups.flatten) :
    groups.length ≤ other.length :=
  h.length_le_of_suffix hFits (hFlat ▸ List.suffix_refl _)

-- ---------------------------------------------------------------------------
-- Totals below a limit
-- The limit is not the capacity: a group may fit and still be too heavy.
-- Opening a group takes an allocation, which may be refused; then nothing
-- behind it is looked at.
-- ---------------------------------------------------------------------------

/-- The total of every group that is granted, and after which none is refused
before it, is below the limit. -/
def Light (limit : Nat) (grants : Nat → Bool) (groups : List (List Nat)) : Prop :=
  ∀ (i : Nat) (group : List Nat), groups[i]? = some group → (∀ k, k ≤ i → grants k = true) →
    group.sum < limit

/-- What is found by a splitter that has filled the open group, if there is
one, up to `load`: each group it closes is below the limit. A new group is only
opened if it is granted. -/
def Guarded (cap limit : Nat) : Option Nat → List Nat → (Nat → Bool) → Prop
  | none, [], _ => True
  | some load, [], _ => load < limit
  | none, s :: sizes, grants =>
    grants 0 = true → Guarded cap limit (some s) sizes fun k => grants (k + 1)
  | some load, s :: sizes, grants =>
    if load + s ≤ cap then Guarded cap limit (some (load + s)) sizes grants
    else load < limit ∧
      (grants 0 = true → Guarded cap limit (some s) sizes fun k => grants (k + 1))

/-- The first group is looked at if it is granted, and so are the ones behind it.
Where the first is refused nothing behind it is looked at either, which is why the
condition is empty there. -/
theorem light_cons {limit : Nat} {grants : Nat → Bool} {group : List Nat}
    {groups : List (List Nat)} :
    Light limit grants (group :: groups) ↔
      (grants 0 = true → group.sum < limit ∧ Light limit (fun k => grants (k + 1)) groups) := by
  constructor
  · intro h hGrant
    refine ⟨h 0 group rfl fun k hk => by rwa [Nat.le_zero.mp hk], fun i g hg hAll => ?_⟩
    refine h (i + 1) g hg fun k hk => ?_
    cases k with
    | zero => exact hGrant
    | succ k => exact hAll k (by omega)
  · intro h i g hg hAll
    obtain ⟨hHead, hRest⟩ := h (hAll 0 (Nat.zero_le i))
    cases i with
    | zero =>
      obtain rfl : group = g := by simpa using hg
      exact hHead
    | succ i => exact hRest i g hg fun k hk => hAll (k + 1) (by omega)

/-- The load of a guarded group is below the limit. -/
theorem Guarded.load_lt {cap limit load : Nat} {sizes : List Nat} {grants : Nat → Bool}
    (h : Guarded cap limit (some load) sizes grants) : load < limit := by
  induction sizes generalizing load with
  | nil => exact h
  | cons s sizes ih =>
    rw [Guarded] at h
    split at h
    · have := ih h
      omega
    · exact h.1

/-- With a group open: the guard is a condition on how it is filled, and on the
groups behind it. -/
theorem guarded_open_iff {cap limit : Nat} {sizes : List Nat} (hFits : ∀ s ∈ sizes, s ≤ cap)
    {opened : List Nat} (hNe : opened ≠ []) (hOpen : opened.sum ≤ cap) (grants : Nat → Bool) :
    Guarded cap limit (some opened.sum) sizes grants ↔
      ∃ more groups, more ++ groups.flatten = sizes ∧ Greedy cap ((opened ++ more) :: groups) ∧
        (opened ++ more).sum < limit ∧ Light limit grants groups := by
  -- on the sizes: the next one goes into the open group, or closes it and opens another
  induction sizes generalizing opened grants with
  | nil =>
    rw [Guarded]
    constructor
    · intro hLoad
      refine ⟨[], [], rfl, ?_, by simpa using hLoad, by simp [Light]⟩
      rw [List.append_nil]
      exact .cons hNe hOpen (by simp) .nil
    · rintro ⟨more, groups, hEq, _, hSum, _⟩
      rw [(List.append_eq_nil_iff.mp hEq).1, List.append_nil] at hSum
      exact hSum
  | cons s sizes ih =>
    have hRest : ∀ t ∈ sizes, t ≤ cap := fun t ht => hFits t (List.mem_cons_of_mem _ ht)
    rw [Guarded]
    split
    · next hRoom =>
      have hSum : (opened ++ [s]).sum = opened.sum + s := by simp
      rw [← hSum, ih hRest (by simp) (by omega)]
      constructor
      · rintro ⟨more, groups, hEq, hGreedy, hLight⟩
        refine ⟨s :: more, groups, by rw [List.cons_append, hEq], ?_⟩
        simpa using ⟨by simpa using hGreedy, by simpa using hLight⟩
      · rintro ⟨more, groups, hEq, hGreedy, hLight⟩
        cases more with
        | nil =>
          -- the group would have been closed although there was room
          obtain ⟨_, _, hFull, _⟩ := greedy_cons_iff.mp hGreedy
          rw [List.nil_append] at hEq
          have := hFull s (by rw [hEq]; rfl)
          rw [List.append_nil] at this
          omega
        | cons t more =>
          obtain ⟨rfl, hMore⟩ := List.cons.inj hEq
          exact ⟨more, groups, hMore, by simpa using hGreedy, by simpa using hLight⟩
    · next hFull =>
      have hOne : [s].sum = s := by simp
      have hNew := ih hRest (List.cons_ne_nil s [])
        (by rw [hOne]; exact hFits s (List.mem_cons_self ..)) fun k => grants (k + 1)
      rw [hOne] at hNew
      have hOver : cap < opened.sum + s := Nat.lt_of_not_le hFull
      constructor
      · rintro ⟨hLoad, hGranted⟩
        by_cases hGrant : grants 0 = true
        · obtain ⟨more, groups, hEq, hGreedy, hSum, hLight⟩ := hNew.mp (hGranted hGrant)
          refine ⟨[], (s :: more) :: groups, by simp [hEq], ?_, by simpa using hLoad,
            light_cons.mpr fun _ => ⟨hSum, hLight⟩⟩
          rw [List.append_nil]
          exact hGreedy.close hNe hOpen hOver
        · -- what is behind a refused group does not matter
          obtain ⟨more, groups, hEq, hGreedy⟩ := exists_greedy_open sizes hRest
            (List.cons_ne_nil s []) (by rw [hOne]; exact hFits s (List.mem_cons_self ..))
          refine ⟨[], (s :: more) :: groups, by simp [hEq], ?_, by simpa using hLoad,
            light_cons.mpr fun h => absurd h hGrant⟩
          rw [List.append_nil]
          exact hGreedy.close hNe hOpen hOver
      · rintro ⟨more, groups, hEq, hGreedy, hSum, hLight⟩
        obtain ⟨_, hFits', _, hTail⟩ := greedy_cons_iff.mp hGreedy
        cases more with
        | cons t more =>
          -- the size would have been put into a group without room for it
          obtain ⟨rfl, _⟩ := List.cons.inj hEq
          simp only [List.sum_append, List.sum_cons] at hFits'
          omega
        | nil =>
          rw [List.append_nil] at hSum
          obtain ⟨group, rest, rfl, hBehind⟩ := hTail.eq_cons hEq
          exact ⟨hSum, fun hGrant => hNew.mpr
            ⟨group, rest, hBehind, hTail, light_cons.mp hLight hGrant⟩⟩

/-- **The guard on the greedy groups**: whatever is granted, every total that is
looked at is below the limit exactly if the groups of a greedy split are, up to
the first that is refused. -/
theorem guarded_iff_greedy {cap limit : Nat} {sizes : List Nat} (hFits : ∀ s ∈ sizes, s ≤ cap)
    (grants : Nat → Bool) :
    Guarded cap limit none sizes grants ↔
      ∃ groups, groups.flatten = sizes ∧ Greedy cap groups ∧ Light limit grants groups := by
  cases sizes with
  | nil =>
    refine ⟨fun _ => ⟨[], rfl, .nil, by simp [Light]⟩, fun _ => ?_⟩
    simp [Guarded]
  | cons s sizes =>
    have hRest : ∀ t ∈ sizes, t ≤ cap := fun t ht => hFits t (List.mem_cons_of_mem _ ht)
    have hOne : [s].sum = s := by simp
    have hNew : Guarded cap limit (some [s].sum) sizes (fun k => grants (k + 1)) ↔ _ :=
      guarded_open_iff hRest (List.cons_ne_nil s [])
        (by rw [hOne]; exact hFits s (List.mem_cons_self ..)) fun k => grants (k + 1)
    rw [hOne] at hNew
    rw [Guarded, hNew]
    constructor
    · intro h
      -- without the first grant there is nothing to close
      by_cases hGrant : grants 0 = true
      · obtain ⟨more, groups, hEq, hGreedy, hSum, hLight⟩ := h hGrant
        exact ⟨([s] ++ more) :: groups, by simp [hEq], hGreedy, light_cons.mpr fun _ => ⟨hSum, hLight⟩⟩
      · obtain ⟨groups, hEq, hGreedy⟩ := exists_greedy hFits
        refine ⟨groups, hEq, hGreedy, fun i g _ hAll => ?_⟩
        exact absurd (hAll 0 (Nat.zero_le i)) hGrant
    · rintro ⟨groups, hEq, hGreedy, hLight⟩ hGrant
      obtain ⟨group, rest, rfl, hBehind⟩ := hGreedy.eq_cons hEq
      exact ⟨group, rest, hBehind, hGreedy, light_cons.mp hLight hGrant⟩

end PeerProtocol.Lib
