import Mathlib.Tactic

/-!
# Words of flags

A word stands for a set of flags, and a computation that may go wrong in many
places unites the words of what went wrong. What can be read off the result is
decided by which words have flags in common: a caller that tests a returned
word for a code sees every code whose flags the word contains, raised or not.

The library is about such words in general. `flags : α → Set ι` gives the
flags of a word, the *codes* are the words that single places raise, and
`raised` says which codes were raised in a computation. Nothing is assumed
about the codes until the last section, where they are disjoint except for one
pair.

* `Reports` — a word has the flags of the codes that were raised, and no
  other.
* `Reports.none`, `Reports.single`, `Reports.or` — how such words come about:
  a computation is analysed by following its structure with these three.
* `Checked`, `Reports.bad`, `Reports.good` — checks that are made in turn,
  where the first that fails raises its code and the later ones are not made.
* `Reports.meets_iff` — when a word meets a code.
* `Reports.exact_iff` — where only two codes have a flag in common, every code
  is told by the word exactly if both of them were raised, or neither. So one
  shared flag is enough to make a status unreliable, and the theorem says for
  which inputs.
-/

namespace PeerProtocol.Lib

variable {α ι : Type _}

/-- Two words have a flag in common. For words of bits this is `x & y ≠ 0`, the test
that a caller makes. -/
def Meets (flags : α → Set ι) (x y : α) : Prop := ∃ i, i ∈ flags x ∧ i ∈ flags y

/-- The word `x` has the flags of the codes that were raised. The codes that can be
raised at all are among `codes`: that is what later tells that a code outside was
not raised. -/
structure Reports (flags : α → Set ι) (codes : Set α) (x : α) (raised : α → Prop) : Prop where
  mem_iff : ∀ i, i ∈ flags x ↔ ∃ e, raised e ∧ i ∈ flags e
  known : ∀ e, raised e → e ∈ codes

variable {flags : α → Set ι} {codes codes' : Set α} {x y z e : α} {raised raised' : α → Prop}

theorem Reports.none (hx : flags x = ∅) (h : ∀ e, ¬ raised e) : Reports flags codes x raised where
  mem_iff := by
    intro i
    rw [hx]
    exact ⟨fun hi => absurd hi (Set.notMem_empty i), fun ⟨e, he, _⟩ => absurd he (h e)⟩
  known := fun e he => absurd he (h e)

theorem Reports.single (hx : x ∈ codes) (h : ∀ e, raised e ↔ e = x) :
    Reports flags codes x raised where
  mem_iff := by
    intro i
    constructor
    · intro hi
      exact ⟨x, (h x).mpr rfl, hi⟩
    · rintro ⟨e, he, hi⟩
      rwa [(h e).mp he] at hi
  known := by
    intro e he
    rwa [(h e).mp he]

theorem Reports.or (hz : flags z = flags x ∪ flags y) (h : Reports flags codes x raised)
    (h' : Reports flags codes y raised') : Reports flags codes z fun e => raised e ∨ raised' e where
  mem_iff := by
    intro i
    rw [hz, Set.mem_union, h.mem_iff, h'.mem_iff]
    simp only [or_and_right, exists_or]
  known := fun e he => he.elim (h.known e) (h'.known e)

/-- What was raised can be described in another way. -/
theorem Reports.congr (h : Reports flags codes x raised) (hEq : ∀ e, raised' e ↔ raised e) :
    Reports flags codes x raised' where
  mem_iff := by
    intro i
    rw [h.mem_iff]
    simp only [hEq]
  known := fun e he => h.known e ((hEq e).mp he)

/-- There may be more codes than those that the computation knows. -/
theorem Reports.mono (h : Reports flags codes x raised) (hCodes : codes ⊆ codes') :
    Reports flags codes' x raised where
  mem_iff := h.mem_iff
  known := fun e he => hCodes (h.known e he)

/-- A word meets what one of its codes meets. -/
theorem Reports.meets_iff (h : Reports flags codes x raised) :
    Meets flags x e ↔ ∃ e', raised e' ∧ Meets flags e' e := by
  constructor
  · rintro ⟨i, hx, he⟩
    obtain ⟨e', he', hi⟩ := (h.mem_iff i).mp hx
    exact ⟨e', he', i, hi, he⟩
  · rintro ⟨e', he', i, hi, he⟩
    exact ⟨i, (h.mem_iff i).mpr ⟨e', he', hi⟩, he⟩

/-- The condition under which the computation was made at all. -/
theorem Reports.when {c : Prop} (hc : c) (h : Reports flags codes x raised) :
    Reports flags codes x fun e => c ∧ raised e :=
  h.congr fun _ => and_iff_right hc

-- ---------------------------------------------------------------------------
-- Checks
-- A function of the program that validates its arguments in turn returns the
-- code of the first check that fails.
-- ---------------------------------------------------------------------------

/-- What is raised where a check comes first: its code if it fails, and else what
is raised behind it. -/
def Checked (fails : Prop) (x : α) (raised : α → Prop) (e : α) : Prop :=
  fails ∧ e = x ∨ ¬ fails ∧ raised e

variable {fails : Prop}

/-- Where the check fails, its code is all that is raised. -/
theorem checked_of_fails (h : fails) : Checked fails x raised e ↔ e = x := by
  simp [Checked, h]

/-- Where it holds, it raises nothing. -/
theorem checked_of_holds (h : ¬ fails) : Checked fails x raised e ↔ raised e := by
  simp [Checked, h]

theorem Reports.bad (hBad : fails) (hx : x ∈ codes) :
    Reports flags codes x (Checked fails x raised) :=
  .single hx fun _ => checked_of_fails hBad

theorem Reports.good (hGood : ¬ fails) (h : Reports flags codes y raised) :
    Reports flags codes y (Checked fails x raised) :=
  h.congr fun _ => checked_of_holds hGood

-- ---------------------------------------------------------------------------
-- Codes with a flag in common
-- ---------------------------------------------------------------------------

/-- Every code has a flag, and no two have one in common, but `a` and `b`: the
situation of a table of bits in which one entry has two. -/
def ApartBut (flags : α → Set ι) (codes : Set α) (a b : α) : Prop :=
  ∀ e ∈ codes, ∀ e' ∈ codes,
    Meets flags e e' ↔ e = e' ∨ e = a ∧ e' = b ∨ e = b ∧ e' = a

variable {a b : α}

/-- A word meets a code if that was raised, or the other one of the pair was. -/
theorem Reports.meets_iff_raised (h : Reports flags codes x raised)
    (hApart : ApartBut flags codes a b) (he : e ∈ codes) :
    Meets flags x e ↔ raised e ∨ raised a ∧ e = b ∨ raised b ∧ e = a := by
  rw [h.meets_iff]
  constructor
  · rintro ⟨e', he', hMeets⟩
    rcases (hApart e' (h.known e' he') e he).mp hMeets with rfl | ⟨rfl, rfl⟩ | ⟨rfl, rfl⟩
    · exact Or.inl he'
    · exact Or.inr (Or.inl ⟨he', rfl⟩)
    · exact Or.inr (Or.inr ⟨he', rfl⟩)
  · rintro (hSelf | ⟨ha, rfl⟩ | ⟨hb, rfl⟩)
    · exact ⟨e, hSelf, (hApart e he e he).mpr (Or.inl rfl)⟩
    · exact ⟨a, ha, (hApart a (h.known a ha) e he).mpr (Or.inr (Or.inl ⟨rfl, rfl⟩))⟩
    · exact ⟨b, hb, (hApart b (h.known b hb) e he).mpr (Or.inr (Or.inr ⟨rfl, rfl⟩))⟩

/-- **What a word tells.** It meets exactly the codes that were raised, among
those that one asks for, if and only if the two with a common flag were raised
both or not at all. -/
theorem Reports.exact_iff (h : Reports flags codes x raised) (hApart : ApartBut flags codes a b)
    {asked : Set α} (hAsked : asked ⊆ codes) (ha : a ∈ asked) (hb : b ∈ asked) :
    (∀ e ∈ asked, (Meets flags x e ↔ raised e)) ↔ (raised a ↔ raised b) := by
  constructor
  · intro hExact
    -- either of the two codes, if raised, is met as the other
    have hMeetsA := h.meets_iff_raised hApart (hAsked ha)
    have hMeetsB := h.meets_iff_raised hApart (hAsked hb)
    rw [hExact a ha] at hMeetsA
    rw [hExact b hb] at hMeetsB
    exact ⟨fun hRaised => hMeetsB.mpr (Or.inr (Or.inl ⟨hRaised, rfl⟩)),
      fun hRaised => hMeetsA.mpr (Or.inr (Or.inr ⟨hRaised, rfl⟩))⟩
  · intro hBoth e he
    rw [h.meets_iff_raised hApart (hAsked he)]
    constructor
    · rintro (hSelf | ⟨hRaised, rfl⟩ | ⟨hRaised, rfl⟩)
      · exact hSelf
      · exact hBoth.mp hRaised
      · exact hBoth.mpr hRaised
    · exact Or.inl

end PeerProtocol.Lib
