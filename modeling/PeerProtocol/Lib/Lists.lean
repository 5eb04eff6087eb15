import Mathlib.Tactic

/-!
# Lists by their positions

Facts about lists that the development uses in several places and that the
library does not state in this form. They are of four kinds.

* Two lists related position by position (`List.Forall₂`): what is at a
  position or a member of one list has its counterpart in the other. A loop
  that treats the slots of a peer one by one leaves such a pair of lists.
* A list with one position changed, by `set` or `modify`, as a call leaves it
  that works on one slot: its entries are the old ones, but for one.
* Concatenations of which a test picks one piece out: the packets of one slot
  among all the packets that a loop over the slots emits.
* The maximum of a list, which only depends on its members: a clock that
  follows the largest time it was given does not depend on the order.
-/

namespace PeerProtocol.Lib

variable {α β : Type _} {R : α → β → Prop} {l : List α} {l' : List β}

/-- Every member of the second list is related to some member of the first. -/
theorem exists_of_forall₂_right {b : β} (h : List.Forall₂ R l l') (hb : b ∈ l') :
    ∃ a ∈ l, R a b := by
  induction h with
  | nil => simp at hb
  | @cons a _ l _ hHead _ ih =>
    rcases List.mem_cons.mp hb with rfl | hTail
    · exact ⟨a, List.mem_cons_self .., hHead⟩
    · obtain ⟨a', ha', hR⟩ := ih hTail
      exact ⟨a', List.mem_cons_of_mem _ ha', hR⟩

/-- What is at a position of the first list is related to what is at the same
position of the second one, which is there. -/
theorem getElem?_of_forall₂ {i : Nat} {a : α} (h : List.Forall₂ R l l') (ha : l[i]? = some a) :
    ∃ b, l'[i]? = some b ∧ R a b := by
  obtain ⟨hi, rfl⟩ := List.getElem?_eq_some_iff.mp ha
  have hi' : i < l'.length := h.length_eq ▸ hi
  exact ⟨l'[i], List.getElem?_eq_getElem hi', (List.forall₂_iff_get.mp h).2 i hi hi'⟩

/-- The same from a position of the second list. -/
theorem getElem?_of_forall₂_right {i : Nat} {b : β} (h : List.Forall₂ R l l')
    (hb : l'[i]? = some b) : ∃ a, l[i]? = some a ∧ R a b :=
  getElem?_of_forall₂ h.flip hb

/-- A list is related to its image under `f` if each element is related to its own
image. -/
theorem forall₂_map_same {R : α → α → Prop} {f : α → α} (l : List α) (h : ∀ a, R a (f a)) :
    List.Forall₂ R l (l.map f) :=
  List.forall₂_map_right_iff.mpr (List.forall₂_same.mpr fun a _ => h a)

/-- Lists of one length have the same positions: where one has an entry so has the
other. -/
theorem exists_getElem?_of_length_eq {as : List α} {bs : List β} (h : bs.length = as.length) {i : Nat}
    {b : β} (hb : bs[i]? = some b) : ∃ a, as[i]? = some a := by
  have hLt := (List.getElem?_eq_some_iff.mp hb).1
  rw [h] at hLt
  exact ⟨_, List.getElem?_eq_getElem hLt⟩

/-- An entry of a list with one position set is the new one, or an old one elsewhere. -/
theorem getElem?_set_cases {i j : Nat} {a b : α} (h : (l.set i a)[j]? = some b) :
    (i = j ∧ b = a) ∨ (i ≠ j ∧ l[j]? = some b) := by
  by_cases hij : i = j
  · subst hij
    rw [List.getElem?_set] at h
    simp only [if_true] at h
    split at h
    · exact Or.inl ⟨rfl, (Option.some.inj h).symm⟩
    · simp at h
  · rw [List.getElem?_set_ne hij] at h
    exact Or.inr ⟨hij, h⟩

/-- The first position with a property: there is an entry that has it, and no entry
before. -/
theorem findIdx?_eq_some_iff_getElem? {p : α → Bool} {i : Nat} :
    l.findIdx? p = some i ↔
      ∃ a, l[i]? = some a ∧ p a = true ∧ ∀ k < i, ∀ b, l[k]? = some b → p b = false := by
  rw [List.findIdx?_eq_some_iff_getElem]
  constructor
  · rintro ⟨hi, hHere, hBefore⟩
    refine ⟨l[i], List.getElem?_eq_getElem hi, hHere, fun k hk b hb => ?_⟩
    obtain ⟨_, rfl⟩ := List.getElem?_eq_some_iff.mp hb
    exact Bool.eq_false_iff.mpr (hBefore k hk)
  · rintro ⟨a, ha, hHere, hBefore⟩
    obtain ⟨hi, rfl⟩ := List.getElem?_eq_some_iff.mp ha
    exact ⟨hi, hHere, fun k hk => Bool.eq_false_iff.mp
      (hBefore k hk _ (List.getElem?_eq_getElem (hk.trans hi)))⟩

/-- Changing a position by a function sets it to the image of what is there. -/
theorem modify_eq_set_of_getElem? {i : Nat} {a : α} (h : l[i]? = some a) (f : α → α) :
    l.modify i f = l.set i (f a) := by
  have : Inhabited α := ⟨a⟩
  rw [List.modify_eq_set, h]
  rfl

/-- Each entry of a list with one position modified comes from the entry there before. -/
theorem exists_of_getElem?_modify {i j : Nat} {f : α → α} {b : α}
    (h : (l.modify i f)[j]? = some b) : ∃ a, l[j]? = some a ∧ (b = a ∨ b = f a) := by
  rw [List.getElem?_modify] at h
  obtain ⟨a, ha, rfl⟩ := Option.map_eq_some_iff.mp h
  refine ⟨a, ha, ?_⟩
  split
  · exact Or.inr rfl
  · exact Or.inl rfl

/-- A list that is put together of a head and a tail has the entries of the tail one
further. -/
theorem getElem?_head_append {tail : List α} (h : tail.length = l.tail.length) {j : Nat}
    (hj : 1 ≤ j) : (l.take 1 ++ tail)[j]? = tail[j - 1]? := by
  obtain ⟨i, rfl⟩ : ∃ i, j = i + 1 := ⟨j - 1, by omega⟩
  cases l with
  | nil =>
    obtain rfl : tail = [] := List.eq_nil_of_length_eq_zero h
    rfl
  | cons a l => simp

/-- A list keeps its entries when it is extended. -/
theorem getElem?_of_isPrefix {m : List α} (h : l <+: m) {i : Nat} {a : α} (ha : l[i]? = some a) :
    m[i]? = some a := by
  obtain ⟨hi, rfl⟩ := List.getElem?_eq_some_iff.mp ha
  rw [List.prefix_iff_getElem?.mp h i hi]

/-- Where no other piece of a concatenation has members that pass a test, those
that pass are those of one piece. -/
theorem filter_flatten_of_getElem? {parts : List (List α)} {p : α → Bool} {i : Nat} {part : List α}
    (h : parts[i]? = some part)
    (hOther : ∀ k other, k ≠ i → parts[k]? = some other → ∀ a ∈ other, p a = false) :
    parts.flatten.filter p = part.filter p := by
  have hNone (other : List α) (hFails : ∀ a ∈ other, p a = false) : other.filter p = [] :=
    List.filter_eq_nil_iff.mpr fun a ha => by rw [hFails a ha]; decide
  induction parts generalizing i with
  | nil => simp at h
  | cons first parts ih =>
    rw [List.flatten_cons, List.filter_append]
    cases i with
    | zero =>
      obtain rfl : first = part := by simpa using h
      -- It is the first part: all that is behind it belongs to others.
      rw [hNone parts.flatten, List.append_nil]
      intro a ha
      obtain ⟨other, hMem, ha⟩ := List.mem_flatten.mp ha
      obtain ⟨k, hk⟩ := List.mem_iff_getElem?.mp hMem
      exact hOther (k + 1) other (Nat.succ_ne_zero k) hk a ha
    | succ i =>
      -- It comes later: the first part is another and gives nothing.
      rw [hNone first (hOther 0 first (Nat.succ_ne_zero i).symm rfl), List.nil_append]
      exact ih h fun k other hk => hOther (k + 1) other (by omega)

/-- Where a test tells the pieces of a concatenation apart, it picks one piece out. -/
theorem filter_flatMap_of_getElem? {f : α → List β} {p : β → Bool} {i : Nat} {a : α}
    (ha : l[i]? = some a)
    (hp : ∀ k c, l[k]? = some c → ∀ b ∈ f c, (p b = true ↔ k = i)) :
    (l.flatMap f).filter p = f a := by
  have hPiece : (l.map f)[i]? = some (f a) := by rw [List.getElem?_map, ha]; rfl
  rw [List.flatMap_def, filter_flatten_of_getElem? hPiece, List.filter_eq_self]
  · exact fun b hb => (hp i a ha b hb).mpr rfl
  · intro k other hk hOther b hb
    rw [List.getElem?_map] at hOther
    obtain ⟨c, hc, rfl⟩ := Option.map_eq_some_iff.mp hOther
    rw [← Bool.not_eq_true, hp k c hc b hb]
    exact hk

/-- The members that pass a test, at their positions counted from `n` on. -/
theorem forall₂_findIdxs (p : α → Bool) (l : List α) (n : Nat) :
    List.Forall₂ (fun j a => n ≤ j ∧ l[j - n]? = some a ∧ p a = true) (l.findIdxs p n)
      (l.filter p) := by
  induction l generalizing n with
  | nil => exact .nil
  | cons a l ih =>
    have hLater : List.Forall₂ (fun j b => n ≤ j ∧ (a :: l)[j - n]? = some b ∧ p b = true)
        (l.findIdxs p (n + 1)) (l.filter p) := by
      refine (ih (n + 1)).imp fun j b hj => ⟨by omega, ?_, hj.2.2⟩
      obtain ⟨i, rfl⟩ : ∃ i, j = n + 1 + i := ⟨j - (n + 1), by omega⟩
      have hShift : n + 1 + i - n = i + 1 := by omega
      rw [hShift, List.getElem?_cons_succ]
      rw [Nat.add_sub_cancel_left] at hj
      exact hj.2.1
    rw [List.findIdxs_cons, List.filter_cons]
    split
    · next hp => exact .cons ⟨Nat.le_refl n, by rw [Nat.sub_self]; rfl, hp⟩ hLater
    · exact hLater

/-- Related lists in a row: the lists at the ends are related through some middle
element. -/
theorem forall₂_trans {γ : Type _} {S : β → γ → Prop} {m : List γ} (h : List.Forall₂ R l l')
    (h' : List.Forall₂ S l' m) : List.Forall₂ (fun a c => ∃ b, R a b ∧ S b c) l m := by
  induction h generalizing m with
  | nil =>
    cases h'
    exact .nil
  | cons hHead _ ih =>
    cases h' with
    | cons hHead' hTail' => exact .cons ⟨_, hHead, hHead'⟩ (ih hTail')

/-- Where no two keys are the same, the key tells which member it is of: two members
with one key would contribute it twice to the list of keys. -/
theorem eq_of_nodup_filterMap {f : α → Option β} (h : (l.filterMap f).Nodup) {a b : α} {k : β}
    (ha : a ∈ l) (hb : b ∈ l) (hka : f a = some k) (hkb : f b = some k) : a = b := by
  induction l with
  | nil => cases ha
  | cons c l ih =>
    -- the head cannot share its key with a later member
    have hLater {d : α} (hd : d ∈ l) (hkd : f d = some k) : f c ≠ some k := by
      intro hkc
      rw [List.filterMap_cons_some hkc] at h
      exact (List.nodup_cons.mp h).1 (List.mem_filterMap.mpr ⟨d, hd, hkd⟩)
    have hTail : (l.filterMap f).Nodup := h.sublist ((List.sublist_cons_self c l).filterMap f)
    rcases List.mem_cons.mp ha with rfl | ha' <;> rcases List.mem_cons.mp hb with rfl | hb'
    · rfl
    · exact absurd hka (hLater hb' hkb)
    · exact absurd hkb (hLater ha' hka)
    · exact ih hTail ha' hb'

/-- A member is replaced by one with the same image: what is gathered from the list
stays. -/
theorem filterMap_set_of_eq {f : α → Option β} {n : Nat} {a b : α} (ha : l[n]? = some a)
    (hSame : f b = f a) : (l.set n b).filterMap f = l.filterMap f := by
  induction l generalizing n with
  | nil => rfl
  | cons c l ih =>
    cases n with
    | zero =>
      obtain rfl : c = a := Option.some.inj ha
      rw [List.set_cons_zero, List.filterMap_cons, List.filterMap_cons, hSame]
    | succ n => rw [List.set_cons_succ, List.filterMap_cons, List.filterMap_cons, ih ha]

/-- A bound of the maximum of a list and a number is a bound of each of them. -/
theorem foldr_max_le_iff {ι : Type _} [LinearOrder ι] {l : List ι} {a n : ι} :
    l.foldr max a ≤ n ↔ a ≤ n ∧ ∀ x ∈ l, x ≤ n := by
  induction l with
  | nil => simp
  | cons b l ih =>
    rw [List.foldr_cons, max_le_iff, ih, List.forall_mem_cons]
    tauto

/-- The maximum of a list and a number only depends on which members the list has,
and neither on their order nor on how often they occur. -/
theorem foldr_max_eq_of_mem_iff {ι : Type _} [LinearOrder ι] {l l' : List ι}
    (h : ∀ x, x ∈ l ↔ x ∈ l') (a : ι) : l.foldr max a = l'.foldr max a := by
  refine eq_of_forall_ge_iff fun n => ?_
  rw [foldr_max_le_iff, foldr_max_le_iff]
  simp only [h]

/-- What is left without its first entries is less, if there are any. -/
theorem drop_ne_self_iff {l : List α} {n : Nat} : l.drop n ≠ l ↔ 0 < n ∧ l ≠ [] := by
  constructor
  · intro hNe
    refine ⟨Nat.pos_of_ne_zero fun hZero => hNe ?_, fun hNil => hNe ?_⟩
    · rw [hZero, List.drop_zero]
    · rw [hNil, List.drop_nil]
  · rintro ⟨hPos, hNe⟩ hSame
    have hLen := congrArg List.length hSame
    have hSome := List.length_pos_iff.mpr hNe
    rw [List.length_drop] at hLen
    omega

/-- A first part whose members all satisfy a test is taken as a whole. -/
theorem le_length_takeWhile {p : α → Bool} {n : Nat} (h : ∀ k < n, (l[k]?).any p = true) :
    n ≤ (l.takeWhile p).length := by
  induction l generalizing n with
  | nil =>
    rcases Nat.eq_zero_or_pos n with rfl | hPos
    · exact Nat.zero_le _
    · exact absurd (h 0 hPos) (by simp)
  | cons a l ih =>
    cases n with
    | zero => exact Nat.zero_le _
    | succ n =>
      have hHead : p a = true := h 0 (Nat.succ_pos n)
      rw [List.takeWhile_cons_of_pos hHead, List.length_cons]
      exact Nat.succ_le_succ (ih fun k hk => h (k + 1) (Nat.succ_lt_succ hk))

end PeerProtocol.Lib
