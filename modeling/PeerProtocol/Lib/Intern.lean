import PeerProtocol.Lib.Lists

/-!
# Tables that only grow

A table that gives out positions as ids: entries are appended and never
changed, and some of them have a key, by which they are found again. Compilers
intern strings this way; the socket pool keeps its remote endpoints this way,
between nodes that stand for its own sockets and have no key.

The table is a plain list and the key a partial function of the entry, so that
entries without a key can stand anywhere. Searching takes the first entry with
the key. That this is the only one, and that it stays where it is, are the two
facts that make a position usable as a name.

## Results

* `KeysUnique` — no two entries have the same key; `KeysUnique.append_keyless`
  and `KeysUnique.append_fresh` are the two ways to extend a table that keep
  it so.
* `findKey` — the position of a key. `KeysUnique.findKey_of_isPrefix`: it
  stays in every longer table; `findKey_inj`: different keys have different
  positions.
* `KeysUnique.findKey_of_getElem?` — with unique keys, an entry is found at
  its own position, wherever it is.
-/

namespace PeerProtocol.Lib

variable {α κ : Type _} {key : α → Option κ} {l m : List α}

-- ---------------------------------------------------------------------------
-- Unique keys
-- The invariant of such a table, and the two ways to append that keep it.
-- ---------------------------------------------------------------------------

/-- No two entries have the same key. Entries without a key do not count, however
many of them there are and however equal they are otherwise. -/
def KeysUnique (key : α → Option κ) (l : List α) : Prop :=
  ∀ (i j : Nat) (a b : α) (k : κ), l[i]? = some a → l[j]? = some b →
    key a = some k → key b = some k → i = j

/-- The table that a program starts with. -/
theorem keysUnique_nil : KeysUnique key [] := by
  intro i j a b k hi
  simp at hi

/-- An entry of a longer table is an old one, or its position is a new one. -/
theorem getElem?_append_cases {i : Nat} {a : α} (h : (l ++ m)[i]? = some a) :
    l[i]? = some a ∨ (l.length ≤ i ∧ m[i - l.length]? = some a) := by
  by_cases hi : i < l.length
  · rw [List.getElem?_append_left hi] at h
    exact Or.inl h
  · rw [List.getElem?_append_right (by omega)] at h
    exact Or.inr ⟨by omega, h⟩

/-- Entries without a key may be appended at any time, in any number. -/
theorem KeysUnique.append_keyless (h : KeysUnique key l) (hm : ∀ a ∈ m, key a = none) :
    KeysUnique key (l ++ m) := by
  intro i j a b k hi hj ha hb
  have hOld {n : Nat} {c : α} (hn : (l ++ m)[n]? = some c) (hc : key c = some k) :
      l[n]? = some c := by
    rcases getElem?_append_cases hn with hOld | ⟨_, hNew⟩
    · exact hOld
    · rw [hm c (List.mem_of_getElem? hNew)] at hc
      cases hc
  exact h i j a b k (hOld hi ha) (hOld hj hb) ha hb

/-- An entry with a key may be appended if no entry has this key: the caller has
searched for it, and did not find it. -/
theorem KeysUnique.append_fresh (h : KeysUnique key l) {c : α} {k : κ} (hKey : key c = some k)
    (hFresh : ∀ a ∈ l, key a ≠ some k) : KeysUnique key (l ++ [c]) := by
  intro i j a b k' hi hj ha hb
  -- the new entry has the last position, and its key
  have hNew {n : Nat} {d : α} (hn : l.length ≤ n) (hd : [c][n - l.length]? = some d) :
      n = l.length ∧ key d = some k := by
    obtain ⟨hLt, rfl⟩ := List.getElem?_eq_some_iff.mp hd
    rw [List.length_singleton] at hLt
    exact ⟨by omega, by simpa using hKey⟩
  rcases getElem?_append_cases hi with hi | ⟨hLe, hi⟩ <;>
    rcases getElem?_append_cases hj with hj | ⟨hLe', hj⟩
  · exact h i j a b k' hi hj ha hb
  · obtain ⟨_, hd⟩ := hNew hLe' hj
    rw [hb, Option.some.injEq] at hd
    subst hd
    exact absurd ha (hFresh a (List.mem_of_getElem? hi))
  · obtain ⟨_, hd⟩ := hNew hLe hi
    rw [ha, Option.some.injEq] at hd
    subst hd
    exact absurd hb (hFresh b (List.mem_of_getElem? hj))
  · rw [(hNew hLe hi).1, (hNew hLe' hj).1]

-- ---------------------------------------------------------------------------
-- Positions
-- What the search returns, and how it behaves when the table grows.
-- ---------------------------------------------------------------------------

section Find

variable [DecidableEq κ] {k k' : κ} {i : Nat}

/-- The position of the first entry with a key, or `none` where no entry has it. -/
def findKey (key : α → Option κ) (k : κ) (l : List α) : Option Nat :=
  l.findIdx? fun a => key a = some k

/-- The search fails exactly where appending the key is allowed. -/
theorem findKey_eq_none_iff : findKey key k l = none ↔ ∀ a ∈ l, key a ≠ some k := by
  simp [findKey, List.findIdx?_eq_none_iff]

/-- What the search returns is a position of the table, with the key that was asked
for. -/
theorem exists_of_findKey (h : findKey key k l = some i) : ∃ a, l[i]? = some a ∧ key a = some k := by
  obtain ⟨hi, hKey, _⟩ := List.findIdx?_eq_some_iff_getElem.mp h
  exact ⟨l[i], List.getElem?_eq_getElem hi, of_decide_eq_true hKey⟩

/-- With unique keys, the position of an entry is where its key is found. -/
theorem KeysUnique.findKey_of_getElem? (h : KeysUnique key l) {a : α} (ha : l[i]? = some a)
    (hKey : key a = some k) : findKey key k l = some i := by
  cases hFind : findKey key k l with
  | none => exact absurd hKey (findKey_eq_none_iff.mp hFind a (List.mem_of_getElem? ha))
  | some j =>
    obtain ⟨b, hb, hKey'⟩ := exists_of_findKey hFind
    rw [h j i b a k hb ha hKey' hKey]

/-- **A position stays** in every longer table: an id once given out is never reused
for another key, and a key never gets a second id. -/
theorem KeysUnique.findKey_of_isPrefix (h : KeysUnique key m) (hPrefix : l <+: m)
    (hFind : findKey key k l = some i) : findKey key k m = some i := by
  obtain ⟨a, ha, hKey⟩ := exists_of_findKey hFind
  exact h.findKey_of_getElem? (getElem?_of_isPrefix hPrefix ha) hKey

/-- **Different keys have different positions**: one entry has at most one key. -/
theorem findKey_inj (h : findKey key k l = some i) (h' : findKey key k' l = some i) : k = k' := by
  obtain ⟨a, ha, hKey⟩ := exists_of_findKey h
  obtain ⟨b, hb, hKey'⟩ := exists_of_findKey h'
  rw [ha, Option.some.injEq] at hb
  rw [← hb, hKey, Option.some.injEq] at hKey'
  exact hKey'

end Find

end PeerProtocol.Lib
