import Mathlib.Tactic

/-!
# Byte buffers

Fixed-size buffers and little-endian words, over no particular program. A C
array of `n` bytes is a list with the proof that it has `n` elements; a
`memcpy` into it is `Buffer.blit`, which asks for the proof that the block
ends inside. Where the program copies without such a check, its model has to
decide the bound and return a fault on the other side: the type leaves no
third possibility.

* `overwrite` — the list left by copying a block over part of another list. It
  is defined on plain lists, where it needs no bound, and has its length only
  under one.
* `Buffer α n` — a list that carries the proof of its length, so that a copy
  past its end cannot be built.
* `leBytes` / `leValue` — the little-endian digits of a number and their
  value. The first is how the program writes a word, byte by byte with shifts;
  the second how it reads one, with shifts and `|`.
* `leValue_leBytes` — reading undoes writing, modulo the width of the word.
  The bitwise definitions are turned into arithmetic by `byte_or_shiftLeft`,
  and everything above it is arithmetic.
-/

namespace PeerProtocol.Lib

-- ---------------------------------------------------------------------------
-- Overwriting a block
-- What `memcpy` and the writers of single fields do to the bytes of an array.
-- ---------------------------------------------------------------------------

/-- The list with `src` copied over `l` from position `off` on. Past the end of `l`
the list would grow, so the lemmas about it, and `Buffer.blit`, ask for room. -/
def overwrite {α : Type _} (l : List α) (off : Nat) (src : List α) : List α :=
  l.take off ++ src ++ l.drop (off + src.length)

/-- With room for the block the length stays. -/
theorem length_overwrite {α : Type _} {l src : List α} {off : Nat}
    (h : off + src.length ≤ l.length) : (overwrite l off src).length = l.length := by
  simp [overwrite]
  omega

/-- Writing just behind a prefix replaces what follows it. -/
theorem overwrite_append {α : Type _} {pre : List α} {off : Nat} (h : pre.length = off)
    (src rest : List α) :
    overwrite (pre ++ rest) off src = pre ++ src ++ rest.drop src.length := by
  subst h
  simp [overwrite, List.drop_append]

/-- Writing over a block of the same size replaces that block. -/
theorem overwrite_block {α : Type _} {p mid src : List α} {off : Nat} (hp : p.length = off)
    (hMid : mid.length = src.length) (rest : List α) :
    overwrite (p ++ (mid ++ rest)) off src = p ++ (src ++ rest) := by
  rw [overwrite_append hp, ← hMid, List.drop_left, List.append_assoc]

-- ---------------------------------------------------------------------------
-- Fixed-size buffers
-- A structure that carries its length: two buffers are equal when their
-- elements are.
-- ---------------------------------------------------------------------------

/-- A list of exactly `n` elements: an array of the program, with its size in its
type. -/
structure Buffer (α : Type _) (n : Nat) where
  elems : List α
  length_eq : elems.length = n
deriving DecidableEq

namespace Buffer

variable {α : Type _} {n : Nat}

/-- A buffer of `n` copies of one element, as `memset` leaves it. -/
def fill (n : Nat) (a : α) : Buffer α n :=
  ⟨List.replicate n a, List.length_replicate⟩

@[simp] theorem elems_fill (a : α) : (fill n a).elems = List.replicate n a := rfl

/-- Copy `src` into the buffer, which must have room for it. -/
def blit (b : Buffer α n) (off : Nat) (src : List α) (h : off + src.length ≤ n) :
    Buffer α n :=
  ⟨overwrite b.elems off src, by rw [length_overwrite (by rw [b.length_eq]; exact h), b.length_eq]⟩

@[simp] theorem elems_blit (b : Buffer α n) (off : Nat) (src : List α)
    (h : off + src.length ≤ n) : (b.blit off src h).elems = overwrite b.elems off src := rfl

end Buffer

-- ---------------------------------------------------------------------------
-- Little-endian words
-- ---------------------------------------------------------------------------

/-- The `k` low-order bytes of `x`, least significant first: what the program leaves
in memory for a word of `k` bytes. -/
def leBytes : Nat → Nat → List UInt8
  | 0, _ => []
  | k + 1, x => UInt8.ofNat x :: leBytes k (x >>> 8)

/-- The number a little-endian byte list stands for, put together as the program
does it: each byte joined by `|` to the ones behind it, shifted past it. -/
def leValue : List UInt8 → Nat
  | [] => 0
  | b :: bs => b.toNat ||| leValue bs <<< 8

@[simp] theorem length_leBytes (k x : Nat) : (leBytes k x).length = k := by
  induction k generalizing x with
  | zero => rfl
  | succ k ih => simp [leBytes, ih]

/-- A byte joined by `|` to a value shifted past it adds to that value. -/
theorem byte_or_shiftLeft {b : Nat} (h : b < 256) (x : Nat) : b ||| x <<< 8 = b + 256 * x := by
  rw [Nat.or_comm, ← Nat.shiftLeft_add_eq_or_of_lt (i := 8) h, Nat.shiftLeft_eq]
  omega

/-- The same as arithmetic, which is what the proofs use. -/
theorem leValue_cons (b : UInt8) (bs : List UInt8) :
    leValue (b :: bs) = b.toNat + 256 * leValue bs :=
  byte_or_shiftLeft b.toNat_lt _

/-- **Round trip**: the value of the `k` low-order bytes is the number modulo `256 ^
k`. In particular a number that fits its field is read as it was written. -/
theorem leValue_leBytes (k x : Nat) : leValue (leBytes k x) = x % 256 ^ k := by
  induction k generalizing x with
  | zero => simp [leBytes, leValue, Nat.mod_one]
  | succ k ih =>
    rw [leBytes, leValue_cons, ih, Nat.pow_succ', Nat.mod_mul, Nat.shiftRight_eq_div_pow]
    simp

end PeerProtocol.Lib
