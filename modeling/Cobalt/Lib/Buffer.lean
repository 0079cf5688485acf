/-
Cobalt.Lib.Buffer — bytes in a circular buffer.

A buffer is a function from offsets to bytes. Positions count bytes since
the beginning and do not wrap; the byte at a position is the one at the
position modulo the capacity. Positions of one window, no longer than the
capacity, have different offsets.
-/
import Mathlib

namespace Cobalt

/-! ## Positions and offsets -/

/-- Two positions less than `n` apart have different offsets. -/
lemma mod_ne_of_window {p p' n : Nat} (h : p < p') (h' : p' < p + n) : p % n ≠ p' % n := by
  intro heq
  have hsub := Nat.sub_mod_eq_zero_of_mod_eq heq.symm
  rw [Nat.mod_eq_of_lt (by omega)] at hsub
  omega

/-- Up to the end of the buffer, offsets count like positions. -/
lemma add_mod_of_fits {p j n : Nat} (h : p % n + j < n) : (p + j) % n = p % n + j := by
  rw [Nat.add_mod, Nat.mod_eq_of_lt (a := j) (by omega), Nat.mod_eq_of_lt h]

/-! ## Reading and writing -/

abbrev Buffer := Nat → UInt8

namespace Buffer

variable {b b' : Buffer} {off n i : Nat} {bs : List UInt8}

/-- The `n` bytes from `off` on. -/
def read (b : Buffer) (off n : Nat) : List UInt8 := (List.range n).map fun j => b (off + j)

/-- The buffer with `bs` from `off` on. -/
def write (b : Buffer) (off : Nat) (bs : List UInt8) : Buffer :=
  fun i => if off ≤ i then (bs[i - off]?).getD (b i) else b i

@[simp]
lemma length_read : (b.read off n).length = n := by simp [read]

lemma read_congr (h : ∀ j < n, b' (off + j) = b (off + j)) : b'.read off n = b.read off n :=
  List.map_congr_left fun j hj => h j (List.mem_range.mp hj)

lemma write_of_lt (h : i < off) : b.write off bs i = b i := if_neg (Nat.not_le.mpr h)

lemma write_of_le (h : off + bs.length ≤ i) : b.write off bs i = b i := by
  unfold write
  rw [List.getElem?_eq_none (by omega), Option.getD_none, ite_self]

end Buffer

end Cobalt
