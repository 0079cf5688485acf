/-
Cobalt.Lib.Cursor — a position in a list, and what is left after it.

A reader that keeps an index into its input is described by the suffix
`str.drop pos`; these lemmas say what a look at, or a move past, the first
items of that suffix gives.
-/
import Mathlib

namespace Cobalt.Cursor

open List

variable {α : Type} {str s w : List α} {b : α} {pos : Nat}

lemma lt_of_drop (h : str.drop pos = b :: s) : pos < str.length := by
  by_contra hge
  rw [drop_eq_nil_of_le (Nat.le_of_not_lt hge)] at h
  cases h

lemma getElem?_add_of_drop (h : str.drop pos = w ++ b :: s) : str[pos + w.length]? = some b := by
  rw [← getElem?_drop, h]
  simp

lemma getD_add_of_drop (x : α) (h : str.drop pos = w ++ b :: s) :
    str.getD (pos + w.length) x = b := by
  rw [getD_eq_getElem?_getD, getElem?_add_of_drop h]
  rfl

lemma getD_of_drop (x : α) (h : str.drop pos = b :: s) : str.getD pos x = b :=
  getD_add_of_drop (w := []) x h

lemma drop_add_of_drop (h : str.drop pos = w ++ s) : str.drop (pos + w.length) = s := by
  rw [← drop_drop, h, drop_left]

lemma drop_succ_of_drop (h : str.drop pos = b :: s) : str.drop (pos + 1) = s :=
  drop_add_of_drop (w := [b]) h

end Cobalt.Cursor
