/-
Cobalt.Lib.Block — a block of memory cells.

An allocated block is the list of its cells; a cell that has not been written
is `none`. Accesses outside the block end with a `Fault`. What a program keeps
in a block is a window of it: `window b off n` are the `n` cells from `off`
on. A write changes the window it covers and no other, and a `realloc` to a
size that covers a window keeps it.
-/
import Mathlib

namespace Cobalt

open List

abbrev Block (α : Type) := List (Option α)

namespace Block

/-- Accesses that C leaves undefined. -/
inductive Fault where
  /-- an access through a null pointer -/
  | null
  /-- an access outside the block -/
  | bounds
  deriving DecidableEq, Repr

variable {α : Type} {b b' : Block α} {off off' n m : Nat} {xs : List (Option α)}

/-- A new block of `n` cells. -/
def fresh (n : Nat) : Block α := List.replicate n none

/-- `realloc` of the block to `n` cells. -/
def resize (b : Block α) (n : Nat) : Block α := b.take n ++ List.replicate (n - b.length) none

/-- The `n` cells from `off` on. -/
def window (b : Block α) (off n : Nat) : List (Option α) := (b.drop off).take n

/-- Reads the `n` cells from `off` on. -/
def read (b : Block α) (off n : Nat) : Except Fault (List (Option α)) :=
  if off + n ≤ b.length then .ok (b.window off n) else .error .bounds

/-- Writes cells from `off` on. -/
def write (b : Block α) (off : Nat) (xs : List (Option α)) : Except Fault (Block α) :=
  if off + xs.length ≤ b.length then .ok (b.take off ++ xs ++ b.drop (off + xs.length))
  else .error .bounds

/-- `memmove` of `n` cells within the block. -/
def move (b : Block α) (dst src n : Nat) : Except Fault (Block α) := do
  let xs ← b.read src n
  b.write dst xs

@[simp]
lemma ok_bind {β γ : Type} (x : β) (f : β → Except Fault γ) : (.ok x >>= f) = f x := rfl

@[simp]
lemma error_bind {β γ : Type} (e : Fault) (f : β → Except Fault γ) :
    (.error e >>= f) = .error e := rfl

/-! ## Sizes -/

@[simp]
lemma length_fresh : (fresh n : Block α).length = n := by simp [fresh]

@[simp]
lemma length_resize : (b.resize n).length = n := by
  simp only [resize, length_append, length_take, length_replicate]
  omega

lemma length_window (h : off + n ≤ b.length) : (b.window off n).length = n := by
  simp only [window, length_take, length_drop]
  omega

/-! ## Windows -/

lemma getElem?_window {i : Nat} : (b.window off n)[i]? = if i < n then b[off + i]? else none := by
  rw [window, getElem?_take, getElem?_drop]

lemma window_congr (h : ∀ i < n, b'[off' + i]? = b[off + i]?) :
    b'.window off' n = b.window off n := by
  refine ext_getElem? fun i => ?_
  rw [getElem?_window, getElem?_window]
  split
  · exact h i ‹_›
  · rfl

lemma window_add : b.window off (n + m) = b.window off n ++ b.window (off + n) m := by
  rw [window, take_add, drop_drop]
  rfl

@[simp]
lemma window_zero : b.window off 0 = [] := by simp [window]

lemma window_resize (h : off + n ≤ b.length) (hm : off + n ≤ m) :
    (b.resize m).window off n = b.window off n := by
  refine window_congr fun i hi => ?_
  rw [resize, getElem?_append_left (by simp; omega), getElem?_take, if_pos (by omega)]

/-! ## Writes -/

lemma write_ok (h : off + xs.length ≤ b.length) : ∃ b', b.write off xs = .ok b' ∧
    b'.length = b.length ∧ b'.window off xs.length = xs ∧
    ∀ i, i < off ∨ off + xs.length ≤ i → b'[i]? = b[i]? := by
  refine ⟨b.take off ++ xs ++ b.drop (off + xs.length), if_pos h, ?_, ?_, fun i hi => ?_⟩
  · simp only [length_append, length_take, length_drop]
    omega
  · have hoff : (b.take off).length = off := by simp; omega
    rw [window, append_assoc, drop_left' hoff, take_left]
  · rcases hi with hi | hi
    · rw [append_assoc, getElem?_append_left (by simp; omega), getElem?_take, if_pos hi]
    · rw [getElem?_append_right (by simp; omega), getElem?_drop]
      congr 1
      simp only [length_append, length_take]
      omega

lemma write_error (h : b.length < off + xs.length) : b.write off xs = .error .bounds :=
  if_neg (by omega)

lemma read_ok (h : off + n ≤ b.length) : b.read off n = .ok (b.window off n) := if_pos h

lemma move_ok {dst src : Nat} (hdst : dst + n ≤ b.length) (hsrc : src + n ≤ b.length) :
    ∃ b', b.move dst src n = .ok b' ∧ b'.length = b.length ∧
      b'.window dst n = b.window src n ∧ ∀ i, i < dst ∨ dst + n ≤ i → b'[i]? = b[i]? := by
  have hlen := length_window hsrc
  obtain ⟨b', hb', hlength, hself, hother⟩ :=
    write_ok (show dst + (b.window src n).length ≤ b.length by rw [hlen]; exact hdst)
  rw [hlen] at hself hother
  refine ⟨b', ?_, hlength, hself, hother⟩
  rw [move, read_ok hsrc]
  exact hb'

end Block

end Cobalt
