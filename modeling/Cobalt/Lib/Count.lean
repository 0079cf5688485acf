/-
Cobalt.Lib.Count — how many threads are in a phase.

The threads of a machine are a function from their names to what each one
is doing. There is no bound on the names, so the number of threads in a
phase is the size of the finite set of them.
-/
import Mathlib

namespace Cobalt

open Finset

variable {ι β : Type} {p : β → Bool} {f g : ι → β} {k : Nat} {t : ι} {x : β}

/-- Exactly `k` of the values of `f` meet `p`. -/
def Counted (p : β → Bool) (f : ι → β) (k : Nat) : Prop :=
  ∃ P : Finset ι, (∀ t, t ∈ P ↔ p (f t) = true) ∧ P.card = k

namespace Counted

lemma zero (h : ∀ t, p (f t) = false) : Counted p f 0 :=
  ⟨∅, fun t => by simp [h t], rfl⟩

lemma congr (hfg : ∀ t, p (f t) = p (g t)) (h : Counted p f k) : Counted p g k := by
  obtain ⟨P, hP, hk⟩ := h
  exact ⟨P, fun t => hfg t ▸ hP t, hk⟩

lemma pos (ht : p (f t) = true) (h : Counted p f k) : 0 < k := by
  obtain ⟨P, hP, rfl⟩ := h
  exact card_pos.mpr ⟨t, (hP t).mpr ht⟩

lemma eq_zero (h : Counted p f 0) (t : ι) : p (f t) = false :=
  Bool.eq_false_iff.mpr fun ht => absurd (h.pos ht) (by omega)

lemma two_le {u : ι} (ht : p (f t) = true) (hu : p (f u) = true) (hne : t ≠ u) (h : Counted p f k) :
    2 ≤ k := by
  obtain ⟨P, hP, rfl⟩ := h
  exact one_lt_card.mpr ⟨t, (hP t).mpr ht, u, (hP u).mpr hu, hne⟩

variable [DecidableEq ι]

/-- One thread moves and stays in the phase, or stays out of it. -/
lemma keep (hx : p (f t) = p x) (h : Counted p f k) : Counted p (Function.update f t x) k := by
  refine h.congr fun u => ?_
  by_cases hu : u = t
  · subst hu; rw [Function.update_self]; exact hx
  · rw [Function.update_of_ne hu]

lemma enter (ht : p (f t) = false) (hx : p x = true) (h : Counted p f k) :
    Counted p (Function.update f t x) (k + 1) := by
  obtain ⟨P, hP, rfl⟩ := h
  refine ⟨insert t P, fun u => ?_, card_insert_of_notMem fun hmem => ?_⟩
  · by_cases hu : u = t
    · subst hu; simp [hx]
    · simp [hu, hP u]
  · rw [(hP t).mp hmem] at ht
    cases ht

lemma leave (ht : p (f t) = true) (hx : p x = false) (h : Counted p f (k + 1)) :
    Counted p (Function.update f t x) k := by
  obtain ⟨P, hP, hk⟩ := h
  refine ⟨P.erase t, fun u => ?_, ?_⟩
  · by_cases hu : u = t
    · subst hu; simp [hx]
    · simp [hu, hP u]
  · rw [card_erase_of_mem ((hP t).mpr ht), hk, Nat.add_sub_cancel]

end Counted

end Cobalt
