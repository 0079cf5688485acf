/-
Cobalt.Lib.Smear — filling a word below its top bit.

Or-ing a word with itself shifted by 1, 2, 4, ... sets every bit below the
highest one, so that one more is a power of two.
-/
import Mathlib

namespace Cobalt

/-- `v |= v >> 1; v |= v >> 2; ...`, with `k` shifts. -/
def smear : Nat → Nat → Nat
  | 0, v => v
  | k + 1, v => smear k v ||| smear k v >>> 2 ^ k

/-- A bit is set if one of the `2 ^ k` bits from it on was. -/
lemma testBit_smear (k v i : Nat) :
    (smear k v).testBit i = true ↔ ∃ j < 2 ^ k, v.testBit (i + j) = true := by
  induction k generalizing i with
  | zero =>
    constructor
    · intro h
      exact ⟨0, by simp, h⟩
    · rintro ⟨j, hj, h⟩
      rw [pow_zero, Nat.lt_one_iff] at hj
      rwa [hj] at h
  | succ k ih =>
    rw [smear, Nat.testBit_or, Nat.testBit_shiftRight, Bool.or_eq_true, ih, ih]
    constructor
    · rintro (⟨j, hj, h⟩ | ⟨j, hj, h⟩)
      · exact ⟨j, by rw [pow_succ]; omega, h⟩
      · exact ⟨2 ^ k + j, by rw [pow_succ]; omega, by rw [← h]; congr 1; omega⟩
    · rintro ⟨j, hj, h⟩
      rw [pow_succ] at hj
      rcases lt_or_ge j (2 ^ k) with hlt | hge
      · exact Or.inl ⟨j, hlt, h⟩
      · exact Or.inr ⟨j - 2 ^ k, by omega, by rw [← h]; congr 1; omega⟩

/-- Enough shifts fill the word. -/
lemma smear_eq {k v : Nat} (h0 : v ≠ 0) (hv : v < 2 ^ 2 ^ k) :
    smear k v = 2 ^ (Nat.log2 v + 1) - 1 := by
  apply Nat.eq_of_testBit_eq
  intro i
  rw [Nat.testBit_two_pow_sub_one, Bool.eq_iff_iff, testBit_smear, decide_eq_true_eq]
  have htop : v.testBit (Nat.log2 v) = true := Nat.testBit_log2 h0
  have hlog : Nat.log2 v < 2 ^ k := (Nat.log2_lt h0).mpr hv
  constructor
  · rintro ⟨j, -, h⟩
    have hge := Nat.ge_two_pow_of_testBit h
    have := (Nat.le_log2 h0).mpr hge
    omega
  · intro hi
    exact ⟨Nat.log2 v - i, by omega, by rw [← htop]; congr 1; omega⟩

end Cobalt
