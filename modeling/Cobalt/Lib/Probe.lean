/-
Cobalt.Lib.Probe — probe distances around a cycle.

A table of `n` slots in which an entry stands some slots after its home.
`d i` is zero for an empty slot and otherwise one more than the distance of
the entry of slot `i` from its home. The table is `Linked` when the
distance grows by at most one from a slot to the next, around the cycle.
Then all slots between an entry and its home are full, and the distances
are bounded by the number of full slots.
-/
import Cobalt.Lib.Buffer

namespace Cobalt

/-- Distances grow by at most one. -/
def Linked (n : Nat) (d : Nat → Nat) : Prop := ∀ p, d ((p + 1) % n) ≤ d (p % n) + 1

namespace Linked

variable {n : Nat} {d : Nat → Nat}

lemma zero (n : Nat) : Linked n fun _ => 0 := fun _ => Nat.zero_le _

lemma le_add (h : Linked n d) (p j : Nat) : d ((p + j) % n) ≤ d (p % n) + j := by
  induction j with
  | zero => exact le_refl _
  | succ j ih =>
    have := h (p + j)
    rw [← add_assoc p j 1]
    omega

/-- The distance `j` slots after an empty one is at most the number of full
slots passed. -/
lemma le_count (h : Linked n d) {e : Nat} (he : d (e % n) = 0) (j : Nat) :
    d ((e + j) % n) ≤ Nat.count (fun k => d ((e + 1 + k) % n) ≠ 0) j := by
  induction j with
  | zero => exact le_of_eq he
  | succ j ih =>
    rw [Nat.count_succ]
    have hstep := h (e + j)
    rw [show e + 1 + j = e + j + 1 by omega, show e + (j + 1) = e + j + 1 by omega]
    split <;> omega

lemma update (h : Linked n d) {p v : Nat} (hn : 1 < n) (hprev : v ≤ d (p % n) + 1)
    (hnext : d ((p + 2) % n) ≤ v + 1) : Linked n (Function.update d ((p + 1) % n) v) := by
  have hne : ∀ q, (q + 1) % n ≠ q % n := fun q =>
    (mod_ne_of_window (Nat.lt_succ_self q) (by omega)).symm
  intro q
  by_cases h1 : (q + 1) % n = (p + 1) % n
  · have hq : q % n = p % n := Nat.ModEq.add_right_cancel' 1 h1
    rw [h1, Function.update_self, Function.update_of_ne (by rw [hq]; exact (hne p).symm), hq]
    exact hprev
  · rw [Function.update_of_ne h1]
    by_cases h2 : q % n = (p + 1) % n
    · have hq : (q + 1) % n = (p + 2) % n := Nat.ModEq.add_right 1 h2
      rw [h2, Function.update_self, hq]
      exact hnext
    · rw [Function.update_of_ne h2]
      exact h q

end Linked

/-- Around the cycle every slot is reached from every other one. -/
lemma exists_add_mod {n p i : Nat} (hn : 0 < n) (hi : i < n) : ∃ j < n, (p + j) % n = i := by
  refine ⟨(i + (n - p % n)) % n, Nat.mod_lt _ hn, ?_⟩
  have hp := Nat.mod_lt p hn
  have hdiv := Nat.div_add_mod p n
  have heq : p + (i + (n - p % n)) = i + n * (p / n + 1) := by
    rw [mul_add, mul_one]
    omega
  rw [Nat.add_mod_mod, heq, Nat.add_mul_mod_self_left, Nat.mod_eq_of_lt hi]

end Cobalt
