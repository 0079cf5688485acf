/-
Cobalt.Lib.ByteMem — byte-addressed memory, and lists of pointers kept in it.

A pointer is eight bytes, the lowest first. `Chain m p as` says that following
the pointers from `p` on visits the addresses `as` and ends with null: each
address holds the pointer to the next one. A change of the memory that leaves
these eight bytes alone leaves the chain alone.
-/
import Cobalt.Lib.Region

namespace Cobalt

open Region (Apart stop)

abbrev ByteMem := Nat → UInt8

namespace ByteMem

/-- The number that `n` bytes from `a` on stand for. -/
def loadBytes (m : ByteMem) (a : Nat) : Nat → Nat
  | 0 => 0
  | n + 1 => (m a).toNat + 256 * loadBytes m (a + 1) n

/-- `*(void **)a`. -/
def loadPtr (m : ByteMem) (a : Nat) : Nat := loadBytes m a 8

/-- `*(void **)a = p`. -/
def storePtr (m : ByteMem) (a p : Nat) : ByteMem :=
  fun x => if a ≤ x ∧ x < a + 8 then UInt8.ofNat (p / 256 ^ (x - a)) else m x

/-- `memset(a, 0, n)`. -/
def clear (m : ByteMem) (a n : Nat) : ByteMem := fun x => if a ≤ x ∧ x < a + n then 0 else m x

variable {m m' : ByteMem} {a p x n : Nat} {as : List Nat}

lemma loadBytes_congr (h : ∀ j < n, m' (a + j) = m (a + j)) :
    loadBytes m' a n = loadBytes m a n := by
  induction n generalizing a with
  | zero => rfl
  | succ n ih =>
    have hrest : loadBytes m' (a + 1) n = loadBytes m (a + 1) n := by
      refine ih fun j hj => ?_
      have hbyte := h (j + 1) (by omega)
      rwa [show a + (j + 1) = a + 1 + j by omega] at hbyte
    rw [loadBytes, loadBytes, hrest, show m' a = m a from h 0 (by omega)]

lemma loadBytes_digits (h : ∀ j < n, m (a + j) = UInt8.ofNat (p / 256 ^ j)) :
    loadBytes m a n = p % 256 ^ n := by
  induction n generalizing a p with
  | zero => simp [loadBytes, Nat.mod_one]
  | succ n ih =>
    have hfirst : (m a).toNat = p % 256 := by
      have hbyte : m a = UInt8.ofNat (p / 256 ^ 0) := h 0 (by omega)
      rw [hbyte, pow_zero, Nat.div_one, UInt8.toNat_ofNat']
    have hrest : loadBytes m (a + 1) n = p / 256 % 256 ^ n := by
      refine ih fun j hj => ?_
      have hbyte := h (j + 1) (by omega)
      rwa [show a + (j + 1) = a + 1 + j by omega, Nat.pow_succ', ← Nat.div_div_eq_div_mul] at hbyte
    rw [loadBytes, hfirst, hrest, Nat.pow_succ', Nat.mod_mul]

lemma loadPtr_storePtr (hp : p < 2 ^ 64) : loadPtr (storePtr m a p) a = p := by
  have hdigits : loadPtr (storePtr m a p) a = p % 256 ^ 8 := by
    refine loadBytes_digits fun j hj => ?_
    rw [storePtr, if_pos (by omega), Nat.add_sub_cancel_left]
  rw [hdigits, Nat.mod_eq_of_lt]
  exact hp

lemma storePtr_of_apart (h : Apart ⟨x, 1⟩ ⟨a, 8⟩) : storePtr m a p x = m x :=
  if_neg (by rcases h with h | h <;> simp only [stop] at h <;> omega)

lemma clear_of_apart (h : Apart ⟨x, 1⟩ ⟨a, n⟩) : clear m a n x = m x :=
  if_neg (by rcases h with h | h <;> simp only [stop] at h <;> omega)

lemma clear_self (h : a ≤ x) (h' : x < a + n) : clear m a n x = 0 := if_pos ⟨h, h'⟩

/-! ## Chains -/

/-- The pointers from `p` on lead through `as`. -/
def Chain (m : ByteMem) : Nat → List Nat → Prop
  | p, [] => p = 0
  | p, a :: as => p = a ∧ Chain m (m.loadPtr a) as

namespace Chain

lemma congr (h : Chain m p as) (hsame : ∀ a ∈ as, ∀ j < 8, m' (a + j) = m (a + j)) :
    Chain m' p as := by
  induction as generalizing p with
  | nil => exact h
  | cons a as ih =>
    obtain ⟨hp, hrest⟩ := h
    have hload : m'.loadPtr a = m.loadPtr a := loadBytes_congr (hsame a (by simp))
    refine ⟨hp, ?_⟩
    rw [hload]
    exact ih hrest fun b hb => hsame b (by simp [hb])

lemma push (h : Chain m p as) (hp : p < 2 ^ 64)
    (hsame : ∀ b ∈ as, Apart ⟨b, 8⟩ ⟨a, 8⟩) : Chain (m.storePtr a p) a (a :: as) := by
  refine ⟨rfl, ?_⟩
  rw [loadPtr_storePtr hp]
  refine h.congr fun b hb j hj => storePtr_of_apart ?_
  rcases hsame b hb with hle | hle <;> simp only [Apart, stop] at hle ⊢ <;> omega

end Chain

end ByteMem

end Cobalt
