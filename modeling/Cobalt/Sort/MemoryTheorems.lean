/-
Cobalt.Sort.MemoryTheorems — rules for the accesses, and rearranging a part.

A sort is given a part of the array and may only rearrange it. This needs no
property of the comparator. What a comparator that orders the elements adds is
said with `Orders`: it answers by its arguments alone, its answers are those of
a total preorder, and allocations succeed.
-/
import Cobalt.Sort.Memory

namespace Cobalt.Sort

open Prog

variable {σ α : Type} {env : Env σ α} {s s' s'' : Mem σ α} {b i j k m n : Nat} {x y : α}

/-! ## The caller's functions -/

/-- An answer that the comparator may give. -/
def Says (env : Env σ α) (x y : α) (r : Int) : Prop := ∃ user, (env.compar user x y).1 = r

/-- The comparator is `compar`, which orders the elements, and no allocation fails. There is only
one element of no bytes. -/
structure Orders (env : Env σ α) (compar : α → α → Int) : Prop where
  compar_eq : ∀ user x y, (env.compar user x y).1 = compar x y
  order : TotalPreorder compar
  malloc_eq : ∀ user, (env.malloc user).1 = true
  empty : env.size = 0 → ∀ x y : α, x = y

variable {compar : α → α → Int}

lemma Orders.eq {r : Int} (h : Orders env compar) (hr : Says env x y r) : r = compar x y := by
  obtain ⟨user, rfl⟩ := hr
  exact h.compar_eq user x y

lemma Orders.le_of_empty (h : Orders env compar) (hsize : env.size = 0) (x y : α) :
    compar x y ≤ 0 := by
  rw [h.empty hsize x y]
  exact h.order.refl y

lemma Orders.of_bytes {size : Nat} {env : Env σ (Elem size)} {compar : Elem size → Elem size → Int}
    (hsize : env.size = size) (hcompar : ∀ user x y, (env.compar user x y).1 = compar x y)
    (hord : TotalPreorder compar) (hmalloc : ∀ user, (env.malloc user).1 = true) :
    Orders env compar := by
  refine ⟨hcompar, hord, hmalloc, fun hempty x y => ?_⟩
  obtain rfl : size = 0 := hsize.symm.trans hempty
  exact funext fun i => i.elim0

/-- `nmemb` bytes, compared as such. -/
def byteEnv (nmemb : Nat) : Env Unit (Elem 1) where
  nmemb := nmemb
  size := 1
  compar := fun user x y => (firstByte Nat.one_pos x y, user)
  malloc := fun user => (true, user)

/-- The bytes from 255 down. -/
def descendingBytes : Mem Unit (Elem 1) where
  arr := fun i _ => 255 - UInt8.ofNat i
  scratch := fun _ _ => 0
  room := 0
  user := ()

/-- Nothing but the state of the caller's functions differs. -/
def SameMem (s s' : Mem σ α) : Prop := ∃ user, s' = { s with user := user }

/-! ## Accesses -/

lemma read_ends (hi : i < env.nmemb) : Ends (read env i) s fun x s' => x = s.arr i ∧ s' = s :=
  ⟨s.arr i, s, if_pos hi, rfl, rfl⟩

lemma write_ends (hi : i < env.nmemb) (x : α) :
    Ends (write env i x) s fun _ s' => s' = { s with arr := overwrite s.arr i [x] } :=
  ⟨(), _, if_pos hi, rfl⟩

lemma swapAt_ends (hi : i < env.nmemb) (hj : j < env.nmemb) :
    Ends (swapAt env i j) s fun _ s' => s' = { s with arr := swap s.arr i j } :=
  ⟨(), _, if_pos ⟨hi, hj⟩, rfl⟩

lemma compare_ends (x y : α) : Ends (compare env x y) s fun r s' => Says env x y r ∧ SameMem s s' :=
  ⟨_, _, rfl, ⟨s.user, rfl⟩, _, rfl⟩

lemma compareAt_ends (hi : i < env.nmemb) (hj : j < env.nmemb) :
    Ends (compareAt env i j) s fun r s' => Says env (s.arr i) (s.arr j) r ∧ SameMem s s' := by
  refine .bind (read_ends hi) fun x s1 hx => ?_
  obtain ⟨rfl, rfl⟩ := hx
  refine .bind (read_ends hj) fun y s2 hy => ?_
  obtain ⟨rfl, rfl⟩ := hy
  exact compare_ends _ _

lemma malloc_ends : Ends (malloc env) s fun granted s' =>
    (∀ compar, Orders env compar → granted = true) ∧ SameMem s s' :=
  ⟨_, _, rfl, fun _ h => h.malloc_eq s.user, _, rfl⟩

/-! ## Rearranging a part -/

/-- Only the `n` elements from `b` on may have changed, and they are the same ones. -/
structure Rearranged (b n : Nat) (s s' : Mem σ α) : Prop where
  outside : ∀ i, ¬ (b ≤ i ∧ i < b + n) → s'.arr i = s.arr i
  perm : (slice s'.arr b n).Perm (slice s.arr b n)
  room : s'.room = s.room

namespace Rearranged

lemma refl (b n : Nat) (s : Mem σ α) : Rearranged b n s s := ⟨fun _ _ => rfl, .refl _, rfl⟩

lemma of_sameMem (h : SameMem s s') : Rearranged b n s s' := by
  obtain ⟨user, rfl⟩ := h
  exact ⟨fun _ _ => rfl, .refl _, rfl⟩

lemma trans (h : Rearranged b n s s') (h' : Rearranged b n s' s'') : Rearranged b n s s'' :=
  ⟨fun i hi => (h'.outside i hi).trans (h.outside i hi), h'.perm.trans h.perm, h'.room.trans h.room⟩

/-- Rearranging a part rearranges every larger part. -/
lemma mono (h : Rearranged k m s s') (hb : b ≤ k) (hn : k + m ≤ b + n) : Rearranged b n s s' :=
  ⟨fun i hi => h.outside i (by omega), slice_perm_of_part hb hn h.outside h.perm, h.room⟩

lemma swapped (hi : b ≤ i ∧ i < b + n) (hj : b ≤ j ∧ j < b + n) :
    Rearranged b n s { s with arr := swap s.arr i j } :=
  ⟨fun k hk => swap_of_ne (by omega) (by omega), slice_swap_perm hi hj, rfl⟩

/-- What holds of all elements of the part holds of them afterwards. -/
lemma all {p : α → Prop} (h : Rearranged b n s s') (hp : ∀ i, b ≤ i → i < b + n → p (s.arr i))
    (hi : b ≤ i) (hi' : i < b + n) : p (s'.arr i) := by
  have hmem : s'.arr i ∈ slice s.arr b n := h.perm.mem_iff.mp (mem_slice.mpr ⟨i, hi, hi', rfl⟩)
  obtain ⟨k, hk, hk', heq⟩ := mem_slice.mp hmem
  rw [← heq]
  exact hp k hk hk'

end Rearranged

/-- The part is in order. -/
def Sorted (compar : α → α → Int) (arr : Nat → α) (b n : Nat) : Prop :=
  ∀ i k, b ≤ i → i < k → k < b + n → compar (arr i) (arr k) ≤ 0

lemma Sorted.short (compar : α → α → Int) (arr : Nat → α) (hn : n ≤ 1) : Sorted compar arr b n :=
  fun i k _ _ _ => by omega

/-- A part that is not touched stays in order. -/
lemma Sorted.congr {arr arr' : Nat → α} (h : Sorted compar arr b n)
    (heq : ∀ i, b ≤ i → i < b + n → arr' i = arr i) : Sorted compar arr' b n := by
  intro i k hi hik hk
  rw [heq i hi (by omega), heq k (by omega) hk]
  exact h i k hi hik hk

end Cobalt.Sort
