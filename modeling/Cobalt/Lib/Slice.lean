/-
Cobalt.Lib.Slice — an array in memory and its parts.

An array is a function of the index; what lies in a part of it is a list, the
`slice`. Parts are rearranged by swapping two elements or by writing a list over
them. What is outside of the part that is rearranged stays as it is, and so the
whole array is rearranged as well. The order is that of a comparator.
-/
import Mathlib

namespace Cobalt

open List

variable {α : Type} {arr arr' : Nat → α} {b i j k m n : Nat} {x : α} {xs : List α}

/-- An element: `size` bytes. -/
abbrev Elem (size : Nat) : Type := Fin size → UInt8

/-- The `n` elements from `b` on. -/
def slice (arr : Nat → α) (b n : Nat) : List α := (List.range' b n).map arr

/-- The elements of `xs` from `b` on. -/
def overwrite (arr : Nat → α) (b : Nat) (xs : List α) : Nat → α :=
  fun i => if b ≤ i then xs[i - b]?.getD (arr i) else arr i

def swap (arr : Nat → α) (i j : Nat) : Nat → α :=
  fun k => if k = i then arr j else if k = j then arr i else arr k

@[simp] lemma length_slice : (slice arr b n).length = n := by
  rw [slice, length_map, length_range']

lemma getElem_slice (h : i < (slice arr b n).length) : (slice arr b n)[i] = arr (b + i) := by
  simp [slice]

lemma mem_slice : x ∈ slice arr b n ↔ ∃ i, b ≤ i ∧ i < b + n ∧ arr i = x := by
  simp only [slice, mem_map, mem_range'_1, and_assoc]

lemma slice_add : slice arr b (m + n) = slice arr b m ++ slice arr (b + m) n := by
  rw [slice, slice, slice, ← map_append, List.range'_append_1]

@[simp] lemma slice_zero : slice arr b 0 = [] := rfl

lemma slice_succ : slice arr b (n + 1) = arr b :: slice arr (b + 1) n := by
  rw [slice, slice, List.range'_succ, map_cons]

lemma slice_concat : slice arr b (n + 1) = slice arr b n ++ [arr (b + n)] := by
  rw [slice_add]
  rfl

lemma slice_congr (h : ∀ i, b ≤ i → i < b + n → arr' i = arr i) : slice arr' b n = slice arr b n := by
  refine map_congr_left fun i hi => ?_
  rw [mem_range'_1] at hi
  exact h i hi.1 hi.2

lemma pairwise_slice {r : α → α → Prop} :
    (slice arr b n).Pairwise r ↔ ∀ i k, b ≤ i → i < k → k < b + n → r (arr i) (arr k) := by
  rw [pairwise_iff_getElem]
  constructor
  · intro h i k hbi hik hkn
    have hr := h (i - b) (k - b) (by rw [length_slice]; omega) (by rw [length_slice]; omega) (by omega)
    rwa [getElem_slice, getElem_slice, Nat.add_sub_cancel' hbi, Nat.add_sub_cancel' (by omega)] at hr
  · intro h i k hi hk hik
    rw [getElem_slice, getElem_slice]
    rw [length_slice] at hk
    exact h _ _ (by omega) (by omega) (by omega)

/-! ## Comparators -/

/-- The comparator orders the elements: swapping its arguments flips its sign, and the order is
transitive. -/
structure TotalPreorder (compar : α → α → Int) : Prop where
  flip : ∀ a b, compar a b < 0 ↔ 0 < compar b a
  trans : ∀ a b c, compar a b ≤ 0 → compar b c ≤ 0 → compar a c ≤ 0

namespace TotalPreorder

variable {compar : α → α → Int} {a c p : α}

variable (h : TotalPreorder compar)

include h

lemma le_of_not_lt (hnot : ¬ compar a p < 0) : compar p a ≤ 0 := by
  by_contra hgt
  exact hnot ((h.flip a p).mpr (by omega))

lemma total (a c : α) : compar a c ≤ 0 ∨ compar c a ≤ 0 := by
  by_cases hlt : compar a c < 0
  · exact .inl (Int.le_of_lt hlt)
  · exact .inr (h.le_of_not_lt hlt)

lemma refl (a : α) : compar a a ≤ 0 := (h.total a a).elim id id

lemma gt_trans (hap : compar a p > 0) (hpc : compar p c > 0) : compar a c > 0 := by
  have hcp := (h.flip c p).mpr hpc
  have hac := h.trans a c p
  omega

/-- Elements that are taken for equal compare alike. -/
lemma sign_congr (heq : compar p c = 0) :
    (compar a p < 0 ↔ compar a c < 0) ∧ (compar a p > 0 ↔ compar a c > 0) := by
  have hpc := h.trans a p c
  have hcp := h.trans a c p
  have hcpa := h.trans c p a
  have hpca := h.trans p c a
  have hflip := h.flip p c
  have hflip' := h.flip c p
  have hap := h.flip a p
  have hac := h.flip a c
  omega

end TotalPreorder

/-- Elements are compared by their first byte. -/
def firstByte {size : Nat} (hsize : 0 < size) (x y : Elem size) : Int :=
  ((x ⟨0, hsize⟩).toNat : Int) - (y ⟨0, hsize⟩).toNat

lemma totalPreorder_firstByte {size : Nat} (hsize : 0 < size) : TotalPreorder (firstByte hsize) := by
  refine ⟨fun a b => ?_, fun a b c => ?_⟩
  · simp only [firstByte]
    omega
  · simp only [firstByte]
    omega

/-! ## Rearranging a part -/

lemma overwrite_of_lt (h : i < b) : overwrite arr b xs i = arr i := if_neg (Nat.not_le.mpr h)

lemma overwrite_of_ge (h : b + xs.length ≤ i) : overwrite arr b xs i = arr i := by
  rw [overwrite, if_pos (by omega), getElem?_eq_none (by omega)]
  rfl

lemma overwrite_outside (h : i < b ∨ b + xs.length ≤ i) : overwrite arr b xs i = arr i :=
  h.elim overwrite_of_lt overwrite_of_ge

lemma slice_overwrite (hlen : xs.length = n) : slice (overwrite arr b xs) b n = xs := by
  subst hlen
  refine ext_getElem length_slice fun i hi hi' => ?_
  rw [getElem_slice, overwrite, if_pos (Nat.le_add_right _ _), Nat.add_sub_cancel_left,
    getElem?_eq_getElem hi']
  rfl

lemma overwrite_slice : overwrite arr b (slice arr b n) = arr := by
  funext i
  by_cases hlt : i < b
  · exact overwrite_of_lt hlt
  · by_cases hge : b + n ≤ i
    · exact overwrite_of_ge (by rwa [length_slice])
    · have hi : i - b < (slice arr b n).length := by rw [length_slice]; omega
      rw [overwrite, if_pos (Nat.le_of_not_lt hlt), getElem?_eq_getElem hi, getElem_slice,
        Nat.add_sub_cancel' (Nat.le_of_not_lt hlt)]
      rfl

@[simp] lemma overwrite_nil : overwrite arr b [] = arr := by
  have h : overwrite arr b (slice arr b 0) = arr := overwrite_slice
  rwa [slice_zero] at h

lemma overwrite_singleton : overwrite arr b [x] b = x := by
  rw [overwrite, if_pos (Nat.le_refl b), Nat.sub_self]
  rfl

/-- Two lists that are written one behind the other. -/
lemma overwrite_append {ys : List α} :
    overwrite (overwrite arr (b + xs.length) ys) b xs = overwrite arr b (xs ++ ys) := by
  funext i
  by_cases hlt : i < b
  · rw [overwrite_of_lt hlt, overwrite_of_lt (by omega), overwrite_of_lt hlt]
  · have hle := Nat.le_of_not_lt hlt
    by_cases hxs : i - b < xs.length
    · have hleft : overwrite arr b (xs ++ ys) i = xs[i - b] := by
        rw [overwrite, if_pos hle, getElem?_append_left hxs, getElem?_eq_getElem hxs]
        rfl
      rw [hleft, overwrite, if_pos hle, getElem?_eq_getElem hxs]
      rfl
    · have hright : overwrite arr b (xs ++ ys) i = ys[i - b - xs.length]?.getD (arr i) := by
        rw [overwrite, if_pos hle, getElem?_append_right (Nat.le_of_not_lt hxs)]
      rw [hright, overwrite_of_ge (by omega), overwrite, if_pos (by omega), Nat.sub_add_eq]

lemma overwrite_cons : overwrite (overwrite arr b [x]) (b + 1) xs = overwrite arr b (x :: xs) := by
  funext i
  rcases Nat.lt_trichotomy i b with hlt | rfl | hgt
  · rw [overwrite_of_lt (by omega), overwrite_of_lt hlt, overwrite_of_lt hlt]
  · rw [overwrite_of_lt (Nat.lt_succ_self _), overwrite_singleton, overwrite, if_pos (le_refl _),
      Nat.sub_self]
    rfl
  · have hone : overwrite arr b [x] i = arr i := overwrite_of_ge hgt
    rw [overwrite, if_pos (by omega), hone, overwrite, if_pos hgt.le,
      show i - b = i - (b + 1) + 1 by omega]
    rfl

/-- What is written behind a part is behind it. -/
lemma slice_overwrite_append (hlen : xs.length = n) :
    slice (overwrite arr (b + m) xs) b (m + n) = slice arr b m ++ xs := by
  rw [slice_add, slice_overwrite hlen, slice_congr fun i _ hi => overwrite_of_lt hi]

lemma swap_of_ne (hi : k ≠ i) (hj : k ≠ j) : swap arr i j k = arr k := by
  rw [swap, if_neg hi, if_neg hj]

lemma swap_left : swap arr i j i = arr j := if_pos rfl

lemma swap_right : swap arr i j j = arr i := by
  rw [swap]
  split
  · next h => rw [h]
  · rw [if_pos rfl]

lemma swap_eq : swap arr i j k = arr (if k = i then j else if k = j then i else k) := by
  rw [swap]
  split
  · rfl
  · split <;> rfl

lemma slice_swap_perm (hi : b ≤ i ∧ i < b + n) (hj : b ≤ j ∧ j < b + n) :
    (slice (swap arr i j) b n).Perm (slice arr b n) := by
  have hmap : slice (swap arr i j) b n =
      ((List.range' b n).map fun k => if k = i then j else if k = j then i else k).map arr := by
    rw [map_map]
    exact map_congr_left fun k _ => swap_eq
  rw [hmap, slice]
  refine List.Perm.map arr ((perm_ext_iff_of_nodup ?_ nodup_range').mpr fun k => ?_)
  · refine List.Nodup.map_on (fun x _ y _ hxy => ?_) nodup_range'
    grind
  · simp only [mem_map, mem_range'_1]
    constructor
    · grind
    · intro hk
      refine ⟨if k = i then j else if k = j then i else k, ?_, ?_⟩ <;> grind

lemma slice_perm_of_part (hb : b ≤ k) (hn : k + m ≤ b + n)
    (hout : ∀ i, ¬ (k ≤ i ∧ i < k + m) → arr' i = arr i)
    (hperm : (slice arr' k m).Perm (slice arr k m)) : (slice arr' b n).Perm (slice arr b n) := by
  have hparts : ∀ a : Nat → α, slice a b n =
      slice a b (k - b) ++ (slice a k m ++ slice a (k + m) (b + n - (k + m))) := by
    intro a
    conv_lhs => rw [show n = (k - b) + (m + (b + n - (k + m))) by omega, slice_add, slice_add]
    rw [Nat.add_sub_cancel' hb]
  have hbefore : slice arr' b (k - b) = slice arr b (k - b) :=
    slice_congr fun i _ _ => hout i (by omega)
  have hbehind : slice arr' (k + m) (b + n - (k + m)) = slice arr (k + m) (b + n - (k + m)) :=
    slice_congr fun i _ _ => hout i (by omega)
  rw [hparts arr', hparts arr, hbefore, hbehind]
  exact (hperm.append_right _).append_left _

end Cobalt
