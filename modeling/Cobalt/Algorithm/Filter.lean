/-
Cobalt.Algorithm.Filter — `cobalt_filter` of `functional.c`.

The elements that a predicate keeps are moved to the front of the output, which
is the input itself or another array. The copy is left out while nothing has
been dropped yet: in the input such an element is where it belongs, another
output does not get it.
-/
import Cobalt.Lib.Slice

namespace Cobalt.Filter

open Function List

variable {α : Type}

/-- The input, and the output where that is another array. -/
structure Arrays (α : Type) where
  src : Nat → α
  dst : Option (Nat → α)

def Arrays.output (a : Arrays α) : Nat → α := a.dst.getD a.src

/-- `memcpy(dst + count * size, src + i * size, size)`. -/
def Arrays.copy (a : Arrays α) (count i : Nat) : Arrays α :=
  match a.dst with
  | some dst => { a with dst := some (update dst count (a.src i)) }
  | none => { a with src := update a.src count (a.src i) }

/-- The loop of `cobalt_filter`, with the elements that are left. -/
def filterLoop (pred : α → Bool) : Nat → Nat → Nat → Arrays α → Arrays α × Nat
  | 0, _, count, a => (a, count)
  | n + 1, i, count, a =>
      if pred (a.src i) then
        filterLoop pred n (i + 1) (count + 1) (if count != i then a.copy count i else a)
      else filterLoop pred n (i + 1) count a

/-- `cobalt_filter`: the arrays after the call, and `*nmemb`. -/
def cobaltFilter (pred : α → Bool) (nmemb : Nat) (a : Arrays α) : Arrays α × Nat :=
  filterLoop pred nmemb 0 0 a

/-- What the front of the output holds in the end. -/
def kept (r : Arrays α × Nat) : List α := slice r.1.output 0 r.2

variable {pred : α → Bool} {a : Arrays α} {i count n : Nat}

lemma Arrays.output_copy : (a.copy count i).output = update a.output count (a.src i) := by
  obtain ⟨src, _ | dst⟩ := a <;> rfl

lemma Arrays.src_copy {j : Nat} (h : count < j) : (a.copy count i).src j = a.src j := by
  obtain ⟨src, _ | dst⟩ := a
  · exact update_of_ne h.ne' _ _
  · rfl

lemma kept_filterLoop_of_lt (h : count < i) :
    kept (filterLoop pred n i count a) =
      slice a.output 0 count ++ (slice a.src i n).filter pred := by
  induction n generalizing i count a with
  | zero => simp [kept, filterLoop]
  | succ n ih =>
    rw [filterLoop, slice_succ, filter_cons]
    split
    · have hrest : slice (a.copy count i).src (i + 1) n = slice a.src (i + 1) n :=
        slice_congr fun j hj _ => Arrays.src_copy (h.trans hj)
      have hfront : slice (update a.output count (a.src i)) 0 count = slice a.output 0 count :=
        slice_congr fun j _ hj => update_of_ne (by omega) _ _
      rw [if_pos (by simp [h.ne]), ih (by omega), hrest, Arrays.output_copy, slice_concat, hfront]
      simp
    · exact ih (by omega)

/-- Up to the first element that is dropped the output stays as it was. -/
lemma kept_filterLoop :
    kept (filterLoop pred n i i a) =
      slice a.output 0 (i + ((slice a.src i n).takeWhile pred).length) ++
        ((slice a.src i n).dropWhile pred).filter pred := by
  induction n generalizing i with
  | zero => simp [kept, filterLoop]
  | succ n ih =>
    rw [filterLoop, slice_succ, takeWhile_cons, dropWhile_cons]
    split
    · rw [if_neg (by simp), ih, length_cons, Nat.add_right_comm, Nat.add_assoc]
    · rename_i hdrop
      rw [kept_filterLoop_of_lt (Nat.lt_succ_self i), filter_cons_of_neg hdrop]
      rfl

lemma takeWhile_slice {arr : Nat → α} {b : Nat} : (slice arr b n).takeWhile pred =
    slice arr b ((slice arr b n).takeWhile pred).length := by
  induction n generalizing b with
  | zero => rfl
  | succ n ih =>
    rw [slice_succ, takeWhile_cons]
    split
    · rw [length_cons, slice_succ, ← ih]
    · rfl

/-- The output holds the kept elements in their order, `*nmemb` of them,
exactly if it already held those before the first dropped one. The input
itself does. -/
theorem cobaltFilter_exact_iff (pred : α → Bool) (nmemb : Nat) (a : Arrays α) :
    (kept (cobaltFilter pred nmemb a) = (slice a.src 0 nmemb).filter pred ∧
      (cobaltFilter pred nmemb a).2 = (slice a.src 0 nmemb).countP pred) ↔
    ∀ j < ((slice a.src 0 nmemb).takeWhile pred).length, a.output j = a.src j := by
  have hkept : kept (cobaltFilter pred nmemb a) = _ := kept_filterLoop
  have htake : (slice a.src 0 nmemb).takeWhile pred = _ := takeWhile_slice
  have hall := congrArg (filter pred) (takeWhile_append_dropWhile (p := pred)
    (l := slice a.src 0 nmemb))
  rw [filter_append, filter_eq_self.mpr (all_eq_true.mp all_takeWhile)] at hall
  have hcount : (cobaltFilter pred nmemb a).2 = (slice a.src 0 nmemb).countP pred := by
    simpa [countP_eq_length_filter, ← hall, kept] using congrArg length hkept
  generalize ((slice a.src 0 nmemb).takeWhile pred).length = m at *
  rw [and_iff_left hcount, hkept, ← hall, htake, Nat.zero_add, append_cancel_right_eq]
  simp [slice]

/-- The one element of the input is kept, and another output does not get it. -/
theorem cobaltFilter_misses : ¬ ∀ (pred : Bool → Bool) (nmemb : Nat) (a : Arrays Bool),
    kept (cobaltFilter pred nmemb a) = (slice a.src 0 nmemb).filter pred ∧
      (cobaltFilter pred nmemb a).2 = (slice a.src 0 nmemb).countP pred := by
  intro h
  have hmiss := (h (fun _ => true) 1 ⟨fun _ => true, some fun _ => false⟩).1
  exact absurd hmiss (by decide)

end Cobalt.Filter
