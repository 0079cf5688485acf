/-
Cobalt.Sort.InsertionSort — the insertion sort rearranges, and sorts stably.

The inner loop moves a block of the array up by one place, and the element that
stood behind the block is written into the gap. With a comparator that orders
the elements the block is what is greater than this element, so that every turn
of the outer loop makes the stable sort of one element more.
-/
import Cobalt.Lib.StableSort
import Cobalt.Sort.MemoryTheorems
import Cobalt.Sort.Qsort

namespace Cobalt.Sort

open Prog List

variable {σ α : Type} {env : Env σ α} {s s' : Mem σ α} {compar : α → α → Int} {arr : Nat → α}
  {b i j k n : Nat} {x key : α}

/-- The array after the element at `b + i` was inserted at `b + j`. -/
def inserted (arr : Nat → α) (b i j : Nat) : Nat → α :=
  overwrite arr (b + j) (arr (b + i) :: slice arr (b + j) (i - j))

lemma slice_inserted (hj : j ≤ i) :
    slice (inserted arr b i j) b (i + 1) =
      slice arr b j ++ arr (b + i) :: slice arr (b + j) (i - j) := by
  have hlen : (arr (b + i) :: slice arr (b + j) (i - j)).length = i - j + 1 := by
    rw [length_cons, length_slice]
  rw [inserted, show i + 1 = j + (i - j + 1) by omega, slice_overwrite_append hlen]

lemma inserted_of_ge (hj : j ≤ i) (hk : b + (i + 1) ≤ k) : inserted arr b i j k = arr k :=
  overwrite_of_ge (by rw [length_cons, length_slice]; omega)

lemma inserted_of_lt (hk : k < b) : inserted arr b i j k = arr k := overwrite_of_lt (by omega)

lemma inserted_self : inserted arr b i i = arr := by
  have h : overwrite arr (b + i) (slice arr (b + i) 1) = arr := overwrite_slice
  rw [slice_succ, slice_zero] at h
  rwa [inserted, Nat.sub_self, slice_zero]

lemma slice_eq_parts (hj : j ≤ i) :
    slice arr b (i + 1) = slice arr b j ++ (slice arr (b + j) (i - j) ++ [arr (b + i)]) := by
  rw [slice_concat, ← append_assoc, ← slice_add, Nat.add_sub_cancel' hj]

/-! ## One turn of the outer loop -/

/-- The array after the block from `j'` to `j` was moved up by one place. -/
def moved (arr : Nat → α) (b j' j : Nat) : Nat → α :=
  overwrite arr (b + j' + 1) (slice arr (b + j') (j - j'))

lemma moved_self : moved arr b j j = arr := by
  rw [moved, Nat.sub_self, slice_zero, overwrite_nil]

lemma moved_step {j' : Nat} (hj : j' ≤ j) :
    moved (overwrite arr (b + (j + 1)) [arr (b + j)]) b j' j = moved arr b j' (j + 1) := by
  have hsame : slice (overwrite arr (b + (j + 1)) [arr (b + j)]) (b + j') (j - j') =
      slice arr (b + j') (j - j') := slice_congr fun i _ hi => overwrite_of_lt (by omega)
  have hlast : slice arr (b + j') (j + 1 - j') = slice arr (b + j') (j - j') ++ [arr (b + j)] := by
    rw [Nat.succ_sub hj, slice_concat, show b + j' + (j - j') = b + j by omega]
  have hplace : b + (j + 1) = b + j' + 1 + (slice arr (b + j') (j - j')).length := by
    rw [length_slice]
    omega
  rw [moved, hsame, hplace, overwrite_append, moved, hlast]

/-- Everything from `j'` to `j` is greater than `key`, and what is before `j'` is not. -/
structure Fits (compar : α → α → Int) (arr : Nat → α) (b : Nat) (key : α) (j' j : Nat) : Prop where
  greater : ∀ i, j' ≤ i → i < j → compar (arr (b + i)) key > 0
  before : 0 < j' → compar (arr (b + (j' - 1))) key ≤ 0

lemma Fits.step {j' : Nat} (hj : j' ≤ j)
    (h : Fits compar (overwrite arr (b + (j + 1)) [x]) b key j' j)
    (hgt : compar (arr (b + j)) key > 0) : Fits compar arr b key j' (j + 1) := by
  refine ⟨fun i hi hij => ?_, fun hpos => ?_⟩
  · rcases Nat.eq_or_lt_of_le (show i ≤ j by omega) with rfl | hlt
    · exact hgt
    · have hgreater := h.greater i hi hlt
      rwa [overwrite_of_lt (by omega)] at hgreater
  · have hbefore := h.before hpos
    rwa [overwrite_of_lt (by omega)] at hbefore

lemma shift_ends (hb : b + j < env.nmemb) :
    Ends (shift env b key j) s fun j' s' => j' ≤ j ∧
      (∃ user, s' = { s with arr := moved s.arr b j' j, user := user }) ∧
      ∀ compar, Orders env compar → Fits compar s.arr b key j' j := by
  induction j generalizing s with
  | zero =>
    refine .pure ⟨le_refl _, ⟨s.user, ?_⟩, fun compar _ => ⟨fun i _ hi => ?_, fun h => ?_⟩⟩
    · rw [moved_self]
    · omega
    · omega
  | succ j ih =>
    refine .bind (read_ends (by omega)) fun x s1 h1 => ?_
    obtain ⟨rfl, rfl⟩ := h1
    refine .bind (compare_ends _ _) fun r s2 h2 => ?_
    obtain ⟨hr, u2, rfl⟩ := h2
    split
    · rename_i hgt
      refine .bind (write_ends (by omega) _) fun _ s3 h3 => ?_
      subst h3
      refine (ih (by omega)).imp fun j' s' h' => ?_
      obtain ⟨hj', ⟨user, rfl⟩, hfits⟩ := h'
      refine ⟨by omega, ⟨user, by rw [moved_step hj']⟩, fun compar hord => ?_⟩
      rw [hord.eq hr] at hgt
      exact (hfits compar hord).step hj' hgt
    · rename_i hle
      refine .pure ⟨le_refl _, ⟨u2, by rw [moved_self]⟩, fun compar hord => ⟨?_, fun _ => ?_⟩⟩
      · intro i hi hij
        omega
      · rw [hord.eq hr] at hle
        exact Int.not_lt.mp hle

lemma insertOne_ends (hb : b + i < env.nmemb) :
    Ends (insertOne env b i) s fun _ s' => ∃ j, j ≤ i ∧
      (∃ user, s' = { s with arr := inserted s.arr b i j, user := user }) ∧
      ∀ compar, Orders env compar → Fits compar s.arr b (s.arr (b + i)) j i := by
  refine .bind (read_ends hb) fun key s1 h1 => ?_
  obtain ⟨rfl, rfl⟩ := h1
  refine .bind (shift_ends hb) fun j s2 h2 => ?_
  obtain ⟨hj, ⟨user, rfl⟩, hfits⟩ := h2
  split
  · refine (write_ends (by omega) _).imp fun _ s' h' => ⟨j, hj, ⟨user, ?_⟩, hfits⟩
    -- the key is written in front of the block
    rw [h']
    congr 1
    exact overwrite_append
  · rename_i heq
    obtain rfl : j = i := Decidable.not_not.mp heq
    refine .pure ⟨j, hj, ⟨user, ?_⟩, hfits⟩
    rw [moved_self, inserted_self]

lemma rearranged_inserted {user : σ} (hj : j ≤ i) :
    Rearranged b (i + 1) s { s with arr := inserted s.arr b i j, user := user } := by
  refine ⟨fun k hk => ?_, ?_, rfl⟩
  · by_cases hlt : k < b
    · exact inserted_of_lt hlt
    · exact inserted_of_ge hj (by omega)
  · dsimp only
    rw [slice_inserted hj, slice_eq_parts hj]
    exact (perm_append_singleton _ _).symm.append_left _

lemma Fits.stableOf {xs : List α} (hord : TotalPreorder compar)
    (h : Fits compar arr b (arr (b + i)) j i) (hj : j ≤ i)
    (hxs : StableOf compar xs (slice arr b i)) :
    StableOf compar (xs ++ [arr (b + i)]) (slice (inserted arr b i j) b (i + 1)) := by
  have hparts : slice arr b i = slice arr b j ++ slice arr (b + j) (i - j) := by
    rw [← slice_add, Nat.add_sub_cancel' hj]
  have hsorted := pairwise_slice.mp hxs.sorted
  rw [hparts] at hxs
  rw [slice_inserted hj]
  refine hxs.insert hord (fun u hu => ?_) fun v hv => ?_
  · obtain ⟨k, hk, hkj, rfl⟩ := mem_slice.mp hu
    have hbefore := h.before (by omega)
    rcases Nat.eq_or_lt_of_le (show k ≤ b + (j - 1) by omega) with rfl | hlt
    · exact hbefore
    · exact hord.trans _ _ _ (hsorted k (b + (j - 1)) hk hlt (by omega)) hbefore
  · obtain ⟨k, hk, hki, rfl⟩ := mem_slice.mp hv
    obtain ⟨k, rfl⟩ := Nat.exists_eq_add_of_le (show b ≤ k by omega)
    exact h.greater k (by omega) (by omega)

/-! ## The sort -/

lemma insertFrom_ends (hb : b + (i + k) ≤ env.nmemb) :
    Ends (insertFrom env b k i) s fun _ s' => Rearranged b (i + k) s s' ∧
      ∀ compar, Orders env compar → ∀ xs, StableOf compar xs (slice s.arr b i) →
        StableOf compar (xs ++ slice s.arr (b + i) k) (slice s'.arr b (i + k)) := by
  induction k generalizing s i with
  | zero =>
    refine .pure ⟨.refl _ _ _, fun compar _ xs hxs => ?_⟩
    rwa [slice_zero, append_nil]
  | succ k ih =>
    refine .bind (insertOne_ends (by omega)) fun _ s1 h1 => ?_
    obtain ⟨j, hj, ⟨user, rfl⟩, hfits⟩ := h1
    refine (ih (by omega)).imp fun _ s' h' => ?_
    rw [Nat.add_right_comm] at h'
    refine ⟨((rearranged_inserted hj).mono (le_refl _) (by omega)).trans h'.1, ?_⟩
    intro compar hord xs hxs
    have hnext := h'.2 compar hord _ ((hfits compar hord).stableOf hord.order hj hxs)
    have hrest : slice (inserted s.arr b i j) (b + (i + 1)) k = slice s.arr (b + i + 1) k :=
      slice_congr fun l hl _ => inserted_of_ge hj hl
    rwa [hrest, append_assoc, singleton_append, ← slice_succ] at hnext

lemma keyBuffer_ends : Ends (keyBuffer env) s fun granted s' =>
    (∀ compar, Orders env compar → granted = true) ∧ SameMem s s' := by
  unfold keyBuffer
  split
  · exact .pure ⟨fun _ _ => rfl, s.user, rfl⟩
  · exact malloc_ends

lemma insertionSortImpl_ends (hb : b + n ≤ env.nmemb) :
    Ends (insertionSortImpl env b n) s fun _ s' => Rearranged b n s s' ∧
      ∀ compar, Orders env compar → StableOf compar (slice s.arr b n) (slice s'.arr b n) := by
  unfold insertionSortImpl
  split
  · rename_i hnone
    refine .pure ⟨.refl _ _ _, fun compar hord => .of_sorted (pairwise_slice.mpr ?_)⟩
    intro i k hi hik hk
    rcases hnone with hn | hsize
    · omega
    · exact hord.le_of_empty hsize _ _
  · refine .bind keyBuffer_ends fun granted s1 h1 => ?_
    obtain ⟨hgranted, user, rfl⟩ := h1
    split
    · obtain ⟨n, rfl⟩ : ∃ m, n = 1 + m := ⟨n - 1, by omega⟩
      rw [Nat.add_sub_cancel_left]
      refine (insertFrom_ends hb).imp fun _ s' h' => ⟨?_, fun compar hord => ?_⟩
      · exact Rearranged.trans (.of_sameMem ⟨user, rfl⟩) h'.1
      · have hfirst : StableOf compar (slice s.arr b 1) (slice s.arr b 1) :=
          .of_sorted (pairwise_slice.mpr fun i k _ _ _ => by omega)
        have hsort := h'.2 compar hord _ hfirst
        rwa [← slice_add] at hsort
    · rename_i hrefused
      refine .pure ⟨.of_sameMem ⟨user, rfl⟩, fun compar hord => ?_⟩
      exact absurd (hgranted compar hord) hrefused

end Cobalt.Sort
