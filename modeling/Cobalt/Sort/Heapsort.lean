/-
Cobalt.Sort.Heapsort — the heapsort rearranges and sorts.

A part is a heap if no element is greater than the one at its parent's place.
Sifting down works at a place where this may fail for the children, and keeps
it everywhere else; the first loop makes a heap of the part from its end on,
the second one takes the root out again and again.
-/
import Cobalt.Sort.Qsort
import Cobalt.Sort.MemoryTheorems

namespace Cobalt.Sort

open Prog

variable {σ α : Type} {env : Env σ α} {s s' : Mem σ α} {compar : α → α → Int} {arr : Nat → α}
  {b r c i j k n lo count root fuel : Nat}

/-- The place above `j`. -/
def parent (j : Nat) : Nat := (j - 1) / 2

/-- No element of the part is greater than the one above it, if that is at `lo` or behind. -/
def HeapFrom (compar : α → α → Int) (arr : Nat → α) (b lo n : Nat) : Prop :=
  ∀ j, 0 < j → j < n → lo ≤ parent j → compar (arr (b + j)) (arr (b + parent j)) ≤ 0

/-- The same, except for the children of `r`, which are not greater than the element above `r`. -/
structure HeapExcept (compar : α → α → Int) (arr : Nat → α) (b lo n r : Nat) : Prop where
  edges : ∀ j, 0 < j → j < n → lo ≤ parent j → parent j ≠ r →
    compar (arr (b + j)) (arr (b + parent j)) ≤ 0
  upper : 0 < r → lo ≤ parent r → ∀ j, 0 < j → j < n → parent j = r →
    compar (arr (b + j)) (arr (b + parent r)) ≤ 0

/-- The children of `r` are not greater than the element at `c`. -/
def Tops (compar : α → α → Int) (arr : Nat → α) (b n r c : Nat) : Prop :=
  ∀ j, 0 < j → j < n → parent j = r → compar (arr (b + j)) (arr (b + c)) ≤ 0

lemma HeapExcept.done (h : HeapExcept compar arr b lo n r) (hr : Tops compar arr b n r r) :
    HeapFrom compar arr b lo n := by
  intro j hj hjn hlo
  by_cases hjr : parent j = r
  · rw [hjr]
    exact hr j hj hjn hjr
  · exact h.edges j hj hjn hlo hjr

/-- A step down: the greatest child is greater than the element at `r` and takes its place. -/
lemma HeapExcept.swapped (hord : TotalPreorder compar) (h : HeapExcept compar arr b lo n r)
    (hc : 0 < c) (hcn : c < n) (hcr : parent c = r) (htop : Tops compar arr b n r c)
    (hgt : compar (arr (b + c)) (arr (b + r)) > 0) :
    HeapExcept compar (swap arr (b + r) (b + c)) b lo n c := by
  have hlt : r < c := by
    unfold parent at hcr
    omega
  have hleft : swap arr (b + r) (b + c) (b + r) = arr (b + c) := swap_left
  have hright : swap arr (b + r) (b + c) (b + c) = arr (b + r) := swap_right
  have hother : ∀ j, j ≠ r → j ≠ c → swap arr (b + r) (b + c) (b + j) = arr (b + j) :=
    fun j hjr hjc => swap_of_ne (by omega) (by omega)
  have hle : compar (arr (b + r)) (arr (b + c)) ≤ 0 := Int.le_of_lt ((hord.flip _ _).mpr hgt)
  constructor
  · intro j hj hjn hlo hjc
    by_cases hjr : parent j = r
    · -- a child of `r`: the one that was greater, or its sibling
      rw [hjr, hleft]
      by_cases hjeq : j = c
      · rw [hjeq, hright]
        exact hle
      · have hjne : j ≠ r := by
          unfold parent at hjr
          omega
        rw [hother j hjne hjeq]
        exact htop j hj hjn hjr
    · rw [hother (parent j) hjr hjc]
      by_cases hjeq : j = r
      · rw [hjeq, hleft]
        rw [hjeq] at hj hlo
        exact h.upper hj hlo c hc hcn hcr
      · have hjc' : j ≠ c := fun hjc' => hjr (hjc' ▸ hcr)
        rw [hother j hjeq hjc']
        exact h.edges j hj hjn hlo hjr
  · intro _ hlo j hj hjn hjc
    have hjr : j ≠ r := by
      unfold parent at hjc
      omega
    have hjc' : j ≠ c := by
      unfold parent at hjc
      omega
    rw [hcr, hleft, hother j hjr hjc']
    have hedge := h.edges j hj hjn (by rw [hjc]; omega) (by omega)
    rwa [hjc] at hedge

/-! ## Sifting down -/

lemma largerChild_ends (hb : b + count ≤ env.nmemb) (hroot : root < count / 2) :
    Ends (largerChild env b root count) s fun c s' => SameMem s s' ∧
      (0 < c ∧ c < count ∧ parent c = root) ∧
      ∀ compar, Orders env compar → Tops compar s.arr b count root c := by
  unfold largerChild
  dsimp only
  split
  · refine .bind (compareAt_ends (by omega) (by omega)) fun r s' h => .pure ?_
    obtain ⟨hr, hsame⟩ := h
    refine ⟨hsame, ?_, fun compar hord => ?_⟩
    · unfold parent
      split <;> omega
    · have hr' := hord.eq hr
      intro j hj hjn hjr
      have hj' : j = root * 2 + 1 ∨ j = root * 2 + 1 + 1 := by
        unfold parent at hjr
        omega
      split
      · rename_i hgt
        rcases hj' with rfl | rfl
        · exact Int.le_of_lt ((hord.order.flip _ _).mpr (by omega))
        · exact hord.order.refl _
      · rename_i hle
        rcases hj' with rfl | rfl
        · exact hord.order.refl _
        · omega
  · refine .pure ⟨⟨s.user, rfl⟩, ?_, fun compar hord j hj hjn hjr => ?_⟩
    · unfold parent
      omega
    · have hj' : j = root * 2 + 1 := by
        unfold parent at hjr
        omega
      rw [hj']
      exact hord.order.refl _

/-- `heapsort_sift_down` rearranges the part, and mends a heap whose one fault is below `root`. -/
lemma siftDown_ends (hb : b + count ≤ env.nmemb) (hroot : root ≤ count)
    (hfuel : count < fuel + root) :
    Ends (siftDown env b count fuel root) s fun _ s' => Rearranged b count s s' ∧
      ∀ compar, Orders env compar → ∀ lo, HeapExcept compar s.arr b lo count root →
        HeapFrom compar s'.arr b lo count := by
  induction fuel generalizing s root with
  | zero => omega
  | succ fuel ih =>
    unfold siftDown
    split
    · rename_i hhalf
      refine .bind (largerChild_ends hb hhalf) fun c s1 h1 => ?_
      obtain ⟨⟨u1, rfl⟩, ⟨hc, hcn, hcr⟩, htop⟩ := h1
      have hlt : root < c := by
        unfold parent at hcr
        omega
      refine .bind (compareAt_ends (by omega) (by omega)) fun r s2 h2 => ?_
      obtain ⟨hr, u2, rfl⟩ := h2
      split
      · rename_i hgt
        refine .bind (swapAt_ends (by omega) (by omega)) fun _ s3 h3 => ?_
        subst h3
        refine (ih (by omega) (by omega)).imp fun _ s' h' => ⟨?_, fun compar hord lo hex => ?_⟩
        · have hswap : Rearranged b count s
              { s with arr := swap s.arr (b + root) (b + c), user := u2 } :=
            ⟨fun k hk => swap_of_ne (by omega) (by omega), slice_swap_perm (by omega) (by omega), rfl⟩
          exact hswap.trans h'.1
        · rw [hord.eq hr] at hgt
          exact h'.2 compar hord lo (hex.swapped hord.order hc hcn hcr (htop compar hord) hgt)
      · rename_i hle
        refine .pure ⟨.of_sameMem ⟨_, rfl⟩, fun compar hord lo hex => hex.done ?_⟩
        intro j hj hjn hjr
        rw [hord.eq hr] at hle
        exact hord.order.trans _ _ _ (htop compar hord j hj hjn hjr) (by dsimp only at hle; omega)
    · refine .pure ⟨.refl _ _ _, fun compar hord lo hex => hex.done ?_⟩
      intro j hj hjn hjr
      unfold parent at hjr
      omega

/-! ## The two loops -/

lemma heapify_ends (hb : b + n ≤ env.nmemb) (hi : i ≤ n) :
    Ends (heapify env b n i) s fun _ s' => Rearranged b n s s' ∧
      ∀ compar, Orders env compar → HeapFrom compar s.arr b i n → HeapFrom compar s'.arr b 0 n := by
  induction i generalizing s with
  | zero => exact .pure ⟨.refl _ _ _, fun _ _ h => h⟩
  | succ i ih =>
    refine .bind (siftDown_ends hb (by omega) (by omega)) fun _ s1 h1 => ?_
    refine (ih (by omega)).imp fun _ s' h' => ⟨h1.1.trans h'.1, fun compar hord hheap => ?_⟩
    refine h'.2 compar hord (h1.2 compar hord i ⟨fun j hj hjn hlo hne => ?_, fun hi hlo => ?_⟩)
    · exact hheap j hj hjn (by omega)
    · -- the element above `i` is before `i`
      unfold parent at hlo
      omega

lemma HeapFrom.le_root (hord : TotalPreorder compar) (h : HeapFrom compar arr b 0 n) (hj : j < n) :
    compar (arr (b + j)) (arr b) ≤ 0 := by
  induction j using Nat.strongRecOn with
  | ind j ih =>
    rcases Nat.eq_zero_or_pos j with rfl | hpos
    · exact hord.refl _
    · have hlt : parent j < j := by
        unfold parent
        omega
      exact hord.trans _ _ _ (h j hpos hj (Nat.zero_le _)) (ih (parent j) hlt (by omega))

/-- With its root and its last element swapped, a heap without that place is one except below
the root. -/
lemma HeapFrom.except_root (h : HeapFrom compar arr b 0 (n + 1)) :
    HeapExcept compar (swap arr b (b + n)) b 0 n 0 := by
  refine ⟨fun j hj hjn _ hne => ?_, fun hlt => absurd hlt (lt_irrefl 0)⟩
  have hlt : parent j < j := by
    unfold parent
    omega
  rw [swap_of_ne (by omega) (by omega), swap_of_ne (by omega) (by omega)]
  exact h j hj (by omega) (Nat.zero_le _)

/-- Before the second loop takes the root to place `i`: a heap up to there, and what is behind is
in order and not smaller. -/
structure Extracting (compar : α → α → Int) (arr : Nat → α) (b n i : Nat) : Prop where
  heap : HeapFrom compar arr b 0 (i + 1)
  sorted : Sorted compar arr (b + (i + 1)) (n - (i + 1))
  above : ∀ j k, j ≤ i → i < k → k < n → compar (arr (b + j)) (arr (b + k)) ≤ 0

/-- One turn of the second loop: the root goes to place `i + 1`, and the elements before that
are made a heap again. -/
lemma Extracting.next {s1 : Mem σ α} (hord : TotalPreorder compar)
    (h : Extracting compar s.arr b n (i + 1)) (hi : i + 1 < n)
    (hre : Rearranged b (i + 1) { s with arr := swap s.arr b (b + (i + 1)) } s1)
    (hheap : HeapFrom compar s1.arr b 0 (i + 1)) : Extracting compar s1.arr b n i := by
  have hafter : ∀ k, i < k → s1.arr (b + k) = swap s.arr b (b + (i + 1)) (b + k) :=
    fun k hk => hre.outside _ (by omega)
  have hplace : s1.arr (b + (i + 1)) = s.arr b := (hafter _ (by omega)).trans swap_right
  have hrest : ∀ k, i + 1 < k → s1.arr (b + k) = s.arr (b + k) :=
    fun k hk => (hafter k (by omega)).trans (swap_of_ne (by omega) (by omega))
  -- every element before was one of the heap
  have hold : ∀ j, j ≤ i → ∃ j', j' ≤ i + 1 ∧ s1.arr (b + j) = s.arr (b + j') := by
    intro j hj
    refine hre.all (p := fun x => ∃ j', j' ≤ i + 1 ∧ x = s.arr (b + j')) (fun k hk hk' => ?_)
      (by omega) (by omega)
    dsimp only
    rw [swap_eq]
    split
    · exact ⟨i + 1, by omega, rfl⟩
    · rw [if_neg (by omega)]
      exact ⟨k - b, by omega, by rw [Nat.add_sub_cancel' hk]⟩
  refine ⟨hheap, ?_, ?_⟩
  · intro k l hk hkl hl
    obtain ⟨k, rfl⟩ := Nat.exists_eq_add_of_le (show b ≤ k by omega)
    obtain ⟨l, rfl⟩ := Nat.exists_eq_add_of_le (show b ≤ l by omega)
    rw [hrest l (by omega)]
    rcases Nat.eq_or_lt_of_le (show i + 1 ≤ k by omega) with rfl | hlt
    · rw [hplace]
      exact h.above 0 l (Nat.zero_le _) (by omega) (by omega)
    · rw [hrest k hlt]
      exact h.sorted _ _ (by omega) hkl (by omega)
  · intro j k hj hik hk
    obtain ⟨j', hj', heq⟩ := hold j hj
    rw [heq]
    rcases Nat.eq_or_lt_of_le (show i + 1 ≤ k by omega) with rfl | hlt
    · rw [hplace]
      exact h.heap.le_root hord (by omega)
    · rw [hrest k hlt]
      exact h.above j' k hj' hlt hk

lemma extract_ends (hb : b + n ≤ env.nmemb) (hi : i < n) :
    Ends (extract env b i) s fun _ s' => Rearranged b n s s' ∧
      ∀ compar, Orders env compar → Extracting compar s.arr b n i → Sorted compar s'.arr b n := by
  induction i generalizing s with
  | zero =>
    refine .pure ⟨.refl _ _ _, fun compar hord h k l hk hkl hl => ?_⟩
    obtain ⟨k, rfl⟩ := Nat.exists_eq_add_of_le hk
    obtain ⟨l, rfl⟩ := Nat.exists_eq_add_of_le (show b ≤ l by omega)
    rcases Nat.eq_zero_or_pos k with rfl | hpos
    · exact h.above 0 l (le_refl _) (by omega) (by omega)
    · exact h.sorted _ _ (by omega) hkl (by omega)
  | succ i ih =>
    refine .bind (swapAt_ends (by omega) (by omega)) fun _ s1 h1 => ?_
    subst h1
    refine .bind (siftDown_ends (by omega) (by omega) (by omega)) fun _ s2 h2 => ?_
    refine (ih (by omega)).imp fun _ s' h' => ⟨?_, fun compar hord h => ?_⟩
    · have hswap : Rearranged b n s { s with arr := swap s.arr b (b + (i + 1)) } :=
        .swapped (by omega) (by omega)
      exact (hswap.trans (h2.1.mono (le_refl _) (by omega))).trans h'.1
    · exact h'.2 compar hord (h.next hord.order hi h2.1 (h2.2 compar hord 0 h.heap.except_root))

lemma heapsortImpl_ends (hb : b + n ≤ env.nmemb) :
    Ends (heapsortImpl env b n) s fun _ s' => Rearranged b n s s' ∧
      ∀ compar, Orders env compar → Sorted compar s'.arr b n := by
  unfold heapsortImpl
  split
  · rename_i hn
    exact .pure ⟨.refl _ _ _, fun compar _ => .short compar _ hn⟩
  · refine .bind (heapify_ends hb (by omega)) fun _ s1 h1 => ?_
    refine (extract_ends hb (by omega)).imp fun _ s' h' => ⟨h1.1.trans h'.1, fun compar hord => ?_⟩
    refine h'.2 compar hord ⟨?_, .short compar _ (by omega), fun j k _ _ _ => by omega⟩
    rw [Nat.sub_add_cancel (by omega)]
    refine h1.2 compar hord fun j hj hjn hlo => ?_
    -- the second half has nothing below it
    unfold parent at hlo
    omega

end Cobalt.Sort
