/-
Cobalt.Sort.QsortTheorems — the quicksort rearranges and sorts.

The partition compares with the element at `lt`. This is not always the pivot
itself, but one that the comparator takes for equal to it, and so the three
zones (smaller, equal, greater) are those of the pivot. The parts on both sides
of the pivot's equals are smaller than the whole, so fuel for one call more
than there are elements is enough.
-/
import Cobalt.Sort.Heapsort
import Cobalt.Sort.InsertionSort

namespace Cobalt.Sort

open Prog

variable {σ α : Type} {env : Env σ α} {s s' : Mem σ α} {compar : α → α → Int} {arr arr' : Nat → α}
  {b a c i j k l m n r lt gt fuel : Nat} {p : α} {bad : Int}

/-! ## The pivot -/

lemma pdqMedian3_ends (ha : b + a < env.nmemb) (hm : b + m < env.nmemb) (hc : b + c < env.nmemb) :
    Ends (pdqMedian3 env b a m c) s fun r s' => SameMem s s' ∧ (r = a ∨ r = m ∨ r = c) := by
  refine .bind (compareAt_ends ha hm) fun ab s1 h1 => ?_
  obtain ⟨-, u1, rfl⟩ := h1
  split
  · refine .bind (compareAt_ends hm hc) fun bc s2 h2 => ?_
    obtain ⟨-, u2, rfl⟩ := h2
    split
    · exact .pure ⟨⟨u2, rfl⟩, .inr (.inl rfl)⟩
    · refine .bind (compareAt_ends ha hc) fun ac s3 h3 => .pure ?_
      obtain ⟨-, u3, rfl⟩ := h3
      exact ⟨⟨u3, rfl⟩, by split <;> simp⟩
  · refine .bind (compareAt_ends ha hc) fun ac s2 h2 => ?_
    obtain ⟨-, u2, rfl⟩ := h2
    split
    · exact .pure ⟨⟨u2, rfl⟩, .inl rfl⟩
    · refine .bind (compareAt_ends hm hc) fun bc s3 h3 => .pure ?_
      obtain ⟨-, u3, rfl⟩ := h3
      exact ⟨⟨u3, rfl⟩, by split <;> simp⟩

lemma pdqNinther_ends (hb : b + n ≤ env.nmemb) (hn : 8 ≤ n) :
    Ends (pdqNinther env b n) s fun r s' => SameMem s s' ∧ r < n := by
  refine .bind (pdqMedian3_ends (by omega) (by omega) (by omega)) fun m1 s1 h1 => ?_
  obtain ⟨⟨u1, rfl⟩, hm1⟩ := h1
  refine .bind (pdqMedian3_ends (by omega) (by omega) (by omega)) fun m2 s2 h2 => ?_
  obtain ⟨⟨u2, rfl⟩, hm2⟩ := h2
  refine .bind (pdqMedian3_ends (by omega) (by omega) (by omega)) fun m3 s3 h3 => ?_
  obtain ⟨⟨u3, rfl⟩, hm3⟩ := h3
  refine (pdqMedian3_ends (by omega) (by omega) (by omega)).imp fun r s' h' => ?_
  obtain ⟨⟨u', rfl⟩, hr⟩ := h'
  exact ⟨⟨u', rfl⟩, by omega⟩

lemma pivotIndex_ends (hb : b + n ≤ env.nmemb) (hn : 0 < n) :
    Ends (pivotIndex env b n) s fun r s' => SameMem s s' ∧ r < n := by
  unfold pivotIndex
  split
  · exact pdqNinther_ends hb (by omega)
  · refine (pdqMedian3_ends (by omega) (by omega) (by omega)).imp fun r s' h' => ?_
    exact ⟨h'.1, by omega⟩

lemma pivotToFront_ends (hb : b + n ≤ env.nmemb) (hn : 0 < n) :
    Ends (pivotToFront env b n) s fun _ s' => Rearranged b n s s' := by
  refine .bind (pivotIndex_ends hb hn) fun pivot s1 h1 => ?_
  obtain ⟨⟨u1, rfl⟩, hpivot⟩ := h1
  have hsame : Rearranged b n s { s with user := u1 } := .of_sameMem ⟨u1, rfl⟩
  split
  · refine (swapAt_ends (by omega) (by omega)).imp fun _ s' h' => ?_
    rw [h']
    exact hsame.trans (.swapped (by omega) (by omega))
  · exact .pure hsame

/-! ## The partition -/

/-- Smaller than the pivot before `lt`, equal to it up to `i`, greater behind `gt`. -/
structure Zones (compar : α → α → Int) (arr : Nat → α) (b n : Nat) (p : α) (lt i gt : Nat) : Prop where
  smaller : ∀ k, b ≤ k → k < b + lt → compar (arr k) p < 0
  equal : ∀ k, b + lt ≤ k → k < b + i → compar (arr k) p = 0
  greater : ∀ k, b + gt < k → k < b + n → compar (arr k) p > 0

/-- A smaller element changes places with the first one of the pivot's equals. -/
lemma Zones.swap_smaller (h : Zones compar arr b n p lt i gt) (hlt : lt < i) (hgt : i ≤ gt)
    (hlow : compar (arr (b + i)) p < 0) :
    Zones compar (swap arr (b + lt) (b + i)) b n p (lt + 1) (i + 1) gt := by
  refine ⟨fun k hk hk' => ?_, fun k hk hk' => ?_, fun k hk hk' => ?_⟩
  · rcases Nat.eq_or_lt_of_le (show k ≤ b + lt by omega) with rfl | hlt'
    · rwa [swap_left]
    · rw [swap_of_ne (by omega) (by omega)]
      exact h.smaller k hk hlt'
  · rcases Nat.eq_or_lt_of_le (show k ≤ b + i by omega) with rfl | hlt'
    · rw [swap_right]
      exact h.equal _ (by omega) (by omega)
    · rw [swap_of_ne (by omega) (by omega)]
      exact h.equal k (by omega) hlt'
  · rw [swap_of_ne (by omega) (by omega)]
    exact h.greater k hk hk'

lemma Zones.swap_greater (h : Zones compar arr b n p lt i gt) (hlt : lt < i) (hgt : i ≤ gt)
    (hhigh : compar (arr (b + i)) p > 0) :
    Zones compar (swap arr (b + i) (b + gt)) b n p lt i (gt - 1) := by
  refine ⟨fun k hk hk' => ?_, fun k hk hk' => ?_, fun k hk hk' => ?_⟩
  · rw [swap_of_ne (by omega) (by omega)]
    exact h.smaller k hk hk'
  · rw [swap_of_ne (by omega) (by omega)]
    exact h.equal k hk hk'
  · rcases Nat.eq_or_lt_of_le (show b + gt ≤ k by omega) with rfl | hlt'
    · rwa [swap_right]
    · rw [swap_of_ne (by omega) (by omega)]
      exact h.greater k hlt' hk'

lemma Zones.keep_equal (h : Zones compar arr b n p lt i gt) (hmid : compar (arr (b + i)) p = 0) :
    Zones compar arr b n p lt (i + 1) gt := by
  refine ⟨h.smaller, fun k hk hk' => ?_, h.greater⟩
  rcases Nat.eq_or_lt_of_le (show k ≤ b + i by omega) with rfl | hlt'
  · exact hmid
  · exact h.equal k hk hlt'

lemma partitionLoop_ends (hb : b + n ≤ env.nmemb) (hlt : lt < i) (hi : i ≤ gt + 1) (hgt : gt < n)
    (hfuel : gt + 1 < fuel + i) :
    Ends (partitionLoop env b fuel lt i gt) s fun z s' => z.1 ≤ z.2 ∧ z.2 < n ∧ Rearranged b n s s' ∧
      ∀ compar, Orders env compar → ∀ p, Zones compar s.arr b n p lt i gt →
        Zones compar s'.arr b n p z.1 (z.2 + 1) z.2 := by
  induction fuel generalizing s lt i gt with
  | zero => omega
  | succ fuel ih =>
    unfold partitionLoop
    split
    · rename_i hle
      refine .bind (compareAt_ends (by omega) (by omega)) fun cmp s1 h1 => ?_
      obtain ⟨hcmp, u1, rfl⟩ := h1
      -- the element at `lt` is one of the pivot's equals
      have hsign : ∀ compar, Orders env compar → ∀ p, Zones compar s.arr b n p lt i gt →
          (cmp < 0 ↔ compar (s.arr (b + i)) p < 0) ∧ (cmp > 0 ↔ compar (s.arr (b + i)) p > 0) := by
        intro compar hord p h
        rw [hord.eq hcmp]
        exact hord.order.sign_congr (h.equal _ (by omega) (by omega))
      split
      · rename_i hneg
        refine .bind (swapAt_ends (by omega) (by omega)) fun _ s2 h2 => ?_
        subst h2
        refine (ih (by omega) (by omega) hgt (by omega)).imp fun z s' h' => ?_
        obtain ⟨hz, hz', hre, hzones⟩ := h'
        refine ⟨hz, hz', ?_, fun compar hord p h => hzones compar hord p ?_⟩
        · refine Rearranged.trans (.of_sameMem ⟨u1, rfl⟩) (.trans ?_ hre)
          exact .swapped (by omega) (by omega)
        · exact h.swap_smaller hlt hle ((hsign compar hord p h).1.mp hneg)
      · split
        · rename_i hneg hpos
          refine .bind (swapAt_ends (by omega) (by omega)) fun _ s2 h2 => ?_
          subst h2
          refine (ih hlt (by omega) (by omega) (by omega)).imp fun z s' h' => ?_
          obtain ⟨hz, hz', hre, hzones⟩ := h'
          refine ⟨hz, hz', ?_, fun compar hord p h => hzones compar hord p ?_⟩
          · refine Rearranged.trans (.of_sameMem ⟨u1, rfl⟩) (.trans ?_ hre)
            exact .swapped (by omega) (by omega)
          · exact h.swap_greater hlt hle ((hsign compar hord p h).2.mp hpos)
        · rename_i hneg hpos
          refine (ih (by omega) (by omega) hgt (by omega)).imp fun z s' h' => ?_
          obtain ⟨hz, hz', hre, hzones⟩ := h'
          refine ⟨hz, hz', Rearranged.trans (.of_sameMem ⟨u1, rfl⟩) hre, fun compar hord p h => ?_⟩
          have hsign' := hsign compar hord p h
          exact hzones compar hord p (h.keep_equal (by omega))
    · obtain rfl : i = gt + 1 := by omega
      exact .pure ⟨by omega, hgt, .refl _ _ _, fun _ _ _ h => h⟩

/-! ## The loop -/

namespace Zones

lemma rearranged_smaller (h : Zones compar s.arr b n p lt i gt) (hlt : lt ≤ i) (hgt : i ≤ gt + 1)
    (hre : Rearranged b lt s s') : Zones compar s'.arr b n p lt i gt := by
  refine ⟨fun k hk hk' => hre.all (p := fun x => compar x p < 0) h.smaller hk hk',
    fun k hk hk' => ?_, fun k hk hk' => ?_⟩
  · rw [hre.outside k (by omega)]
    exact h.equal k hk hk'
  · rw [hre.outside k (by omega)]
    exact h.greater k hk hk'

lemma rearranged_greater (h : Zones compar s.arr b n p lt i gt) (hlt : lt ≤ i) (hgt : i ≤ gt + 1)
    (hgt' : gt < n) (hre : Rearranged (b + (gt + 1)) (n - (gt + 1)) s s') :
    Zones compar s'.arr b n p lt i gt := by
  refine ⟨fun k hk hk' => ?_, fun k hk hk' => ?_, fun k hk hk' => ?_⟩
  · rw [hre.outside k (by omega)]
    exact h.smaller k hk hk'
  · rw [hre.outside k (by omega)]
    exact h.equal k hk hk'
  · refine hre.all (p := fun x => compar x p > 0) (fun l hl hl' => ?_) (by omega) (by omega)
    exact h.greater l (by omega) (by omega)

lemma sorted (hord : TotalPreorder compar) (h : Zones compar arr b n p lt (gt + 1) gt)
    (hlow : Sorted compar arr b lt) (hhigh : Sorted compar arr (b + (gt + 1)) (n - (gt + 1))) :
    Sorted compar arr b n := by
  -- from the pivot's equals on nothing is smaller than the pivot, and up to there nothing greater
  have hge : ∀ k, b + lt ≤ k → k < b + n → compar p (arr k) ≤ 0 := by
    intro k hk hk'
    refine hord.le_of_not_lt fun hneg => ?_
    rcases lt_or_ge k (b + (gt + 1)) with hmid | hmid
    · have hequal := h.equal k hk hmid
      omega
    · have hgreater := h.greater k (by omega) hk'
      omega
  have hle : ∀ k, b ≤ k → k < b + (gt + 1) → compar (arr k) p ≤ 0 := by
    intro k hk hk'
    rcases lt_or_ge k (b + lt) with hmid | hmid
    · exact Int.le_of_lt (h.smaller k hk hmid)
    · exact Int.le_of_eq (h.equal k hmid hk')
  intro i k hi hik hk
  rcases lt_or_ge k (b + lt) with hlt | hlt
  · exact hlow i k hi hik hlt
  · rcases lt_or_ge i (b + (gt + 1)) with hgt | hgt
    · exact hord.trans _ _ _ (hle i hi hgt) (hge k hlt hk)
    · exact hhigh i k hgt hik (by omega)

end Zones

/-- What a sort of a part does. -/
def Sorts (env : Env σ α) (b n : Nat) (s s' : Mem σ α) : Prop :=
  Rearranged b n s s' ∧ ∀ compar, Orders env compar → Sorted compar s'.arr b n

lemma sortIf_ends {sort : M σ α Unit} (h : Ends sort s fun _ s' => Sorts env b n s s') :
    Ends (sortIf n sort) s fun _ s' => Sorts env b n s s' := by
  unfold sortIf
  split
  · exact h
  · rename_i hn
    exact .pure ⟨.refl _ _ _, fun compar _ => .short compar _ (Nat.le_of_not_lt hn)⟩

/-- Sorting the outer zones, in either order, sorts the part. -/
lemma Sorts.of_zones {s1 s2 : Mem σ α} (hle : lt ≤ gt) (hgt : gt < n) (hre : Rearranged b n s s1)
    (hzones : ∀ compar, Orders env compar → ∃ p, Zones compar s1.arr b n p lt (gt + 1) gt)
    (h : Sorts env b lt s1 s2 ∧ Sorts env (b + (gt + 1)) (n - (gt + 1)) s2 s' ∨
      Sorts env (b + (gt + 1)) (n - (gt + 1)) s1 s2 ∧ Sorts env b lt s2 s') :
    Sorts env b n s s' := by
  rcases h with ⟨hlow, hhigh⟩ | ⟨hhigh, hlow⟩
  · refine ⟨hre.trans ((hlow.1.mono (by omega) (by omega)).trans (hhigh.1.mono (by omega) (by omega))),
      fun compar hord => ?_⟩
    obtain ⟨p, hz⟩ := hzones compar hord
    have hz2 := hz.rearranged_smaller (by omega) (by omega) hlow.1
    have hz' := hz2.rearranged_greater (by omega) (by omega) hgt hhigh.1
    refine hz'.sorted hord.order ?_ (hhigh.2 compar hord)
    exact (hlow.2 compar hord).congr fun k hk hk' => hhigh.1.outside k (by omega)
  · refine ⟨hre.trans ((hhigh.1.mono (by omega) (by omega)).trans (hlow.1.mono (by omega) (by omega))),
      fun compar hord => ?_⟩
    obtain ⟨p, hz⟩ := hzones compar hord
    have hz2 := hz.rearranged_greater (by omega) (by omega) hgt hhigh.1
    have hz' := hz2.rearranged_smaller (by omega) (by omega) hlow.1
    refine hz'.sorted hord.order (hlow.2 compar hord) ?_
    exact (hhigh.2 compar hord).congr fun k hk hk' => hlow.1.outside k (by omega)

/-- `pdqsort_loop`, whatever number of bad partitions is allowed. -/
lemma pdqsortLoop_ends (hb : b + n ≤ env.nmemb) (hfuel : n < fuel) :
    Ends (pdqsortLoop env fuel b n bad) s fun _ s' => Sorts env b n s s' := by
  induction fuel generalizing s b n bad with
  | zero => omega
  | succ fuel ih =>
    unfold pdqsortLoop
    split
    · refine (insertionSortImpl_ends hb).imp fun _ s' h' => ⟨h'.1, fun compar hord => ?_⟩
      exact pairwise_slice.mp (h'.2 compar hord).sorted
    · split
      · exact heapsortImpl_ends hb
      · refine .bind (pivotToFront_ends hb (by omega)) fun _ s1 h1 => ?_
        refine .bind (partitionLoop_ends hb (by omega) (by omega) (by omega) (by omega))
          fun z s2 h2 => ?_
        obtain ⟨lt, gt⟩ := z
        obtain ⟨hle, hgt, hre, hzones⟩ := h2
        -- in front is the pivot
        have hzones2 : ∀ compar, Orders env compar →
            ∃ p, Zones compar s2.arr b n p lt (gt + 1) gt := by
          intro compar hord
          refine ⟨s1.arr b, hzones compar hord _ ⟨fun k _ _ => by omega, fun k hk hk' => ?_,
            fun k _ _ => by omega⟩⟩
          obtain rfl : k = b := by omega
          exact of_decide_eq_true (hord.order.same_self _)
        dsimp only at hle hgt ⊢
        split
        · refine .bind (sortIf_ends (ih (by omega) (by omega))) fun _ s3 h3 => ?_
          refine (ih (by omega) (by omega)).imp fun _ s' h' => ?_
          exact .of_zones hle hgt (h1.trans hre) hzones2 (.inl ⟨h3, h'⟩)
        · refine .bind (sortIf_ends (ih (by omega) (by omega))) fun _ s3 h3 => ?_
          refine (ih (by omega) (by omega)).imp fun _ s' h' => ?_
          exact .of_zones hle hgt (h1.trans hre) hzones2 (.inr ⟨h3, h'⟩)

lemma Sorts.refl_of_none (h : n ≤ 1 ∨ env.size = 0) : Sorts env b n s s := by
  refine ⟨.refl _ _ _, fun compar hord i k hi hik hk => ?_⟩
  rcases h with hn | hsize
  · omega
  · exact hord.le_of_empty hsize _ _

lemma qsort_ends : Ends (qsort env) s fun _ s' => Sorts env 0 env.nmemb s s' := by
  unfold qsort
  split
  · rename_i hnone
    exact .pure (.refl_of_none hnone)
  · exact pdqsortLoop_ends (by omega) (by omega)

lemma heapsort_ends : Ends (heapsort env) s fun _ s' => Sorts env 0 env.nmemb s s' := by
  unfold heapsort
  split
  · rename_i hnone
    exact .pure (.refl_of_none hnone)
  · exact heapsortImpl_ends (by omega)

/-- For every array, element size and comparator that orders the elements, if the buffer for an
element is to be had, `cobalt_qsort` comes to an end and leaves the array sorted and a permutation
of what it was. -/
theorem qsort_sorts {size : Nat} (env : Env σ (Elem size)) (hsize : env.size = size)
    (compar : Elem size → Elem size → Int)
    (hcompar : ∀ user x y, (env.compar user x y).1 = compar x y) (hord : TotalPreorder compar)
    (hmalloc : ∀ user, (env.malloc user).1 = true) (s : Mem σ (Elem size)) :
    ∃ s', qsort env s = .ok ((), s') ∧
      (slice s'.arr 0 env.nmemb).Pairwise (fun x y => compar x y ≤ 0) ∧
      (slice s'.arr 0 env.nmemb).Perm (slice s.arr 0 env.nmemb) := by
  obtain ⟨⟨⟩, s', hrun, hre, hsorted⟩ :=
    (qsort_ends : Ends (qsort env) s fun _ s' => Sorts env 0 env.nmemb s s')
  refine ⟨s', hrun, pairwise_slice.mpr ?_, hre.perm⟩
  exact hsorted compar (.of_bytes hsize hcompar hord hmalloc)

theorem qsort_sorts_bytes : ∃ s', qsort (byteEnv 200) descendingBytes = .ok ((), s') ∧
    (slice s'.arr 0 200).Pairwise (fun x y => firstByte Nat.one_pos x y ≤ 0) ∧
    (slice s'.arr 0 200).Perm (slice descendingBytes.arr 0 200) :=
  qsort_sorts (byteEnv 200) rfl (firstByte Nat.one_pos) (fun _ _ _ => rfl)
    (totalPreorder_firstByte Nat.one_pos) (fun _ => rfl) descendingBytes

end Cobalt.Sort
