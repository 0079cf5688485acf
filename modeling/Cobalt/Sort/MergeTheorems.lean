/-
Cobalt.Sort.MergeTheorems — reversing, merging and finding runs.

`merge_runs` rearranges two neighbouring runs, whatever the comparator says,
and needs scratch space for the shorter one only. If the runs are the stable
sorts of what was there, the result is the stable sort of both: forward the loop
is the merge of lists, backward it adds the greatest element at the end.
-/
import Cobalt.Sort.InsertionSort
import Cobalt.Sort.StableSort

namespace Cobalt.Sort

open Prog List

variable {σ α : Type} {env : Env σ α} {s s' : Mem σ α} {compar : α → α → Int} {arr : Nat → α}
  {a b aLen bLen i j k n dest left right len curr fuel : Nat} {x : α} {xs ys : List α}

/-! ## The scratch buffer -/

lemma readScratch_ends (hi : i < s.room) :
    Ends (readScratch i) s fun x s' => x = s.scratch i ∧ s' = s :=
  ⟨s.scratch i, s, if_pos hi, rfl, rfl⟩

lemma copyOut_ends (hb : b + n ≤ env.nmemb) (hn : n ≤ s.room) :
    Ends (copyOut env b n) s fun _ s' =>
      s' = { s with scratch := overwrite s.scratch 0 (slice s.arr b n) } :=
  ⟨(), _, if_pos ⟨hb, hn⟩, rfl⟩

lemma copyIn_ends (hb : b + n ≤ env.nmemb) (hi : i + n ≤ s.room) :
    Ends (copyIn env b i n) s fun _ s' => s' = { s with arr := overwrite s.arr b (slice s.scratch i n) } :=
  ⟨(), _, if_pos ⟨hb, hi⟩, rfl⟩

/-- The elements from `b` on are these now, and nothing else has changed in the array. -/
structure Writes (b : Nat) (xs : List α) (s s' : Mem σ α) : Prop where
  arr : s'.arr = overwrite s.arr b xs
  room : s'.room = s.room

namespace Writes

variable {s1 : Mem σ α}

lemma cons (h : Writes (b + 1) xs s1 s') (harr : s1.arr = overwrite s.arr b [x])
    (hroom : s1.room = s.room) : Writes b (x :: xs) s s' :=
  ⟨by rw [h.arr, harr, overwrite_cons], h.room.trans hroom⟩

lemma concat (h : Writes b xs s1 s') (harr : s1.arr = overwrite s.arr (b + xs.length) [x])
    (hroom : s1.room = s.room) : Writes b (xs ++ [x]) s s' :=
  ⟨by rw [h.arr, harr, overwrite_append], h.room.trans hroom⟩

lemma slice_eq (h : Writes b xs s s') (hperm : xs.Perm (slice s.arr b n)) :
    slice s'.arr b n = xs := by
  rw [h.arr, slice_overwrite (hperm.length_eq.trans length_slice)]

lemma rearranged (h : Writes b xs s s') (hperm : xs.Perm (slice s.arr b n)) :
    Rearranged b n s s' := by
  have hlen := hperm.length_eq
  rw [length_slice] at hlen
  refine ⟨fun i hi => ?_, ?_, h.room⟩
  · rw [h.arr]
    exact overwrite_outside (by omega)
  · rwa [h.slice_eq hperm]

end Writes

/-! ## Merging forward -/

lemma mergeForward_ends (hb : a + (aLen + bLen) ≤ env.nmemb) (hroom : aLen ≤ s.room)
    (hi : i ≤ aLen) (hj : j ≤ bLen) (hfuel : aLen + bLen < fuel + (i + j)) :
    Ends (mergeForward env a aLen bLen fuel i j (i + j)) s fun _ s' =>
      ∃ zs, Writes (a + (i + j)) zs s s' ∧
        zs.Perm (slice s.scratch i (aLen - i) ++ slice s.arr (a + aLen + j) (bLen - j)) ∧
        ∀ compar, Orders env compar → zs = (slice s.scratch i (aLen - i)).merge
          (slice s.arr (a + aLen + j) (bLen - j)) (inOrder compar) := by
  induction fuel generalizing s i j with
  | zero => omega
  | succ fuel ih =>
    unfold mergeForward
    split
    · rename_i hboth
      have hxs : slice s.scratch i (aLen - i) =
          s.scratch i :: slice s.scratch (i + 1) (aLen - (i + 1)) := by
        rw [← slice_succ]
        congr 1
        omega
      have hys : slice s.arr (a + aLen + j) (bLen - j) =
          s.arr (a + aLen + j) :: slice s.arr (a + aLen + (j + 1)) (bLen - (j + 1)) := by
        rw [← Nat.add_assoc, ← slice_succ]
        congr 1
        omega
      refine .bind (readScratch_ends (by omega)) fun x s h1 => ?_
      obtain ⟨rfl, rfl⟩ := h1
      refine .bind (read_ends (by omega)) fun y s h2 => ?_
      obtain ⟨rfl, rfl⟩ := h2
      refine .bind (compare_ends _ _) fun r s3 h3 => ?_
      obtain ⟨hr, u3, rfl⟩ := h3
      -- what is still to be merged is behind the element that is written
      have hkeep : ∀ z j', j ≤ j' → slice (overwrite s.arr (a + (i + j)) [z]) (a + aLen + j')
          (bLen - j') = slice s.arr (a + aLen + j') (bLen - j') := fun z j' hj' =>
        slice_congr fun k hk _ => overwrite_of_ge (by rw [length_singleton]; omega)
      split
      · rename_i hle
        refine .bind (write_ends (by omega) _) fun _ s4 h4 => ?_
        subst h4
        have hrec := ih (s := { s with
          arr := overwrite s.arr (a + (i + j)) [s.scratch i], user := u3 }) hroom
          (show i + 1 ≤ aLen by omega) hj (by omega)
        rw [Nat.add_right_comm] at hrec
        refine hrec.imp fun _ s' h' => ?_
        obtain ⟨zs, hwrites, hperm, hmerge⟩ := h'
        dsimp only at hperm hmerge
        rw [hkeep _ _ (Nat.le_refl j)] at hperm hmerge
        refine ⟨s.scratch i :: zs, hwrites.cons rfl rfl, ?_, fun compar hord => ?_⟩
        · rw [hxs]
          exact hperm.cons _
        · rw [hord.eq hr] at hle
          rw [hmerge compar hord, hxs, hys]
          exact (cons_merge_cons_pos _ _ _ (decide_eq_true hle)).symm
      · rename_i hgt
        refine .bind (write_ends (by omega) _) fun _ s4 h4 => ?_
        subst h4
        have hrec := ih (s := { s with
          arr := overwrite s.arr (a + (i + j)) [s.arr (a + aLen + j)], user := u3 }) hroom
          hi (show j + 1 ≤ bLen by omega) (by omega)
        refine hrec.imp fun _ s' h' => ?_
        obtain ⟨zs, hwrites, hperm, hmerge⟩ := h'
        dsimp only at hperm hmerge
        rw [hkeep _ _ (Nat.le_succ j)] at hperm hmerge
        refine ⟨s.arr (a + aLen + j) :: zs, hwrites.cons rfl rfl, ?_, fun compar hord => ?_⟩
        · rw [hys]
          exact (hperm.cons _).trans perm_middle.symm
        · rw [hord.eq hr] at hgt
          rw [hmerge compar hord, hxs, hys]
          exact (cons_merge_cons_neg _ _ _ (by simpa [inOrder] using hgt)).symm
    · split
      · rename_i hboth hleft
        obtain rfl : j = bLen := by omega
        refine (copyIn_ends (by omega) (by omega)).imp fun _ s' h' => ?_
        subst h'
        rw [Nat.sub_self, slice_zero]
        exact ⟨_, ⟨rfl, rfl⟩, by rw [append_nil], fun compar hord => (merge_right _).symm⟩
      · obtain rfl : i = aLen := by omega
        rw [Nat.sub_self, slice_zero, ← Nat.add_assoc]
        exact .pure ⟨_, ⟨overwrite_slice.symm, rfl⟩, .refl _, fun compar hord => (nil_merge _).symm⟩

/-! ## Merging backward -/

lemma mergeBackward_ends (hb : a + (i + j) ≤ env.nmemb) (hroom : j ≤ s.room)
    (hfuel : i + j < fuel) :
    Ends (mergeBackward env a fuel i j (i + j)) s fun _ s' =>
      ∃ zs, Writes a zs s s' ∧ zs.Perm (slice s.arr a i ++ slice s.scratch 0 j) ∧
        ∀ compar, Orders env compar → (slice s.arr a i).Pairwise (fun x y => compar x y ≤ 0) →
          (slice s.scratch 0 j).Pairwise (fun x y => compar x y ≤ 0) →
          StableOf compar (slice s.arr a i ++ slice s.scratch 0 j) zs := by
  induction fuel generalizing s i j with
  | zero => omega
  | succ fuel ih =>
    unfold mergeBackward
    split
    · rename_i hboth
      obtain ⟨i, rfl⟩ : ∃ i', i = i' + 1 := ⟨i - 1, by omega⟩
      obtain ⟨j, rfl⟩ : ∃ j', j = j' + 1 := ⟨j - 1, by omega⟩
      rw [Nat.add_sub_cancel, Nat.add_sub_cancel]
      refine .bind (read_ends (by omega)) fun x s h1 => ?_
      obtain ⟨rfl, rfl⟩ := h1
      refine .bind (readScratch_ends (by omega)) fun y s h2 => ?_
      obtain ⟨rfl, rfl⟩ := h2
      refine .bind (compare_ends _ _) fun r s3 h3 => ?_
      obtain ⟨hr, u3, rfl⟩ := h3
      have hxs : slice s.arr a (i + 1) = slice s.arr a i ++ [s.arr (a + i)] := slice_concat
      have hys : slice s.scratch 0 (j + 1) = slice s.scratch 0 j ++ [s.scratch j] := by
        rw [slice_concat, Nat.zero_add]
      -- what is still to be merged is before the element that is written
      have hkeep : ∀ z i' k, i' ≤ k → slice (overwrite s.arr (a + k) [z]) a i' = slice s.arr a i' :=
        fun z i' k hk => slice_congr fun k _ hk => overwrite_of_lt (by omega)
      split
      · rename_i hgt
        rw [show i + 1 + (j + 1) - 1 = i + (j + 1) by omega]
        refine .bind (write_ends (by omega) _) fun _ s4 h4 => ?_
        subst h4
        refine (ih (i := i) (j := j + 1) (by omega) (by dsimp only; omega) (by omega)).imp
          fun _ s' h' => ?_
        obtain ⟨zs, hwrites, hperm, hstable⟩ := h'
        dsimp only at hperm hstable
        rw [hkeep _ _ _ (Nat.le_add_right ..)] at hperm hstable
        have hlen := hperm.length_eq
        rw [length_append, length_slice, length_slice] at hlen
        refine ⟨zs ++ [s.arr (a + i)], hwrites.concat (by rw [hlen]) rfl, ?_,
          fun compar hord hsx hsy => ?_⟩
        · rw [hxs, append_assoc]
          exact (hperm.append_right _).trans ((append_assoc ..).symm ▸ perm_append_comm.append_left _)
        · rw [hord.eq hr] at hgt
          rw [hxs] at hsx ⊢
          rw [hys] at hsy hstable ⊢
          exact .concat_left hord.order hsx hsy hgt
            (hstable compar hord (pairwise_append.mp hsx).1 hsy)
      · rename_i hle
        rw [show i + 1 + (j + 1) - 1 = i + 1 + j by omega]
        refine .bind (write_ends (by omega) _) fun _ s4 h4 => ?_
        subst h4
        refine (ih (i := i + 1) (j := j) (by omega) (by dsimp only; omega) (by omega)).imp
          fun _ s' h' => ?_
        obtain ⟨zs, hwrites, hperm, hstable⟩ := h'
        dsimp only at hperm hstable
        rw [hkeep _ _ _ (Nat.le_add_right ..)] at hperm hstable
        have hlen := hperm.length_eq
        rw [length_append, length_slice, length_slice] at hlen
        refine ⟨zs ++ [s.scratch j], hwrites.concat (by rw [hlen]) rfl, ?_,
          fun compar hord hsx hsy => ?_⟩
        · rw [hys, ← append_assoc]
          exact hperm.append_right _
        · rw [hord.eq hr] at hle
          rw [hxs] at hsx hstable ⊢
          rw [hys] at hsy ⊢
          exact .concat_right hord.order hsx hsy (Int.not_lt.mp hle)
            (hstable compar hord hsx (pairwise_append.mp hsy).1)
    · split
      · obtain rfl : i = 0 := by omega
        refine (copyIn_ends (by omega) (by omega)).imp fun _ s' h' => ?_
        subst h'
        exact ⟨_, ⟨rfl, rfl⟩, .refl _, fun compar hord _ hys => .of_sorted hys⟩
      · obtain rfl : j = 0 := by omega
        rw [slice_zero, append_nil]
        exact .pure ⟨_, ⟨overwrite_slice.symm, rfl⟩, .refl _, fun compar hord hxs _ => .of_sorted hxs⟩

/-! ## `merge_runs` -/

/-- Both runs are rearranged, and stable sorts are merged into one. -/
lemma mergeRuns_ends (hb : a + (aLen + bLen) ≤ env.nmemb) (hroom : min aLen bLen ≤ s.room) :
    Ends (mergeRuns env a aLen bLen) s fun _ s' => Rearranged a (aLen + bLen) s s' ∧
      ∀ compar, Orders env compar → ∀ xs ys, StableOf compar xs (slice s.arr a aLen) →
        StableOf compar ys (slice s.arr (a + aLen) bLen) →
        StableOf compar (xs ++ ys) (slice s'.arr a (aLen + bLen)) := by
  have hparts : slice s.arr a (aLen + bLen) = slice s.arr a aLen ++ slice s.arr (a + aLen) bLen :=
    slice_add
  unfold mergeRuns
  split
  · refine .bind (copyOut_ends (by omega) (by omega)) fun _ s1 h1 => ?_
    subst h1
    have hscratch : slice (overwrite s.scratch 0 (slice s.arr a aLen)) 0 aLen = slice s.arr a aLen :=
      slice_overwrite length_slice
    refine (mergeForward_ends hb (by dsimp only; omega) (Nat.zero_le _) (Nat.zero_le _)
      (by omega)).imp fun _ s' h' => ?_
    obtain ⟨zs, ⟨harr, hroom⟩, hperm, hmerge⟩ := h'
    dsimp only at hperm hmerge
    rw [Nat.sub_zero, Nat.sub_zero, hscratch, Nat.add_zero] at hperm hmerge
    rw [← hparts] at hperm
    have hwrites : Writes a zs s s' := ⟨harr, hroom⟩
    refine ⟨hwrites.rearranged hperm, fun compar hord xs ys hxs hys => ?_⟩
    rw [hwrites.slice_eq hperm, hmerge compar hord]
    exact hxs.merge hord.order hys
  · refine .bind (copyOut_ends (by omega) (by omega)) fun _ s1 h1 => ?_
    subst h1
    have hscratch : slice (overwrite s.scratch 0 (slice s.arr (a + aLen) bLen)) 0 bLen =
        slice s.arr (a + aLen) bLen := slice_overwrite length_slice
    refine (mergeBackward_ends hb (by dsimp only; omega) (by omega)).imp fun _ s' h' => ?_
    obtain ⟨zs, ⟨harr, hroom⟩, hperm, hstable⟩ := h'
    dsimp only at hperm hstable
    rw [hscratch] at hperm hstable
    rw [← hparts] at hperm
    have hwrites : Writes a zs s s' := ⟨harr, hroom⟩
    refine ⟨hwrites.rearranged hperm, fun compar hord xs ys hxs hys => ?_⟩
    rw [hwrites.slice_eq hperm]
    exact (hstable compar hord hxs.sorted hys.sorted).of_parts hxs.stable hys.stable

/-! ## Reversing -/

/-- The array with the part from `i` to `j` reversed. -/
def mirrored (arr : Nat → α) (i j : Nat) : Nat → α :=
  fun k => if i ≤ k ∧ k ≤ j then arr (i + j - k) else arr k

/-- The outermost two are swapped, and then what is between them is reversed. -/
lemma mirrored_swap (h : i < j) : mirrored (swap arr i j) (i + 1) (j - 1) = mirrored arr i j := by
  funext k
  unfold mirrored
  split
  · rw [if_pos (by omega), swap_of_ne (by omega) (by omega)]
    congr 1
    omega
  · rw [swap_eq]
    split
    · rw [if_pos (by omega)]
      congr 1
      omega
    · split
      · rw [if_pos (by omega)]
        congr 1
        omega
      · rw [if_neg (by omega)]

lemma mirrored_of_ge (h : j ≤ i) : mirrored arr i j = arr := by
  funext k
  unfold mirrored
  split
  · congr 1
    omega
  · rfl

lemma slice_mirrored : slice (mirrored arr b (b + n)) b (n + 1) = (slice arr b (n + 1)).reverse := by
  refine ext_getElem (by rw [length_reverse, length_slice, length_slice]) fun i hi hi' => ?_
  rw [getElem_reverse, getElem_slice, getElem_slice, mirrored]
  rw [length_slice] at hi
  rw [if_pos (by omega), length_slice]
  congr 1
  omega

lemma reverseLoop_ends (hb : b + right < env.nmemb) (hle : left ≤ right + 1)
    (hfuel : right + 2 ≤ 2 * fuel + left) :
    Ends (reverseLoop env b fuel left right) s fun _ s' =>
      s' = { s with arr := mirrored s.arr (b + left) (b + right) } := by
  induction fuel generalizing s left right with
  | zero => omega
  | succ fuel ih =>
    unfold reverseLoop
    split
    · rename_i hlt
      refine .bind (swapAt_ends (by omega) hb) fun _ s1 h1 => ?_
      subst h1
      refine (ih (by omega) (by omega) (by omega)).imp fun _ s' h' => ?_
      have hplace : b + (right - 1) = b + right - 1 := by omega
      rw [h', ← Nat.add_assoc, hplace, mirrored_swap (by omega)]
    · exact .pure (by rw [mirrored_of_ge (by omega)])

lemma reverseRun_ends (hb : b + len ≤ env.nmemb) :
    Ends (reverseRun env b len) s fun _ s' =>
      Rearranged b len s s' ∧ slice s'.arr b len = (slice s.arr b len).reverse := by
  unfold reverseRun
  split
  · rename_i hlen
    refine .pure ⟨.refl _ _ _, ?_⟩
    match len, hlen with
    | 0, _ => rfl
    | 1, _ => rfl
  · obtain ⟨n, rfl⟩ : ∃ n, len = n + 1 := ⟨len - 1, by omega⟩
    refine (reverseLoop_ends (by omega) (by omega) (by omega)).imp fun _ s' h' => ?_
    subst h'
    have hslice : slice (mirrored s.arr b (b + n)) b (n + 1) = (slice s.arr b (n + 1)).reverse :=
      slice_mirrored
    refine ⟨⟨fun k hk => if_neg (by omega), ?_, rfl⟩, hslice⟩
    exact (List.Perm.of_eq hslice).trans (reverse_perm _)

/-! ## Finding a run -/

lemma runLoop_ends {goesOn : Int → Bool} (hlen : 0 < len) (hb : curr + len ≤ env.nmemb)
    (hfuel : env.nmemb < fuel + (curr + len)) :
    Ends (runLoop env goesOn curr fuel len) s fun n s' => SameMem s s' ∧ len ≤ n ∧
      curr + n ≤ env.nmemb ∧ ∀ compar, Orders env compar →
        ∀ k, curr + len ≤ k + 1 → k + 1 < curr + n → goesOn (compar (s.arr k) (s.arr (k + 1))) := by
  induction fuel generalizing s len with
  | zero => omega
  | succ fuel ih =>
    unfold runLoop
    split
    · refine .bind (compareAt_ends (by omega) (by omega)) fun r s1 h1 => ?_
      obtain ⟨hr, u1, rfl⟩ := h1
      split
      · rename_i hgoes
        refine (ih (by omega) (by omega) (by omega)).imp fun n s' h' => ?_
        obtain ⟨⟨u', rfl⟩, hn, hb', hrun⟩ := h'
        refine ⟨⟨u', rfl⟩, by omega, hb', fun compar hord k hk hkn => ?_⟩
        rcases Nat.eq_or_lt_of_le hk with heq | hlt
        · obtain rfl : k = curr + len - 1 := by omega
          rw [hord.eq hr] at hgoes
          rwa [Nat.sub_add_cancel (by omega)]
        · exact hrun compar hord k (by omega) hkn
      · exact .pure ⟨⟨u1, rfl⟩, le_refl _, hb, fun compar _ k hk hkn => by omega⟩
    · exact .pure ⟨⟨s.user, rfl⟩, le_refl _, hb, fun compar _ k hk hkn => by omega⟩

lemma related_of_neighbours {r : α → α → Prop} (htrans : ∀ x y z, r x y → r y z → r x z)
    (hfirst : r (arr b) (arr (b + 1)))
    (h : ∀ k, b + 2 ≤ k + 1 → k + 1 < b + n → r (arr k) (arr (k + 1))) (hi : b ≤ i) (hij : i < j)
    (hj : j < b + n) : r (arr i) (arr j) := by
  have hnext : ∀ k, b ≤ k → k + 1 < b + n → r (arr k) (arr (k + 1)) := by
    intro k hk hkn
    rcases Nat.eq_or_lt_of_le hk with rfl | hlt
    · exact hfirst
    · exact h k (by omega) hkn
  induction j with
  | zero => omega
  | succ j ih =>
    rcases Nat.eq_or_lt_of_le (Nat.lt_succ_iff.mp hij) with rfl | hlt
    · exact hnext i hi hj
    · exact htrans _ _ _ (ih hlt (by omega)) (hnext j (by omega) hj)

/-- What a run that was found or made is. -/
def RunAt (env : Env σ α) (curr len : Nat) (s s' : Mem σ α) : Prop :=
  (0 < len ∧ curr + len ≤ env.nmemb) ∧ Rearranged curr len s s' ∧
    ∀ compar, Orders env compar → StableOf compar (slice s.arr curr len) (slice s'.arr curr len)

lemma naturalRun_ends (hcurr : curr < env.nmemb) :
    Ends (naturalRun env curr) s fun len s' => RunAt env curr len s s' := by
  unfold naturalRun
  split
  · refine .bind (compareAt_ends (by omega) (by omega)) fun r s1 h1 => ?_
    obtain ⟨hr, u1, rfl⟩ := h1
    split
    · rename_i hgt
      refine .bind (runLoop_ends (by omega) (by omega) (by omega)) fun n s2 h2 => ?_
      obtain ⟨⟨u2, rfl⟩, hn, hb, hrun⟩ := h2
      refine .bind (reverseRun_ends hb) fun _ s3 h3 => .pure ?_
      obtain ⟨hre, hslice⟩ := h3
      refine ⟨⟨by omega, hb⟩, Rearranged.trans (.of_sameMem ⟨u2, rfl⟩) hre, fun compar hord => ?_⟩
      rw [hslice]
      refine .of_descending hord.order (pairwise_slice.mpr fun i k hi hik hk => ?_)
      rw [hord.eq hr] at hgt
      refine related_of_neighbours (r := fun x y => compar x y > 0)
        (fun x y z => hord.order.gt_trans) hgt (fun l hl hln => ?_) hi hik hk
      exact of_decide_eq_true (hrun compar hord l hl hln)
    · rename_i hle
      refine (runLoop_ends (by omega) (by omega) (by omega)).imp fun n s' h' => ?_
      obtain ⟨⟨u', rfl⟩, hn, hb, hrun⟩ := h'
      refine ⟨⟨by omega, hb⟩, .of_sameMem ⟨u', rfl⟩, fun compar hord => ?_⟩
      refine .of_sorted (pairwise_slice.mpr fun i k hi hik hk => ?_)
      rw [hord.eq hr] at hle
      refine related_of_neighbours (r := fun x y => compar x y ≤ 0) hord.order.trans
        (Int.not_lt.mp hle) (fun l hl hln => ?_) hi hik hk
      exact of_decide_eq_true (hrun compar hord l hl hln)
  · refine .pure ⟨⟨by omega, by omega⟩, .refl _ _ _, fun compar hord => .of_sorted ?_⟩
    exact pairwise_slice.mpr fun i k _ _ _ => by omega

/-- The insertion sort works on a part that begins with a run. -/
lemma extendRun_ends {s0 : Mem σ α} (h : RunAt env curr len s0 s) :
    Ends (extendRun env curr len) s fun n s' => RunAt env curr n s0 s' := by
  unfold extendRun
  split
  · rename_i hshort
    generalize hforce : (if env.nmemb - curr > minRun then minRun else env.nmemb - curr) = force
    have hlen : len ≤ force ∧ curr + force ≤ env.nmemb := by
      split at hforce <;> omega
    obtain ⟨⟨hpos, hb⟩, hre, hstable⟩ := h
    refine .bind (insertionSortImpl_ends hlen.2) fun _ s' h' => .pure ?_
    refine ⟨⟨by omega, hlen.2⟩, (hre.mono (le_refl _) (by omega)).trans h'.1, fun compar hord => ?_⟩
    have hparts : ∀ arr : Nat → α, slice arr curr force =
        slice arr curr len ++ slice arr (curr + len) (force - len) := fun arr => by
      rw [← slice_add, Nat.add_sub_cancel' hlen.1]
    have hrest : slice s.arr (curr + len) (force - len) = slice s0.arr (curr + len) (force - len) :=
      slice_congr fun k hk _ => hre.outside k (by omega)
    have hsort := h'.2 compar hord
    rw [hparts s.arr] at hsort
    rw [hparts s0.arr]
    exact hsort.of_parts (hstable compar hord).stable fun a => by rw [hrest]
  · exact .pure h

end Cobalt.Sort
