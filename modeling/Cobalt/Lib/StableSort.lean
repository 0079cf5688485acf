/-
Cobalt.Lib.StableSort — the stable sort of a list.

A list is the stable sort of another one if it is in order and if the elements
that the comparator takes for equal are the same, in the same order. There is
only one such list, and merging the stable sorts of two lists gives that of the
lists one behind the other.
-/
import Cobalt.Lib.Slice

namespace Cobalt

open List

variable {α : Type} {compar : α → α → Int} {a x y : α} {xs ys zs us vs : List α}

/-- The comparator takes the elements for equal. -/
def same (compar : α → α → Int) (a x : α) : Bool := decide (compar a x = 0)

/-- The comparator as the merge uses it. -/
def inOrder (compar : α → α → Int) (x y : α) : Bool := decide (compar x y ≤ 0)

/-- The stable sort of `xs` is `ys`. -/
structure StableOf (compar : α → α → Int) (xs ys : List α) : Prop where
  sorted : ys.Pairwise fun x y => compar x y ≤ 0
  stable : ∀ a, ys.filter (same compar a) = xs.filter (same compar a)

namespace TotalPreorder

lemma same_self (hord : TotalPreorder compar) (a : α) : same compar a a = true := by
  refine decide_eq_true ?_
  have hle := hord.refl a
  have hflip := hord.flip a a
  omega

/-- Elements that are each not greater than the other are taken for equal. -/
lemma same_of_le (hord : TotalPreorder compar) (hxy : compar x y ≤ 0) (hyx : compar y x ≤ 0) :
    same compar x y = true := by
  refine decide_eq_true ?_
  have hflip := hord.flip x y
  omega

lemma le_of_same (hord : TotalPreorder compar) (h : same compar a x = true) :
    compar a x ≤ 0 ∧ compar x a ≤ 0 := by
  have heq : compar a x = 0 := of_decide_eq_true h
  have hflip := hord.flip a x
  omega

end TotalPreorder

/-! ## There is only one -/

lemma mem_of_filter_same (hord : TotalPreorder compar)
    (h : ∀ a, ys.filter (same compar a) = zs.filter (same compar a)) (hx : x ∈ ys) : x ∈ zs := by
  have hmem : x ∈ ys.filter (same compar x) := mem_filter.mpr ⟨hx, hord.same_self x⟩
  rw [h] at hmem
  exact (mem_filter.mp hmem).1

lemma eq_of_filter_same (hord : TotalPreorder compar)
    (hys : ys.Pairwise fun x y => compar x y ≤ 0) (hzs : zs.Pairwise fun x y => compar x y ≤ 0)
    (h : ∀ a, ys.filter (same compar a) = zs.filter (same compar a)) : ys = zs := by
  induction ys generalizing zs with
  | nil =>
    refine (eq_nil_iff_forall_not_mem.mpr fun z hz => ?_).symm
    exact not_mem_nil (mem_of_filter_same hord (fun a => (h a).symm) hz)
  | cons y ys ih =>
    cases zs with
    | nil => exact absurd (mem_of_filter_same hord h (mem_cons_self ..)) not_mem_nil
    | cons z zs =>
      have hle : ∀ {u v : α} {us : List α}, (u :: us).Pairwise (fun x y => compar x y ≤ 0) →
          v ∈ u :: us → compar u v ≤ 0 := by
        intro u v us hus hv
        rcases mem_cons.mp hv with rfl | hv
        · exact hord.refl v
        · exact rel_of_pairwise_cons hus hv
      -- both first elements are least, so they are taken for equal, and each is the first of those
      have hzy := hle hzs (mem_of_filter_same hord h (mem_cons_self ..))
      have hyz := hle hys (mem_of_filter_same hord (fun a => (h a).symm) (mem_cons_self ..))
      have hfirst := h y
      rw [filter_cons_of_pos (hord.same_self y),
        filter_cons_of_pos (hord.same_of_le hyz hzy)] at hfirst
      obtain ⟨rfl, -⟩ := List.cons.inj hfirst
      rw [ih (pairwise_cons.mp hys).2 (pairwise_cons.mp hzs).2 fun a => ?_]
      have hrest := h a
      by_cases ha : same compar a y = true
      · rw [filter_cons_of_pos ha, filter_cons_of_pos ha] at hrest
        exact (List.cons.inj hrest).2
      · rwa [filter_cons_of_neg ha, filter_cons_of_neg ha] at hrest

namespace StableOf

lemma unique (hord : TotalPreorder compar) (hy : StableOf compar xs ys)
    (hz : StableOf compar xs zs) : ys = zs :=
  eq_of_filter_same hord hy.sorted hz.sorted fun a => (hy.stable a).trans (hz.stable a).symm

lemma perm (hord : TotalPreorder compar) (h : StableOf compar xs ys) : ys.Perm xs := by
  classical
  refine perm_iff_count.mpr fun a => ?_
  rw [← count_filter (hord.same_self a), h.stable, count_filter (hord.same_self a)]

/-- A list in order is its own stable sort. -/
lemma of_sorted (h : xs.Pairwise fun x y => compar x y ≤ 0) : StableOf compar xs xs :=
  ⟨h, fun _ => rfl⟩

end StableOf

/-- Two parts may be sorted stably before the whole is. -/
lemma StableOf.of_parts (h : StableOf compar (us ++ vs) zs)
    (hx : ∀ a, us.filter (same compar a) = xs.filter (same compar a))
    (hy : ∀ a, vs.filter (same compar a) = ys.filter (same compar a)) :
    StableOf compar (xs ++ ys) zs := by
  refine ⟨h.sorted, fun a => ?_⟩
  rw [h.stable, filter_append, filter_append, hx, hy]

variable (hord : TotalPreorder compar)

include hord

/-- A list that descends strictly is sorted by reversing it: no two of its elements are taken for
equal. -/
lemma StableOf.of_descending
    (h : xs.Pairwise fun x y => compar x y > 0) : StableOf compar xs xs.reverse := by
  refine ⟨?_, fun a => ?_⟩
  · rw [pairwise_reverse]
    exact h.imp fun hgt => Int.le_of_lt ((hord.flip _ _).mpr hgt)
  · rw [filter_reverse]
    -- two equals of `a` would be in order
    have hshort : (xs.filter (same compar a)).length ≤ 1 := by
      by_contra hlong
      have hsub : (xs.filter (same compar a)).Pairwise fun x y => compar x y > 0 :=
        h.sublist filter_sublist
      have hpair := pairwise_iff_getElem.mp hsub 0 1 (by omega) (by omega) (by omega)
      have hmem : ∀ i (hi : i < (xs.filter (same compar a)).length),
          same compar a (xs.filter (same compar a))[i] = true :=
        fun i hi => (mem_filter.mp (getElem_mem hi)).2
      have hle := hord.trans _ a _ (hord.le_of_same (hmem 0 (by omega))).2
        (hord.le_of_same (hmem 1 (by omega))).1
      omega
    match hlist : xs.filter (same compar a) with
    | [] => rfl
    | [_] => rfl
    | _ :: _ :: _ => rw [hlist] at hshort; simp at hshort

/-! ## Inserting -/

/-- An element that stood behind the list is inserted behind all that are not greater. -/
lemma StableOf.insert (h : StableOf compar xs (us ++ vs))
    (hus : ∀ u ∈ us, compar u x ≤ 0) (hvs : ∀ v ∈ vs, compar v x > 0) :
    StableOf compar (xs ++ [x]) (us ++ x :: vs) := by
  have hsorted := pairwise_append.mp h.sorted
  have hle : ∀ v ∈ vs, compar x v ≤ 0 := fun v hv => Int.le_of_lt ((hord.flip x v).mpr (hvs v hv))
  refine ⟨pairwise_append.mpr ⟨hsorted.1, pairwise_cons.mpr ⟨hle, hsorted.2.1⟩, ?_⟩, fun a => ?_⟩
  · intro u hu v hv
    rcases mem_cons.mp hv with rfl | hv
    · exact hus u hu
    · exact hsorted.2.2 u hu v hv
  · rw [filter_append, filter_append xs, ← h.stable a, filter_append]
    by_cases ha : same compar a x = true
    · -- what is behind is greater, so nothing of it is taken for equal
      have hnone : vs.filter (same compar a) = [] := by
        refine filter_eq_nil_iff.mpr fun v hv hsame => ?_
        have hgt := hvs v hv
        have hvx := hord.trans v a x (hord.le_of_same hsame).2 (hord.le_of_same ha).1
        omega
      rw [filter_cons_of_pos ha, filter_cons_of_pos ha, hnone, append_nil]
      rfl
    · rw [filter_cons_of_neg ha, filter_cons_of_neg ha, filter_nil, append_nil]

/-- The greatest element of all goes to the end, if nothing that stood behind it is taken for its
equal. -/
lemma StableOf.concat (h : StableOf compar (us ++ vs) zs)
    (hus : ∀ u ∈ us, compar u x ≤ 0) (hvs : ∀ v ∈ vs, compar v x < 0) :
    StableOf compar (us ++ x :: vs) (zs ++ [x]) := by
  have hzs : ∀ z ∈ zs, compar z x ≤ 0 := by
    intro z hz
    rcases mem_append.mp ((h.perm hord).mem_iff.mp hz) with hu | hv
    · exact hus z hu
    · exact Int.le_of_lt (hvs z hv)
  refine ⟨pairwise_append.mpr ⟨h.sorted, pairwise_singleton _ _, ?_⟩, fun a => ?_⟩
  · intro z hz y hy
    rw [mem_singleton.mp hy]
    exact hzs z hz
  · rw [filter_append, h.stable a, filter_append, filter_append]
    by_cases ha : same compar a x = true
    · have hnone : vs.filter (same compar a) = [] := by
        refine filter_eq_nil_iff.mpr fun v hv hsame => ?_
        have hlt := (hord.flip v x).mp (hvs v hv)
        have hle := hord.trans x a v (hord.le_of_same ha).2 (hord.le_of_same hsame).1
        omega
      rw [filter_cons_of_pos ha, filter_cons_of_pos ha, hnone, append_nil]
      rfl
    · rw [filter_cons_of_neg ha, filter_cons_of_neg ha, filter_nil, append_nil]

/-- The last element of the first run is greater than all of the second one. -/
lemma StableOf.concat_left (hxs : (xs ++ [x]).Pairwise fun x y => compar x y ≤ 0)
    (hys : (ys ++ [y]).Pairwise fun x y => compar x y ≤ 0) (hgt : compar x y > 0)
    (h : StableOf compar (xs ++ (ys ++ [y])) zs) :
    StableOf compar (xs ++ [x] ++ (ys ++ [y])) (zs ++ [x]) := by
  rw [append_assoc]
  have hle : ∀ v ∈ ys ++ [y], compar v y ≤ 0 := by
    intro v hv
    rcases mem_append.mp hv with hv | hv
    · exact (pairwise_append.mp hys).2.2 v hv y (mem_singleton_self y)
    · rw [mem_singleton.mp hv]
      exact hord.refl y
  refine h.concat hord (fun u hu => ?_) fun v hv => ?_
  · exact (pairwise_append.mp hxs).2.2 u hu x (mem_singleton_self x)
  · by_contra hnot
    have hxy := hord.trans _ _ _ (hord.le_of_not_lt hnot) (hle v hv)
    omega

/-- The last element of the second run is not smaller than any of the first one. -/
lemma StableOf.concat_right (hxs : (xs ++ [x]).Pairwise fun x y => compar x y ≤ 0)
    (hys : (ys ++ [y]).Pairwise fun x y => compar x y ≤ 0) (hle : compar x y ≤ 0)
    (h : StableOf compar (xs ++ [x] ++ ys) zs) :
    StableOf compar (xs ++ [x] ++ (ys ++ [y])) (zs ++ [y]) := by
  rw [← append_assoc]
  have hnil : StableOf compar (xs ++ [x] ++ ys) (zs ++ []) := by rwa [append_nil]
  refine hnil.insert hord (fun z hz => ?_) fun v hv => absurd hv not_mem_nil
  rcases mem_append.mp ((h.perm hord).mem_iff.mp hz) with hu | hv
  · rcases mem_append.mp hu with hu | hu
    · exact hord.trans _ _ _ ((pairwise_append.mp hxs).2.2 z hu x (mem_singleton_self x)) hle
    · rwa [mem_singleton.mp hu]
  · exact (pairwise_append.mp hys).2.2 z hv y (mem_singleton_self y)

/-! ## Merging -/

lemma filter_merge (hxs : xs.Pairwise fun x y => compar x y ≤ 0) :
    (xs.merge ys (inOrder compar)).filter (same compar a) =
      xs.filter (same compar a) ++ ys.filter (same compar a) := by
  induction xs generalizing ys with
  | nil => rw [nil_merge, filter_nil, nil_append]
  | cons x xs ih =>
    induction ys with
    | nil => rw [merge_right, filter_nil, append_nil]
    | cons y ys ihy =>
      by_cases hle : compar x y ≤ 0
      · rw [cons_merge_cons_pos _ _ _ (decide_eq_true hle), filter_cons, filter_cons,
          ih (pairwise_cons.mp hxs).2]
        split <;> rfl
      · rw [cons_merge_cons_neg _ _ _ (by simpa [inOrder] using hle), filter_cons, ihy]
        by_cases ha : same compar a y = true
        · -- what is left of the first list is greater than `y`, so nothing of it is taken for equal
          have hnone : (x :: xs).filter (same compar a) = [] := by
            refine filter_eq_nil_iff.mpr fun z hz hsame => hle ?_
            have hxz : compar x z ≤ 0 := by
              rcases mem_cons.mp hz with rfl | hz
              · exact hord.refl z
              · exact rel_of_pairwise_cons hxs hz
            exact hord.trans x z y hxz
              (hord.trans z a y (hord.le_of_same hsame).2 (hord.le_of_same ha).1)
          rw [if_pos ha, hnone, nil_append, nil_append, filter_cons_of_pos ha]
        · rw [if_neg ha, filter_cons_of_neg ha]

lemma StableOf.merge (hx : StableOf compar xs us)
    (hy : StableOf compar ys vs) : StableOf compar (xs ++ ys) (us.merge vs (inOrder compar)) := by
  refine ⟨?_, fun a => ?_⟩
  · have htrans : ∀ x y z, inOrder compar x y = true → inOrder compar y z = true →
        inOrder compar x z = true := fun x y z hxy hyz =>
      decide_eq_true (hord.trans x y z (of_decide_eq_true hxy) (of_decide_eq_true hyz))
    have htotal : ∀ x y, (inOrder compar x y || inOrder compar y x) = true := fun x y => by
      rw [Bool.or_eq_true, inOrder, inOrder, decide_eq_true_eq, decide_eq_true_eq]
      exact hord.total x y
    have hmerge := pairwise_merge htrans htotal us vs
      (hx.sorted.imp fun hle => decide_eq_true hle) (hy.sorted.imp fun hle => decide_eq_true hle)
    exact hmerge.imp fun hle => of_decide_eq_true hle
  · rw [filter_merge hord hx.sorted, hx.stable, hy.stable, filter_append]

end Cobalt
