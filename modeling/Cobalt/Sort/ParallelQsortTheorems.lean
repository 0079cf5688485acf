/-
Cobalt.Sort.ParallelQsortTheorems — the threads keep apart and sort the array.

The ranges of the threads never overlap, and two elements that are in no common
range are in order already: a partition that is done splits its range into two
whose elements are in order with each other. When no range is left, the array is
sorted. For this the pivot has to stay what it is while the elements are moved.
A pivot that is an element of the array does not, and the partition then leaves
ranges that are not in order with each other.
-/
import Cobalt.Sort.ParallelQsort

namespace Cobalt.Sort.ParallelQsort

open List

variable {size : Nat} {α : Type}

/-! ## What is claimed -/

def Sorting (compar : α → α → Int) (qsort : List α → List α) : Prop :=
  ∀ xs, (qsort xs).Perm xs ∧ (qsort xs).Pairwise fun x y => compar x y ≤ 0

def Job.base : Job α → Nat
  | .loop base _ | .partition base .. | .qsort base _ => base

def Job.nmemb : Job α → Nat
  | .loop _ nmemb | .partition _ nmemb .. | .qsort _ nmemb => nmemb

/-- The elements that the thread may read or write while it is here. -/
def Job.Touches (j : Job α) (i : Nat) : Prop := j.base ≤ i ∧ i < j.base + j.nmemb

/-- The wait for the tasks is over. -/
def Finished (s : State α) : Prop := ∀ js ∈ s.threads, js = []

structure Right (env : Env size) (arr : Nat → Elem size) (nmemb : Nat) (s : State (Elem size)) :
    Prop where
  apart : ∀ (t u : Nat) (js ks : List (Job (Elem size))), t ≠ u → s.threads[t]? = some js →
    s.threads[u]? = some ks → ∀ j ∈ js, ∀ k ∈ ks, ∀ i, ¬ (j.Touches i ∧ k.Touches i)
  sorted : Finished s → ((slice s.arr 0 nmemb).Pairwise fun x y => env.compar x y ≤ 0) ∧
    (slice s.arr 0 nmemb).Perm (slice arr 0 nmemb)
  moves : ¬ Finished s → ∃ a, (step env s a).isSome

/-- Where `fails` is false, there is memory for every pivot. -/
def Granted (fails : Bool) (_ : State (Elem size)) (a : Action) : Prop :=
  fails = true ∨ a.pivotMalloc = true

/-- Whatever the array, the comparator and the schedule are, every state is right and the run ends. -/
def Correct (size : Nat) (fails : Bool) : Prop :=
  ∀ env : Env size, TotalPreorder env.compar → Sorting env.compar env.qsort → ∀ arr nmemb,
    (∀ s, (machine env arr nmemb).ReachVia (Granted fails) s → Right env arr nmemb s) ∧
    ¬ ∃ f : Nat → State (Elem size), (machine env arr nmemb).init (f 0) ∧
      ∀ k, ∃ a, Granted fails (f k) a ∧ step env (f k) a = some (f (k + 1))

/-! ## The invariant -/

variable {env : Env size} {arr arr0 arr' : Nat → Elem size} {n total base nmemb left right : Nat}
  {j j' : Job (Elem size)} {js ks new others : List (Job (Elem size))} {a : Action}
  {pivot : Pivot (Elem size)} {s s' : State (Elem size)}

/-- The ranges do not overlap. -/
def Apart (j k : Job (Elem size)) : Prop := ∀ i, ¬ (j.Touches i ∧ k.Touches i)

variable {k : Job (Elem size)}

lemma Apart.symm {j : Job (Elem size)} (h : Apart j k) : Apart k j :=
  fun i hi => h i ⟨hi.2, hi.1⟩

/-- A partition is between the ends of its range. -/
def Job.Fits (total : Nat) : Job (Elem size) → Prop
  | .loop base nmemb => base + nmemb ≤ total
  | .partition base nmemb left right _ =>
    base + nmemb ≤ total ∧ 0 < nmemb ∧ left ≤ right ∧ right ≤ nmemb
  | .qsort base nmemb => base + nmemb ≤ total

/-- The elements that a partition has gone past are on their side of the pivot. -/
def Job.Parted (env : Env size) (arr : Nat → Elem size) : Job (Elem size) → Prop
  | .partition base nmemb left right (.copy x) =>
    (∀ i, base ≤ i → i < base + left → env.compar (arr i) x < 0) ∧
      ∀ i, base + right ≤ i → i < base + nmemb → ¬ env.compar (arr i) x < 0
  | .partition _ _ _ _ (.place _) => False
  | _ => True

/-- The array is the one given, rearranged; the ranges do not overlap, and elements that are in no
common range are in order. -/
structure Inv (env : Env size) (arr₀ : Nat → Elem size) (total : Nat) (arr : Nat → Elem size)
    (js : List (Job (Elem size))) : Prop where
  perm : (slice arr 0 total).Perm (slice arr₀ 0 total)
  fits : ∀ j ∈ js, j.Fits total
  apart : js.Pairwise Apart
  parted : ∀ j ∈ js, j.Parted env arr
  inOrder : ∀ i k, i < k → k < total →
    env.compar (arr i) (arr k) ≤ 0 ∨ ∃ j ∈ js, j.Touches i ∧ j.Touches k

lemma Job.Fits.le (h : j.Fits total) : j.base + j.nmemb ≤ total := by
  cases j with
  | loop => exact h
  | partition => exact h.1
  | qsort => exact h

/-- What a partition has done so far is in its range. -/
lemma Job.Parted.congr (h : j.Parted env arr) (hfits : j.Fits total)
    (hsame : ∀ i, j.Touches i → arr' i = arr i) : j.Parted env arr' := by
  cases j with
  | loop => trivial
  | qsort => trivial
  | partition base nmemb left right pivot =>
    cases pivot with
    | place => exact h
    | copy x =>
      obtain ⟨-, -, hleft, hright⟩ := hfits
      refine ⟨fun i hi hlt => ?_, fun i hi hlt => ?_⟩
      · rw [hsame i ⟨hi, by simp only [Job.base, Job.nmemb]; omega⟩]
        exact h.1 i hi hlt
      · rw [hsame i ⟨by simp only [Job.base]; omega, hlt⟩]
        exact h.2 i hi hlt

namespace Inv

lemma perm_jobs (h : Inv env arr0 total arr js) (hp : js.Perm ks) : Inv env arr0 total arr ks := by
  refine ⟨h.perm, fun j hj => h.fits j (hp.mem_iff.mpr hj), ?_,
    fun j hj => h.parted j (hp.mem_iff.mpr hj), fun i k hik hk => ?_⟩
  · exact (hp.pairwise_iff Apart.symm).mp h.apart
  · obtain hle | ⟨j, hj, ht⟩ := h.inOrder i k hik hk
    · exact .inl hle
    · exact .inr ⟨j, hp.mem_iff.mp hj, ht⟩

section

variable (h : Inv env arr0 total arr (j :: others))

include h

lemma apart_head (hk : k ∈ others) : Apart j k := rel_of_pairwise_cons h.apart hk


lemma rearrange (hbase : j'.base = j.base) (hnmemb : j'.nmemb = j.nmemb) (hfits : j'.Fits total)
    (hparted : j'.Parted env arr') (hout : ∀ i, ¬ j.Touches i → arr' i = arr i)
    (hperm : (slice arr' j.base j.nmemb).Perm (slice arr j.base j.nmemb)) :
    Inv env arr0 total arr' (j' :: others) := by
  have htouches : ∀ i, j'.Touches i ↔ j.Touches i := by
    intro i
    rw [Job.Touches, Job.Touches, hbase, hnmemb]
  have hle := (h.fits j (mem_cons_self ..)).le
  -- each element of the range was somewhere in the range before
  have hfrom : ∀ i, j.Touches i → ∃ i', j.Touches i' ∧ arr' i = arr i' := by
    intro i hi
    have hmem := hperm.subset (mem_slice.mpr ⟨i, hi.1, hi.2, rfl⟩)
    obtain ⟨i', hlo, hhi, heq⟩ := mem_slice.mp hmem
    exact ⟨i', ⟨hlo, hhi⟩, heq.symm⟩
  have hnone : ∀ i k, j.Touches i → ¬ j.Touches k → ¬ ∃ l ∈ j :: others, l.Touches i ∧ l.Touches k := by
    rintro i k hi hk ⟨l, hl, hli, hlk⟩
    rcases mem_cons.mp hl with rfl | hl
    · exact hk hlk
    · exact h.apart_head hl i ⟨hi, hli⟩
  refine ⟨?_, ?_, ?_, ?_, fun i k hik hk => ?_⟩
  · exact (slice_perm_of_part (Nat.zero_le _) (by omega) hout hperm).trans h.perm
  · intro l hl
    rcases mem_cons.mp hl with rfl | hl
    · exact hfits
    · exact h.fits l (mem_cons_of_mem _ hl)
  · refine pairwise_cons.mpr ⟨fun l hl i hi => ?_, (pairwise_cons.mp h.apart).2⟩
    exact h.apart_head hl i ⟨(htouches i).mp hi.1, hi.2⟩
  · intro l hl
    rcases mem_cons.mp hl with rfl | hl
    · exact hparted
    · exact (h.parted l (mem_cons_of_mem _ hl)).congr (h.fits l (mem_cons_of_mem _ hl))
        fun i hi => hout i fun hj => h.apart_head hl i ⟨hj, hi⟩
  · by_cases hi : j.Touches i
    · by_cases hk' : j.Touches k
      · exact .inr ⟨j', mem_cons_self .., (htouches i).mpr hi, (htouches k).mpr hk'⟩
      · obtain ⟨i', hi', heq⟩ := hfrom i hi
        have hlt : i' < k := by
          have := hi.1; have := hi'.2
          by_contra hge
          exact hk' ⟨by omega, by omega⟩
        rw [heq, hout k hk']
        exact .inl ((h.inOrder i' k hlt hk).resolve_right (hnone i' k hi' hk'))
    · by_cases hk' : j.Touches k
      · obtain ⟨k', hk'', heq⟩ := hfrom k hk'
        have hlt : i < k' := by
          have := hk'.2; have := hk''.1
          by_contra hge
          exact hi ⟨by omega, by omega⟩
        have hk0 : k' < total := by have := hk''.2; omega
        rw [heq, hout i hi]
        refine .inl ((h.inOrder i k' hlt hk0).resolve_right ?_)
        rintro ⟨l, hl, hli, hlk⟩
        exact hnone k' i hk'' hi ⟨l, hl, hlk, hli⟩
      · rw [hout i hi, hout k hk']
        obtain hle | ⟨l, hl, hli, hlk⟩ := h.inOrder i k hik hk
        · exact .inl hle
        · rcases mem_cons.mp hl with rfl | hl
          · exact absurd hli hi
          · exact .inr ⟨l, mem_cons_of_mem _ hl, hli, hlk⟩

lemma leave (hsorted : ∀ i k, i < k → j.Touches i → j.Touches k → env.compar (arr i) (arr k) ≤ 0) :
    Inv env arr0 total arr others := by
  refine ⟨h.perm, fun l hl => h.fits l (mem_cons_of_mem _ hl), (pairwise_cons.mp h.apart).2,
    fun l hl => h.parted l (mem_cons_of_mem _ hl), fun i k hik hk => ?_⟩
  obtain hle | ⟨l, hl, hli, hlk⟩ := h.inOrder i k hik hk
  · exact .inl hle
  · rcases mem_cons.mp hl with rfl | hl
    · exact .inl (hsorted i k hik hli hlk)
    · exact .inr ⟨l, hl, hli, hlk⟩

/-- The range is split where the elements on the left are not greater than those on the right. -/
lemma split {m : Nat} (hm : m ≤ j.nmemb) (hj' : ∀ i, j'.Touches i ↔ j.base ≤ i ∧ i < j.base + m)
    (hk : ∀ i, k.Touches i ↔ j.base + m ≤ i ∧ i < j.base + j.nmemb)
    (hfits : j'.Fits total ∧ k.Fits total) (hparted : j'.Parted env arr ∧ k.Parted env arr)
    (hle : ∀ i i', j'.Touches i → k.Touches i' → env.compar (arr i) (arr i') ≤ 0) :
    Inv env arr0 total arr (j' :: k :: others) := by
  have hjt : ∀ i, j'.Touches i → j.Touches i := fun i hi => by
    rw [hj'] at hi
    exact ⟨hi.1, by omega⟩
  have hkt : ∀ i, k.Touches i → j.Touches i := fun i hi => by
    rw [hk] at hi
    exact ⟨by omega, hi.2⟩
  refine ⟨h.perm, ?_, ?_, ?_, fun i i' hii hi' => ?_⟩
  · simp only [forall_mem_cons]
    exact ⟨hfits.1, hfits.2, fun l hl => h.fits l (mem_cons_of_mem _ hl)⟩
  · refine pairwise_cons.mpr ⟨fun l hl i hi => ?_, pairwise_cons.mpr ⟨fun l hl i hi => ?_,
      (pairwise_cons.mp h.apart).2⟩⟩
    · rcases mem_cons.mp hl with rfl | hl
      · have := (hj' i).mp hi.1
        have := (hk i).mp hi.2
        omega
      · exact h.apart_head hl i ⟨hjt i hi.1, hi.2⟩
    · exact h.apart_head hl i ⟨hkt i hi.1, hi.2⟩
  · simp only [forall_mem_cons]
    exact ⟨hparted.1, hparted.2, fun l hl => h.parted l (mem_cons_of_mem _ hl)⟩
  · obtain hle' | ⟨l, hl, hli, hlk⟩ := h.inOrder i i' hii hi'
    · exact .inl hle'
    · rcases mem_cons.mp hl with rfl | hl
      · by_cases hleft : i' < l.base + m
        · exact .inr ⟨j', mem_cons_self .., (hj' i).mpr ⟨hli.1, by omega⟩,
            (hj' i').mpr ⟨hlk.1, hleft⟩⟩
        · by_cases hright : l.base + m ≤ i
          · exact .inr ⟨k, by simp, (hk i).mpr ⟨hright, hli.2⟩, (hk i').mpr ⟨by omega, hlk.2⟩⟩
          · exact .inl (hle i i' ((hj' i).mpr ⟨hli.1, by omega⟩) ((hk i').mpr ⟨by omega, hlk.2⟩))
      · exact .inr ⟨l, by simp [hl], hli, hlk⟩

/-! ## The moves keep it -/

lemma goOn (hbase : j'.base = j.base)
    (hnmemb : j'.nmemb = j.nmemb) (hfits : j'.Fits total) (hparted : j'.Parted env arr) :
    Inv env arr0 total arr (j' :: others) :=
  h.rearrange hbase hnmemb hfits hparted (fun _ _ => rfl) (List.Perm.refl _)

end

lemma move_loop (h : Inv env arr0 total arr (.loop base nmemb :: others))
    (hok : size ≤ pivotBuf ∨ a.pivotMalloc = true) :
    Inv env arr0 total (move env arr a (.loop base nmemb)).arr
      ((move env arr a (.loop base nmemb)).jobs ++ others) := by
  have hfits : base + nmemb ≤ total := h.fits _ (mem_cons_self ..)
  rw [move]
  split
  · next hcut =>
    have hcopy : pivotVal env arr base nmemb a = .copy (arr (pivotIndex env arr base nmemb)) := by
      rw [pivotVal]
      rcases hok with hsize | hmalloc
      · rw [if_pos hsize]
      · rw [if_pos hmalloc, ite_self]
    rw [hcopy]
    refine h.goOn rfl rfl ⟨hfits, Nat.zero_lt_of_lt hcut, Nat.zero_le _, Nat.le_refl _⟩ ⟨?_, ?_⟩
    · intro i hlo hhi
      omega
    · intro i hlo hhi
      omega
  · split
    · exact h.goOn rfl rfl hfits trivial
    · next hone =>
      refine h.leave fun i k hik hi hk => ?_
      have hlo : base ≤ i := hi.1
      have hhi : k < base + nmemb := hk.2
      omega

lemma move_partition (h : Inv env arr0 total arr (.partition base nmemb left right pivot :: others))
    (hlt : left < right) :
    Inv env arr0 total (partitionStep env arr base nmemb left right pivot).arr
      ((partitionStep env arr base nmemb left right pivot).jobs ++ others) := by
  obtain ⟨hfits, hpos, hleft, hright⟩ := h.fits _ (mem_cons_self ..)
  have hparted := h.parted _ (mem_cons_self ..)
  cases pivot with
  | place => exact absurd hparted id
  | copy x =>
    obtain ⟨hless, hmore⟩ := hparted
    rw [partitionStep]
    split
    · next hcmp =>
      refine h.goOn rfl rfl ⟨hfits, hpos, hlt, hright⟩ ⟨fun i hlo hhi => ?_, hmore⟩
      by_cases hi : i = base + left
      · rw [hi]
        exact hcmp
      · exact hless i hlo (by omega)
    · next hcmp =>
      by_cases hne : left ≠ right - 1
      · -- the element at `left` goes to `right`
        simp only [if_pos hne]
        refine h.rearrange rfl rfl ⟨hfits, hpos, by omega, by omega⟩
          ⟨fun i hlo hhi => ?_, fun i hlo hhi => ?_⟩ (fun i hi => ?_) ?_
        · rw [swap_of_ne (by omega) (by omega)]
          exact hless i hlo hhi
        · by_cases hi : i = base + (right - 1)
          · rw [hi, swap_right]
            exact hcmp
          · rw [swap_of_ne (by omega) (by omega)]
            exact hmore i (by omega) hhi
        · refine swap_of_ne (fun heq => hi ?_) (fun heq => hi ?_)
          · exact ⟨by simp only [Job.base]; omega, by simp only [Job.base, Job.nmemb]; omega⟩
          · exact ⟨by simp only [Job.base]; omega, by simp only [Job.base, Job.nmemb]; omega⟩
        · exact slice_swap_perm (by simp only [Job.base, Job.nmemb]; omega)
            (by simp only [Job.base, Job.nmemb]; omega)
      · simp only [if_neg hne]
        refine h.goOn rfl rfl ⟨hfits, hpos, by omega, by omega⟩ ⟨hless, fun i hlo hhi => ?_⟩
        by_cases hi : i = base + (right - 1)
        · rw [hi, ← not_not.mp hne]
          exact hcmp
        · exact hmore i (by omega) hhi

/-- The two parts are there afterwards, whoever sorts them and in whichever way. -/
lemma afterSplit_jobs (env : Env size) (arr : Nat → Elem size) (base nmemb split : Nat) (a : Action) :
    (afterSplit env arr base nmemb split a).arr = arr ∧
    ∃ j k, (j = .loop base split ∨ j = .qsort base split) ∧
      (k = .loop (base + split) (nmemb - split) ∨ k = .qsort (base + split) (nmemb - split)) ∧
      ((afterSplit env arr base nmemb split a).jobs ++
        (afterSplit env arr base nmemb split a).task.toList).Perm [j, k] := by
  rw [afterSplit]
  by_cases hside : split < nmemb - split
  · simp only [if_pos hside]
    split
    · split
      · exact ⟨rfl, _, _, .inl rfl, .inl rfl, .refl _⟩
      · exact ⟨rfl, _, _, .inl rfl, .inl rfl, .swap ..⟩
    · exact ⟨rfl, _, _, .inl rfl, .inr rfl, .swap ..⟩
  · simp only [if_neg hside]
    split
    · split
      · exact ⟨rfl, _, _, .inl rfl, .inl rfl, .swap ..⟩
      · exact ⟨rfl, _, _, .inl rfl, .inl rfl, .refl _⟩
    · exact ⟨rfl, _, _, .inr rfl, .inl rfl, .refl _⟩

lemma move_split (hord : TotalPreorder env.compar)
    (h : Inv env arr0 total arr (.partition base nmemb left left pivot :: others)) (a : Action) :
    Inv env arr0 total (afterSplit env arr base nmemb left a).arr
      ((afterSplit env arr base nmemb left a).jobs ++
        (afterSplit env arr base nmemb left a).task.toList ++ others) := by
  obtain ⟨harr, j, k, hj, hk, hperm⟩ := afterSplit_jobs env arr base nmemb left a
  obtain ⟨hfits, hpos, -, hright⟩ := h.fits _ (mem_cons_self ..)
  have hparted := h.parted _ (mem_cons_self ..)
  have htj : ∀ i, j.Touches i ↔ base ≤ i ∧ i < base + left := by
    rcases hj with rfl | rfl <;> exact fun i => Iff.rfl
  have htk : ∀ i, k.Touches i ↔ base + left ≤ i ∧ i < base + nmemb := by
    rcases hk with rfl | rfl <;> simp only [Job.Touches, Job.base, Job.nmemb] <;> omega
  have hfj : j.Fits total ∧ j.Parted env arr := by
    rcases hj with rfl | rfl <;> exact ⟨by simp only [Job.Fits]; omega, trivial⟩
  have hfk : k.Fits total ∧ k.Parted env arr := by
    rcases hk with rfl | rfl <;> exact ⟨by simp only [Job.Fits]; omega, trivial⟩
  rw [harr]
  refine perm_jobs (h.split hright htj htk ⟨hfj.1, hfk.1⟩ ⟨hfj.2, hfk.2⟩ fun i i' hi hi' => ?_)
    (hperm.symm.append_right others)
  cases pivot with
  | place => exact absurd hparted id
  | copy x =>
    rw [htj] at hi
    rw [htk] at hi'
    exact hord.trans _ x _ (Int.le_of_lt (hparted.1 i hi.1 hi.2))
      (hord.le_of_not_lt (hparted.2 i' hi'.1 hi'.2))

lemma move_qsort (hsort : Sorting env.compar env.qsort)
    (h : Inv env arr0 total arr (.qsort base nmemb :: others)) :
    Inv env arr0 total (overwrite arr base (env.qsort (slice arr base nmemb))) others := by
  obtain ⟨hperm, hsorted⟩ := hsort (slice arr base nmemb)
  have hlen : (env.qsort (slice arr base nmemb)).length = nmemb := by
    rw [hperm.length_eq, length_slice]
  have hslice : slice (overwrite arr base (env.qsort (slice arr base nmemb))) base nmemb =
      env.qsort (slice arr base nmemb) := slice_overwrite hlen
  have hnext : Inv env arr0 total (overwrite arr base (env.qsort (slice arr base nmemb)))
      (.qsort base nmemb :: others) := by
    refine h.rearrange rfl rfl (h.fits _ (mem_cons_self ..)) trivial (fun i hi => ?_) ?_
    · have hi : ¬ (base ≤ i ∧ i < base + nmemb) := hi
      exact overwrite_outside (by rw [hlen]; omega)
    · change (slice _ base nmemb).Perm (slice arr base nmemb)
      rw [hslice]
      exact hperm
  refine hnext.leave fun i k hik hi hk => ?_
  rw [← hslice, pairwise_slice] at hsorted
  exact hsorted i k hi.1 hik hk.2

lemma moved (hord : TotalPreorder env.compar) (hsort : Sorting env.compar env.qsort)
    (hok : size ≤ pivotBuf ∨ a.pivotMalloc = true) (h : Inv env arr0 total arr (j :: others)) :
    Inv env arr0 total (move env arr a j).arr
      ((move env arr a j).jobs ++ (move env arr a j).task.toList ++ others) := by
  cases j with
  | loop base nmemb =>
    have htask : (move env arr a (.loop base nmemb)).task = none := by
      rw [move]
      split
      · rfl
      · split <;> rfl
    rw [htask, Option.toList_none, append_nil]
    exact h.move_loop hok
  | partition base nmemb left right pivot =>
    by_cases hlt : left < right
    · have htask : (partitionStep env arr base nmemb left right pivot).task = none := by
        rw [partitionStep]
        split <;> rfl
      rw [move, if_pos hlt, htask, Option.toList_none, append_nil]
      exact h.move_partition hlt
    · obtain ⟨hfits, hpos, hleft, hright⟩ := h.fits _ (mem_cons_self ..)
      obtain rfl : left = right := by omega
      rw [move, if_neg hlt]
      split
      · exact h.goOn rfl rfl hfits trivial
      · exact h.move_split hord a
  | qsort base nmemb =>
    rw [move]
    exact h.move_qsort hsort

end Inv

/-! ## Runs -/

def jobs (s : State (Elem size)) : List (Job (Elem size)) := s.threads.flatten

lemma step_jobs (hstep : step env s a = some s') :
    ∃ j others, (jobs s).Perm (j :: others) ∧ s'.arr = (move env s.arr a j).arr ∧
      (jobs s').Perm ((move env s.arr a j).jobs ++ (move env s.arr a j).task.toList ++ others) := by
  rw [step] at hstep
  split at hstep
  · cases hstep
  · cases hstep
  · next j rest hthread =>
    cases hstep
    have hcut : s.threads = s.threads.take a.thread ++ (j :: rest) :: s.threads.drop (a.thread + 1) := by
      obtain ⟨hlt, hget⟩ := List.getElem?_eq_some_iff.mp hthread
      rw [← hget, getElem_cons_drop, take_append_drop]
    have hset : s.threads.set a.thread ((move env s.arr a j).jobs ++ rest) =
        s.threads.take a.thread ++ ((move env s.arr a j).jobs ++ rest) ::
          s.threads.drop (a.thread + 1) := by
      rw [List.set_eq_take_cons_drop _ (List.getElem?_eq_some_iff.mp hthread).1]
    have htask : ((move env s.arr a j).task.toList.map fun job => [job]).flatten =
        (move env s.arr a j).task.toList := by
      cases (move env s.arr a j).task <;> rfl
    classical
    refine ⟨j, rest ++ ((s.threads.take a.thread).flatten ++
      (s.threads.drop (a.thread + 1)).flatten), ?_, rfl, ?_⟩
    · rw [jobs, hcut, flatten_append, flatten_cons, ← hcut, perm_iff_count]
      intro x
      simp only [count_append, count_cons]
      omega
    · rw [jobs, flatten_append, hset, htask, flatten_append, flatten_cons, perm_iff_count]
      intro x
      simp only [count_append]
      omega

lemma inv_whole (hbase : j.base = 0) (hnmemb : j.nmemb = nmemb) (hfits : j.Fits nmemb)
    (hparted : j.Parted env arr) : Inv env arr nmemb arr [j] := by
  refine ⟨.refl _, by simpa using hfits, pairwise_singleton _ _, by simpa using hparted,
    fun i k hik hk => .inr ⟨j, mem_singleton_self j, ?_⟩⟩
  rw [Job.Touches, Job.Touches, hbase, hnmemb]
  omega

lemma inv_start (hord : TotalPreorder env.compar) (arr : Nat → Elem size)
    (nmemb numThreads : Nat) (waitgroup : Bool) :
    Inv env arr nmemb (start env arr nmemb numThreads waitgroup).arr
      (jobs (start env arr nmemb numThreads waitgroup)) := by
  have hqsort : Inv env arr nmemb arr [.qsort 0 nmemb] := inv_whole rfl rfl (zero_add _).le trivial
  have hloop : Inv env arr nmemb arr [.loop 0 nmemb] := inv_whole rfl rfl (zero_add _).le trivial
  rw [start]
  split
  · next hnone =>
    refine ⟨.refl _, by simp [jobs], List.Pairwise.nil, by simp [jobs], fun i k hik hk => .inl ?_⟩
    rcases hnone with hone | rfl
    · omega
    · -- all elements without bytes are the same
      change env.compar (arr i) (arr k) ≤ 0
      rw [Subsingleton.elim (arr i) (arr k)]
      exact hord.refl _
  · split
    · exact hqsort
    · split
      · exact hloop
      · exact hqsort

/-- The invariant along every run in which the pivots are copies. -/
lemma inv_of_reach (hord : TotalPreorder env.compar) (hsort : Sorting env.compar env.qsort)
    {fails : Bool} (hok : size ≤ pivotBuf ∨ fails = false)
    (hreach : (machine env arr nmemb).ReachVia (Granted fails) s) :
    Inv env arr nmemb s.arr (jobs s) := by
  refine hreach.invariant (fun s => Inv env arr nmemb s.arr (jobs s)) ?_ ?_
  · rintro s ⟨numThreads, waitgroup, rfl⟩
    exact inv_start hord arr nmemb numThreads waitgroup
  · intro s s' a hinv hgranted hstep
    have hcopy : size ≤ pivotBuf ∨ a.pivotMalloc = true := by
      refine hok.imp_right fun hfails => hgranted.resolve_left ?_
      rw [hfails]
      exact Bool.false_ne_true
    obtain ⟨j, others, hjobs, harr, hjobs'⟩ := step_jobs hstep
    rw [harr]
    exact ((hinv.perm_jobs hjobs).moved hord hsort hcopy).perm_jobs hjobs'.symm

/-! ## Every run ends -/

/-- How many steps there may be from here on. -/
def Job.weight : Job (Elem size) → Nat
  | .loop _ nmemb => 4 * (nmemb * nmemb) + nmemb + 1
  | .partition _ nmemb left right _ => 4 * (nmemb * nmemb) + (right - left)
  | .qsort _ _ => 1

def weight (js : List (Job (Elem size))) : Nat := (js.map Job.weight).sum

lemma weight_append : weight (js ++ ks) = weight js + weight ks := by
  rw [weight, map_append, sum_append]
  rfl

lemma weight_perm (hp : js.Perm ks) : weight js = weight ks := (hp.map _).sum_eq

lemma weight_split (hpos : 0 < left) (hlt : left < nmemb) :
    (4 * (left * left) + left + 1) + (4 * ((nmemb - left) * (nmemb - left)) + (nmemb - left) + 1) <
      4 * (nmemb * nmemb) := by
  obtain ⟨m, rfl⟩ : ∃ m, nmemb = left + (m + 1) := ⟨nmemb - left - 1, by omega⟩
  obtain ⟨l, rfl⟩ : ∃ l, left = l + 1 := ⟨left - 1, by omega⟩
  rw [Nat.add_sub_cancel_left]
  nlinarith

lemma weight_move (env : Env size) (arr : Nat → Elem size) (a : Action) (hfits : j.Fits total) :
    weight ((move env arr a j).jobs ++ (move env arr a j).task.toList) < j.weight := by
  cases j with
  | loop base nmemb =>
    rw [move]
    split
    · simp [weight, Job.weight]
    · split
      · next hone => simp [weight, Job.weight]; omega
      · simp [weight, Job.weight]
  | partition base nmemb left right pivot =>
    obtain ⟨-, hpos, hleft, hright⟩ := hfits
    have hsquare : 0 < nmemb * nmemb := Nat.mul_pos hpos hpos
    by_cases hlt : left < right
    · rw [move, if_pos hlt, partitionStep]
      split
      · simp [weight, Job.weight]; omega
      · simp [weight, Job.weight]; omega
    · rw [move, if_neg hlt]
      split
      · simp [weight, Job.weight]; omega
      · next hne =>
        rw [not_or] at hne
        obtain ⟨-, j, k, hj, hk, hperm⟩ := Inv.afterSplit_jobs env arr base nmemb left a
        have hw := weight_split (pos_of_ne_zero hne.1) (show left < nmemb by omega)
        rw [weight_perm hperm]
        rcases hj with rfl | rfl <;> rcases hk with rfl | rfl <;> simp [weight, Job.weight] <;> omega
  | qsort base nmemb => simp [move, weight, Job.weight]

lemma weight_step (hstep : step env s a = some s') (hfits : ∀ j ∈ jobs s, j.Fits total) :
    weight (jobs s') < weight (jobs s) := by
  obtain ⟨j, others, hjobs, -, hjobs'⟩ := step_jobs hstep
  have hj : j.Fits total := hfits j (hjobs.mem_iff.mpr (mem_cons_self ..))
  have hmove := weight_move env s.arr a hj
  rw [weight_perm hjobs', weight_perm hjobs, weight_append]
  exact Nat.add_lt_add_right hmove _

lemma weight_step_lt (hord : TotalPreorder env.compar) (hsort : Sorting env.compar env.qsort)
    {fails : Bool} (hok : size ≤ pivotBuf ∨ fails = false) (s s' : State (Elem size)) (a : Action)
    (hreach : (machine env arr nmemb).ReachVia (Granted fails) s)
    (hstep : (machine env arr nmemb).step s a = some s') : weight (jobs s') < weight (jobs s) :=
  weight_step hstep (inv_of_reach hord hsort hok hreach).fits

lemma ends (hord : TotalPreorder env.compar) (hsort : Sorting env.compar env.qsort)
    {fails : Bool} (hok : size ≤ pivotBuf ∨ fails = false) :
    ¬ ∃ f : Nat → State (Elem size), (machine env arr nmemb).init (f 0) ∧
      ∀ k, ∃ a, Granted fails (f k) a ∧ step env (f k) a = some (f (k + 1)) :=
  Machine.not_endless wellFounded_lt _ (weight_step_lt hord hsort hok)

/-! ## The main result -/

/-- A sort that is not over goes on, with memory for its pivot. -/
lemma exists_move (fails : Bool) (h : ¬ Finished s) :
    ∃ a, Granted fails s a ∧ (step env s a).isSome := by
  rw [Finished] at h
  push Not at h
  obtain ⟨js, hjs, hne⟩ := h
  obtain ⟨t, ht⟩ := mem_iff_getElem?.mp hjs
  obtain ⟨j, rest, rfl⟩ := exists_cons_of_ne_nil hne
  refine ⟨⟨t, true, true, true⟩, .inr rfl, ?_⟩
  rw [step, ht]
  rfl

lemma right_of_inv (hinv : Inv env arr nmemb s.arr (jobs s)) : Right env arr nmemb s := by
  refine ⟨?_, fun hfin => ?_, fun hrun => (exists_move false hrun).imp fun _ ha => ha.2⟩
  · -- the ranges of different threads are ranges of different places
    have hpair := (pairwise_flatten.mp hinv.apart).2
    rw [pairwise_iff_getElem] at hpair
    have hlt : ∀ (t u : Nat) (js ks : List (Job (Elem size))), t < u → s.threads[t]? = some js →
        s.threads[u]? = some ks → ∀ j ∈ js, ∀ k ∈ ks, Apart j k := by
      intro t u js ks htu ht hu
      obtain ⟨htlt, rfl⟩ := List.getElem?_eq_some_iff.mp ht
      obtain ⟨hult, rfl⟩ := List.getElem?_eq_some_iff.mp hu
      exact hpair t u htlt hult htu
    intro t u js ks hne ht hu j hj k hk
    rcases Nat.lt_or_gt_of_ne hne with htu | htu
    · exact hlt t u js ks htu ht hu j hj k hk
    · exact (hlt u t ks js htu hu ht k hk j hj).symm
  · have hnil : jobs s = [] := flatten_eq_nil_iff.mpr hfin
    refine ⟨pairwise_slice.mpr fun i k _ hik hk => ?_, hinv.perm⟩
    refine (hinv.inOrder i k hik (by omega)).resolve_right ?_
    simp [hnil]

lemma correct_of_copy {fails : Bool} (hok : size ≤ pivotBuf ∨ fails = false) :
    Correct size fails := by
  intro env hord hsort arr nmemb
  exact ⟨fun s hreach => right_of_inv (inv_of_reach hord hsort hok hreach), ends hord hsort hok⟩

/-! ## A pivot that moves -/

/-- `cobalt_qsort` as an insertion sort by the first byte. -/
def byteEnv (hsize : 0 < size) : Env size where
  compar := firstByte hsize
  cutoff := 4
  qsort := List.insertionSort fun x y => firstByte hsize x y ≤ 0

lemma sorting_byteEnv (hsize : 0 < size) :
    Sorting (byteEnv hsize).compar (byteEnv hsize).qsort := by
  have hord := totalPreorder_firstByte hsize
  have : Std.Total fun x y => firstByte hsize x y ≤ 0 := ⟨hord.total⟩
  have : IsTrans (Elem size) fun x y => firstByte hsize x y ≤ 0 := ⟨hord.trans⟩
  intro xs
  exact ⟨perm_insertionSort _ xs, pairwise_insertionSort (fun x y => firstByte hsize x y ≤ 0) xs⟩

/-- Elements each made of one and the same byte. -/
def ofBytes (bytes : List UInt8) (i : Nat) : Elem size := fun _ => bytes.getD i 0

/-- The calling thread moves and gets no memory for a pivot. -/
def denied : Action := ⟨0, false, true, true⟩

/-- The call on the elements 1, 2, 3, 0, 5 comes here when no pivot gets memory. -/
def Comes (hsize : 0 < size) (bytes : List UInt8) (js : List (Job (Elem size))) : Prop :=
  (machine (byteEnv hsize) (ofBytes [1, 2, 3, 0, 5]) 5).ReachVia (Granted true) ⟨ofBytes bytes, [js]⟩

lemma Comes.next {hsize : 0 < size} {bytes bytes' : List UInt8} (hcomes : Comes hsize bytes js)
    (hstep : step (byteEnv hsize) ⟨ofBytes bytes, [js]⟩ denied = some ⟨arr, [ks]⟩)
    (harr : arr = ofBytes bytes') : Comes hsize bytes' ks := by
  subst harr
  exact .step hcomes (.inl rfl) hstep

/-- The 3 in the middle is the pivot until the partition moves it: the 0 behind it is never compared
with it and stays right of the split. -/
lemma comes_unsorted (hlarge : pivotBuf < size) :
    Comes (Nat.zero_lt_of_lt hlarge) [1, 2, 0, 3, 5] ([] : List (Job (Elem size))) := by
  have hsize : 0 < size := Nat.zero_lt_of_lt hlarge
  have hstart : Comes hsize [1, 2, 3, 0, 5] [.loop 0 5] := by
    refine .init ⟨2, true, ?_⟩
    rw [start, if_neg (by omega), if_neg (by simp [byteEnv]), if_pos rfl]
  have hpivot : pivotVal (byteEnv hsize) (ofBytes [1, 2, 3, 0, 5]) 0 5 denied = .place 2 := by
    rw [pivotVal, if_neg (Nat.not_le.mpr hlarge)]
    rfl
  have h0 : Comes hsize [1, 2, 3, 0, 5] [.partition 0 5 0 5 (.place 2)] := by
    rw [← hpivot]
    exact hstart.next rfl rfl
  have h1 : Comes hsize [1, 2, 3, 0, 5] [.partition 0 5 1 5 (.place 2)] := h0.next rfl rfl
  have h2 : Comes hsize [1, 2, 3, 0, 5] [.partition 0 5 2 5 (.place 2)] := h1.next rfl rfl
  have h3 : Comes hsize [1, 2, 5, 0, 3] [.partition 0 5 2 4 (.place 2)] := by
    refine h2.next rfl (funext fun i => ?_)
    rcases i with _ | _ | _ | _ | _ | i <;> rfl
  have h4 : Comes hsize [1, 2, 0, 5, 3] [.partition 0 5 2 3 (.place 2)] := by
    refine h3.next rfl (funext fun i => ?_)
    rcases i with _ | _ | _ | _ | _ | i <;> rfl
  have h5 : Comes hsize [1, 2, 0, 5, 3] [.partition 0 5 2 2 (.place 2)] := h4.next rfl rfl
  have h6 : Comes hsize [1, 2, 0, 5, 3] [.qsort 2 3, .loop 0 2] := h5.next rfl rfl
  have h7 : Comes hsize [1, 2, 0, 3, 5] [.loop 0 2] := by
    refine h6.next rfl (funext fun i => ?_)
    rcases i with _ | _ | _ | _ | _ | i <;> rfl
  have h8 : Comes hsize [1, 2, 0, 3, 5] [.qsort 0 2] := h7.next rfl rfl
  refine h8.next rfl (funext fun i => ?_)
  rcases i with _ | _ | _ | _ | _ | i <;> rfl

lemma not_correct_of_large (hlarge : pivotBuf < size) : ¬ Correct size true := by
  intro hcorrect
  have hsize : 0 < size := Nat.zero_lt_of_lt hlarge
  have hright := (hcorrect (byteEnv hsize) (totalPreorder_firstByte hsize) (sorting_byteEnv hsize)
    (ofBytes [1, 2, 3, 0, 5]) 5).1 _ (comes_unsorted hlarge)
  have hle := pairwise_slice.mp (hright.sorted (by simp [Finished])).1 1 2 (Nat.zero_le _) (by omega)
    (by omega)
  exact absurd hle (by simp [byteEnv, firstByte, ofBytes])

/-- The parallel sort sorts and keeps its tasks apart, whatever the elements, the comparator, the
cutoff, the schedule and the outcomes of allocations and submits are, iff the pivot fits in its
buffer or there is always memory for it. -/
theorem parallelQsort_correct_iff (size : Nat) (fails : Bool) :
    Correct size fails ↔ size ≤ 256 ∨ fails = false := by
  refine ⟨fun hcorrect => ?_, correct_of_copy⟩
  by_contra hnot
  rw [not_or, Bool.not_eq_false] at hnot
  obtain ⟨hlarge, rfl⟩ := hnot
  exact not_correct_of_large (Nat.lt_of_not_le hlarge) hcorrect

theorem parallelQsort_unsorted : ¬ Correct 257 true := not_correct_of_large (by decide)

end Cobalt.Sort.ParallelQsort
