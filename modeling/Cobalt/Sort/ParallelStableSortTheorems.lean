/-
Cobalt.Sort.ParallelStableSortTheorems — the parallel sort leaves what the
sequential one leaves.

At every level the runs tile the array: each of them holds the stable sort of
what was there at the start, or is the range of one task that is at work on it.
A task works in its own range of array and scratch buffer, so what the others
do does not matter to it. A pair that is left out for want of memory stays
unmerged, and so does everything from a level on whose wait group is missing;
without the wait group of the parallel loop the chunks stay unsorted.
-/
import Cobalt.Sort.ParallelStableSort

namespace Cobalt.Sort.ParallelStableSort

open List

variable {size : Nat}

/-! ## What is claimed -/

def Finished (s : State (Elem size)) : Prop := s.pc = .done ∧ s.own = none ∧ s.tasks = []

structure Right (env : Env size) (m : Memory (Elem size)) (s : State (Elem size)) : Prop where
  sorted : Finished s → slice s.mem.arr 0 env.nmemb = env.stableSort (slice m.arr 0 env.nmemb)
  moves : ¬ Finished s → ∃ a, (step env (numChunks env.nmemb env.numThreads) s a).isSome

/-- Whether there may be no memory for a wait group, of the parallel loop or of a level, and for a
merge task. -/
def Granted (noWaitgroup noTask : Bool) (_ : State (Elem size)) : Action → Prop
  | .caller waitgroup alloc _ =>
    (noWaitgroup = true ∨ waitgroup = true) ∧ (noTask = true ∨ alloc = true)
  | _ => True

/-- Whatever the array of less than `2 ^ 58` elements, the comparator and the schedule are, the call
leaves what the sequential sort leaves, and it ends. -/
def Correct (size : Nat) (noWaitgroup noTask : Bool) : Prop :=
  ∀ env : Env size, env.nmemb < 2 ^ 58 → TotalPreorder env.compar →
    (∀ xs, StableOf env.compar xs (env.stableSort xs)) → ∀ m,
    (∀ s, (machine env m).ReachVia (Granted noWaitgroup noTask) s → Right env m s) ∧
    ¬ ∃ f : Nat → State (Elem size), (machine env m).init (f 0) ∧
      ∀ k, ∃ a, Granted noWaitgroup noTask (f k) a ∧ (machine env m).step (f k) a = some (f (k + 1))

/-! ## Tasks -/

variable {env : Env size} {m m' : Memory (Elem size)} {init : Nat → Elem size} {t u : Task}
  {ts us others : List Task} {low high i j k w chunks : Nat} {s s' : State (Elem size)}

/-- The range holds the stable sort of what was there. -/
def SortedIn (env : Env size) (init arr : Nat → Elem size) (low high : Nat) : Prop :=
  StableOf env.compar (slice init low (high - low)) (slice arr low (high - low))

namespace Task

def lo : Task → Nat
  | .chunk start _ => start
  | .merge start1 .. => start1
  | .copyBack start1 .. => start1

def hi : Task → Nat
  | .chunk start len => start + len
  | .merge _ _ end2 .. => end2
  | .copyBack _ _ end2 => end2

def Touches (t : Task) (i : Nat) : Prop := t.lo ≤ i ∧ i < t.hi

/-- The two runs that a merge starts with. -/
def Runs (env : Env size) (init arr : Nat → Elem size) (start1 mid end2 : Nat) : Prop :=
  start1 ≤ mid ∧ mid ≤ end2 ∧ SortedIn env init arr start1 mid ∧ SortedIn env init arr mid end2

/-- What the merge of the two runs gives. -/
def merged (env : Env size) (arr : Nat → Elem size) (start1 mid end2 : Nat) : List (Elem size) :=
  (slice arr start1 (mid - start1)).merge (slice arr mid (end2 - mid)) (inOrder env.compar)

/-- The task has come as far as its indices say. -/
def Ok (env : Env size) (init : Nat → Elem size) (m : Memory (Elem size)) : Task → Prop
  | .chunk start len => slice m.arr start len = slice init start len
  | .merge start1 mid end2 idxA idxB =>
    Runs env init m.arr start1 mid end2 ∧ idxA ≤ mid - start1 ∧ idxB ≤ end2 - mid ∧
      slice m.scratch start1 (idxA + idxB) ++
        (slice m.arr (start1 + idxA) (mid - start1 - idxA)).merge
          (slice m.arr (mid + idxB) (end2 - mid - idxB)) (inOrder env.compar) =
        merged env m.arr start1 mid end2
  | .copyBack start1 mid end2 =>
    Runs env init m.arr start1 mid end2 ∧
      slice m.scratch start1 ((mid - start1) + (end2 - mid)) = merged env m.arr start1 mid end2

end Task

variable {arr arr' : Nat → Elem size}

lemma slice_congr_on {b n : Nat} (h : ∀ i, low ≤ i ∧ i < high → arr' i = arr i) (hlow : low ≤ b)
    (hhigh : b + n ≤ high) : slice arr' b n = slice arr b n :=
  slice_congr fun i hi1 hi2 => h i ⟨by omega, by omega⟩

lemma SortedIn.congr (h : SortedIn env init arr low high)
    (hsame : ∀ i, low ≤ i ∧ i < high → arr' i = arr i) : SortedIn env init arr' low high := by
  by_cases hle : low ≤ high
  · rwa [SortedIn, slice_congr_on hsame (le_refl _) (by omega)]
  · rw [SortedIn, Nat.sub_eq_zero_of_le (Nat.le_of_not_le hle)] at h ⊢
    exact h

variable {start1 mid end2 len E idxA idxB e : Nat}

lemma Task.Runs.congr (h : Runs env init arr start1 mid end2)
    (hsame : ∀ i, start1 ≤ i ∧ i < end2 → arr' i = arr i) :
    Runs env init arr' start1 mid end2 ∧
      merged env arr' start1 mid end2 = merged env arr start1 mid end2 := by
  obtain ⟨hsm, hme, hleft, hright⟩ := h
  refine ⟨⟨hsm, hme, hleft.congr fun i hi => hsame i ⟨hi.1, by omega⟩,
    hright.congr fun i hi => hsame i ⟨by omega, hi.2⟩⟩, ?_⟩
  rw [merged, slice_congr_on hsame (le_refl _) (by omega), slice_congr_on hsame hsm (by omega)]
  rfl

lemma Task.Ok.congr (h : t.Ok env init m) (harr : ∀ i, t.Touches i → m'.arr i = m.arr i)
    (hscratch : ∀ i, t.Touches i → m'.scratch i = m.scratch i) : t.Ok env init m' := by
  cases t with
  | chunk start len =>
    have hslice : slice m'.arr start len = slice m.arr start len :=
      slice_congr_on harr (le_refl _) (le_refl _)
    exact hslice.trans h
  | merge start1 mid end2 idxA idxB =>
    obtain ⟨hruns, hA, hB, hout⟩ := h
    obtain ⟨hruns', hmerged⟩ := hruns.congr harr
    obtain ⟨hsm, hme, -, -⟩ := hruns
    have hscr : slice m'.scratch start1 (idxA + idxB) = slice m.scratch start1 (idxA + idxB) :=
      slice_congr_on hscratch (le_refl _) (show start1 + (idxA + idxB) ≤ end2 by omega)
    refine ⟨hruns', hA, hB, ?_⟩
    rw [hmerged, hscr, slice_congr_on harr (show start1 ≤ start1 + idxA by omega)
      (show start1 + idxA + (mid - start1 - idxA) ≤ end2 by omega),
      slice_congr_on harr (show start1 ≤ mid + idxB by omega)
      (show mid + idxB + (end2 - mid - idxB) ≤ end2 by omega)]
    exact hout
  | copyBack start1 mid end2 =>
    obtain ⟨hruns, hout⟩ := h
    obtain ⟨hruns', hmerged⟩ := hruns.congr harr
    obtain ⟨hsm, hme, -, -⟩ := hruns
    have hscr : slice m'.scratch start1 ((mid - start1) + (end2 - mid)) =
        slice m.scratch start1 ((mid - start1) + (end2 - mid)) :=
      slice_congr_on hscratch (le_refl _)
        (show start1 + ((mid - start1) + (end2 - mid)) ≤ end2 by omega)
    exact ⟨hruns', (hscr.trans hout).trans hmerged.symm⟩

lemma SortedIn.empty (h : high ≤ low) : SortedIn env init arr low high := by
  rw [SortedIn, Nat.sub_eq_zero_of_le h]
  exact .of_sorted List.Pairwise.nil

/-! ## One step of a task -/

/-- The comparator is an order, and the sequential sort is the stable one. -/
structure Env.Lawful (env : Env size) : Prop where
  order : TotalPreorder env.compar
  stable : ∀ xs, StableOf env.compar xs (env.stableSort xs)

/-- The task is done, or goes on, with the same range. -/
def Goes (env : Env size) (init : Nat → Elem size) (m : Memory (Elem size)) (t : Task) :
    Option Task → Prop
  | none => SortedIn env init m.arr t.lo t.hi
  | some u => u.lo = t.lo ∧ u.hi = t.hi ∧ u.Ok env init m

lemma taskStep_chunk {start len : Nat} (henv : env.Lawful)
    (h : (Task.chunk start len).Ok env init m) :
    Goes env init (taskStep env m (.chunk start len)).1 (.chunk start len)
      (taskStep env m (.chunk start len)).2 := by
  have hst := henv.stable (slice m.arr start len)
  have hlen : (env.stableSort (slice m.arr start len)).length = len := by
    rw [(hst.perm henv.order).length_eq, length_slice]
  have hrange : start + len - start = len := Nat.add_sub_cancel_left ..
  rw [taskStep]
  split
  · change SortedIn env init (overwrite m.arr start _) start (start + len)
    rw [SortedIn, hrange, slice_overwrite hlen, ← h]
    exact hst
  · next hone =>
    change SortedIn env init m.arr start (start + len)
    rw [SortedIn, hrange, h]
    refine .of_sorted (pairwise_slice.mpr fun i k hi hik hk => ?_)
    omega

lemma copyRest_slice (hA : idxA ≤ mid - start1) (hB : idxB ≤ end2 - mid)
    (hend : ¬ (idxA < mid - start1 ∧ idxB < end2 - mid)) :
    slice (copyRest m start1 mid end2 idxA idxB).scratch start1 ((mid - start1) + (end2 - mid)) =
      slice m.scratch start1 (idxA + idxB) ++
        (slice m.arr (start1 + idxA) (mid - start1 - idxA)).merge
          (slice m.arr (mid + idxB) (end2 - mid - idxB)) (inOrder env.compar) := by
  rw [copyRest]
  by_cases hlt : idxA < mid - start1
  · rw [if_pos hlt, if_neg (by omega), show end2 - mid - idxB = 0 by omega, slice_zero, merge_right,
      show (mid - start1) + (end2 - mid) = (idxA + idxB) + (mid - start1 - idxA) by omega]
    exact slice_overwrite_append length_slice
  · rw [if_neg hlt, show mid - start1 - idxA = 0 by omega, slice_zero, nil_merge,
      show (mid - start1) + (end2 - mid) = (idxA + idxB) + (end2 - mid - idxB) by omega]
    by_cases hlt' : idxB < end2 - mid
    · rw [if_pos hlt']
      exact slice_overwrite_append length_slice
    · rw [if_neg hlt', show end2 - mid - idxB = 0 by omega, slice_zero, append_nil]
      rfl

lemma taskStep_merge (h : (Task.merge start1 mid end2 idxA idxB).Ok env init m) :
    Goes env init (taskStep env m (.merge start1 mid end2 idxA idxB)).1
      (.merge start1 mid end2 idxA idxB) (taskStep env m (.merge start1 mid end2 idxA idxB)).2 := by
  obtain ⟨hruns, hA, hB, hout⟩ := h
  rw [taskStep]
  split
  · next hboth =>
    -- the first elements of what is left of the runs
    have hleft : slice m.arr (start1 + idxA) (mid - start1 - idxA) =
        m.arr (start1 + idxA) :: slice m.arr (start1 + (idxA + 1)) (mid - start1 - (idxA + 1)) := by
      rw [show mid - start1 - idxA = (mid - start1 - (idxA + 1)) + 1 by omega, slice_succ, add_assoc]
    have hright : slice m.arr (mid + idxB) (end2 - mid - idxB) =
        m.arr (mid + idxB) :: slice m.arr (mid + (idxB + 1)) (end2 - mid - (idxB + 1)) := by
      rw [show end2 - mid - idxB = (end2 - mid - (idxB + 1)) + 1 by omega, slice_succ, add_assoc]
    dsimp only
    split
    · next hle =>
      rw [hleft, hright, cons_merge_cons_pos _ _ _ (decide_eq_true hle), ← hright] at hout
      refine ⟨rfl, rfl, hruns, hboth.1, hB, ?_⟩
      rw [← hout, show idxA + 1 + idxB = (idxA + idxB) + 1 by omega,
        slice_overwrite_append (length_singleton), append_assoc, singleton_append]
    · next hle =>
      rw [hleft, hright, cons_merge_cons_neg _ _ _ (by simpa [inOrder] using hle), ← hleft]
        at hout
      refine ⟨rfl, rfl, hruns, hA, hboth.2, ?_⟩
      rw [← hout, show idxA + (idxB + 1) = (idxA + idxB) + 1 by omega,
        slice_overwrite_append (length_singleton), append_assoc, singleton_append]
  · next hend =>
    exact ⟨rfl, rfl, hruns, (copyRest_slice hA hB hend).trans hout⟩

lemma taskStep_copyBack (hord : TotalPreorder env.compar)
    (h : (Task.copyBack start1 mid end2).Ok env init m) :
    Goes env init (taskStep env m (.copyBack start1 mid end2)).1 (.copyBack start1 mid end2)
      (taskStep env m (.copyBack start1 mid end2)).2 := by
  obtain ⟨⟨hsm, hme, hleft, hright⟩, hout⟩ := h
  have hlen : end2 - start1 = (mid - start1) + (end2 - mid) := by omega
  change SortedIn env init (overwrite m.arr start1 _) start1 end2
  rw [SortedIn, hlen, slice_overwrite length_slice, hout, slice_add, Nat.add_sub_cancel' hsm]
  exact hleft.merge hord hright

lemma taskStep_goes (henv : env.Lawful) (h : t.Ok env init m) :
    Goes env init (taskStep env m t).1 t (taskStep env m t).2 := by
  cases t with
  | chunk => exact taskStep_chunk henv h
  | merge => exact taskStep_merge h
  | copyBack => exact taskStep_copyBack henv.order h

lemma taskStep_outside (henv : env.Lawful) (h : t.Ok env init m) (hout : ¬ t.Touches i) :
    (taskStep env m t).1.arr i = m.arr i ∧ (taskStep env m t).1.scratch i = m.scratch i := by
  cases t with
  | chunk start len =>
    have hlen : (env.stableSort (slice m.arr start len)).length = len := by
      rw [((henv.stable _).perm henv.order).length_eq, length_slice]
    replace hout : ¬ (start ≤ i ∧ i < start + len) := hout
    rw [taskStep]
    split
    · exact ⟨overwrite_outside (by rw [hlen]; omega), rfl⟩
    · exact ⟨rfl, rfl⟩
  | merge start1 mid end2 idxA idxB =>
    obtain ⟨⟨hsm, hme, -, -⟩, hA, hB, -⟩ := h
    replace hout : ¬ (start1 ≤ i ∧ i < end2) := hout
    rw [taskStep]
    split
    · dsimp only
      split
      · exact ⟨rfl, overwrite_outside (by rw [length_singleton]; omega)⟩
      · exact ⟨rfl, overwrite_outside (by rw [length_singleton]; omega)⟩
    · refine ⟨rfl, ?_⟩
      dsimp only [copyRest]
      split
      · split
        · omega
        · exact overwrite_outside (by rw [length_slice]; omega)
      · split
        · exact overwrite_outside (by rw [length_slice]; omega)
        · rfl
  | copyBack start1 mid end2 =>
    obtain ⟨⟨hsm, hme, -, -⟩, -⟩ := h
    replace hout : ¬ (start1 ≤ i ∧ i < end2) := hout
    exact ⟨overwrite_outside (by rw [length_slice]; omega), rfl⟩

/-! ## A level -/

/-- The ranges do not overlap. -/
def Apart (t u : Task) : Prop := ∀ i, ¬ (t.Touches i ∧ u.Touches i)

lemma Apart.symm (h : Apart t u) : Apart u t := fun i hi => h i ⟨hi.2, hi.1⟩

/-- Of the runs of `w` chunks, those that start before chunk `i` are sorted or in work; the tasks
are at work on these runs. -/
structure Cover (env : Env size) (init : Nat → Elem size) (chunks w i : Nat)
    (m : Memory (Elem size)) (ts : List Task) : Prop where
  runs : ∀ j, w ∣ j → j < i → SortedIn env init m.arr (bound env chunks j) (bound env chunks (j + w)) ∨
    ∃ t ∈ ts, t.lo = bound env chunks j ∧ t.hi = bound env chunks (j + w)
  block : ∀ t ∈ ts, ∃ j, w ∣ j ∧ j < i ∧ t.lo = bound env chunks j ∧ t.hi = bound env chunks (j + w)
  apart : ts.Pairwise Apart
  ok : ∀ t ∈ ts, t.Ok env init m

/-- The runs of `w` chunks from chunk `i` on are sorted. -/
def Rest (env : Env size) (init arr : Nat → Elem size) (chunks w i : Nat) : Prop :=
  ∀ j, w ∣ j → i ≤ j → j < chunks →
    SortedIn env init arr (bound env chunks j) (bound env chunks (j + w))

variable (env chunks) in
lemma bound_mono (h : j ≤ k) : bound env chunks j ≤ bound env chunks k :=
  Nat.div_le_div_right (Nat.mul_le_mul_right _ h)

lemma bound_zero : bound env chunks 0 = 0 := by
  rw [bound, Nat.zero_mul, Nat.zero_div]

lemma bound_all (h : 0 < chunks) : bound env chunks chunks = env.nmemb :=
  Nat.mul_div_cancel_left _ h

/-- Runs that start with different chunks do not overlap. -/
lemma blocks_apart (hj : w ∣ j) (hk : w ∣ k) (hne : j ≠ k)
    (hlow : bound env chunks j ≤ i ∧ i < bound env chunks (j + w)) :
    ¬ (bound env chunks k ≤ i ∧ i < bound env chunks (k + w)) := by
  have hstep : ∀ {a b : Nat}, w ∣ a → w ∣ b → a < b → a + w ≤ b := by
    intro a b ha hb hab
    have hle := Nat.le_of_dvd (by omega) (Nat.dvd_sub hb ha)
    omega
  rintro ⟨hk1, hk2⟩
  rcases Nat.lt_or_gt_of_ne hne with hlt | hlt
  · have := bound_mono env chunks (hstep hj hk hlt)
    omega
  · have := bound_mono env chunks (hstep hk hj hlt)
    omega

namespace Cover

lemma perm (h : Cover env init chunks w i m ts) (hp : ts.Perm us) :
    Cover env init chunks w i m us := by
  refine ⟨fun j hj hji => ?_, fun t ht => h.block t (hp.mem_iff.mpr ht),
    (hp.pairwise_iff Apart.symm).mp h.apart, fun t ht => h.ok t (hp.mem_iff.mpr ht)⟩
  obtain hs | ⟨t, ht, hrange⟩ := h.runs j hj hji
  · exact .inl hs
  · exact .inr ⟨t, hp.mem_iff.mp ht, hrange⟩

lemma step (henv : env.Lawful) (h : Cover env init chunks w i m (t :: ts)) :
    Cover env init chunks w i (taskStep env m t).1 ((taskStep env m t).2.toList ++ ts) := by
  have hok := h.ok t (mem_cons_self ..)
  have hgoes := taskStep_goes henv hok
  have hout : ∀ i, ¬ t.Touches i → _ := fun i hi => taskStep_outside (i := i) henv hok hi
  obtain ⟨j0, hj0, hj₀i, hlo, hhi⟩ := h.block t (mem_cons_self ..)
  have hothers : ∀ u ∈ ts, u.Ok env init (taskStep env m t).1 := by
    intro u hu
    have hapart := rel_of_pairwise_cons h.apart hu
    exact (h.ok u (mem_cons_of_mem _ hu)).congr
      (fun i hi => (hout i fun ht => hapart i ⟨ht, hi⟩).1)
      (fun i hi => (hout i fun ht => hapart i ⟨ht, hi⟩).2)
  -- the task after the step has the range it had
  have hnext : ∀ u ∈ (taskStep env m t).2.toList,
      u.lo = t.lo ∧ u.hi = t.hi ∧ u.Ok env init (taskStep env m t).1 := by
    intro u hu
    rw [Option.mem_toList] at hu
    rw [hu] at hgoes
    exact hgoes
  refine ⟨fun j hj hji => ?_, fun u hu => ?_, ?_, fun u hu => ?_⟩
  · by_cases hsame : j = j0
    · subst hsame
      rw [← hlo, ← hhi]
      cases hr : (taskStep env m t).2 with
      | none =>
        rw [hr] at hgoes
        exact .inl hgoes
      | some u =>
        rw [hr] at hgoes
        exact .inr ⟨u, by simp, hgoes.1, hgoes.2.1⟩
    · have hkept : ∀ i, bound env chunks j ≤ i ∧ i < bound env chunks (j + w) →
          (taskStep env m t).1.arr i = m.arr i := by
        intro i hi
        refine (hout i fun ht => ?_).1
        rw [Task.Touches, hlo, hhi] at ht
        exact blocks_apart hj hj0 hsame hi ht
      obtain hs | ⟨u, hu, hrange⟩ := h.runs j hj hji
      · exact .inl (hs.congr hkept)
      · rcases mem_cons.mp hu with rfl | hu
        · -- two runs with the same ends are empty
          refine .inl (.empty (Nat.le_of_not_lt fun hlt => ?_))
          rw [hrange.1] at hlo
          rw [hrange.2] at hhi
          exact blocks_apart hj hj0 hsame ⟨le_refl _, hlt⟩ ⟨hlo.symm.le, hhi ▸ hlt⟩
        · exact .inr ⟨u, mem_append_right _ hu, hrange⟩
  · rcases mem_append.mp hu with hu | hu
    · obtain ⟨hulo, huhi, -⟩ := hnext u hu
      exact ⟨j0, hj0, hj₀i, hulo.trans hlo, huhi.trans hhi⟩
    · exact h.block u (mem_cons_of_mem _ hu)
  · refine pairwise_append.mpr ⟨?_, (pairwise_cons.mp h.apart).2, fun u hu v hv i hi => ?_⟩
    · cases (taskStep env m t).2 <;> simp
    · obtain ⟨hulo, huhi, -⟩ := hnext u hu
      refine rel_of_pairwise_cons h.apart hv i ⟨?_, hi.2⟩
      rw [Task.Touches, ← hulo, ← huhi]
      exact hi.1
  · rcases mem_append.mp hu with hu | hu
    · exact (hnext u hu).2.2
    · exact hothers u hu

/-- The tasks are at work below chunk `i`. -/
lemma rest_step {v : Nat} (henv : env.Lawful)
    (h : Cover env init chunks w i m (t :: ts)) (hi : w ∣ i) (hrest : Rest env init m.arr chunks v i) :
    Rest env init (taskStep env m t).1.arr chunks v i := by
  intro j hj hij hjc
  refine (hrest j hj hij hjc).congr fun x hx => ?_
  refine (taskStep_outside henv (h.ok t (mem_cons_self ..)) fun ht => ?_).1
  obtain ⟨k, hk, hki, -, hhi⟩ := h.block t (mem_cons_self ..)
  have hle : k + w ≤ i := by
    have := Nat.le_of_dvd (by omega) (Nat.dvd_sub hi hk)
    omega
  have hmono := bound_mono env chunks (le_trans hle hij)
  rw [Task.Touches, hhi] at ht
  omega

lemma push (h : Cover env init chunks w i m ts) (hi : w ∣ i) (hlo : t.lo = bound env chunks i)
    (hhi : t.hi = bound env chunks (i + w)) (hok : t.Ok env init m) (hw : 0 < w) :
    Cover env init chunks w (i + w) m (t :: ts) := by
  refine ⟨fun j hj hji => ?_, fun u hu => ?_, pairwise_cons.mpr ⟨fun u hu x hx => ?_, h.apart⟩,
    fun u hu => ?_⟩
  · by_cases hlt : j < i
    · obtain hs | ⟨u, hu, hrange⟩ := h.runs j hj hlt
      · exact .inl hs
      · exact .inr ⟨u, mem_cons_of_mem _ hu, hrange⟩
    · have heq : j = i := by
        by_contra hne
        have := Nat.le_of_dvd (by omega) (Nat.dvd_sub hj hi)
        omega
      exact .inr ⟨t, mem_cons_self .., heq ▸ hlo, heq ▸ hhi⟩
  · rcases mem_cons.mp hu with rfl | hu
    · exact ⟨i, hi, by omega, hlo, hhi⟩
    · obtain ⟨j, hj, hji, hrange⟩ := h.block u hu
      exact ⟨j, hj, by omega, hrange⟩
  · obtain ⟨j, hj, hji, hulo, huhi⟩ := h.block u hu
    rw [Task.Touches, Task.Touches, hlo, hhi, hulo, huhi] at hx
    exact blocks_apart hi hj (by omega) hx.1 hx.2
  · rcases mem_cons.mp hu with rfl | hu
    · exact hok
    · exact h.ok u hu

/-- With no task at work, all is sorted. -/
lemma rest (h : Cover env init chunks w chunks m []) : Rest env init m.arr chunks w 0 := by
  intro j hj _ hjc
  refine (h.runs j hj hjc).resolve_right ?_
  simp

lemma of_rest (h : Rest env init m.arr chunks w 0) : Cover env init chunks w chunks m [] :=
  ⟨fun j hj hjc => .inl (h j hj (Nat.zero_le _) hjc), by simp, List.Pairwise.nil, by simp⟩

end Cover

/-! ## The calling thread -/

def running (s : State (Elem size)) : List Task := s.own.toList ++ s.tasks

/-- What holds where the calling thread is. -/
def Inv (env : Env size) (init : Nat → Elem size) (chunks : Nat) (s : State (Elem size)) : Prop :=
  match s.pc with
  | .launch => running s = [] ∧ s.mem.arr = init
  | .sorting => Cover env init chunks 1 chunks s.mem (running s)
  | .level step =>
    running s = [] ∧ (∃ e, step = 2 ^ e) ∧ step ≤ chunks ∧ Rest env init s.mem.arr chunks step 0
  | .pair step i =>
    (∃ e, step = 2 ^ e) ∧ 2 * step ≤ chunks ∧ 2 * step ∣ i ∧ i ≤ chunks ∧
      Cover env init chunks (2 * step) i s.mem (running s) ∧ Rest env init s.mem.arr chunks step i
  | .wait step =>
    (∃ e, step = 2 ^ e) ∧ 2 * step ≤ chunks ∧
      Cover env init chunks (2 * step) chunks s.mem (running s)
  | .done => Cover env init chunks chunks chunks s.mem (running s)

lemma Inv.taskStep (henv : env.Lawful) (h : Inv env init chunks s)
    (hrun : (running s).Perm (t :: others)) (hpc : s'.pc = s.pc)
    (hmem : s'.mem = (taskStep env s.mem t).1)
    (hrun' : (running s').Perm ((taskStep env s.mem t).2.toList ++ others)) :
    Inv env init chunks s' := by
  rw [Inv] at h ⊢
  rw [hpc, hmem]
  cases hp : s.pc with
  | sorting =>
    rw [hp] at h
    exact ((h.perm hrun).step henv).perm hrun'.symm
  | launch | level step =>
    rw [hp] at h
    rw [h.1] at hrun
    cases hrun.nil_eq
  | pair step i =>
    rw [hp] at h
    obtain ⟨hpow, hle, hdvd, hic, hcover, hrest⟩ := h
    have hcover' := hcover.perm hrun
    exact ⟨hpow, hle, hdvd, hic, (hcover'.step henv).perm hrun'.symm,
      hcover'.rest_step henv hdvd hrest⟩
  | wait step =>
    rw [hp] at h
    obtain ⟨hpow, hle, hcover⟩ := h
    exact ⟨hpow, hle, ((hcover.perm hrun).step henv).perm hrun'.symm⟩
  | done =>
    rw [hp] at h
    exact ((h.perm hrun).step henv).perm hrun'.symm

lemma two_mul_le_of_lt (h : 2 ^ e < 2 ^ E) : 2 * 2 ^ e ≤ 2 ^ E := by
  rw [← Nat.pow_succ']
  exact Nat.pow_le_pow_right (by omega) ((Nat.pow_lt_pow_iff_right (by omega)).mp h)

lemma dvd_of_le (h : 2 ^ e ≤ 2 ^ E) : 2 ^ e ∣ 2 ^ E :=
  Nat.pow_dvd_pow 2 ((Nat.pow_le_pow_iff_right (by omega)).mp h)

lemma mergeTask_ok {step : Nat} (hrest : Rest env init m.arr chunks step i) (hstep : step ∣ i)
    (hpos : 0 < step) (hle : i + 2 * step ≤ chunks) :
    (mergeTask env chunks step i).lo = bound env chunks i ∧
    (mergeTask env chunks step i).hi = bound env chunks (i + 2 * step) ∧
    (mergeTask env chunks step i).Ok env init m := by
  have hend : (if i + 2 * step < chunks then bound env chunks (i + 2 * step) else env.nmemb) =
      bound env chunks (i + 2 * step) := by
    split
    · rfl
    · rw [show i + 2 * step = chunks by omega, bound_all (by omega)]
  rw [mergeTask, hend]
  have hleft := hrest i hstep (le_refl _) (by omega)
  have hright := hrest (i + step) (Nat.dvd_add hstep (Nat.dvd_refl _)) (by omega) (by omega)
  rw [show i + step + step = i + 2 * step by omega] at hright
  refine ⟨rfl, rfl, ⟨bound_mono env chunks (by omega), bound_mono env chunks (by omega), hleft, hright⟩,
    Nat.zero_le _, Nat.zero_le _, ?_⟩
  simp [Task.merged]

lemma cover_chunks (m : Memory (Elem size)) (chunks : Nat) :
    Cover env m.arr chunks 1 chunks m (chunkTasks env chunks) := by
  have hhi : ∀ k, bound env chunks k + (bound env chunks (k + 1) - bound env chunks k) =
      bound env chunks (k + 1) := fun k => Nat.add_sub_cancel' (bound_mono env chunks (Nat.le_succ k))
  refine ⟨fun j _ hj => .inr ⟨_, mem_map_of_mem (mem_range.mpr hj), rfl, hhi j⟩, fun t ht => ?_,
    ?_, fun t ht => ?_⟩
  · obtain ⟨k, hk, rfl⟩ := mem_map.mp ht
    exact ⟨k, Nat.one_dvd _, mem_range.mp hk, rfl, hhi k⟩
  · refine pairwise_map.mpr (pairwise_lt_range.imp fun {j k} hjk i hi => ?_)
    rw [Task.Touches, Task.Touches] at hi
    simp only [Task.lo, Task.hi, hhi] at hi
    exact blocks_apart (Nat.one_dvd j) (Nat.one_dvd k) (ne_of_lt hjk) hi.1 hi.2
  · obtain ⟨k, -, rfl⟩ := mem_map.mp ht
    rfl

/-- The calling thread moves, and its allocations succeed. -/
lemma Inv.callerStep {submit : Bool} (hchunks : chunks = 2 ^ E) (h : Inv env init chunks s)
    (hown : s.own = none) (hstep : callerStep env chunks s true true submit = some s') :
    Inv env init chunks s' := by
  have hrun : running s = s.tasks := by rw [running, hown]; rfl
  rw [Inv] at h
  rw [ParallelStableSort.callerStep] at hstep
  cases hp : s.pc with
  | launch =>
    rw [hp] at h hstep
    obtain ⟨hnone, rfl⟩ := h
    cases hstep
    change Cover env s.mem.arr chunks 1 chunks s.mem (chunkTasks env chunks ++ s.tasks)
    rw [hrun] at hnone
    rw [hnone, append_nil]
    exact cover_chunks s.mem chunks
  | sorting =>
    rw [hp] at h hstep
    dsimp only at hstep
    split at hstep
    · next htasks =>
      cases hstep
      rw [hrun, htasks] at h
      exact ⟨htasks, ⟨0, rfl⟩, hchunks ▸ Nat.one_le_two_pow, h.rest⟩
    · cases hstep
  | level step =>
    rw [hp] at h hstep
    obtain ⟨hnone, ⟨e, rfl⟩, hle, hrest⟩ := h
    rw [hrun] at hnone
    dsimp only at hstep
    split at hstep
    · next hlt =>
      cases hstep
      subst hchunks
      refine ⟨⟨e, rfl⟩, two_mul_le_of_lt hlt, Nat.dvd_zero _, Nat.zero_le _, ?_, hrest⟩
      rw [running]
      exact ⟨by simp, by simp [hnone], by simp [hnone], by simp [hnone]⟩
    · next hge =>
      cases hstep
      obtain heq : 2 ^ e = chunks := by omega
      rw [heq] at hrest
      change Cover env init chunks chunks chunks s.mem s.tasks
      rw [hnone]
      exact .of_rest hrest
  | pair step i =>
    rw [hp] at h hstep
    obtain ⟨⟨e, rfl⟩, hle, hdvd, hic, hcover, hrest⟩ := h
    rw [hrun] at hcover
    have hpos : 0 < 2 ^ e := Nat.two_pow_pos e
    dsimp only at hstep
    split at hstep
    · next hlt =>
      have hnext : i + 2 * 2 ^ e ≤ chunks := by
        have hdvd' : 2 * 2 ^ e ∣ chunks := by
          subst hchunks
          rw [← Nat.pow_succ'] at hle ⊢
          exact dvd_of_le hle
        have := Nat.le_of_dvd (by omega) (Nat.dvd_sub hdvd' hdvd)
        omega
      obtain ⟨hlo, hhi, hok⟩ := mergeTask_ok hrest (Nat.dvd_trans (Nat.dvd_mul_left _ 2) hdvd) hpos hnext
      have hpush := hcover.push hdvd hlo hhi hok (by omega)
      have hrest' : Rest env init s.mem.arr chunks (2 ^ e) (i + 2 * 2 ^ e) :=
        fun j hj hij hjc => hrest j hj (by omega) hjc
      rw [if_pos (by omega), if_pos rfl] at hstep
      -- the pool takes the task, or the caller runs it
      cases submit <;> cases hstep <;>
        exact ⟨⟨e, rfl⟩, hle, Nat.dvd_add hdvd (Nat.dvd_refl _), hnext, hpush, hrest'⟩
    · next hge =>
      cases hstep
      obtain rfl : i = chunks := by omega
      exact ⟨⟨e, rfl⟩, hle, hcover⟩
  | wait step =>
    rw [hp] at h hstep
    obtain ⟨⟨e, rfl⟩, hle, hcover⟩ := h
    dsimp only at hstep
    split at hstep
    · next htasks =>
      cases hstep
      rw [hrun, htasks] at hcover
      refine ⟨htasks, ⟨e + 1, (pow_succ ..).symm⟩, by omega, ?_⟩
      rw [mul_comm]
      exact hcover.rest
    · cases hstep
  | done =>
    rw [hp] at hstep
    cases hstep

/-! ## Runs -/

lemma machine_step {a : Action} :
    (machine env m).step s a = step env (numChunks env.nmemb env.numThreads) s a := rfl

/-- What a step is: a move of the calling thread, or one of a task that is running. -/
lemma step_cases {a : Action} (hstep : step env chunks s a = some s') :
    (∃ waitgroup alloc submit, a = .caller waitgroup alloc submit ∧ s.own = none ∧
      callerStep env chunks s waitgroup alloc submit = some s') ∨
    ∃ t others, (running s).Perm (t :: others) ∧ s'.pc = s.pc ∧ s'.mem = (taskStep env s.mem t).1 ∧
      (running s').Perm ((taskStep env s.mem t).2.toList ++ others) := by
  cases a with
  | caller waitgroup alloc submit =>
    cases hown : s.own with
    | none =>
      rw [step, hown] at hstep
      exact .inl ⟨waitgroup, alloc, submit, rfl, rfl, hstep⟩
    | some t =>
      rw [step, hown] at hstep
      cases hstep
  | own =>
    cases hown : s.own with
    | none =>
      rw [step, hown] at hstep
      cases hstep
    | some t =>
      rw [step, hown] at hstep
      cases hstep
      exact .inr ⟨t, s.tasks, by rw [running, hown]; rfl, rfl, rfl, .refl _⟩
  | task k =>
    rw [step] at hstep
    split at hstep
    · cases hstep
    · next t htask =>
      cases hstep
      obtain ⟨hlt, hget⟩ := List.getElem?_eq_some_iff.mp htask
      have hcut : s.tasks = s.tasks.take k ++ t :: s.tasks.drop (k + 1) := by
        rw [← hget, getElem_cons_drop, take_append_drop]
      refine .inr ⟨t, s.own.toList ++ (s.tasks.take k ++ s.tasks.drop (k + 1)), ?_, rfl, rfl, ?_⟩
      · conv_lhs => rw [running, hcut]
        rw [perm_iff_count]
        intro x
        simp only [count_append, count_cons]
        omega
      · rw [running, perm_iff_count]
        intro x
        simp only [count_append]
        omega

lemma grow_pow (test : Nat → Bool) (turns e : Nat) : ∃ e', grow test turns (2 ^ e) = 2 ^ e' := by
  induction turns generalizing e with
  | zero => exact ⟨e, rfl⟩
  | succ turns ih =>
    rw [grow]
    split
    · rw [← pow_succ]
      exact ih (e + 1)
    · exact ⟨e, rfl⟩

lemma numChunks_pow (nmemb numThreads : Nat) : ∃ e, numChunks nmemb numThreads = 2 ^ e := by
  rw [numChunks]
  obtain ⟨e, he⟩ := grow_pow (fun k => k < numThreads * 2) 6 0
  have hk : ∃ e', (if 2 ^ e < 2 then 2 else 2 ^ e) = 2 ^ e' := by
    split
    · exact ⟨1, rfl⟩
    · exact ⟨e, rfl⟩
  simp only [pow_zero] at he
  obtain ⟨e', he'⟩ := hk
  rw [he, he']
  split
  · exact grow_pow _ 6 0
  · exact ⟨e', rfl⟩

lemma numChunks_pos (nmemb numThreads : Nat) : 0 < numChunks nmemb numThreads := by
  obtain ⟨e, hpow⟩ := numChunks_pow nmemb numThreads
  exact hpow ▸ Nat.two_pow_pos e

lemma cover_whole (m : Memory (Elem size)) (hpos : 0 < chunks) :
    Cover env m.arr chunks chunks chunks m [.chunk 0 env.nmemb] := by
  have hnone : Cover env m.arr chunks chunks 0 m [] :=
    ⟨fun j _ hj => absurd hj (Nat.not_lt_zero _), by simp, List.Pairwise.nil, by simp⟩
  have hall : 0 + env.nmemb = bound env chunks (0 + chunks) := by
    rw [zero_add, zero_add, bound_all hpos]
  have hpush := hnone.push (t := .chunk 0 env.nmemb) (Nat.dvd_zero _) bound_zero.symm hall rfl hpos
  rwa [zero_add] at hpush

lemma inv_start (hord : TotalPreorder env.compar) (m : Memory (Elem size)) (hasScratch : Bool) :
    Inv env m.arr (numChunks env.nmemb env.numThreads) (start env m hasScratch) := by
  have hpos := numChunks_pos env.nmemb env.numThreads
  rw [start]
  split
  · next hnone =>
    have hsorted : (slice m.arr 0 env.nmemb).Pairwise fun x y => env.compar x y ≤ 0 := by
      refine pairwise_slice.mpr fun i k _ hik hk => ?_
      rcases hnone with hone | hsize
      · omega
      · -- all elements without bytes are the same
        subst hsize
        rw [Subsingleton.elim (m.arr i) (m.arr k)]
        exact hord.refl _
    refine Cover.of_rest fun j hj _ hjc => ?_
    obtain rfl : j = 0 := Nat.eq_zero_of_dvd_of_lt hj hjc
    rw [bound_zero, zero_add, bound_all hpos]
    exact .of_sorted hsorted
  · split
    · exact cover_whole m hpos
    · split
      · exact ⟨rfl, rfl⟩
      · exact cover_whole m hpos

lemma inv_of_reach (henv : env.Lawful) (hreach : (machine env m).ReachVia (Granted false false) s) :
    Inv env m.arr (numChunks env.nmemb env.numThreads) s := by
  obtain ⟨e, hpow⟩ := numChunks_pow env.nmemb env.numThreads
  refine hreach.invariant (Inv env m.arr (numChunks env.nmemb env.numThreads)) ?_ ?_
  · rintro s ⟨hasScratch, rfl⟩
    exact inv_start henv.order m hasScratch
  · intro s s' a hinv hgranted hstep
    obtain ⟨waitgroup, alloc, submit, rfl, hown, hcaller⟩ | ⟨t, others, hrun, hpc, hmem, hrun'⟩ :=
      step_cases hstep
    · obtain rfl : waitgroup = true := hgranted.1.resolve_left Bool.false_ne_true
      obtain rfl : alloc = true := hgranted.2.resolve_left Bool.false_ne_true
      exact hinv.callerStep hpow hown hcaller
    · exact hinv.taskStep henv hrun hpc hmem hrun'

/-! ## Every run ends -/

def Task.weight : Task → Nat
  | .chunk .. => 1
  | .merge start1 mid end2 idxA idxB => (mid - start1 - idxA) + (end2 - mid - idxB) + 2
  | .copyBack .. => 1

def weight (ts : List Task) : Nat := (ts.map Task.weight).sum

/-- The levels left, the moves left in the level, and the steps left for the tasks. -/
def rank (chunks : Nat) (s : State (Elem size)) : Nat × Nat × Nat :=
  match s.pc with
  | .launch => (chunks + 1, 0, weight (running s))
  | .sorting => (chunks, 0, weight (running s))
  | .level step => (chunks - step, 2 * chunks + 3, weight (running s))
  | .pair step i => (chunks - step, 2 * chunks + 2 - i, weight (running s))
  | .wait step => (chunks - step, 1, weight (running s))
  | .done => (0, 0, weight (running s))

/-- The order in which the ranks go down. -/
abbrev Below : Nat × Nat × Nat → Nat × Nat × Nat → Prop :=
  Prod.Lex (· < ·) (Prod.Lex (· < ·) (· < ·))

lemma weight_taskStep : weight (taskStep env m t).2.toList < t.weight := by
  cases t with
  | chunk start len =>
    rw [taskStep]
    split <;> simp [weight, Task.weight]
  | merge start1 mid end2 idxA idxB =>
    rw [taskStep]
    split
    · dsimp only
      split
      · simp [weight, Task.weight]; omega
      · simp [weight, Task.weight]; omega
    · simp [weight, Task.weight]
  | copyBack start1 mid end2 => simp [taskStep, weight, Task.weight]

lemma rank_taskStep (hrun : (running s).Perm (t :: others)) (hpc : s'.pc = s.pc)
    (hrun' : (running s').Perm ((taskStep env s.mem t).2.toList ++ others)) :
    Below (rank chunks s') (rank chunks s) := by
  have hlt : weight (running s') < weight (running s) := by
    have hw : weight (running s') = weight (taskStep env s.mem t).2.toList + weight others := by
      rw [weight, (hrun'.map _).sum_eq, map_append, sum_append]
      rfl
    have hw' : weight (running s) = t.weight + weight others := by
      rw [weight, (hrun.map _).sum_eq, map_cons, sum_cons]
      rfl
    have hdown : weight (taskStep env s.mem t).2.toList < t.weight := weight_taskStep
    omega
  rw [rank, rank, hpc]
  cases s.pc <;> exact .right _ (.right _ hlt)

lemma rank_callerStep {waitgroup alloc submit : Bool} (hpos : 0 < chunks)
    (hinv : Inv env init chunks s)
    (hstep : callerStep env chunks s waitgroup alloc submit = some s') :
    Below (rank chunks s') (rank chunks s) := by
  rw [Inv] at hinv
  rw [callerStep] at hstep
  rw [rank, rank]
  cases hp : s.pc with
  | launch =>
    rw [hp] at hstep
    dsimp only at hstep
    split at hstep <;> cases hstep
    · exact .left _ _ (Nat.lt_succ_self _)
    · exact .left _ _ (by omega)
  | sorting =>
    rw [hp] at hstep
    dsimp only at hstep
    split at hstep
    · cases hstep
      exact .left _ _ (Nat.sub_lt hpos Nat.one_pos)
    · cases hstep
  | level step =>
    rw [hp] at hstep
    -- behind the loops there are no levels left
    have hdone : ∀ w w', Below (0, 0, w) (chunks - step, 2 * chunks + 3, w') := by
      intro w w'
      rcases Nat.eq_zero_or_pos (chunks - step) with hzero | hlt
      · rw [hzero]
        exact .right _ (.left _ _ (by omega))
      · exact .left _ _ hlt
    dsimp only at hstep
    split at hstep
    · split at hstep
      · cases hstep
        exact .right _ (.left _ _ (by omega))
      · cases hstep
        exact hdone _ _
    · cases hstep
      exact hdone _ _
  | pair step i =>
    rw [hp] at hinv hstep
    obtain ⟨⟨e, rfl⟩, -, -, hic, -, -⟩ := hinv
    have hstep0 : 0 < 2 ^ e := Nat.two_pow_pos e
    dsimp only at hstep
    split at hstep
    · have hnext : s'.pc = .pair (2 ^ e) (i + 2 * 2 ^ e) := by
        split at hstep
        · split at hstep
          · split at hstep <;> cases hstep <;> rfl
          · cases hstep
            rfl
        · cases hstep
          rfl
      rw [hnext]
      exact .right _ (.left _ _ (by omega))
    · cases hstep
      exact .right _ (.left _ _ (by omega))
  | wait step =>
    rw [hp] at hinv hstep
    obtain ⟨⟨e, rfl⟩, hle, -⟩ := hinv
    have hstep0 : 0 < 2 ^ e := Nat.two_pow_pos e
    dsimp only at hstep
    split at hstep
    · cases hstep
      exact .left _ _ (by omega)
    · cases hstep
  | done =>
    rw [hp] at hstep
    cases hstep

lemma rank_step (henv : env.Lawful) (s s' : State (Elem size)) (a : Action)
    (hreach : (machine env m).ReachVia (Granted false false) s)
    (hstep : (machine env m).step s a = some s') :
    Below (rank (numChunks env.nmemb env.numThreads) s')
      (rank (numChunks env.nmemb env.numThreads) s) := by
  obtain ⟨_, _, _, -, -, hcaller⟩ | ⟨t, others, hrun, hpc, -, hrun'⟩ := step_cases hstep
  · exact rank_callerStep (numChunks_pos ..) (inv_of_reach henv hreach) hcaller
  · exact rank_taskStep hrun hpc hrun'

lemma ends (henv : env.Lawful) :
    ¬ ∃ f : Nat → State (Elem size), (machine env m).init (f 0) ∧
      ∀ k, ∃ a, Granted false false (f k) a ∧ (machine env m).step (f k) a = some (f (k + 1)) :=
  Machine.not_endless IsWellFounded.wf _ (rank_step henv)

/-! ## The main result -/

/-- A call that is not over goes on, where its allocations succeed too. -/
lemma exists_move (noWaitgroup noTask : Bool) (h : ¬ Finished s) :
    ∃ a, Granted noWaitgroup noTask s a ∧ (step env chunks s a).isSome := by
  cases hown : s.own with
  | some t =>
    refine ⟨.own, trivial, ?_⟩
    rw [step, hown]
    rfl
  | none =>
    cases htasks : s.tasks with
    | cons t ts =>
      refine ⟨.task 0, trivial, ?_⟩
      rw [step, htasks]
      rfl
    | nil =>
      refine ⟨.caller true true true, ⟨.inr rfl, .inr rfl⟩, ?_⟩
      rw [step, hown]
      cases hpc : s.pc with
      | done => exact absurd ⟨hpc, hown, htasks⟩ h
      | launch => simp [callerStep, hpc]
      | sorting | wait step => simp [callerStep, hpc, htasks]
      | level step =>
        simp only [callerStep, hpc]
        split <;> rfl
      | pair step i =>
        simp only [callerStep, hpc]
        split
        · split <;> rfl
        · rfl

lemma right_of_inv (henv : env.Lawful)
    (hinv : Inv env m.arr (numChunks env.nmemb env.numThreads) s) : Right env m s := by
  have hpos := numChunks_pos env.nmemb env.numThreads
  refine ⟨?_, fun hrun => (exists_move false false hrun).imp fun a ha => ha.2⟩
  rintro ⟨hpc, hown, htasks⟩
  rw [Inv, hpc, running, hown, htasks] at hinv
  have hsorted := hinv.rest 0 (Nat.dvd_zero _) (le_refl _) hpos
  rw [bound_zero, zero_add, bound_all hpos] at hsorted
  exact hsorted.unique henv.order (henv.stable _)

lemma correct_of_granted : Correct size false false := by
  rintro env - hord hsort m
  exact ⟨fun s hreach => right_of_inv ⟨hord, hsort⟩ (inv_of_reach ⟨hord, hsort⟩ hreach),
    ends ⟨hord, hsort⟩⟩

/-- Elements without bytes are not touched: the call is over at once. -/
lemma correct_of_empty (noWaitgroup noTask : Bool) : Correct 0 noWaitgroup noTask := by
  rintro env - hord hsort m
  have hstart : ∀ hasScratch, start env m hasScratch = ⟨m, [], none, .done⟩ := by
    intro hasScratch
    rw [start, if_pos (.inr rfl)]
  have hstuck : ∀ a, step env (numChunks env.nmemb env.numThreads) ⟨m, [], none, .done⟩ a = none := by
    intro a
    cases a <;> rfl
  have honly : ∀ s, (machine env m).ReachVia (Granted noWaitgroup noTask) s →
      s = ⟨m, [], none, .done⟩ := by
    intro s hreach
    refine hreach.invariant (fun s => s = ⟨m, [], none, .done⟩) ?_ ?_
    · rintro s ⟨hasScratch, rfl⟩
      exact hstart hasScratch
    · rintro s s' a rfl - hstep
      rw [machine_step, hstuck] at hstep
      cases hstep
  refine ⟨fun s hreach => ?_, ?_⟩
  · obtain rfl := honly s hreach
    have hinv := inv_start hord m true
    rw [hstart] at hinv
    exact right_of_inv ⟨hord, hsort⟩ hinv
  · rintro ⟨f, ⟨hasScratch, hzero⟩, hsteps⟩
    obtain ⟨a, -, hstep⟩ := hsteps 0
    rw [hzero, hstart, machine_step, hstuck] at hstep
    cases hstep

/-! ## What is left out -/

/-- A stable sort that merges one element after the other. -/
def insertEach (compar : Elem size → Elem size → Int) (xs : List (Elem size)) : List (Elem size) :=
  xs.foldr (fun x ys => [x].merge ys (inOrder compar)) []

lemma stableOf_insertEach {compar : Elem size → Elem size → Int} (hord : TotalPreorder compar)
    (xs : List (Elem size)) : StableOf compar xs (insertEach compar xs) := by
  induction xs with
  | nil => exact .of_sorted List.Pairwise.nil
  | cons x xs ih => exact StableOf.merge hord (.of_sorted (pairwise_singleton _ x)) ih

/-- A call with two threads and 4097 elements: there are four chunks. -/
def byteEnv (hsize : 0 < size) : Env size where
  compar := firstByte hsize
  stableSort := insertEach (firstByte hsize)
  nmemb := 4097
  numThreads := 2

/-- The elements of the first chunk are ones, all others are zeros. -/
def onesFirst : Memory (Elem size) := ⟨fun i _ => if i < 1024 then 1 else 0, fun _ _ => 0⟩

/-- A chunk whose elements are all the same stays as it is. -/
lemma taskStep_const {start : Nat} {x : Elem size} (henv : env.Lawful)
    (hconst : ∀ i, start ≤ i → i < start + len → m.arr i = x) :
    taskStep env m (.chunk start len) = (m, none) := by
  have hslice : slice m.arr start len = List.replicate len x := by
    refine eq_replicate_iff.mpr ⟨length_slice, fun y hy => ?_⟩
    obtain ⟨i, hlo, hhi, rfl⟩ := mem_slice.mp hy
    exact hconst i hlo hhi
  have hkept : env.stableSort (slice m.arr start len) = slice m.arr start len := by
    have hperm := (henv.stable (slice m.arr start len)).perm henv.order
    rw [hslice] at hperm ⊢
    exact perm_replicate.mp hperm
  rw [taskStep, hkept, overwrite_slice]
  split <;> rfl

lemma lawful_byteEnv (hsize : 0 < size) : (byteEnv hsize).Lawful :=
  ⟨totalPreorder_firstByte hsize, stableOf_insertEach (totalPreorder_firstByte hsize)⟩

lemma numChunks_byteEnv (hsize : 0 < size) :
    numChunks (byteEnv hsize).nmemb (byteEnv hsize).numThreads = 4 := by
  change numChunks 4097 2 = 4
  decide

/-- The call comes here with the array it was given. -/
def Comes (hsize : 0 < size) (noWaitgroup noTask : Bool) (ts : List Task) (pc : Pc) : Prop :=
  (machine (byteEnv hsize) onesFirst).ReachVia (Granted noWaitgroup noTask) ⟨onesFirst, ts, none, pc⟩

section

variable {hsize : 0 < size} {noWaitgroup noTask : Bool} {pc pc' : Pc}

lemma Comes.caller (waitgroup alloc : Bool) (h : Comes hsize noWaitgroup noTask [] pc)
    (hgranted : (noWaitgroup = true ∨ waitgroup = true) ∧ (noTask = true ∨ alloc = true))
    (hstep : callerStep (byteEnv hsize) 4 ⟨onesFirst, [], none, pc⟩ waitgroup alloc true =
      some ⟨onesFirst, [], none, pc'⟩) : Comes hsize noWaitgroup noTask [] pc' := by
  refine .step (a := .caller waitgroup alloc true) h hgranted ?_
  rw [machine_step, numChunks_byteEnv]
  exact hstep

lemma Comes.chunk {start : Nat} {x : Elem size}
    (h : Comes hsize noWaitgroup noTask (.chunk start len :: ts) pc)
    (hconst : ∀ i, start ≤ i → i < start + len → onesFirst.arr i = x) :
    Comes hsize noWaitgroup noTask ts pc := by
  have hkeep : taskStep (byteEnv hsize) onesFirst (.chunk start len) = (onesFirst, none) :=
    taskStep_const (lawful_byteEnv hsize) hconst
  refine .step (a := .task 0) h trivial ?_
  change some (State.mk (taskStep (byteEnv hsize) onesFirst (.chunk start len)).1
    ([] ++ (taskStep (byteEnv hsize) onesFirst (.chunk start len)).2.toList ++ ts) none pc) = _
  rw [hkeep]
  rfl

lemma comes_level (hsize : 0 < size) (noWaitgroup noTask : Bool) :
    Comes hsize noWaitgroup noTask [] (.level 1) := by
  have hstart : Comes hsize noWaitgroup noTask [.chunk 0 1024, .chunk 1024 1024, .chunk 2048 1024,
      .chunk 3072 1025] .sorting := by
    have hlaunch : Comes hsize noWaitgroup noTask [] .launch := by
      refine .init ⟨true, ?_⟩
      rw [start, numChunks_byteEnv, if_neg (by simp [byteEnv]; omega), if_neg (by simp [byteEnv]),
        if_pos rfl]
    refine .step (a := .caller true true true) hlaunch ⟨.inr rfl, .inr rfl⟩ ?_
    rw [machine_step, numChunks_byteEnv, step, callerStep]
    simp [chunkTasks, bound, byteEnv, range_succ]
  have hzero : ∀ i, 1024 ≤ i → (onesFirst : Memory (Elem size)).arr i = fun _ => 0 := by
    intro i hi
    funext _
    exact if_neg (Nat.not_lt.mpr hi)
  have h1 := hstart.chunk (x := fun _ => 1) fun i _ hi => funext fun _ => if_pos (by omega)
  have h2 := h1.chunk fun i hi _ => hzero i hi
  have h3 := h2.chunk fun i hi _ => hzero i (by omega)
  have h4 := h3.chunk fun i hi _ => hzero i (by omega)
  refine .step (a := .caller true true true) h4 ⟨.inr rfl, .inr rfl⟩ rfl

end

/-- Where a call ends with the array it was given, the result is not sorted. -/
lemma not_correct_of_comes (hsize : 0 < size) {noWaitgroup noTask : Bool}
    (h : Comes hsize noWaitgroup noTask [] .done) : ¬ Correct size noWaitgroup noTask := by
  intro hcorrect
  obtain ⟨hord, hstable⟩ := lawful_byteEnv hsize
  have hright := (hcorrect (byteEnv hsize) (by simp [byteEnv]) hord hstable onesFirst).1 _ h
  have hsorted := (hstable (slice (onesFirst : Memory (Elem size)).arr 0 4097)).sorted
  have heq : slice (onesFirst : Memory (Elem size)).arr 0 4097 =
      (byteEnv hsize).stableSort (slice onesFirst.arr 0 4097) := hright.sorted ⟨rfl, rfl, rfl⟩
  rw [← heq, pairwise_slice] at hsorted
  have hle := hsorted 0 4096 (le_refl _) (by omega) (by omega)
  simp [byteEnv, firstByte, onesFirst] at hle

lemma not_correct_of_noWaitgroup (hsize : 0 < size) (noTask : Bool) : ¬ Correct size true noTask :=
  not_correct_of_comes hsize
    ((comes_level hsize true noTask).caller false true ⟨.inl rfl, .inr rfl⟩ rfl)

lemma not_correct_of_noTask (hsize : 0 < size) (noWaitgroup : Bool) :
    ¬ Correct size noWaitgroup true := by
  have hnext : ∀ {pc pc' : Pc}, Comes hsize noWaitgroup true [] pc →
      callerStep (byteEnv hsize) 4 ⟨onesFirst, [], none, pc⟩ true false true =
        some ⟨onesFirst, [], none, pc'⟩ → Comes hsize noWaitgroup true [] pc' :=
    fun h hstep => h.caller true false ⟨.inr rfl, .inl rfl⟩ hstep
  have h1 : Comes hsize noWaitgroup true [] (.pair 1 0) := hnext (comes_level hsize _ _) rfl
  have h2 : Comes hsize noWaitgroup true [] (.pair 1 2) := hnext h1 rfl
  have h3 : Comes hsize noWaitgroup true [] (.pair 1 4) := hnext h2 rfl
  have h4 : Comes hsize noWaitgroup true [] (.level 2) := hnext (hnext h3 rfl) rfl
  have h5 : Comes hsize noWaitgroup true [] (.pair 2 0) := hnext h4 rfl
  have h6 : Comes hsize noWaitgroup true [] (.pair 2 4) := hnext h5 rfl
  have h7 : Comes hsize noWaitgroup true [] (.level 4) := hnext (hnext h6 rfl) rfl
  exact not_correct_of_comes hsize (hnext h7 rfl)

/-- The parallel sort leaves what the sequential stable sort leaves, whatever the elements, the
comparator, the number of threads, the schedule and the other outcomes are, iff there is always
memory for the wait groups and for the merge tasks. -/
theorem parallelStableSort_correct_iff (size : Nat) (noWaitgroup noTask : Bool) :
    Correct size noWaitgroup noTask ↔ size = 0 ∨ (noWaitgroup = false ∧ noTask = false) := by
  constructor
  · intro hcorrect
    rcases Nat.eq_zero_or_pos size with hzero | hsize
    · exact .inl hzero
    · refine .inr ⟨?_, ?_⟩
      · by_contra hwg
        rw [Bool.not_eq_false] at hwg
        subst hwg
        exact not_correct_of_noWaitgroup hsize noTask hcorrect
      · by_contra htask
        rw [Bool.not_eq_false] at htask
        subst htask
        exact not_correct_of_noTask hsize noWaitgroup hcorrect
  · rintro (rfl | ⟨rfl, rfl⟩)
    · exact correct_of_empty noWaitgroup noTask
    · exact correct_of_granted

theorem parallelStableSort_unsorted : ¬ Correct 1 false true := not_correct_of_noTask Nat.one_pos _

end Cobalt.Sort.ParallelStableSort
