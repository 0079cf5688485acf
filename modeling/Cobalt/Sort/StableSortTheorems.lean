/-
Cobalt.Sort.StableSortTheorems — the adaptive merge sort rearranges, and sorts stably.

The runs on the stack lie one behind the other from the beginning of the array
up to `curr`, and each is the stable sort of what was in its place. A merge of
neighbours, on top or below, keeps this; two neighbours have at most `nmemb`
elements, so the shorter one fits into the scratch buffer. All this holds
whatever the comparator says, except that runs are in order.
-/
import Cobalt.Sort.MergeTheorems
import Cobalt.Sort.QsortTheorems

namespace Cobalt.Sort

open Function (update update_of_ne update_self)

open Prog

variable {σ α : Type} {env : Env σ α} {s0 s s' : Mem σ α} {compar : α → α → Int}
  {st st' : Stack} {i k l n curr pend fuel : Nat}

/-! ## The runs on the stack -/

/-- Where the run at index `i` begins; behind the last one this is `curr`. -/
def Stack.bound (st : Stack) (curr i : Nat) : Nat := if i < st.size then (st.run i).start else curr

/-- The runs on the stack reach up to `curr`, and a run of `pend` elements that is not yet on the
stack begins there; the rest is as it was in `s₀`. -/
structure Stacked (env : Env σ α) (s₀ : Mem σ α) (st : Stack) (curr pend : Nat) (s : Mem σ α) :
    Prop where
  size : st.size ≤ stackMax
  first : st.bound curr 0 = 0
  next : ∀ i, i < st.size → (st.run i).start + (st.run i).len = st.bound curr (i + 1)
  inside : curr + pend ≤ env.nmemb
  rest : ∀ k, curr + pend ≤ k → s.arr k = s₀.arr k
  rearranged : Rearranged 0 env.nmemb s₀ s
  stable : ∀ compar, Orders env compar → ∀ i, i < st.size →
    StableOf compar (slice s₀.arr (st.run i).start (st.run i).len)
      (slice s.arr (st.run i).start (st.run i).len)
  pending : ∀ compar, Orders env compar →
    StableOf compar (slice s₀.arr curr pend) (slice s.arr curr pend)

namespace Stacked

lemma bound_size : st.bound curr st.size = curr := if_neg (lt_irrefl _)

lemma bound_of_lt (hi : i < st.size) : st.bound curr i = (st.run i).start := if_pos hi

lemma bound_le (h : Stacked env s0 st curr pend s) (hkl : k ≤ l) (hl : l ≤ st.size) :
    st.bound curr k ≤ st.bound curr l := by
  induction l with
  | zero => rw [Nat.le_zero.mp hkl]
  | succ l ih =>
    rcases Nat.eq_or_lt_of_le hkl with rfl | hlt
    · exact le_refl _
    · have hnext := h.next l (by omega)
      have hstart : st.bound curr l = (st.run l).start := bound_of_lt (by omega)
      have hle := ih (by omega) (by omega)
      omega

lemma bound_le_curr (h : Stacked env s0 st curr pend s) (hk : k ≤ st.size) :
    st.bound curr k ≤ curr := by
  have hle := h.bound_le hk (le_refl _)
  rwa [bound_size] at hle

lemma run_le (h : Stacked env s0 st curr pend s) (hik : i < k) (hk : k ≤ st.size) :
    (st.run i).start + (st.run i).len ≤ st.bound curr k := by
  rw [h.next i (by omega)]
  exact h.bound_le hik hk

end Stacked

/-! ## Merging two runs of the stack -/

/-- The runs at `i` and `i + 1` have become one. -/
structure MergedAt (i : Nat) (st st' : Stack) : Prop where
  lt : i + 1 < st.size
  size : st'.size + 1 = st.size
  before : ∀ k, k < i → st'.run k = st.run k
  here : st'.run i = ⟨(st.run i).start, (st.run i).len + (st.run (i + 1)).len⟩
  behind : ∀ k, i < k → k < st'.size → st'.run k = st.run (k + 1)

namespace MergedAt

lemma bound_of_le (h : MergedAt i st st') (hk : k ≤ i) : st'.bound curr k = st.bound curr k := by
  have hlt := h.lt
  have hsize := h.size
  rw [Stacked.bound_of_lt (show k < st'.size by omega), Stacked.bound_of_lt (show k < st.size by omega)]
  rcases Nat.eq_or_lt_of_le hk with rfl | hlt
  · rw [h.here]
  · rw [h.before k hlt]

lemma bound_of_gt (h : MergedAt i st st') (hk : i < k) : st'.bound curr k = st.bound curr (k + 1) := by
  have hsize := h.size
  unfold Stack.bound
  by_cases hk' : k < st'.size
  · rw [if_pos hk', if_pos (by omega), h.behind k hk hk']
  · rw [if_neg hk', if_neg (by omega)]

end MergedAt

/-- What `merge_runs` did to the runs at `i` and `i + 1` keeps the invariant. -/
lemma Stacked.merged (h : Stacked env s0 st curr pend s) (hm : MergedAt i st st')
    (hre : Rearranged (st.run i).start ((st.run i).len + (st.run (i + 1)).len) s s')
    (hstable : ∀ compar, Orders env compar → ∀ xs ys,
      StableOf compar xs (slice s.arr (st.run i).start (st.run i).len) →
      StableOf compar ys (slice s.arr ((st.run i).start + (st.run i).len) (st.run (i + 1)).len) →
      StableOf compar (xs ++ ys)
        (slice s'.arr (st.run i).start ((st.run i).len + (st.run (i + 1)).len))) :
    Stacked env s0 st' curr pend s' := by
  have hlt := hm.lt
  have hsize := hm.size
  have hi := h.next i (by omega)
  rw [bound_of_lt hlt] at hi
  have hi' := h.next (i + 1) hlt
  have hend := h.bound_le_curr (show i + 1 + 1 ≤ st.size by omega)
  have hinside := h.inside
  have hmax := h.size
  -- the other runs are not touched
  have hkeep : ∀ k, k < st.size → k ≠ i → k ≠ i + 1 →
      slice s'.arr (st.run k).start (st.run k).len = slice s.arr (st.run k).start (st.run k).len := by
    intro k hk hki hki'
    refine slice_congr fun j hj hj' => hre.outside j ?_
    rcases lt_or_ge k i with hki | hki
    · have hle := h.run_le hki (by omega)
      rw [bound_of_lt (show i < st.size by omega)] at hle
      omega
    · have hle := h.bound_le (show i + 1 + 1 ≤ k by omega) (le_of_lt hk)
      rw [bound_of_lt hk] at hle
      omega
  refine ⟨by omega, ?_, fun k hk => ?_, h.inside, fun k hk => ?_, ?_, fun compar hord k hk => ?_,
    fun compar hord => ?_⟩
  · rw [hm.bound_of_le (Nat.zero_le _)]
    exact h.first
  · rcases Nat.lt_trichotomy k i with hki | rfl | hki
    · rw [hm.before k hki, hm.bound_of_le hki]
      exact h.next k (by omega)
    · rw [hm.here, hm.bound_of_gt (Nat.lt_succ_self _), ← hi', ← hi, Nat.add_assoc]
    · rw [hm.behind k hki hk, hm.bound_of_gt (by omega)]
      exact h.next (k + 1) (by omega)
  · rw [hre.outside k (by omega)]
    exact h.rest k hk
  · exact h.rearranged.trans (hre.mono (Nat.zero_le _) (by omega))
  · rcases Nat.lt_trichotomy k i with hki | rfl | hki
    · rw [hm.before k hki, hkeep k (by omega) (by omega) (by omega)]
      exact h.stable compar hord k (by omega)
    · have hsecond := h.stable compar hord (k + 1) hlt
      rw [← hi] at hsecond
      rw [hm.here, slice_add]
      exact hstable compar hord _ _ (h.stable compar hord k (by omega)) hsecond
    · rw [hm.behind k hki hk, hkeep (k + 1) (by omega) (by omega) (by omega)]
      exact h.stable compar hord (k + 1) (by omega)
  · have hpend : slice s'.arr curr pend = slice s.arr curr pend :=
      slice_congr fun j hj _ => hre.outside j (by omega)
    rw [hpend]
    exact h.pending compar hord

/-- The room for the shorter one of the two is there. -/
lemma Stacked.mergeRuns_ends (h : Stacked env s0 st curr pend s)
    (hroom : s0.room = maxRunLen env.nmemb) (hi : i + 1 < st.size) :
    Ends (mergeRuns env (st.run i).start (st.run i).len (st.run (i + 1)).len) s fun _ s' =>
      ∀ st', MergedAt i st st' → Stacked env s0 st' curr pend s' := by
  have hnext := h.next i (by omega)
  rw [bound_of_lt hi] at hnext
  have hnext' := h.next (i + 1) hi
  have hend := h.bound_le_curr (show i + 1 + 1 ≤ st.size by omega)
  have hinside := h.inside
  have hroom' := h.rearranged.room
  unfold maxRunLen at hroom
  refine (Sort.mergeRuns_ends (by omega) (by omega)).imp fun _ s' h' st' hm => ?_
  exact h.merged hm h'.1 h'.2

lemma getRun_bind {β : Type} {f : Run → M σ α β} {post : β → Mem σ α → Prop} (hi : i < stackMax)
    (hf : Ends (f (st.run i)) s post) : Ends (getRun st i >>= f) s post := by
  unfold getRun
  rw [if_pos hi]
  exact hf

lemma setRun_bind {β : Type} {f : Stack → M σ α β} {post : β → Mem σ α → Prop} {r : Run}
    (hi : i < stackMax) (hf : Ends (f { st with run := update st.run i r }) s post) :
    Ends (setRun st i r >>= f) s post := by
  unfold setRun
  rw [if_pos hi]
  exact hf

/-- A merge of neighbours, as the loops use it. -/
def Merges (env : Env σ α) (s₀ : Mem σ α) (curr pend : Nat) (st st' : Stack) (s' : Mem σ α) : Prop :=
  Stacked env s₀ st' curr pend s' ∧ st'.size + 1 = st.size

section

variable (h : Stacked env s0 st curr pend s)

include h

lemma mergeTop_ends (hroom : s0.room = maxRunLen env.nmemb) (hsize : 2 ≤ st.size) :
    Ends (mergeTop env st) s fun st' s' => Merges env s0 curr pend st st' s' := by
  have hmax := h.size
  obtain ⟨i, hi⟩ : ∃ i, st.size = i + 2 := ⟨st.size - 2, by omega⟩
  unfold mergeTop
  rw [hi]
  dsimp only [Nat.add_one_sub_one]
  refine getRun_bind (by omega) ?_
  refine getRun_bind (by omega) ?_
  refine .bind (h.mergeRuns_ends hroom (by omega)) fun _ s' h' => ?_
  refine setRun_bind (by omega) (.pure ?_)
  refine ⟨h' _ ⟨by omega, by dsimp only; omega, fun k hk => ?_, ?_, fun k hk hk' => ?_⟩,
    by dsimp only; omega⟩
  · exact update_of_ne (by omega) _ _
  · exact update_self _ _ _
  · dsimp only at hk'
    omega

lemma mergeBelow_ends (hroom : s0.room = maxRunLen env.nmemb) (hsize : 3 ≤ st.size) :
    Ends (mergeBelow env st) s fun st' s' => Merges env s0 curr pend st st' s' := by
  have hmax := h.size
  obtain ⟨i, hi⟩ : ∃ i, st.size = i + 3 := ⟨st.size - 3, by omega⟩
  unfold mergeBelow
  rw [hi]
  dsimp only
  rw [show i + 3 - 1 - 2 = i by omega, show i + 3 - 1 - 1 = i + 1 by omega,
    show i + 3 - 1 = i + 2 by omega]
  refine getRun_bind (by omega) ?_
  refine getRun_bind (by omega) ?_
  refine .bind (h.mergeRuns_ends hroom (by omega)) fun _ s' h' => ?_
  refine setRun_bind (by omega) ?_
  refine getRun_bind (by omega) ?_
  refine setRun_bind (by omega) (.pure ?_)
  refine ⟨h' _ ⟨by omega, by dsimp only; omega, fun k hk => ?_, ?_, fun k hk hk' => ?_⟩,
    by dsimp only; omega⟩
  · dsimp only
    rw [update_of_ne (by omega), update_of_ne (by omega)]
  · dsimp only
    rw [update_of_ne (by omega), update_self]
  · dsimp only at hk' ⊢
    obtain rfl : k = i + 1 := by omega
    rw [update_self, update_of_ne (by omega)]

/-! ## The loops over the stack -/

lemma makeRoom_ends (hroom : s0.room = maxRunLen env.nmemb) (hfuel : st.size < fuel) :
    Ends (makeRoom env fuel st) s fun st' s' =>
      Stacked env s0 st' curr pend s' ∧ st'.size < stackMax := by
  induction fuel generalizing s st with
  | zero => omega
  | succ fuel ih =>
    unfold makeRoom
    split
    · rename_i hfull
      refine .bind (mergeTop_ends h hroom (by unfold stackMax at hfull; omega)) fun st1 s1 h1 => ?_
      obtain ⟨h1, hsize⟩ := h1
      exact ih h1 (by omega)
    · rename_i hroom'
      exact .pure ⟨h, Nat.lt_of_not_le hroom'⟩

/-- The run that was pending is on the stack. -/
lemma pushRun_ends (hsize : st.size < stackMax) :
    Ends (pushRun st ⟨curr, pend⟩) s fun st' s' => Stacked env s0 st' (curr + pend) 0 s' := by
  unfold pushRun
  rw [if_pos hsize]
  refine setRun_bind hsize (.pure ?_)
  have hrun : ∀ i, i < st.size → update st.run st.size ⟨curr, pend⟩ i = st.run i :=
    fun i hi => update_of_ne (by omega) _ _
  have hbound : ∀ i, i ≤ st.size → Stack.bound
      ⟨update st.run st.size ⟨curr, pend⟩, st.size + 1⟩ (curr + pend) i = st.bound curr i := by
    intro i hi
    unfold Stack.bound
    dsimp only
    rw [if_pos (by omega)]
    rcases Nat.eq_or_lt_of_le hi with rfl | hlt
    · rw [if_neg (lt_irrefl _), update_self]
    · rw [if_pos hlt, hrun i hlt]
  refine ⟨hsize, ?_, fun i hi => ?_, h.inside, h.rest, h.rearranged, fun compar hord i hi => ?_,
    fun compar _ => .of_sorted .nil⟩
  · rw [hbound 0 (Nat.zero_le _)]
    exact h.first
  · rcases Nat.eq_or_lt_of_le (Nat.lt_succ_iff.mp hi) with rfl | hlt
    · dsimp only
      rw [update_self]
      exact (if_neg (lt_irrefl _)).symm
    · rw [hbound (i + 1) hlt]
      dsimp only
      rw [hrun i hlt]
      exact h.next i hlt
  · dsimp only
    rcases Nat.eq_or_lt_of_le (Nat.lt_succ_iff.mp hi) with rfl | hlt
    · rw [update_self]
      exact h.pending compar hord
    · rw [hrun i hlt]
      exact h.stable compar hord i hlt

end

lemma balanceThree_ends (hsize : st.size ≤ stackMax) :
    Ends (balanceThree st) s fun todo s' => s' = s ∧ (todo = some .below → 3 ≤ st.size) := by
  unfold balanceThree
  split
  · rename_i hthree
    refine getRun_bind (by omega) ?_
    refine getRun_bind (by omega) ?_
    refine getRun_bind (by omega) ?_
    exact .pure ⟨rfl, fun _ => hthree⟩
  · exact .pure ⟨rfl, fun h => by cases h⟩

lemma balanceTwo_ends (hsize : st.size ≤ stackMax) (htwo : 2 ≤ st.size) :
    Ends (balanceTwo st) s fun todo s' => s' = s ∧ todo ≠ .below := by
  refine getRun_bind (by omega) ?_
  refine getRun_bind (by omega) (.pure ?_)
  refine ⟨rfl, ?_⟩
  split
  · exact Balance.noConfusion
  · exact Balance.noConfusion

/-- Only with three runs is it asked to merge below the top. -/
lemma balanceOf_ends (hsize : st.size ≤ stackMax) (htwo : 2 ≤ st.size) :
    Ends (balanceOf st) s fun todo s' => s' = s ∧ (todo = .below → 3 ≤ st.size) := by
  refine .bind (balanceThree_ends hsize) fun three s h1 => ?_
  obtain ⟨rfl, hthree⟩ := h1
  cases three with
  | some todo => exact .pure ⟨rfl, fun htodo => hthree (congrArg some htodo)⟩
  | none =>
    refine (balanceTwo_ends hsize htwo).imp fun todo s' h' => ⟨h'.1, fun htodo => ?_⟩
    exact absurd htodo h'.2

lemma balance_ends (h : Stacked env s0 st curr pend s) (hroom : s0.room = maxRunLen env.nmemb)
    (hfuel : st.size < fuel) :
    Ends (balance env fuel st) s fun st' s' => Stacked env s0 st' curr pend s' := by
  induction fuel generalizing s st with
  | zero => omega
  | succ fuel ih =>
    unfold balance
    split
    · rename_i htwo
      refine .bind (balanceOf_ends h.size htwo) fun todo s h1 => ?_
      obtain ⟨rfl, htodo⟩ := h1
      cases todo with
      | done => exact .pure h
      | top =>
        refine .bind (mergeTop_ends h hroom htwo) fun st1 s1 h1 => ?_
        obtain ⟨h1, hsize⟩ := h1
        exact ih h1 (by omega)
      | below =>
        refine .bind (mergeBelow_ends h hroom (htodo rfl)) fun st1 s1 h1 => ?_
        obtain ⟨h1, hsize⟩ := h1
        exact ih h1 (by omega)
    · exact .pure h

lemma mergesBelow_ends (hsize : st.size ≤ stackMax) :
    Ends (mergesBelow st) s fun below s' => s' = s ∧ (below = true → 3 ≤ st.size) := by
  unfold mergesBelow
  split
  · rename_i hthree
    refine getRun_bind (by omega) ?_
    refine getRun_bind (by omega) ?_
    exact .pure ⟨rfl, fun _ => hthree⟩
  · exact .pure ⟨rfl, fun h => by cases h⟩

lemma unwind_ends (h : Stacked env s0 st curr pend s) (hroom : s0.room = maxRunLen env.nmemb)
    (hfuel : st.size < fuel) :
    Ends (unwind env fuel st) s fun st' s' => Stacked env s0 st' curr pend s' ∧ st'.size ≤ 1 := by
  induction fuel generalizing s st with
  | zero => omega
  | succ fuel ih =>
    unfold unwind
    split
    · rename_i htwo
      refine .bind (mergesBelow_ends h.size) fun below s h1 => ?_
      obtain ⟨rfl, hbelow⟩ := h1
      split
      · rename_i hyes
        refine .bind (mergeBelow_ends h hroom (hbelow hyes)) fun st1 s1 h1 => ?_
        obtain ⟨h1, hsize⟩ := h1
        exact ih h1 (by omega)
      · refine .bind (mergeTop_ends h hroom htwo) fun st1 s1 h1 => ?_
        obtain ⟨h1, hsize⟩ := h1
        exact ih h1 (by omega)
    · rename_i hone
      exact .pure ⟨h, Nat.le_of_not_lt hone⟩

/-! ## The sort -/

lemma Stacked.found (h : Stacked env s0 st curr 0 s) (hrun : RunAt env curr n s s') :
    Stacked env s0 st curr n s' := by
  obtain ⟨⟨-, hb⟩, hre, hstable⟩ := hrun
  have hrest := h.rest
  have hkeep : ∀ i, i < st.size →
      slice s'.arr (st.run i).start (st.run i).len = slice s.arr (st.run i).start (st.run i).len := by
    intro i hi
    have hle := h.run_le hi (le_refl _)
    rw [bound_size] at hle
    exact slice_congr fun j _ hj => hre.outside j (by omega)
  refine ⟨h.size, h.first, h.next, hb, fun k hk => ?_, ?_, fun compar hord i hi => ?_,
    fun compar hord => ?_⟩
  · rw [hre.outside k (by omega)]
    exact hrest k (by omega)
  · exact h.rearranged.trans (hre.mono (Nat.zero_le _) (by omega))
  · rw [hkeep i hi]
    exact h.stable compar hord i hi
  · have hsame : slice s.arr curr n = slice s0.arr curr n := slice_congr fun k hk _ => hrest k hk
    rw [← hsame]
    exact hstable compar hord

lemma nextRun_ends (h : Stacked env s0 st curr 0 s) (hroom : s0.room = maxRunLen env.nmemb)
    (hcurr : curr < env.nmemb) :
    Ends (nextRun env st curr) s fun z s' => Stacked env s0 z.1 z.2 0 s' ∧ curr < z.2 := by
  refine .bind (naturalRun_ends hcurr) fun natural s1 h1 => ?_
  refine .bind (extendRun_ends h1) fun n s2 h2 => ?_
  have hfound := h.found h2
  obtain ⟨⟨hpos, -⟩, -⟩ := h2
  refine .bind (makeRoom_ends hfound hroom (Nat.lt_succ_of_le hfound.size)) fun st3 s3 h3 => ?_
  obtain ⟨h3, hsize⟩ := h3
  refine .bind (pushRun_ends h3 hsize) fun st4 s4 h4 => ?_
  refine .bind (balance_ends h4 hroom (Nat.lt_succ_of_le h4.size)) fun st5 s5 h5 => .pure ?_
  exact ⟨h5, by dsimp only; omega⟩

lemma collectRuns_ends (h : Stacked env s0 st curr 0 s) (hroom : s0.room = maxRunLen env.nmemb)
    (hfuel : env.nmemb < fuel + curr) :
    Ends (collectRuns env fuel st curr) s fun st' s' => Stacked env s0 st' env.nmemb 0 s' := by
  induction fuel generalizing s st curr with
  | zero =>
    have hinside := h.inside
    omega
  | succ fuel ih =>
    unfold collectRuns
    split
    · rename_i hcurr
      refine .bind (nextRun_ends h hroom hcurr) fun z s1 h1 => ?_
      obtain ⟨h1, hlt⟩ := h1
      exact ih h1 (by omega)
    · have hinside := h.inside
      obtain rfl : curr = env.nmemb := by omega
      exact .pure h

/-- What a stable sort of the array does. -/
structure SortsStably (env : Env σ α) (s s' : Mem σ α) : Prop where
  outside : ∀ i, env.nmemb ≤ i → s'.arr i = s.arr i
  perm : (slice s'.arr 0 env.nmemb).Perm (slice s.arr 0 env.nmemb)
  stable : ∀ compar, Orders env compar →
    StableOf compar (slice s.arr 0 env.nmemb) (slice s'.arr 0 env.nmemb)

lemma SortsStably.of_rearranged (h : Rearranged 0 env.nmemb s s')
    (hstable : ∀ compar, Orders env compar →
      StableOf compar (slice s.arr 0 env.nmemb) (slice s'.arr 0 env.nmemb)) : SortsStably env s s' :=
  ⟨fun i hi => h.outside i (by omega), h.perm, hstable⟩

lemma Stacked.sorted (h : Stacked env s0 st env.nmemb 0 s) (hone : st.size ≤ 1)
    (hn : 0 < env.nmemb) : SortsStably env s0 s := by
  refine .of_rearranged h.rearranged fun compar hord => ?_
  have hfirst := h.first
  have hpos : 0 < st.size := by
    by_contra hzero
    rw [Stack.bound, if_neg hzero] at hfirst
    omega
  rw [bound_of_lt hpos] at hfirst
  have hnext := h.next 0 hpos
  rw [show 0 + 1 = st.size by omega, bound_size, hfirst, Nat.zero_add] at hnext
  have hstable := h.stable compar hord 0 hpos
  rwa [hfirst, hnext] at hstable

lemma setRoom_ends {room : Nat} :
    Ends (setRoom room) s fun _ s' => s' = { s with room := room } := ⟨(), _, rfl, rfl⟩

lemma sortRuns_ends {entries : Nat → Run} (hn : 0 < env.nmemb) :
    Ends (sortRuns env entries) s fun _ s' => SortsStably env s s' := by
  refine .bind setRoom_ends fun _ s1 h1 => ?_
  subst h1
  have hempty : Stacked env { s with room := maxRunLen env.nmemb } ⟨entries, 0⟩ 0 0
      { s with room := maxRunLen env.nmemb } :=
    ⟨Nat.zero_le _, rfl, fun i hi => absurd hi (Nat.not_lt_zero i), Nat.zero_le _, fun _ _ => rfl,
      .refl _ _ _, fun compar _ i hi => absurd hi (Nat.not_lt_zero i), fun compar _ => .of_sorted .nil⟩
  refine .bind (collectRuns_ends hempty rfl (by omega)) fun st2 s2 h2 => ?_
  refine .bind (unwind_ends h2 rfl (Nat.lt_succ_of_le h2.size)) fun st3 s3 h3 => ?_
  obtain ⟨h3, hone⟩ := h3
  have hsorted := h3.sorted hone hn
  refine setRoom_ends.imp fun _ s' h' => ?_
  subst h'
  exact ⟨hsorted.outside, hsorted.perm, hsorted.stable⟩

/-- `cobalt_stable_sort`, with any comparator and any allocator. -/
lemma stableSort_ends {entries : Nat → Run} :
    Ends (stableSort env entries) s fun _ s' => SortsStably env s s' := by
  have hinsert : ∀ s : Mem σ α, Ends (insertionSortImpl env 0 env.nmemb) s fun _ s' =>
      SortsStably env s s' := fun s =>
    (insertionSortImpl_ends (by omega)).imp fun _ s' h' => .of_rearranged h'.1 h'.2
  unfold stableSort
  split
  · rename_i hnone
    have hsorts : Sorts env 0 env.nmemb s s := .refl_of_none hnone
    refine .pure (.of_rearranged hsorts.1 fun compar hord => .of_sorted ?_)
    exact pairwise_slice.mpr (hsorts.2 compar hord)
  · unfold adaptiveMergeSort
    split
    · exact hinsert s
    · refine .bind malloc_ends fun granted s1 h1 => ?_
      obtain ⟨-, user, rfl⟩ := h1
      split
      · refine (sortRuns_ends (by omega)).imp fun _ s' h' => ?_
        exact ⟨h'.outside, h'.perm, h'.stable⟩
      · refine (hinsert _).imp fun _ s' h' => ?_
        exact ⟨h'.outside, h'.perm, h'.stable⟩

/-- For every array and every comparator that orders the elements, if all allocations succeed,
`cobalt_stable_sort` comes to an end and leaves the stable sort of the array: sorted, a permutation,
and with equal elements in their order. It would be a fault if a merge copied more than `max_run_len`
elements into the scratch buffer, or used an index of the run stack that is not below 64. -/
theorem stableSort_sorts {size : Nat} (env : Env σ (Elem size)) (hsize : env.size = size)
    (compar : Elem size → Elem size → Int)
    (hcompar : ∀ user x y, (env.compar user x y).1 = compar x y) (hord : TotalPreorder compar)
    (hmalloc : ∀ user, (env.malloc user).1 = true) (entries : Nat → Run) (s : Mem σ (Elem size)) :
    maxRunLen env.nmemb = (env.nmemb + 1) / 2 ∧ stackMax = 64 ∧
    ∃ s', stableSort env entries s = .ok ((), s') ∧
      (slice s'.arr 0 env.nmemb).Pairwise (fun x y => compar x y ≤ 0) ∧
      (slice s'.arr 0 env.nmemb).Perm (slice s.arr 0 env.nmemb) ∧
      ∀ a, (slice s'.arr 0 env.nmemb).filter (same compar a) =
        (slice s.arr 0 env.nmemb).filter (same compar a) := by
  refine ⟨by unfold maxRunLen; omega, rfl, ?_⟩
  obtain ⟨⟨⟩, s', hrun, hsorts⟩ :=
    (stableSort_ends : Ends (stableSort env entries) s fun _ s' => SortsStably env s s')
  have hstable := hsorts.stable compar (.of_bytes hsize hcompar hord hmalloc)
  exact ⟨s', hrun, hstable.sorted, hsorts.perm, hstable.stable⟩

theorem stableSort_sorts_bytes : maxRunLen 200 = (200 + 1) / 2 ∧ stackMax = 64 ∧
    ∃ s', stableSort (byteEnv 200) (fun _ => ⟨0, 0⟩) descendingBytes = .ok ((), s') ∧
      (slice s'.arr 0 200).Pairwise (fun x y => firstByte Nat.one_pos x y ≤ 0) ∧
      (slice s'.arr 0 200).Perm (slice descendingBytes.arr 0 200) ∧
      ∀ a, (slice s'.arr 0 200).filter (same (firstByte Nat.one_pos) a) =
        (slice descendingBytes.arr 0 200).filter (same (firstByte Nat.one_pos) a) :=
  stableSort_sorts (byteEnv 200) rfl (firstByte Nat.one_pos) (fun _ _ _ => rfl)
    (totalPreorder_firstByte Nat.one_pos) (fun _ => rfl) (fun _ => ⟨0, 0⟩) descendingBytes

/-- Whatever the comparator answers, and whichever allocations fail, the three sorts come to an end
without an access outside of the array, the scratch buffer and the run stack, and what they leave
is a permutation of the array. -/
theorem sorts_any_comparator (env : Env σ α) (entries : Nat → Run) (s : Mem σ α) :
    (∃ s', qsort env s = .ok ((), s') ∧ (slice s'.arr 0 env.nmemb).Perm (slice s.arr 0 env.nmemb)) ∧
    (∃ s', heapsort env s = .ok ((), s') ∧
      (slice s'.arr 0 env.nmemb).Perm (slice s.arr 0 env.nmemb)) ∧
    ∃ s', stableSort env entries s = .ok ((), s') ∧
      (slice s'.arr 0 env.nmemb).Perm (slice s.arr 0 env.nmemb) := by
  refine ⟨?_, ?_, ?_⟩
  · obtain ⟨⟨⟩, s', hrun, hsorts⟩ :=
      (qsort_ends : Ends (qsort env) s fun _ s' => Sorts env 0 env.nmemb s s')
    exact ⟨s', hrun, hsorts.1.perm⟩
  · obtain ⟨⟨⟩, s', hrun, hsorts⟩ :=
      (heapsort_ends : Ends (heapsort env) s fun _ s' => Sorts env 0 env.nmemb s s')
    exact ⟨s', hrun, hsorts.1.perm⟩
  · obtain ⟨⟨⟩, s', hrun, hsorts⟩ :=
      (stableSort_ends : Ends (stableSort env entries) s fun _ s' => SortsStably env s s')
    exact ⟨s', hrun, hsorts.perm⟩

end Cobalt.Sort
