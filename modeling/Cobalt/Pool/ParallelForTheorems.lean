/-
Cobalt.Pool.ParallelForTheorems — each index once.

The loop covers the range exactly as long as `curr + chunk_size` does not
wrap. It can only wrap in the chunk that reaches the end of the range: the
chunk is then empty, and the loop goes on from an index it has called
already or that lies before the range.
-/
import Cobalt.Pool.ParallelFor

namespace Cobalt.Pool.ParallelFor

open UInt64 (lt_iff_toNat_lt toNat_add toNat_one le_iff_toNat_le toNat_inj le_refl lt_trans le_trans toNat_zero)

variable {pool : Env} {start stop c i x : UInt64} {p p' : Progress} {k fuel : Nat}

/-! ## Calls on a range -/

lemma toNat_succ (h : i < stop) : (i + 1).toNat = i.toNat + 1 := by
  have := lt_iff_toNat_lt.mp h
  have := stop.toNat_lt
  rw [toNat_add, toNat_one, Nat.mod_eq_of_lt (by omega)]

lemma count_callRange (i stop x : UInt64) :
    (callRange i stop).count x = if i ≤ x ∧ x < stop then 1 else 0 := by
  fun_induction callRange i stop with
  | case1 i h ih =>
    rw [List.count_cons, ih]
    have hs := toNat_succ h
    simp only [le_iff_toNat_le, lt_iff_toNat_lt, beq_iff_eq, hs,
      ← toNat_inj] at h ⊢
    split <;> split <;> split <;> omega
  | case2 i h =>
    rw [List.count_nil, if_neg]
    simp only [le_iff_toNat_le, lt_iff_toNat_lt] at h ⊢
    omega

/-! ## One turn of the loop -/

/-- Where the turn that starts at `i` ends. -/
def nextIndex (stop c i : UInt64) : UInt64 := if i + c > stop then stop else i + c

/-- What a turn with an allocated chunk does to the calls, whichever way the
chunk is run. -/
lemma loop_chunk (hlt : p.curr < stop) (ha : pool.alloc k = true) :
    ∃ q : Progress, q.curr = nextIndex stop c p.curr ∧ (∀ x, q.all.count x
        = p.all.count x + (callRange p.curr (nextIndex stop c p.curr)).count x) ∧
      ∀ fuel, loop pool stop c (fuel + 1) k p = loop pool stop c fuel (k + 1) q := by
  by_cases hs : pool.submit k = true
  · refine ⟨⟨nextIndex stop c p.curr, p.calls, p.queued ++ [⟨p.curr, nextIndex stop c p.curr⟩]⟩,
      rfl, fun x => ?_, fun fuel => ?_⟩
    · simp [Progress.all, parallelChunkWorker, add_assoc]
    · rw [loop, if_pos hlt, if_pos ha, if_pos hs]
      rfl
  · refine ⟨⟨nextIndex stop c p.curr,
      p.calls ++ parallelChunkWorker ⟨p.curr, nextIndex stop c p.curr⟩, p.queued⟩,
      rfl, fun x => ?_, fun fuel => ?_⟩
    · simp [Progress.all, parallelChunkWorker]
      omega
    · rw [loop, if_pos hlt, if_pos ha, if_neg hs]
      rfl

lemma loop_rest (hlt : p.curr < stop) (ha : pool.alloc k = false) (fuel : Nat) :
    ∃ q : Progress, loop pool stop c (fuel + 1) k p = some q ∧
      ∀ x, q.all.count x = p.all.count x + (callRange p.curr stop).count x := by
  refine ⟨{ p with calls := p.calls ++ callRange p.curr stop }, ?_, fun x => ?_⟩
  · rw [loop, if_pos hlt, if_neg (by simp [ha])]
  · simp [Progress.all]
    omega

lemma loop_end (hle : ¬ p.curr < stop) (fuel : Nat) : loop pool stop c (fuel + 1) k p = some p := by
  rw [loop, if_neg hle]

lemma loop_count_le (h : loop pool stop c fuel k p = some p') (x : UInt64) :
    p.all.count x ≤ p'.all.count x := by
  induction fuel generalizing k p with
  | zero => cases h
  | succ fuel ih =>
    by_cases hlt : p.curr < stop
    · cases ha : pool.alloc k with
      | true =>
        obtain ⟨q, -, hq, hloop⟩ := loop_chunk (c := c) hlt ha
        rw [hloop] at h
        have := ih h
        have := hq x
        omega
      | false =>
        obtain ⟨q, hloop, hq⟩ := loop_rest (c := c) hlt ha fuel
        rw [hloop] at h
        cases h
        have := hq x
        omega
    · rw [loop_end hlt] at h
      cases h
      exact le_rfl

/-! ## Where a turn ends -/

lemma nextIndex_of_fits (h : i.toNat + c.toNat < 2 ^ 64) :
    (nextIndex stop c i).toNat = min (i.toNat + c.toNat) stop.toNat := by
  have hadd : (i + c).toNat = i.toNat + c.toNat := by
    rw [toNat_add, Nat.mod_eq_of_lt h]
  unfold nextIndex
  simp only [gt_iff_lt, lt_iff_toNat_lt, hadd]
  split <;> omega

lemma nextIndex_of_wraps (hi : i < stop) (h : 2 ^ 64 ≤ i.toNat + c.toNat) :
    nextIndex stop c i < i := by
  have hadd : (i + c).toNat = i.toNat + c.toNat - 2 ^ 64 := by
    have := i.toNat_lt
    have := c.toNat_lt
    rw [toNat_add]
    omega
  have := c.toNat_lt
  unfold nextIndex
  simp only [gt_iff_lt, lt_iff_toNat_lt, hadd] at hi ⊢
  split <;> omega

lemma toNat_pos (hc : c ≠ 0) : 0 < c.toNat :=
  Nat.pos_of_ne_zero fun h => hc (toNat_inj.mp h)

/-- A loop that returns from `p` has called some index up to `p.curr` again:
the index itself, unless the sum wraps and the loop goes on from below. -/
lemma loop_revisits (hc : c ≠ 0) (hlt : p.curr < stop)
    (h : loop pool stop c fuel k p = some p') : ∃ x ≤ p.curr, p.all.count x < p'.all.count x := by
  induction fuel generalizing k p with
  | zero => cases h
  | succ fuel ih =>
    cases ha : pool.alloc k with
    | false =>
      obtain ⟨q, hloop, hq⟩ := loop_rest (c := c) hlt ha fuel
      rw [hloop] at h
      cases h
      refine ⟨p.curr, le_refl _, ?_⟩
      rw [hq, count_callRange, if_pos ⟨le_refl _, hlt⟩]
      omega
    | true =>
      obtain ⟨q, hcurr, hq, hloop⟩ := loop_chunk (c := c) hlt ha
      rw [hloop] at h
      by_cases hw : p.curr.toNat + c.toNat < 2 ^ 64
      · have hmem : p.curr < nextIndex stop c p.curr := by
          have hpos := toNat_pos hc
          rw [lt_iff_toNat_lt, nextIndex_of_fits hw]
          have := lt_iff_toNat_lt.mp hlt
          omega
        refine ⟨p.curr, le_refl _, ?_⟩
        have hle := loop_count_le h p.curr
        rw [hq, count_callRange, if_pos ⟨le_refl _, hmem⟩] at hle
        omega
      · have hback := nextIndex_of_wraps hlt (Nat.le_of_not_lt hw)
        rw [← hcurr] at hback
        obtain ⟨x, hx, hcount⟩ := ih (lt_trans hback hlt) h
        refine ⟨x, le_trans hx (UInt64.le_of_lt hback), ?_⟩
        have := hq x
        omega

/-! ## The loop -/

/-- Every index of the range has been called once and no other has been. -/
def CallsExactly (start stop : UInt64) (calls : List UInt64) : Prop :=
  ∀ i, calls.count i = if start ≤ i ∧ i < stop then 1 else 0

/-- The number of chunks of `c` indices from `i` to the end of the range. -/
def chunkCount (stop i c : Nat) : Nat := (stop - i + (c - 1)) / c

lemma chunkCount_end {stop c : Nat} (hc : 0 < c) : chunkCount stop stop c = 0 := by
  unfold chunkCount
  rw [Nat.sub_self, Nat.zero_add]
  exact Nat.div_eq_of_lt (by omega)

lemma chunkCount_last {stop i c : Nat} (hi : i < stop) (hle : stop ≤ i + c) :
    chunkCount stop i c = 1 := Nat.div_eq_of_lt_le (by omega) (by omega)

lemma chunkCount_step {stop i c : Nat} (hc : 0 < c) (hlt : i + c < stop) :
    chunkCount stop i c = chunkCount stop (i + c) c + 1 := by
  unfold chunkCount
  rw [← Nat.add_div_right _ hc]
  congr 1
  omega

/-- The condition on what is left of a run: an allocation fails in one of the
turns to come, or none of the sums to come wraps. -/
def Fits (pool : Env) (stop c : UInt64) (k : Nat) (i : UInt64) : Prop :=
  (∃ j < chunkCount stop.toNat i.toNat c.toNat, pool.alloc (k + j) = false) ∨
    i.toNat + chunkCount stop.toNat i.toNat c.toNat * c.toNat < 2 ^ 64

/-- A turn with an allocated chunk and a sum that does not wrap leaves the
condition as it is. -/
lemma fits_next (hc : c ≠ 0) (hlt : i < stop) (ha : pool.alloc k = true)
    (hw : i.toNat + c.toNat < 2 ^ 64) :
    Fits pool stop c (k + 1) (nextIndex stop c i) ↔ Fits pool stop c k i := by
  have hpos := toNat_pos hc
  have hlt' := lt_iff_toNat_lt.mp hlt
  unfold Fits
  rw [nextIndex_of_fits hw]
  by_cases hlast : i.toNat + c.toNat < stop.toNat
  · rw [min_eq_left (by omega), chunkCount_step hpos hlast]
    have hexists : ∀ m, (∃ j < m + 1, pool.alloc (k + j) = false) ↔
        ∃ j < m, pool.alloc (k + 1 + j) = false := by
      intro m
      constructor
      · rintro ⟨j, hj, hf⟩
        cases j with
        | zero => rw [add_zero, ha] at hf; cases hf
        | succ j => exact ⟨j, by omega, by rwa [Nat.add_right_comm, add_assoc]⟩
      · rintro ⟨j, hj, hf⟩
        exact ⟨j + 1, by omega, by rwa [Nat.add_right_comm, add_assoc] at hf⟩
    rw [hexists, Nat.add_one_mul, Nat.add_right_comm, ← add_assoc]
  · rw [min_eq_right (by omega), chunkCount_end hpos, chunkCount_last hlt' (by omega)]
    have := stop.toNat_lt
    constructor
    · exact fun _ => Or.inr (by omega)
    · exact fun _ => Or.inr (by omega)

lemma returns_next {q : Progress} {P : Progress → Prop}
    (hloop : ∀ fuel, loop pool stop c (fuel + 1) k p = loop pool stop c fuel (k + 1) q) :
    (∃ fuel p', loop pool stop c fuel k p = some p' ∧ P p') ↔
      ∃ fuel p', loop pool stop c fuel (k + 1) q = some p' ∧ P p' := by
  constructor
  · rintro ⟨fuel, p', hret, hp'⟩
    cases fuel with
    | zero => cases hret
    | succ fuel => exact ⟨fuel, p', hloop fuel ▸ hret, hp'⟩
  · rintro ⟨fuel, p', hret, hp'⟩
    exact ⟨fuel + 1, p', (hloop fuel).trans hret, hp'⟩

/-- From a progress that has called the range up to `p.curr` the loop returns
with the whole range called if and only if the condition holds. -/
lemma loop_exact_iff (pool : Env) (k : Nat) (p : Progress) (hc : c ≠ 0) (hle : p.curr ≤ stop)
    (hp : CallsExactly start p.curr p.all) (hstart : start ≤ p.curr) :
    (∃ fuel p', loop pool stop c fuel k p = some p' ∧ CallsExactly start stop p'.all) ↔
      Fits pool stop c k p.curr := by
  have hpos := toNat_pos hc
  -- by induction on what is left of the range
  induction hn : stop.toNat - p.curr.toNat using Nat.strong_induction_on generalizing p k with
  | _ n ih =>
  by_cases hlt : p.curr < stop
  · have hlt' := lt_iff_toNat_lt.mp hlt
    cases ha : pool.alloc k with
    | false =>
      obtain ⟨q, hloop, hq⟩ := loop_rest (c := c) hlt ha 0
      refine iff_of_true ⟨1, q, hloop, fun x => ?_⟩ (Or.inl ⟨0, ?_, ha⟩)
      · rw [hq, hp x, count_callRange]
        simp only [le_iff_toNat_le, lt_iff_toNat_lt] at *
        split <;> split <;> split <;> omega
      · exact Nat.div_pos (by omega) hpos
    | true =>
      obtain ⟨q, hcurr, hq, hloop⟩ := loop_chunk (c := c) hlt ha
      by_cases hw : p.curr.toNat + c.toNat < 2 ^ 64
      · have hnext : (nextIndex stop c p.curr).toNat = min (p.curr.toNat + c.toNat) stop.toNat :=
          nextIndex_of_fits hw
        rw [← hcurr] at hnext hq
        have hgrow : p.curr ≤ q.curr := by
          rw [le_iff_toNat_le]
          omega
        have hqstop : q.curr ≤ stop := by
          rw [le_iff_toNat_le]
          omega
        have hqcalls : CallsExactly start q.curr q.all := by
          intro x
          rw [hq, hp x, count_callRange]
          simp only [le_iff_toNat_le, lt_iff_toNat_lt] at *
          split <;> split <;> split <;> omega
        rw [returns_next hloop, ← fits_next hc hlt ha hw, ← hcurr]
        exact ih _ (by omega) _ _ hqstop hqcalls (le_trans hstart hgrow) rfl
      · -- the sum wraps: the loop comes back to an index below `p.curr`
        refine iff_of_false ?_ ?_
        · rintro ⟨fuel, p', hret, hexact⟩
          cases fuel with
          | zero => cases hret
          | succ fuel =>
            rw [hloop] at hret
            have hback := nextIndex_of_wraps hlt (Nat.le_of_not_lt hw)
            rw [← hcurr] at hback
            obtain ⟨x, hx, hcount⟩ := loop_revisits hc (lt_trans hback hlt) hret
            have hqx := hq x
            have hpx := hp x
            have hex := hexact x
            simp only [le_iff_toNat_le, lt_iff_toNat_lt] at *
            split at hpx <;> split at hex <;> omega
        · have hone := chunkCount_last hlt' (c := c.toNat) (by have := stop.toNat_lt; omega)
          rintro (⟨j, hj, hf⟩ | hsum)
          · rw [hone, Nat.lt_one_iff] at hj
            rw [hj, add_zero, ha] at hf
            cases hf
          · rw [hone] at hsum
            omega
  · have heq : p.curr = stop := UInt64.le_antisymm hle (UInt64.not_lt.mp hlt)
    refine iff_of_true ⟨1, p, loop_end hlt 0, heq ▸ hp⟩ (Or.inr ?_)
    rw [heq, chunkCount_end hpos, zero_mul, add_zero]
    exact stop.toNat_lt

/-! ## The function -/

/-- The chunk size in use, as a number: the one asked for, or a quarter of
each worker's share and at least one. The product `num_workers * 4` is one
of machine words. -/
def chunkLength (numWorkers total chunkSize : UInt64) : Nat :=
  if chunkSize = 0 then max 1 (total.toNat / (max 1 numWorkers.toNat * 4 % 2 ^ 64))
  else chunkSize.toNat

/-- The conditions of the call on its arguments and on the pool. With an
automatic chunk size four times the number of workers is not zero as a
machine word. Then either some chunk allocation fails before the range is
covered, or the end of the last chunk, not cut at the end of the range, is
still a machine word. -/
def Covers (pool : Env) (start stop chunkSize : UInt64) : Prop :=
  stop ≤ start ∨ ((chunkSize = 0 → max 1 pool.numWorkers.toNat * 4 % 2 ^ 64 ≠ 0) ∧
      (pool.waitgroup = false ∨ let c := chunkLength pool.numWorkers (stop - start) chunkSize
        let m := chunkCount stop.toNat start.toNat c
        (∃ j < m, pool.alloc j = false) ∨ start.toNat + m * c < 2 ^ 64))

lemma workers_toNat (pool : Env) :
    ((if pool.numWorkers > 0 then pool.numWorkers else 1) * 4).toNat
      = max 1 pool.numWorkers.toNat * 4 % 2 ^ 64 := by
  rw [UInt64.toNat_mul]
  congr 2
  split
  · rename_i h
    have := lt_iff_toNat_lt.mp h
    rw [toNat_zero] at this
    omega
  · rename_i h
    have h' : ¬ (0 : UInt64).toNat < pool.numWorkers.toNat := fun hlt =>
      h (lt_iff_toNat_lt.mpr hlt)
    rw [toNat_zero] at h'
    rw [toNat_one]
    omega

lemma effectiveChunkSize_eq (pool : Env) (total chunkSize : UInt64) :
    (effectiveChunkSize pool total chunkSize = none ∧ chunkSize = 0 ∧
        max 1 pool.numWorkers.toNat * 4 % 2 ^ 64 = 0) ∨
      ∃ c, effectiveChunkSize pool total chunkSize = some c ∧ c ≠ 0 ∧
        c.toNat = chunkLength pool.numWorkers total chunkSize ∧
        (chunkSize = 0 → max 1 pool.numWorkers.toNat * 4 % 2 ^ 64 ≠ 0) := by
  have hn := workers_toNat pool
  unfold effectiveChunkSize chunkLength
  by_cases h0 : chunkSize = 0
  · rw [if_pos h0, if_pos h0]
    dsimp only
    generalize (if pool.numWorkers > 0 then pool.numWorkers else 1) * 4 = w at hn ⊢
    by_cases hz : w = 0
    · rw [if_pos hz]
      rw [hz, toNat_zero] at hn
      exact Or.inl ⟨rfl, h0, hn.symm⟩
    · rw [if_neg hz]
      refine Or.inr ⟨_, rfl, ?_, ?_, fun _ hmod => hz (toNat_inj.mp (hn.trans hmod))⟩
      · split
        · decide
        · assumption
      · rw [← hn, ← UInt64.toNat_div]
        split
        · rename_i hq
          rw [hq]
          rfl
        · rename_i hq
          have := toNat_pos hq
          omega
  · rw [if_neg h0, if_neg h0]
    exact Or.inr ⟨chunkSize, rfl, h0, rfl, fun h => absurd h h0⟩

lemma callsExactly_nil (start : UInt64) : CallsExactly start start [] := by
  intro i
  rw [List.count_nil, if_neg]
  simp only [le_iff_toNat_le, lt_iff_toNat_lt]
  omega

lemma covers_iff_fits {chunkSize : UInt64} (hle : ¬ stop ≤ start) (hwg : pool.waitgroup = true)
    (hlen : c.toNat = chunkLength pool.numWorkers (stop - start) chunkSize)
    (hn : chunkSize = 0 → max 1 pool.numWorkers.toNat * 4 % 2 ^ 64 ≠ 0) :
    Covers pool start stop chunkSize ↔ Fits pool stop c 0 start := by
  unfold Covers Fits
  simp only [hle, hwg, hlen, false_or, Bool.true_eq_false, zero_add]
  exact and_iff_right hn

/-- The call returns and, if it returns 0, has called `fn` once on every index
of the range and on no other, exactly under these conditions. -/
theorem parallelFor_exact_iff (pool : Option Env) (start stop chunkSize : UInt64)
    (hasFn : Bool) :
    (∃ fuel code calls, cobaltThreadpoolParallelFor fuel pool start stop chunkSize hasFn
          = some (.returned code calls) ∧ (code = 0 → CallsExactly start stop calls)) ↔
      ∀ p, pool = some p → hasFn = true → Covers p start stop chunkSize := by
  unfold cobaltThreadpoolParallelFor
  cases pool with
  | none => simp
  | some pool =>
    cases hasFn with
    | false => simp
    | true =>
      simp only [Bool.not_true, Bool.false_eq_true, if_false, Option.some.injEq, forall_eq',
        forall_const, ge_iff_le]
      by_cases hle : stop ≤ start
      · simp only [if_pos hle]
        refine iff_of_true ⟨0, 0, [], rfl, fun _ i => ?_⟩ (Or.inl hle)
        rw [List.count_nil, if_neg]
        simp only [UInt64.le_iff_toNat_le, UInt64.lt_iff_toNat_lt] at hle ⊢
        omega
      · simp only [if_neg hle]
        have hlt := UInt64.not_le.mp hle
        rcases effectiveChunkSize_eq pool (stop - start) chunkSize with
          ⟨hnone, h0, hz⟩ | ⟨c, hsome, hc, hlen, hn⟩
        · rw [hnone]
          refine iff_of_false (by simp) ?_
          rintro (h | ⟨h, -⟩)
          · exact hle h
          · exact h h0 hz
        · rw [hsome]
          cases hwg : pool.waitgroup with
          | false =>
            refine iff_of_true ⟨0, -1, [], ?_, nofun⟩ (Or.inr ⟨hn, Or.inl hwg⟩)
            rfl
          | true =>
            have hloop := loop_exact_iff pool 0 ⟨start, [], []⟩ hc
              (UInt64.le_of_lt hlt) (callsExactly_nil start) (UInt64.le_refl start)
            rw [covers_iff_fits hle hwg hlen hn, ← hloop]
            simp only [Bool.not_true, Bool.false_eq_true, if_false]
            constructor
            · rintro ⟨fuel, code, calls, hret, hexact⟩
              obtain ⟨p, hp, hout⟩ := Option.map_eq_some_iff.mp hret
              cases hout
              exact ⟨fuel, p, hp, hexact rfl⟩
            · rintro ⟨fuel, p, hp, hexact⟩
              exact ⟨fuel, 0, p.all, by rw [hp]; rfl, fun _ => hexact⟩

/-- A pool of one worker in which everything succeeds. -/
def willing : Env := ⟨1, true, fun _ => true, fun _ => true⟩

/-- On the one index 1 with a chunk size of 2 ^ 64 - 1 the first chunk ends at
0: it is empty, and the second one calls index 0 as well. -/
theorem parallelFor_wraps : ∃ fuel calls,
    cobaltThreadpoolParallelFor fuel (some willing) 1 2 0xFFFFFFFFFFFFFFFF true
      = some (.returned 0 calls) ∧ ¬ CallsExactly 1 2 calls := by
  refine ⟨3, [0, 1], ?_, fun h => ?_⟩
  · simp [cobaltThreadpoolParallelFor, effectiveChunkSize, willing, loop, Progress.all,
      parallelChunkWorker, callRange]
  · have := h 0
    revert this
    decide

end Cobalt.Pool.ParallelFor
