/-
Cobalt.Pool.DrainTheorems — who wakes the thread that waits for an idle pool.

Only the worker that brings the count of tasks to zero broadcasts. A submit
that fails brings it down as well and tells nobody: when it gives back the
last count while a thread sleeps in `cobalt_threadpool_wait_idle`, the pool
is idle and the thread stays asleep. Where no submit does that, a thread
that sleeps over an idle pool always has a broadcast to come.
-/
import Cobalt.Pool.Drain

namespace Cobalt.Pool.Drain

variable {cfg : Config} {s s' : State} {t : Tid} {x : Pc}

/-! ## The invariant -/

/-- The step of a submit that brings the count to zero: giving back the last
count after a failure, or counting past the largest `size_t`. -/
def SubmitZeroes (s : State) : Tid × Act → Prop
  | (t, .submit _) => s.pc t = .idle ∧ s.activeTasks + 1 = 0
  | (t, _) => s.pc t = .giveBack ∧ s.activeTasks = 1

/-- A submit does not bring the count to zero while a thread is asleep and
nobody has a broadcast to make. -/
def SubmitClear (s : State) (e : Tid × Act) : Prop :=
  SubmitZeroes s e → Awaited Pc.asleep Pc.caller s.pc

/-- The mutex has its owner, and a thread that sleeps over an idle pool has
a broadcast to come. -/
structure Inv (s : State) : Prop where
  owner : Owns Pc.holds s.pc s.drainMutex
  idle : s.activeTasks = 0 → Awaited Pc.asleep Pc.caller s.pc

lemma inv_start : Inv start :=
  ⟨fun _ => by simp [start, Pc.holds], fun _ => .of_awake fun _ => rfl⟩

namespace Inv

/-- A thread moves and keeps its hold of the mutex. It has no broadcast to
make, does not fall asleep, and the sleepers of an idle pool were awaited
before. -/
lemma move (h : Inv s) (hs : s'.pc = Function.update s.pc t x) (hm : s'.drainMutex = s.drainMutex)
    (hown : x.holds = (s.pc t).holds) (hc : (s.pc t).caller = false) (hx : x.asleep = false)
    (hn : s'.activeTasks = 0 → Awaited Pc.asleep Pc.caller s.pc) : Inv s' where
  owner := by
    rw [hs, hm]
    exact h.owner.move hown
  idle h0 := by
    rw [hs]
    exact (hn h0).move (by simp [hc]) (by simp [hx])

/-- The same for a step that leaves the count alone. -/
lemma plain (h : Inv s) (hs : s'.pc = Function.update s.pc t x)
    (hm : s'.drainMutex = s.drainMutex) (hn : s'.activeTasks = s.activeTasks)
    (hown : x.holds = (s.pc t).holds) (hc : (s.pc t).caller = false) (hx : x.asleep = false) :
    Inv s' := h.move hs hm hown hc hx fun h0 => h.idle (hn ▸ h0)

/-- A thread takes the mutex; a broadcast it has to make is still to come. -/
lemma lock (h : Inv s) (hl : s.lock t x = some s') (hown : x.holds = true)
    (hc : (s.pc t).caller = true → x.caller = true) (hx : x.asleep = false) : Inv s' := by
  unfold State.lock at hl
  split at hl
  · rename_i hfree
    cases hl
    have howner := h.owner
    rw [hfree] at howner
    exact ⟨howner.lock hown, fun h0 => (h.idle h0).move hc (by simp [hx])⟩
  · cases hl

/-- A thread with no broadcast to make leaves the mutex, to sleep if it was
about to. -/
lemma unlock (h : Inv s) (hown : (s.pc t).holds = true) (hx : x.holds = false)
    (hc : (s.pc t).caller = false) (hsleep : x.asleep = true → (s.pc t).asleep = true) :
    Inv (s.unlock t x) where
  owner := h.owner.unlock hown hx
  idle h0 := (h.idle h0).move (by simp [hc]) hsleep

/-- After a broadcast nobody is asleep: the blocked threads are woken, and a
thread about to block would hold the mutex. -/
lemma broadcast (h : Inv s) (ht : s.pc t = .drainBroadcast) :
    Inv { s with pc := Function.update (wakeAll .blocked .woken s.pc) t .drainUnlock } where
  owner := by
    intro u
    have := h.owner u
    grind
  idle _ := by
    refine .of_awake fun u => ?_
    have howner := h.owner.unique (t := t) (u := u) (by rw [ht]; rfl)
    grind

end Inv

/-! ## One step -/

lemma inv_call {a : Act} (h : Inv s) (ht : s.pc t = .idle)
    (hok : SubmitClear s (t, a)) (hcall : call cfg s t a = some s') : Inv s' := by
  cases a <;> simp only [call, reduceCtorEq] at hcall <;> split at hcall <;> cases hcall
  case submit task _ =>
    refine h.move rfl rfl ?_ (by rw [ht]; rfl) ?_ fun h0 => hok ⟨ht, h0⟩
    · rw [ht]
      split <;> rfl
    · split <;> rfl
  all_goals exact h.plain rfl rfl rfl (by rw [ht]; rfl) (by rw [ht]; rfl) rfl

lemma inv_step {e : Tid × Act} (h : Inv s) (hok : SubmitClear s e)
    (hstep : step cfg s e = some s') : Inv s' := by
  obtain ⟨t, a⟩ := e
  by_cases hidle : s.pc t = .idle
  · simp only [step, hidle] at hstep
    exact inv_call h hidle hok hstep
  cases ht : s.pc t <;> cases a <;>
    simp only [step, ht, reduceCtorEq, not_true_eq_false] at hstep hidle
  case giveBack.go =>
    cases hstep
    refine h.move rfl rfl (by rw [ht]; rfl) (by rw [ht]; rfl) rfl fun h0 => hok ⟨ht, ?_⟩
    have h1 : s.activeTasks - 1 = 0 := h0
    grind
  case seekSteal.steal =>
    split at hstep <;> cases hstep
    · exact h.plain rfl rfl rfl (by rw [ht]; rfl) (by rw [ht]; rfl) rfl
    · exact h
  case finish.go =>
    cases hstep
    by_cases h1 : s.activeTasks = 1
    · -- the last task: this thread is the caller now
      simp only [h1, if_true]
      exact ⟨h.owner.move (by rw [ht]; rfl), fun _ => .of_caller rfl⟩
    · simp only [h1, if_false]
      refine h.move rfl rfl (by rw [ht]; rfl) (by rw [ht]; rfl) rfl fun h0 => absurd ?_ h1
      have h1 : s.activeTasks - 1 = 0 := h0
      grind
  case drainLock.go => exact h.lock hstep rfl (fun _ => rfl) rfl
  case drainBroadcast.go =>
    cases hstep
    exact h.broadcast ht
  case drainUnlock.go | waitUnlock.go =>
    cases hstep
    exact h.unlock (by rw [ht]; rfl) rfl (by rw [ht]; rfl) nofun
  case waitLock.go | woken.go => exact h.lock hstep rfl (by rw [ht]; nofun) rfl
  case waitCheck.go =>
    split at hstep <;> cases hstep
    · -- it falls asleep, and tasks are counted
      rename_i hpos
      refine ⟨h.owner.move (by rw [ht]; rfl), fun h0 => ?_⟩
      have h0 : s.activeTasks = 0 := h0
      rw [h0] at hpos
      exact absurd hpos (by decide)
    · exact h.plain rfl rfl rfl (by rw [ht]; rfl) (by rw [ht]; rfl) rfl
  case waitSleep.go =>
    cases hstep
    exact h.unlock (by rw [ht]; rfl) rfl (by rw [ht]; rfl) (fun _ => by rw [ht]; rfl)
  -- the steps that leave the count and the mutex alone
  all_goals
    (try split at hstep) <;> cases hstep <;>
      exact h.plain rfl rfl rfl (by rw [ht]; rfl) (by rw [ht]; rfl) rfl

/-! ## Every run -/

/-- In every run in which no submit brings the count to zero over an
unawaited sleeper, a thread that is blocked on `drain_cond` over an idle
pool has a broadcast to come. -/
theorem waitIdle_awaited (cfg : Config) {s : State}
    (h : (machine cfg).ReachVia SubmitClear s) (h0 : s.activeTasks = 0) {t : Tid}
    (ht : s.pc t = .blocked) : ∃ u, s.pc u = .drainLock ∨ s.pc u = .drainBroadcast := by
  have hinv : Inv s := by
    refine h.invariant Inv ?_ fun _ _ _ hinv hok hstep => inv_step hinv hok hstep
    rintro s rfl
    exact inv_start
  obtain ⟨u, hu⟩ := hinv.idle h0 t (by rw [ht]; rfl)
  refine ⟨u, ?_⟩
  cases hpc : s.pc u <;> simp_all [Pc.caller]

/-- One worker, thread 0. -/
def oneWorker : Config := ⟨fun t => t == 0, 16, 16⟩

/-- Thread 1 submits a task, which thread 0 runs; thread 2 is blocked when it
ends. -/
theorem waitIdle_awaited_once : ∃ s, (machine oneWorker).ReachVia SubmitClear s ∧
    s.activeTasks = 0 ∧ s.pc 2 = .blocked ∧
    ∃ u, s.pc u = .drainLock ∨ s.pc u = .drainBroadcast := by
  have h : (machine oneWorker).ReachVia SubmitClear start := .init rfl
  have h₁ := h.run (fun s e => s.pc e.1 != .giveBack && s.activeTasks + 1 != 0)
    (by
      rintro s ⟨t, a⟩ htest hz
      cases a <;> simp_all [SubmitZeroes])
    [(1, .submit 7), (1, .go), (1, .go), (0, .seek), (0, .go), (0, .go), (2, .wait), (2, .go),
      (2, .go), (2, .go), (0, .ret), (0, .go)] rfl
  exact ⟨_, h₁, rfl, rfl, waitIdle_awaited oneWorker h₁ rfl (t := 2) rfl⟩

/-- Thread 1 submits a task and counts it, thread 2 finds the count and
sleeps, and the allocation of thread 1 fails: the pool is idle, and nobody
is going to wake thread 2. -/
theorem waitIdle_lostWakeup : ∃ s, (machine oneWorker).Reach s ∧ s.activeTasks = 0 ∧
    s.pc 2 = .blocked ∧ ¬ ∃ u, s.pc u = .drainLock ∨ s.pc u = .drainBroadcast := by
  have h : (machine oneWorker).Reach start := .init rfl
  have h₁ := h.run (fun _ _ => true) (by simp) [(1, .submit 7), (2, .wait), (2, .go), (2, .go),
    (2, .go), (1, .fail), (1, .go)] rfl
  refine ⟨_, h₁, rfl, rfl, ?_⟩
  rintro ⟨u, hu⟩
  simp only [start, Function.update_apply] at hu
  grind

end Cobalt.Pool.Drain
