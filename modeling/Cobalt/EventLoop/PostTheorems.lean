/-
Cobalt.EventLoop.PostTheorems — which posted tasks wake a sleeping loop.

A thread that posts a task writes to the wakeup descriptor only if its exchange
finds `is_sleeping` set. Where the loop finds a task after it has set the flag,
it clears the flag again, runs the task and waits with the flag clear: a task
posted from then on wakes nobody. If no task arrives in that window, a loop that
waits over a queue with tasks in it always has a wakeup to come.
-/
import Cobalt.EventLoop.Post

namespace Cobalt.EventLoop.Post

open Function (update_of_ne update update_apply)

variable {s s' : State} {t : Nat} {a : Act}

/-! ## The property and the condition -/

/-- A loop that waits while there are tasks has been woken, or some thread that has posted is
not through with its call. -/
def Heard (s : State) : Prop :=
  s.loop = .wait → s.queue ≠ [] → s.readable = true ∨ ∃ t, s.pc t = .exchange ∨ s.pc t = .write

/-- The step puts a task into the queue. -/
def Enqueues (s : State) : Act → Prop
  | .poster t => (∃ task retry, s.pc t = .enqueue task retry) ∧ s.queue.length < postCapacity
  | _ => False

/-- A task that arrives while the loop waits finds the flag set, or a wakeup under way. -/
def Flagged (s : State) (a : Act) : Prop :=
  Enqueues s a → s.loop = .wait → s.isSleeping = true ∨ s.readable = true ∨ ∃ t, s.pc t = .write

/-! ## The invariant -/

/-- The wakeup of a loop that waits over tasks: made, about to be made, or to be made by a thread
that will find the flag set. -/
def Woken (s : State) : Prop :=
  s.loop = .wait → s.queue ≠ [] →
    s.readable = true ∨ (∃ t, s.pc t = .write) ∨ (s.isSleeping = true ∧ ∃ t, s.pc t = .exchange)

lemma Woken.heard (h : Woken s) : Heard s := by
  intro hwait hqueue
  rcases h hwait hqueue with hread | ⟨t, ht⟩ | ⟨-, t, ht⟩
  · exact .inl hread
  · exact .inr ⟨t, .inr ht⟩
  · exact .inr ⟨t, .inl ht⟩

lemma queue_drainPostQueue {next : LoopPc} (hloop : s.loop ≠ .wait)
    (hwait : (s.drainPostQueue next).loop = .wait) : (s.drainPostQueue next).queue = [] := by
  cases hqueue : s.queue with
  | nil =>
    rw [State.drainPostQueue, hqueue]
    exact hqueue
  | cons task queue =>
    rw [State.drainPostQueue, hqueue] at hwait
    exact absurd hwait hloop

lemma queue_of_loopStep (hs : loopStep s = some s') (hwait : s'.loop = .wait) : s'.queue = [] := by
  unfold loopStep at hs
  split at hs <;> cases hs
  case h_1 hpc => exact queue_drainPostQueue (by simp [hpc]) hwait
  case h_3 =>
    by_cases hqueue : s.queue = []
    · exact hqueue
    · simp [State.setLoop, hqueue] at hwait
  case h_5 hpc => exact queue_drainPostQueue (by simp [hpc]) hwait
  case h_7 ready _ => cases ready <;> simp [State.setLoop] at hwait
  case h_9 hpc => exact queue_drainPostQueue (by simp [hpc]) hwait
  case h_10 hpc => exact queue_drainPostQueue (by simp [hpc]) hwait
  all_goals simp [State.setLoop] at hwait

/-- A thread moves, and no wakeup that was to come is lost with that. -/
lemma Woken.move {x : PostPc} (h : Woken s) (hwrite : s.pc t ≠ .write)
    (hexchange : s.pc t ≠ .exchange) : Woken (s.setPc t x) := by
  have hkeep : ∀ y, (∃ u, s.pc u = y) → s.pc t ≠ y → ∃ u, (s.setPc t x).pc u = y := by
    rintro y ⟨u, hu⟩ hne
    refine ⟨u, ?_⟩
    have hut : u ≠ t := fun heq => hne (heq ▸ hu)
    exact (update_of_ne hut ..).trans hu
  intro hwait hqueue
  rcases h hwait hqueue with hread | hw | ⟨hflag, he⟩
  · exact .inl hread
  · exact .inr (.inl (hkeep _ hw hwrite))
  · exact .inr (.inr ⟨hflag, hkeep _ he hexchange⟩)

lemma Woken.postStep (h : Woken s) (hok : Flagged s (.poster t))
    (hs : postStep s t = some s') : Woken s' := by
  unfold Post.postStep at hs
  cases hpc : s.pc t with
  | idle => simp [hpc] at hs
  | enqueue task retry =>
    simp only [hpc] at hs
    have hne : s.pc t ≠ .write ∧ s.pc t ≠ .exchange := by simp [hpc]
    split at hs
    · next hroom =>
      -- the thread that has put the task there has its exchange to come
      cases hs
      intro hwait _
      have hself : (update s.pc t .exchange) t = .exchange := Function.update_self ..
      rcases hok ⟨⟨task, retry, hpc⟩, hroom⟩ hwait with hflag | hread | ⟨u, hu⟩
      · exact .inr (.inr ⟨hflag, t, hself⟩)
      · exact .inl hread
      · refine .inr (.inl ⟨u, ?_⟩)
        have hut : u ≠ t := fun heq => hne.1 (heq ▸ hu)
        exact (update_of_ne hut ..).trans hu
    · split at hs <;> cases hs <;> exact h.move hne.1 hne.2
  | exchange =>
    simp only [hpc, Option.some.injEq] at hs
    subst hs
    intro hwait hqueue
    cases hflag : s.isSleeping with
    | true => exact .inr (.inl ⟨t, by simp [State.setPc]⟩)
    | false =>
      -- the flag was clear, so the wakeup comes from elsewhere
      rcases h hwait hqueue with hread | ⟨u, hu⟩ | ⟨hset, -⟩
      · exact .inl hread
      · refine .inr (.inl ⟨u, ?_⟩)
        have hut : u ≠ t := by
          rintro rfl
          simp [hpc] at hu
        exact (update_of_ne hut ..).trans hu
      · simp [hflag] at hset
  | write =>
    simp only [hpc, Option.some.injEq] at hs
    subst hs
    exact fun _ _ => .inl rfl

lemma Woken.step (h : Woken s) (hok : Flagged s a) (hs : step s a = some s') : Woken s' := by
  cases a with
  | post t task allocated =>
    rw [Post.step] at hs
    split at hs
    · next hidle =>
      cases hs
      exact h.move (by simp [hidle]) (by simp [hidle])
    · cases hs
  | poster t => exact h.postStep hok hs
  | loop => exact fun hwait hqueue => absurd (queue_of_loopStep hs hwait) hqueue
  | wake ready =>
    rw [Post.step] at hs
    split at hs
    · cases hs
      intro hwait
      simp [State.setLoop] at hwait
    · cases hs

lemma woken_of_reachVia (h : machine.ReachVia Flagged s) : Woken s := by
  refine h.invariant Woken ?_ fun _ _ _ hw hok hs => hw.step hok hs
  rintro s rfl hwait
  simp [start] at hwait

/-! ## A task that arrives in the window -/

lemma exists_pc_eq_of_step (hs : step s a = some s') : ∃ t, ∀ u ≠ t, s'.pc u = s.pc u := by
  have hdrain : ∀ next, (s.drainPostQueue next).pc = s.pc := by
    intro next
    unfold State.drainPostQueue
    split <;> rfl
  cases a with
  | post t task allocated =>
    rw [step] at hs
    split at hs <;> cases hs
    exact ⟨t, fun u hu => update_of_ne hu ..⟩
  | poster t =>
    refine ⟨t, fun u hu => ?_⟩
    rw [step, postStep] at hs
    split at hs
    · cases hs
    · split at hs
      · cases hs
        exact update_of_ne hu ..
      · split at hs <;> cases hs <;> exact update_of_ne hu ..
    · cases hs
      exact update_of_ne hu ..
    · cases hs
      exact update_of_ne hu ..
  | loop =>
    refine ⟨0, fun u _ => ?_⟩
    rw [step, loopStep] at hs
    split at hs <;> cases hs <;> first | rfl | rw [hdrain]
  | wake ready =>
    rw [step] at hs
    split at hs <;> cases hs
    exact ⟨0, fun u _ => rfl⟩

/-- At any time only finitely many threads are in a call. -/
lemma exists_idle_of_reachVia {ok : State → Act → Prop} (h : machine.ReachVia ok s) :
    ∃ n, ∀ u ≥ n, s.pc u = .idle := by
  refine h.invariant (fun s => ∃ n, ∀ u ≥ n, s.pc u = .idle) ?_ ?_
  · rintro s rfl
    exact ⟨0, fun u _ => rfl⟩
  · rintro s s' a ⟨n, hn⟩ - hs
    obtain ⟨t, ht⟩ := exists_pc_eq_of_step hs
    refine ⟨max n (t + 1), fun u hu => ?_⟩
    rw [ht u (by omega)]
    exact hn u (by omega)

/-- The loop waits over tasks, and the flag that the threads look at is clear. -/
structure Deaf (s : State) : Prop where
  wait : s.loop = .wait
  queue : s.queue ≠ []
  flag : s.isSleeping = false
  unread : s.readable = false
  quiet : ∀ u, s.pc u ≠ .write

/-- Once the threads have made their exchanges nobody is left to wake the loop. -/
lemma Deaf.exists_run (n : Nat) (h : Deaf s) (hn : ∀ u ≥ n, s.pc u ≠ .exchange) :
    ∃ acts s', machine.run (fun _ _ => true) s acts = some s' ∧ ¬ Heard s' := by
  induction n generalizing s with
  | zero =>
    refine ⟨[], s, rfl, fun hheard => ?_⟩
    rcases hheard h.wait h.queue with hread | ⟨t, ht | ht⟩
    · simp [h.unread] at hread
    · exact hn t (Nat.zero_le t) ht
    · exact h.quiet t ht
  | succ n ih =>
    by_cases hpc : s.pc n = .exchange
    · -- the exchange of this thread finds the flag clear
      have hs : machine.step s (.poster n)
          = some ({ s with isSleeping := false }.setPc n .idle) := by
        change postStep s n = _
        simp [postStep, hpc, h.flag]
      have hdeaf : Deaf ({ s with isSleeping := false }.setPc n .idle) := by
        refine ⟨h.wait, h.queue, rfl, h.unread, fun u => ?_⟩
        change update s.pc n .idle u ≠ .write
        rw [update_apply]
        split
        · simp
        · exact h.quiet u
      have hrest : ∀ u ≥ n, ({ s with isSleeping := false }.setPc n .idle).pc u ≠ .exchange := by
        intro u hu
        change update s.pc n .idle u ≠ .exchange
        rw [update_apply]
        split
        · simp
        · exact hn u (by omega)
      obtain ⟨acts, s', hrun, hlost⟩ := ih hdeaf hrest
      refine ⟨.poster n :: acts, s', ?_, hlost⟩
      rw [Machine.run, if_pos rfl, hs]
      exact hrun
    · refine ih h fun u hu => ?_
      rcases Nat.eq_or_lt_of_le hu with rfl | hlt
      · exact hpc
      · exact hn u hlt

/-- A task put into the queue where the condition does not hold. -/
lemma exists_deaf (ha : Enqueues s a) (hnot : ¬ Flagged s a) :
    ∃ s1, machine.step s a = some s1 ∧ Deaf s1 := by
  obtain ⟨hwait, hflag, hread, hquiet⟩ : s.loop = .wait ∧ s.isSleeping = false ∧
      s.readable = false ∧ ∀ u, s.pc u ≠ .write := by
    simpa [Flagged, ha, not_or, Bool.not_eq_true] using hnot
  cases a with
  | poster t =>
    obtain ⟨⟨task, retry, hpc⟩, hroom⟩ := ha
    refine ⟨{ s with queue := s.queue ++ [task] }.setPc t .exchange, ?_, ?_⟩
    · change postStep s t = _
      simp [postStep, hpc, hroom]
    · refine ⟨hwait, by simp [State.setPc], hflag, hread, fun u => ?_⟩
      change update s.pc t .exchange u ≠ .write
      rw [update_apply]
      split
      · simp
      · exact hquiet u
  | post t task allocated => exact ha.elim
  | loop => exact ha.elim
  | wake ready => exact ha.elim

/-- In the runs in which every task that arrives while the loop waits finds the flag set or a
wakeup under way, a loop that waits over tasks has a wakeup to come. From any state of such a run,
a task that arrives otherwise can leave the loop waiting over it with nobody to wake it. -/
theorem post_heard_of_flagged (h : machine.ReachVia Flagged s) :
    Heard s ∧ ∀ a, Enqueues s a → ¬ Flagged s a → ∃ s₁ acts s', machine.step s a = some s₁ ∧
      machine.run (fun _ _ => true) s₁ acts = some s' ∧ ¬ Heard s' := by
  refine ⟨(woken_of_reachVia h).heard, fun a ha hnot => ?_⟩
  obtain ⟨s₁, hs, hdeaf⟩ := exists_deaf ha hnot
  obtain ⟨n, hn⟩ := exists_idle_of_reachVia h
  obtain ⟨t, ht⟩ := exists_pc_eq_of_step hs
  obtain ⟨acts, s', hrun, hlost⟩ := hdeaf.exists_run (max n (t + 1)) fun u hu => by
    rw [ht u (by omega), hn u (by omega)]
    simp
  exact ⟨s₁, acts, s', hs, hrun, hlost⟩

/-- Two tasks for a loop that sleeps with its flag set: one wakeup for both. -/
theorem post_heard_once : ∃ s, machine.ReachVia Flagged s ∧ s.loop = .wait ∧ s.queue = [7, 8] ∧
    Heard s := by
  let acts : List Act := [.loop, .loop, .loop, .post 0 7 true, .poster 0, .poster 0,
    .post 1 8 true, .poster 1, .poster 1, .poster 0]
  let test : State → Act → Bool := fun s a => match a with
    | .poster _ => s.loop ≠ .wait ∨ s.isSleeping = true ∨ s.readable = true ∨ s.pc 0 = .write
    | _ => true
  have htest : ∀ s a, test s a = true → Flagged s a := by
    intro s a h ha hwait
    cases a with
    | poster t =>
      rcases of_decide_eq_true h with hne | hflag | hread | hwrite
      · exact absurd hwait hne
      · exact .inl hflag
      · exact .inr (.inl hread)
      · exact .inr (.inr ⟨0, hwrite⟩)
    | post t task allocated => exact ha.elim
    | loop => exact ha.elim
    | wake ready => exact ha.elim
  have hstart : machine.ReachVia Flagged start := .init rfl
  obtain ⟨s, hreach, hview⟩ := hstart.run_map (f := fun s => (s.loop, s.queue))
    (v := (.wait, [7, 8])) test htest acts (by decide +kernel)
  obtain ⟨hloop, hqueue⟩ := Prod.mk.inj hview
  exact ⟨s, hreach, hloop, hqueue, (post_heard_of_flagged hreach).1⟩

/-- A task that arrives between the flag and the check makes the loop clear its flag; the task
posted after that is left in the queue. -/
theorem post_unheard : ∃ s, machine.Reach s ∧ ¬ Heard s := by
  let acts : List Act := [.loop, .loop, .post 0 7 true, .poster 0, .loop, .loop, .loop, .loop,
    .poster 0, .post 1 8 true, .poster 1, .poster 1]
  have hrun : (machine.run (fun _ _ => true) start acts).map
      (fun s => (s.loop, s.queue, s.readable, s.pc 0, s.pc 1))
        = some (.wait, [8], false, .idle, .idle) := by decide +kernel
  obtain ⟨s, hs, hview⟩ := Option.map_eq_some_iff.mp hrun
  have hreach : machine.Reach s :=
    (Machine.ReachVia.init rfl).run (fun _ _ => true) (fun _ _ _ => trivial) acts hs
  refine ⟨s, hreach, fun hheard => ?_⟩
  simp only [Prod.mk.injEq] at hview
  obtain ⟨hloop, hqueue, hread, hpc₀, hpc₁⟩ := hview
  have hidle : ∀ u, s.pc u = .idle := by
    intro u
    match u with
    | 0 => exact hpc₀
    | 1 => exact hpc₁
    | u + 2 =>
      have hother : (machine.run (fun _ _ => true) start acts).map (fun s => s.pc (u + 2))
          = some .idle := rfl
      rw [hs] at hother
      exact Option.some.inj hother
  rcases hheard hloop (by simp [hqueue]) with hr | ⟨t, ht | ht⟩
  · simp [hread] at hr
  · simp [hidle t] at ht
  · simp [hidle t] at ht

end Cobalt.EventLoop.Post
