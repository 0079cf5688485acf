/-
Cobalt.TaskGraph.RunTheorems — a run executes every node exactly once.

The invariant of `RunInvariant` holds in every state that a run reaches, and
again in every later run of the same graph. From it: no callback starts
twice or before those of its predecessors have returned, the count of the
wait group is zero exactly when every worker has signalled, a run whose count
is not zero can go on, and it cannot go on forever. All of this rests on
the root cache: `run_executes_iff` says that a compiled graph is executed
exactly when the cache holds its roots.
-/
import Cobalt.TaskGraph.RunInvariant

namespace Cobalt.TaskGraph.Run

open List
open Function (update update_self)

variable {g : Graph} {s s' : State} {stage : Nat → Stage} {t v : Nat}

/-! ## Before, between and after the runs -/

/-- No run is going on and no wait group exists. -/
structure Idle (s : State) : Prop where
  pool : s.pool = []
  frames : ∀ t, s.frames t = []
  wg : s.wg = none
  caller : s.caller = none
  log : s.log = []

/-- Before the first run, or in a run. -/
def Inv (g : Graph) (s : State) : Prop := Idle s ∨ ∃ stage, Active g s stage

lemma idle_start : Idle start := ⟨rfl, fun _ => rfl, rfl, rfl, rfl⟩

lemma stage_finished (h : Active g s stage) (hv : .signalled v ∈ s.log) : stage v = .finished := by
  have hstage := h.stages v
  have hnot : ∀ allowed : List Event, Only s.log v allowed → .signalled v ∉ allowed → False :=
    fun allowed honly hnot => hnot (honly _ hv rfl)
  cases hz : stage v with
  | waiting | queued => rw [hz] at hstage; exact absurd hstage fun h => hnot _ h (by simp)
  | finished => rfl
  | held t w =>
    rw [hz] at hstage
    cases w with
    | pending | called => exact absurd hstage fun h => hnot _ h (by simp)
    | inside => exact absurd hstage.2 fun h => hnot _ h (by simp)
    | looping rest => exact absurd hv hstage.2.1

/-- The count is zero exactly when every worker has signalled. -/
lemma wg_eq_zero_iff (h : Active g s stage) {count : Int} (hwg : s.wg = some count) :
    count = 0 ↔ ∀ v < g.nodes.length, .signalled v ∈ s.log := by
  rw [h.count, Option.some.injEq] at hwg
  have hle : signalledIds g.nodes s.log ⊆ Finset.range g.nodes.length := Finset.filter_subset _ _
  constructor
  · intro hzero v hv
    have hcard : (Finset.range g.nodes.length).card ≤ (signalledIds g.nodes s.log).card := by
      rw [Finset.card_range]
      omega
    have hall := Finset.eq_of_subset_of_card_le hle hcard
    have : v ∈ signalledIds g.nodes s.log := by
      rw [hall]
      exact Finset.mem_range.mpr hv
    exact (Finset.mem_filter.mp this).2
  · intro hall
    have heq : signalledIds g.nodes s.log = Finset.range g.nodes.length :=
      Finset.filter_true_of_mem fun v hv => hall v (Finset.mem_range.mp hv)
    rw [heq, Finset.card_range] at hwg
    omega

/-- Once every worker has signalled and the call has returned, nothing is left. -/
lemma idle_of_complete (h : Active g s stage) (hcaller : s.caller = none)
    (hall : ∀ v < g.nodes.length, .signalled v ∈ s.log) : s.pool = [] ∧ ∀ t, s.frames t = [] := by
  have hstage : ∀ v, stage v = .waiting ∨ stage v = .finished := by
    intro v
    by_cases hv : stage v = .waiting
    · exact .inl hv
    · exact .inr (stage_finished h (hall v (lt_of_released h hv)))
  constructor
  · refine eq_nil_iff_forall_not_mem.mpr fun v hv => ?_
    have := (h.places.pool_iff v).mp hv
    rcases hstage v with hz | hz <;> rw [hz] at this <;> cases this
  · intro t
    refine eq_nil_iff_forall_not_mem.mpr fun f hf => ?_
    have hworks : ∀ v w, (v, w) ∈ f.works → False := by
      intro v w hvw
      have := (h.places.stack_iff t v w).mp (mem_flatMap.mpr ⟨f, hf, hvw⟩)
      rcases hstage v with hz | hz <;> rw [hz] at this <;> cases this
    cases f with
    | roots rest =>
      have := (h.callers.caller_iff t).mp ⟨_, hf, rfl⟩
      rw [hcaller] at this
      cases this
    | call v | inside v | loop v rest | submit v w rest => exact hworks v _ mem_cons_self

/-- A run starts: the thread that calls it holds the cached roots. -/
lemma active_begin (hwf : WellFormed g.nodes) (hroots : g.roots.Sublist (zeroIds g.nodes))
    (hpool : s.pool = []) (hframes : ∀ t, s.frames t = []) :
    ∃ stage, Active g
      { remaining := inDegreeOf g.nodes, wg := some g.nodes.length, pool := s.pool
        frames := update s.frames t [.roots g.roots], caller := some t, log := [] }
      stage := by
  have hother : ∀ t', t' ≠ t → update s.frames t [.roots g.roots] t' = [] :=
    fun t' ht => by rw [Function.update_of_ne ht, hframes]
  have hworks : works [.roots g.roots] = g.roots.map fun v => (v, Work.pending) := by
    simp [works, Frame.works]
  refine ⟨fun v => if v ∈ g.roots then .held t .pending else .waiting, ⟨?_, ?_, ?_, ?_⟩,
    fun v => ?_, fun v => ?_, fun v hv => ?_, ?_, nodup_nil, ?_, ⟨?_, ?_, ?_⟩⟩
  · rw [hpool]
    exact nodup_nil
  · intro v
    change v ∈ s.pool ↔ _
    rw [hpool]
    by_cases hv : v ∈ g.roots <;> simp [hv]
  · intro t'
    change ((works (update s.frames t [.roots g.roots] t')).map Prod.fst).Nodup
    by_cases ht : t' = t
    · subst ht
      rw [update_self, hworks, map_map]
      exact (map_id _).symm ▸ nodup_zeroIds.sublist hroots
    · rw [hother t' ht]
      exact nodup_nil
  · intro t' v w
    change (v, w) ∈ works (update s.frames t [.roots g.roots] t') ↔ _
    by_cases ht : t' = t
    · subst ht
      rw [update_self, hworks]
      by_cases hv : v ∈ g.roots <;> simp [hv, eq_comm]
    · rw [hother t' ht]
      by_cases hv : v ∈ g.roots <;> simp [hv, Ne.symm ht]
  · by_cases hv : v ∈ g.roots <;> simp [hv, StageOk, Only]
  · change _ ↔ v < g.nodes.length ∧ inDegreeOf g.nodes v = 0 ∧ _
    by_cases hv : v ∈ g.roots
    · have hzero := mem_zeroIds.mp (hroots.subset hv)
      simp [hv, hzero]
    · simp only [hv, if_false, ne_eq, not_true_eq_false, false_iff, not_and]
      exact fun _ hzero hin => hin hzero
  · change inDegreeOf g.nodes v = (undone g.nodes [] v).card
    rw [hwf.degree]
    congr 1
    ext u
    simp [mem_waiting, mem_undone]
  · simp [signalledIds]
  · intro before v after hlog
    simp at hlog
  · intro t'
    change (∃ f ∈ update s.frames t [.roots g.roots] t', f.isRoots = true) ↔
      some t = some t'
    by_cases ht : t' = t
    · subst ht
      simp [Frame.isRoots]
    · rw [hother t' ht]
      simp [Ne.symm ht]
  · intro t'
    change (update s.frames t [.roots g.roots] t').Pairwise _
    by_cases ht : t' = t
    · subst ht
      simp
    · rw [hother t' ht]
      exact List.Pairwise.nil
  · simp

lemma inv_step (hwf : WellFormed g.nodes) (hroots : g.roots.Sublist (zeroIds g.nodes))
    {a : Act} (h : Inv g s) (hs : step g s a = some s') : Inv g s' := by
  by_cases ha : a.isRun = true
  · cases a with
    | run t ok =>
      rw [step] at hs
      split at hs
      · rename_i hok
        cases hs
        obtain ⟨-, hcomplete⟩ := hok
        simp only [State.complete, decide_eq_true_eq] at hcomplete
        obtain ⟨hcaller, hwg⟩ := hcomplete
        -- nothing is left of an earlier run
        have hempty : s.pool = [] ∧ ∀ t, s.frames t = [] := by
          rcases h with h | ⟨stage, h⟩
          · exact ⟨h.pool, h.frames⟩
          · refine idle_of_complete h hcaller ((wg_eq_zero_iff h h.count).mp ?_)
            rcases hwg with hwg | hwg <;> rw [h.count] at hwg
            · cases hwg
            · exact Option.some.inj hwg
        rw [begin]
        split
        · exact h
        · split
          · exact .inr (active_begin hwf hroots hempty.1 hempty.2)
          · exact .inl ⟨hempty.1, hempty.2, rfl, hcaller, rfl⟩
      · cases hs
    | _ => cases ha
  · rcases h with h | ⟨stage, h⟩
    · -- without a run no thread has anything to do
      cases a with
      | run t ok => exact absurd rfl ha
      | take t v => simp [step, h.pool] at hs
      | submit t ok | go t => simp [step, h.frames] at hs
    · exact .inr (active_step hwf h (Bool.eq_false_iff.mpr ha) hs)

lemma inv_reach (hwf : WellFormed g.nodes) (hroots : g.roots.Sublist (zeroIds g.nodes))
    (h : (machine g).Reach s) : Inv g s := by
  refine h.invariant (Inv g) (fun s hs => ?_) (fun s s' a hinv _ hs => ?_)
  · cases hs
    exact .inl idle_start
  · exact inv_step hwf hroots hinv hs

/-! ## A run goes on until the count is zero -/

/-- Some thread can move. -/
def Moves (g : Graph) (s : State) : Prop := ∃ a s', a.isRun = false ∧ step g s a = some s'

lemma moves_of_frame {f : Frame} {below : List Frame} (hstack : s.frames t = f :: below) :
    Moves g s := by
  cases f with
  | roots rest =>
    cases rest with
    | nil => exact ⟨.go t, _, rfl, by rw [step, hstack]; rfl⟩
    | cons v rest => exact ⟨.submit t true, _, rfl, by rw [step, hstack]⟩
  | call v | inside v => exact ⟨.go t, _, rfl, by rw [step, hstack]; rfl⟩
  | loop v rest =>
    cases rest with
    | nil | cons w rest => exact ⟨.go t, _, rfl, by rw [step, hstack]; rfl⟩
  | submit v w rest => exact ⟨.submit t true, _, rfl, by rw [step, hstack]⟩

lemma moves_of_pool (hv : v ∈ s.pool) : Moves g s := by
  cases hstack : s.frames 0 with
  | nil => exact ⟨.take 0 v, _, rfl, by rw [step, if_pos ⟨hstack, hv⟩]⟩
  | cons f below => exact moves_of_frame hstack

/-- Where no thread can move, every node waits or is finished. -/
lemma waiting_or_finished (h : Active g s stage) (hstuck : ¬ Moves g s) (v : Nat) :
    stage v = .waiting ∨ stage v = .finished := by
  have hframes : ∀ t, s.frames t = [] := by
    intro t
    cases hstack : s.frames t with
    | nil => rfl
    | cons f below => exact absurd (moves_of_frame hstack) hstuck
  cases hz : stage v with
  | waiting => exact .inl rfl
  | finished => exact .inr rfl
  | queued => exact absurd (moves_of_pool ((h.places.pool_iff v).mpr hz)) hstuck
  | held t w =>
    have := (h.places.stack_iff t v w).mpr hz
    rw [hframes t] at this
    cases this

/-- With all roots cached, a run in which no thread can move is over. -/
lemma moves_of_unfinished (hwf : WellFormed g.nodes) (hacyclic : Acyclic (Edge g.nodes))
    (hroots : g.HoldsRoots) (h : Active g s stage) {count : Int} (hwg : s.wg = some count)
    (hcount : count ≠ 0) : Moves g s := by
  by_contra hstuck
  let left : Finset Nat := (Finset.range g.nodes.length).filter fun v => .signalled v ∉ s.log
  have hleft : left.Nonempty := by
    by_contra hempty
    refine hcount ((wg_eq_zero_iff h hwg).mpr fun v hv => ?_)
    by_contra hnot
    exact hempty ⟨v, Finset.mem_filter.mpr ⟨Finset.mem_range.mpr hv, hnot⟩⟩
  obtain ⟨v, hv, hsource⟩ := hacyclic.exists_source left hleft
  obtain ⟨hlt, hnot⟩ := Finset.mem_filter.mp hv
  rw [Finset.mem_range] at hlt
  have hwaiting : stage v = .waiting := by
    refine (waiting_or_finished h hstuck v).resolve_right fun hfinished => hnot ?_
    have hstage := h.stages v
    rw [hfinished] at hstage
    exact hstage.2
  -- every predecessor has finished, so the counter of `v` is zero
  have hdone : s.remaining v = 0 := by
    rw [h.degree v hlt, Finset.card_eq_zero, Finset.eq_empty_iff_forall_notMem]
    intro u hu
    obtain ⟨hedge, hundone⟩ := mem_undone.mp hu
    have hsignalled : .signalled u ∈ s.log := by
      by_contra hunfinished
      refine hsource u (Finset.mem_filter.mpr ⟨?_, hunfinished⟩) hedge
      exact Finset.mem_range.mpr (lt_of_edge hedge)
    have hstage := h.stages u
    rw [stage_finished h hsignalled] at hstage
    exact hundone ((hstage.1.decremented v).mpr ⟨hedge, not_mem_nil⟩)
  refine (h.released v).mpr ⟨hlt, hdone, fun hzero => ?_⟩ hwaiting
  exact (hroots.2 v).mpr ((mem_zeroIds_iff hwf).mp (mem_zeroIds.mpr ⟨hlt, hzero⟩))

/-! ## A run ends -/

/-- Everything that can happen in one run. -/
def events (nodes : List Node) : Finset Event :=
  insert .left ((Finset.range nodes.length).biUnion fun v =>
    {.submitted v, .taken v, .started v, .returned v, .signalled v} ∪
      (succs nodes v).toFinset.image (.decremented v))

lemma log_subset_events (h : Active g s stage) : ∀ e ∈ s.log, e ∈ events g.nodes := by
  intro e he
  cases hnode : e.node with
  | none =>
    cases e with
    | left => exact Finset.mem_insert_self _ _
    | _ => cases hnode
  | some v =>
    have hstage := h.stages v
    have hlt : v < g.nodes.length := by
      refine lt_of_released h fun hz => ?_
      rw [hz] at hstage
      exact absurd (hstage e he hnode) not_mem_nil
    refine Finset.mem_insert_of_mem (Finset.mem_biUnion.mpr ⟨v, Finset.mem_range.mpr hlt, ?_⟩)
    cases e with
    | left => cases hnode
    | decremented u w =>
      cases hnode
      -- only a worker in its loop or past it has decremented anything
      have hcalled : w ∈ succs g.nodes v := by
        have hnot : ∀ allowed : List Event, Only s.log v allowed →
            .decremented v w ∉ allowed → False :=
          fun allowed honly hnot => hnot (honly _ he rfl)
        cases hz : stage v with
        | waiting | queued => rw [hz] at hstage; exact (hnot _ hstage (by simp)).elim
        | finished => rw [hz] at hstage; exact ((hstage.1.decremented w).mp he).1
        | held t x =>
          rw [hz] at hstage
          cases x with
          | pending | called => exact (hnot _ hstage (by simp)).elim
          | inside => exact (hnot _ hstage.2 (by simp)).elim
          | looping rest => exact ((hstage.1.decremented w).mp he).1
      simp [hcalled]
    | submitted u | taken u | started u | returned u | signalled u => cases hnode; simp

lemma log_length_le (h : Active g s stage) : s.log.length ≤ (events g.nodes).card := by
  have hsub : s.log.toFinset ⊆ events g.nodes :=
    fun e he => log_subset_events h e (mem_toFinset.mp he)
  rw [← toFinset_card_of_nodup h.nodup]
  exact Finset.card_le_card hsub

lemma log_length_step {a : Act} (ha : a.isRun = false) (hs : step g s a = some s') :
    s'.log.length = s.log.length + 1 := by
  have hone : ∀ e : Event, (s.log ++ [e]).length = s.log.length + 1 := by simp
  cases a with
  | run t ok => cases ha
  | take t v =>
    rw [step] at hs
    split at hs
    · cases hs
      exact hone _
    · cases hs
  | submit t ok =>
    rw [step] at hs
    split at hs
    · cases hs
      cases ok <;> exact hone _
    · cases hs
      cases ok <;> exact hone _
    · cases hs
  | go t =>
    rw [step] at hs
    split at hs
    · rename_i top below hstack
      cases top with
      | roots rest => cases rest <;> cases hs; exact hone _
      | call v | inside v => cases hs; exact hone _
      | loop v rest => cases rest <;> cases hs <;> exact hone _
      | submit v w rest => cases hs
    · cases hs

/-- The steps that are left in a run. -/
def stepsLeft (g : Graph) (s : State) : Nat := (events g.nodes).card - s.log.length

lemma stepsLeft_lt (hwf : WellFormed g.nodes) {a : Act} (h : Inv g s) (ha : a.isRun = false)
    (hs : step g s a = some s') : stepsLeft g s' < stepsLeft g s := by
  have hlength := log_length_step ha hs
  rcases h with h | ⟨stage, h⟩
  · cases a with
    | run t ok => cases ha
    | take t v => simp [step, h.pool] at hs
    | submit t ok | go t => simp [step, h.frames] at hs
  · obtain ⟨stage', h'⟩ := active_step hwf h ha hs
    have := log_length_le h'
    rw [stepsLeft, stepsLeft]
    omega

/-- A run comes to a state in which no thread can move. -/
lemma exists_stuck (hwf : WellFormed g.nodes) (hreach : (machine g).Reach s)
    (h : Active g s stage) :
    ∃ s' stage', (machine g).Reach s' ∧ Active g s' stage' ∧ ¬ Moves g s' := by
  induction hn : stepsLeft g s using Nat.strong_induction_on generalizing s stage with
  | _ n ih =>
    by_cases hmoves : Moves g s
    · obtain ⟨a, s1, ha, hs⟩ := hmoves
      obtain ⟨stage1, h1⟩ := active_step hwf h ha hs
      have hlt := stepsLeft_lt hwf (.inr ⟨stage, h⟩) ha hs
      exact ih _ (hn ▸ hlt) (hreach.step trivial hs) h1 rfl
    · exact ⟨s, stage, hreach, h, hmoves⟩

/-! ## The contract of a run -/

/-- What holds in every state of a run: no callback starts twice, none before
those of its predecessors have returned; the count is zero exactly when every
worker has signalled, which each does after its callback has been called once
and has returned; and until then some thread can move. -/
structure Executed (g : Graph) (s : State) : Prop where
  once : ∀ v, s.log.count (.started v) ≤ 1
  order : Ordered g.nodes s.log
  zero_iff : ∀ count, s.wg = some count → (count = 0 ↔ ∀ v < g.nodes.length, .signalled v ∈ s.log)
  signalled : ∀ v, .signalled v ∈ s.log →
    s.log.count (.started v) = 1 ∧ s.log.count (.returned v) = 1
  moves : ∀ count, s.wg = some count → count ≠ 0 → Moves g s

/-- Every run of the graph, the first or a later one, is executed, and ends. -/
def Executes (g : Graph) : Prop :=
  (∀ s, (machine g).Reach s → Executed g s) ∧
    ∃ bound : State → Nat, ∀ s s' a, (machine g).Reach s → a.isRun = false →
      step g s a = some s' → bound s' < bound s

lemma executed_of_active (h : Active g s stage)
    (hmoves : ∀ count, s.wg = some count → count ≠ 0 → Moves g s) : Executed g s := by
  refine ⟨fun v => nodup_iff_count_le_one.mp h.nodup _, h.order,
    fun count hwg => wg_eq_zero_iff h hwg, fun v hv => ?_, hmoves⟩
  have hstage := h.stages v
  rw [stage_finished h hv] at hstage
  exact ⟨count_eq_one_of_mem h.nodup hstage.1.started,
    count_eq_one_of_mem h.nodup hstage.1.returned⟩

lemma executed_of_idle (h : Idle s) : Executed g s := by
  refine ⟨fun v => ?_, fun before v after hlog => ?_, fun count hwg => ?_, fun v hv => ?_,
    fun count hwg => ?_⟩
  · rw [h.log]
    exact Nat.zero_le 1
  · rw [h.log] at hlog
    simp at hlog
  · rw [h.wg] at hwg
    cases hwg
  · rw [h.log] at hv
    cases hv
  · rw [h.wg] at hwg
    cases hwg

lemma reach_begin (g : Graph) : (machine g).Reach (begin g start 0 true) := by
  have hstart : (machine g).Reach start := .init rfl
  have hstep : step g start (.run 0 true) = some (begin g start 0 true) := by
    rw [step, if_pos ⟨rfl, by decide⟩]
  exact hstart.step (a := .run 0 true) trivial hstep

/-- A cache that lacks a root keeps the run from ever ending well. -/
lemma not_executes_of_lost (hwf : WellFormed g.nodes)
    (hroots : g.roots.Sublist (zeroIds g.nodes)) (hcompiled : g.compiled = true)
    {r : Nat} (hr : r ∈ zeroIds g.nodes) (hlost : r ∉ g.roots) : ¬ Executes g := by
  intro hexecutes
  obtain ⟨hlt, hzero⟩ := mem_zeroIds.mp hr
  have hreach := reach_begin g
  obtain ⟨stage, hactive⟩ : ∃ stage, Active g (begin g start 0 true) stage := by
    have hlength : g.nodes.length ≠ 0 := by omega
    rw [begin, if_neg (by simp [hcompiled, hlength]), if_pos rfl]
    exact active_begin hwf hroots rfl fun _ => rfl
  obtain ⟨s, stage', hreach', h, hstuck⟩ := exists_stuck hwf hreach hactive
  -- the lost root is never released
  have hwaiting : stage' r = .waiting := by
    by_contra hne
    exact hlost (((h.released r).mp hne).2.2 hzero)
  refine hstuck ((hexecutes.1 s hreach').moves _ h.count fun hcount => ?_)
  have hfinished := stage_finished h ((wg_eq_zero_iff h h.count).mp hcount r hlt)
  rw [hwaiting] at hfinished
  cases hfinished

/-- **The contract of a run**: a graph that `compile` accepted is executed, in
every run and under every interleaving, exactly when its cache holds the
nodes of in-degree zero. -/
theorem run_executes_iff {ops : List Op} {o : Outcomes} {g : Graph}
    (hcompile : (Graph.build ops).compile o = .ok (0, g)) : Executes g ↔ g.HoldsRoots := by
  obtain ⟨hwf, hacyclic, hroots, hcompiled⟩ := compile_zero hcompile
  constructor
  · intro hexecutes
    have hall : zeroIds g.nodes ⊆ g.roots := by
      intro r hr
      by_contra hlost
      exact not_executes_of_lost hwf hroots hcompiled hr hlost hexecutes
    refine ⟨nodup_zeroIds.sublist hroots, fun v => ?_⟩
    rw [← mem_zeroIds_iff hwf]
    exact ⟨fun hv => hroots.subset hv, fun hv => hall hv⟩
  · intro hholds
    refine ⟨fun s hreach => ?_, stepsLeft g, fun s s' a hreach ha hs => ?_⟩
    · rcases inv_reach hwf hroots hreach with h | ⟨stage, h⟩
      · exact executed_of_idle h
      · exact executed_of_active h fun count hwg hcount =>
          moves_of_unfinished hwf hacyclic hholds h hwg hcount
    · exact stepsLeft_lt hwf (inv_reach hwf hroots hreach) ha hs

/-- Two nodes and an edge, compiled with all the memory it asks for. -/
theorem run_executes_edge :
    ∃ g, (Graph.build [.addNode true, .addNode true, .addEdge true 0 1]).compile
      ⟨true, true, true, true, fun _ => true⟩ = .ok (0, g) ∧ (Executes g ↔ g.HoldsRoots) := by
  refine ⟨⟨[⟨0, [1]⟩, ⟨1, []⟩], some ⟨true, 8, [0]⟩, true⟩, by decide, ?_⟩
  have hcompile : (Graph.build [.addNode true, .addNode true, .addEdge true 0 1]).compile
      ⟨true, true, true, true, fun _ => true⟩
        = .ok (0, ⟨[⟨0, [1]⟩, ⟨1, []⟩], some ⟨true, 8, [0]⟩, true⟩) := by decide
  exact run_executes_iff hcompile

/-- One node whose root cache could not be allocated: the run returns, the
wait group stays at one, and nothing will ever move. -/
theorem run_loses_root :
    ∃ ops o g s, (Graph.build ops).compile o = .ok (0, g) ∧ (machine g).Reach s ∧
      s.wg = some 1 ∧ s.log = [.left] ∧ ∀ a, step g s a = none := by
  let g : Graph := ⟨[⟨0, []⟩], none, true⟩
  let s : State :=
    { remaining := inDegreeOf g.nodes, wg := some 1, pool := []
      frames := Function.update (Function.update (fun _ => []) 0 [.roots []]) 0 []
      caller := none, log := [.left] }
  refine ⟨[.addNode true], ⟨true, true, false, true, fun _ => true⟩, g, s, by decide, ?_, rfl,
    rfl, fun a => ?_⟩
  · exact (reach_begin g).step (a := .go 0) trivial rfl
  · have hframes : ∀ t, s.frames t = [] := by
      intro t
      by_cases ht : t = 0
      · simp [s, ht]
      · simp [s, ht]
    cases a with
    | run t ok => simp [step, s, State.complete]
    | take t v => simp [step, s]
    | submit t ok | go t => simp [step, hframes t]

end Cobalt.TaskGraph.Run
