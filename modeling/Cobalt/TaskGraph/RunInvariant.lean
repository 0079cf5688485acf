/-
Cobalt.TaskGraph.RunInvariant — what every step of a run keeps.

Each node of the graph is in one `Stage`: it waits for its predecessors, it
is queued, some call of some thread holds it, or its worker has signalled.
`Places` says that the pool and the threads hold exactly the nodes whose
stage says so, each once; `StageOk` says which events of a node the log has
in each stage. With the counters (`degree`) and the nodes that were released
(`released`) this is the invariant `Active` of a run.
-/
import Cobalt.TaskGraph.CompileTheorems
import Cobalt.TaskGraph.Run

namespace Cobalt.TaskGraph.Run

open List
open List (Perm)
open Prod (fst)

open Function (update update_self update_of_ne)

/-! ## Stages -/

/-- What a call that holds a node has still to do with it. -/
inductive Work where
  | pending
  | called
  | inside
  | looping (rest : List Nat)

inductive Stage where
  | waiting
  | queued
  | held (t : Nat) (w : Work)
  | finished

/-- The nodes that a call holds. -/
def Frame.works : Frame → List (Nat × Work)
  | .roots rest => rest.map fun v => (v, .pending)
  | .call v => [(v, .called)]
  | .inside v => [(v, .inside)]
  | .loop v rest => [(v, .looping rest)]
  | .submit v w rest => [(v, .looping rest), (w, .pending)]

/-- The nodes that a thread holds. -/
def works (fs : List Frame) : List (Nat × Work) := fs.flatMap Frame.works

@[simp] lemma works_nil : works [] = [] := rfl

@[simp] lemma works_cons (f : Frame) (fs : List Frame) : works (f :: fs) = f.works ++ works fs :=
  rfl

variable {nodes : List Node} {pool pool' : List Nat} {frames : Nat → List Frame}
  {stage : Nat → Stage} {t u v : Nat} {x y : Work} {fs : List Frame} {others : List (Nat × Work)}

/-- The pool and the threads hold the nodes whose stage says so, each once. -/
structure Places (pool : List Nat) (frames : Nat → List Frame) (stage : Nat → Stage) : Prop where
  poolNodup : pool.Nodup
  pool_iff : ∀ v, v ∈ pool ↔ stage v = .queued
  stackNodup : ∀ t, ((works (frames t)).map Prod.fst).Nodup
  stack_iff : ∀ t v w, (v, w) ∈ works (frames t) ↔ stage v = .held t w

variable {z : Stage}

namespace Places

variable (h : Places pool frames stage)

include h

/-- A node that one thread holds, or none, goes to another stage. -/
lemma restage (hwas : ∀ t' w, stage v = .held t' w → t' = t)
    (hz : ∀ t' w, z = .held t' w → t' = t) (hpool : pool'.Nodup)
    (hpool' : ∀ u, u ∈ pool' ↔ if u = v then z = .queued else u ∈ pool)
    (hstack : ((works fs).map fst).Nodup) (hstack' : ∀ u w, (u, w) ∈ works fs ↔
      if u = v then z = .held t w else (u, w) ∈ works (frames t)) :
    Places pool' (update frames t fs) (update stage v z) := by
  refine ⟨hpool, fun u => ?_, ?_, fun t' u w => ?_⟩
  · rw [hpool' u]
    by_cases hu : u = v
    · subst hu
      rw [if_pos rfl, update_self]
    · rw [if_neg hu, update_of_ne hu, h.pool_iff]
  · exact (Function.forall_update_iff frames fun _ fs => ((works fs).map fst).Nodup).mpr
      ⟨hstack, fun t' _ => h.stackNodup t'⟩
  · by_cases ht : t' = t
    · subst ht
      rw [update_self, hstack' u w]
      by_cases hu : u = v
      · subst hu
        rw [if_pos rfl, update_self]
      · rw [if_neg hu, update_of_ne hu, h.stack_iff]
    · rw [update_of_ne ht, h.stack_iff]
      by_cases hu : u = v
      · subst hu
        rw [update_self]
        -- another thread held the node neither before nor after
        exact ⟨fun hw => absurd (hwas t' w hw) ht, fun hw => absurd (hz t' w hw) ht⟩
      · rw [update_of_ne hu]

section

variable (hperm : (works (frames t)).Perm ((v, x) :: others))

include hperm

lemma ne_of_others : v ∉ others.map fst ∧ (others.map fst).Nodup := by
  have := (hperm.map fst).nodup_iff.mp (h.stackNodup t)
  exact nodup_cons.mp this

lemma held_of_perm : stage v = .held t x :=
  (h.stack_iff t v x).mp (hperm.mem_iff.mpr mem_cons_self)

lemma work (hperm' : (works fs).Perm ((v, y) :: others)) :
    Places pool (update frames t fs) (update stage v (.held t y)) := by
  have hheld := h.held_of_perm hperm
  obtain ⟨hnot, hnodup⟩ := h.ne_of_others hperm
  refine h.restage (fun t' w hw => ?_) (fun t' w hw => ?_) h.poolNodup (fun u => ?_) ?_
    (fun u w => ?_)
  · rw [hheld] at hw
    cases hw
    rfl
  · cases hw
    rfl
  · by_cases hu : u = v
    · subst hu
      simp [h.pool_iff, hheld]
    · rw [if_neg hu]
  · exact (hperm'.map fst).nodup_iff.mpr (nodup_cons.mpr ⟨hnot, hnodup⟩)
  · rw [hperm'.mem_iff, hperm.mem_iff]
    by_cases hu : u = v
    · subst hu
      have : (u, w) ∉ others := fun hm => hnot (mem_map_of_mem hm)
      simp [this, eq_comm]
    · simp [hu]

lemma drop (hperm' : (works fs).Perm others) (hz : ∀ t' w, z ≠ .held t' w) (hpool : pool'.Nodup)
    (hpool' : ∀ u, u ∈ pool' ↔ if u = v then z = .queued else u ∈ pool) :
    Places pool' (update frames t fs) (update stage v z) := by
  have hheld := h.held_of_perm hperm
  obtain ⟨hnot, hnodup⟩ := h.ne_of_others hperm
  refine h.restage (fun t' w hw => ?_) (fun t' w hw => absurd hw (hz t' w)) hpool hpool' ?_
    (fun u w => ?_)
  · rw [hheld] at hw
    cases hw
    rfl
  · exact (hperm'.map fst).nodup_iff.mpr hnodup
  · rw [hperm'.mem_iff, hperm.mem_iff]
    by_cases hu : u = v
    · subst hu
      have : (u, w) ∉ others := fun hm => hnot (mem_map_of_mem hm)
      simp [this, hz]
    · simp [hu]

end

lemma gain (hwas : ∀ t' w, stage v ≠ .held t' w)
    (hperm' : (works fs).Perm ((v, y) :: works (frames t))) (hpool : pool'.Nodup)
    (hpool' : ∀ u, u ∈ pool' ↔ u ≠ v ∧ u ∈ pool) :
    Places pool' (update frames t fs) (update stage v (.held t y)) := by
  have hnot : v ∉ (works (frames t)).map fst := by
    intro hmem
    obtain ⟨⟨v', w⟩, hw, rfl⟩ := mem_map.mp hmem
    exact hwas t w ((h.stack_iff t v' w).mp hw)
  refine h.restage (fun t' w hw => absurd hw (hwas t' w)) (fun t' w hw => ?_) hpool (fun u => ?_)
    ?_ (fun u w => ?_)
  · cases hw
    rfl
  · rw [hpool' u]
    by_cases hu : u = v <;> simp [hu]
  · exact (hperm'.map fst).nodup_iff.mpr (nodup_cons.mpr ⟨hnot, h.stackNodup t⟩)
  · rw [hperm'.mem_iff]
    by_cases hu : u = v
    · subst hu
      have : (u, w) ∉ works (frames t) := fun hm => hnot (mem_map_of_mem hm)
      simp [this, eq_comm]
    · simp [hu]

lemma same (hworks : works fs = works (frames t)) : Places pool (update frames t fs) stage := by
  have hall : ∀ t', works (update frames t fs t') = works (frames t') := by
    intro t'
    by_cases ht : t' = t
    · subst ht
      rw [update_self, hworks]
    · rw [update_of_ne ht]
  refine ⟨h.poolNodup, h.pool_iff, fun t' => ?_, fun t' u w => ?_⟩
  · rw [hall]
    exact h.stackNodup t'
  · rw [hall]
    exact h.stack_iff t' u w

end Places

/-! ## The log -/

/-- The node whose worker an event belongs to. -/
def Event.node : Event → Option Nat
  | .submitted v | .taken v | .started v | .returned v | .decremented v _ | .signalled v => some v
  | .left => none

/-- The events of `v` in the log are among those allowed. -/
def Only (log : List Event) (v : Nat) (allowed : List Event) : Prop :=
  ∀ e ∈ log, e.node = some v → e ∈ allowed

/-- The worker of `v` has called it, and has to decrement `rest`. -/
structure Called (nodes : List Node) (log : List Event) (v : Nat) (rest : List Nat) : Prop where
  started : .started v ∈ log
  returned : .returned v ∈ log
  decremented : ∀ w, .decremented v w ∈ log ↔ w ∈ succs nodes v ∧ w ∉ rest

/-- Which events of a node the log has in a stage. -/
def StageOk (nodes : List Node) (log : List Event) (v : Nat) : Stage → Prop
  | .waiting | .held _ .pending => Only log v []
  | .queued => Only log v [.submitted v]
  | .held _ .called => Only log v [.submitted v, .taken v]
  | .held _ .inside =>
    .started v ∈ log ∧ Only log v [.submitted v, .taken v, .started v]
  | .held _ (.looping rest) =>
    Called nodes log v rest ∧ .signalled v ∉ log ∧ rest.Nodup ∧ ∀ w ∈ rest, w ∈ succs nodes v
  | .finished => Called nodes log v [] ∧ .signalled v ∈ log

variable {log : List Event} {e : Event} {allowed : List Event}

lemma Only.notMem (h : Only log v allowed) (hnode : e.node = some v) (hnot : e ∉ allowed) :
    e ∉ log :=
  fun he => hnot (h e he hnode)

lemma Only.mono {allowed' : List Event} (h : Only log v allowed)
    (hsub : ∀ e ∈ allowed, e ∈ allowed') : Only log v allowed' :=
  fun e he hnode => hsub e (h e he hnode)

/-- An event of the node joins the log. -/
lemma Only.snoc (h : Only log v allowed) (e : Event) : Only (log ++ [e]) v (allowed ++ [e]) := by
  intro f hf hnode
  rcases mem_append.mp hf with hf | hf
  · exact mem_append_left _ (h f hf hnode)
  · exact mem_append_right _ hf

lemma mem_snoc_of_node {f : Event} (hf : f.node = some v) (he : e.node ≠ some v) :
    f ∈ log ++ [e] ↔ f ∈ log := by
  have hne : f ≠ e := fun heq => he (heq ▸ hf)
  rw [mem_append, mem_singleton]
  exact ⟨fun h => h.resolve_right hne, .inl⟩

lemma Only.other (h : Only log v allowed) (he : e.node ≠ some v) : Only (log ++ [e]) v allowed :=
  fun f hf hnode => h f ((mem_snoc_of_node hnode he).mp hf) hnode

lemma Called.other {rest : List Nat} (h : Called nodes log v rest) (he : e.node ≠ some v) :
    Called nodes (log ++ [e]) v rest := by
  refine ⟨mem_append_left _ h.started, mem_append_left _ h.returned, fun w => ?_⟩
  have hnode : (Event.decremented v w).node = some v := rfl
  rw [mem_snoc_of_node hnode he]
  exact h.decremented w

lemma StageOk.other (h : StageOk nodes log v z) (he : e.node ≠ some v) :
    StageOk nodes (log ++ [e]) v z := by
  have hsignalled : (Event.signalled v).node = some v := rfl
  cases z with
  | waiting | queued => exact Only.other h he
  | finished => exact ⟨h.1.other he, mem_append_left _ h.2⟩
  | held t w =>
    cases w with
    | pending | called => exact Only.other h he
    | inside => exact ⟨mem_append_left _ h.1, h.2.other he⟩
    | looping rest =>
      exact ⟨h.1.other he, by rw [mem_snoc_of_node hsignalled he]; exact h.2.1, h.2.2⟩

/-- One node moves on with an event of its own. -/
lemma stageOk_update (h : ∀ u, StageOk nodes log u (stage u)) (hnode : e.node = some v)
    (hv : StageOk nodes (log ++ [e]) v z) :
    ∀ u, StageOk nodes (log ++ [e]) u (update stage v z u) := by
  refine (Function.forall_update_iff stage _).mpr ⟨hv, fun u hu => (h u).other fun heq => hu ?_⟩
  rw [hnode] at heq
  exact (Option.some.inj heq).symm

lemma StageOk.returned_of_decremented {w : Nat} (h : StageOk nodes log v z)
    (hdec : .decremented v w ∈ log) : .returned v ∈ log := by
  have hnot : ∀ allowed : List Event, Only log v allowed → .decremented v w ∉ allowed → False :=
    fun allowed honly hnot => hnot (honly _ hdec rfl)
  cases z with
  | waiting | queued => exact absurd h fun h => hnot _ h (by simp)
  | finished => exact h.1.returned
  | held t x =>
    cases x with
    | pending | called => exact absurd h fun h => hnot _ h (by simp)
    | inside => exact absurd h.2 fun h => hnot _ h (by simp)
    | looping rest => exact h.1.returned

/-- The predecessors of `v` that have not decremented its counter. -/
def undone (nodes : List Node) (log : List Event) (v : Nat) : Finset Nat :=
  (Finset.range nodes.length).filter fun u => v ∈ succs nodes u ∧ .decremented u v ∉ log

lemma mem_undone : u ∈ undone nodes log v ↔ v ∈ succs nodes u ∧ .decremented u v ∉ log := by
  rw [undone, Finset.mem_filter, Finset.mem_range]
  exact ⟨fun h => h.2, fun h => ⟨lt_of_edge h.1, h⟩⟩

lemma card_undone_le : (undone nodes log v).card ≤ nodes.length :=
  (Finset.card_filter_le _ _).trans (Finset.card_range _).le

/-- Only a decrement changes who has not decremented. -/
lemma undone_snoc (he : ∀ u, e ≠ .decremented u v) :
    undone nodes (log ++ [e]) v = undone nodes log v := by
  ext u
  rw [mem_undone, mem_undone, mem_append, mem_singleton]
  simp [(he u).symm]

lemma undone_decremented {w : Nat} (hw : w ∈ succs nodes v) (hnot : .decremented v w ∉ log) :
    (undone nodes log w).card = (undone nodes (log ++ [.decremented v w]) w).card + 1 := by
  have hinsert : undone nodes log w
      = insert v (undone nodes (log ++ [.decremented v w]) w) := by
    ext u
    rw [Finset.mem_insert, mem_undone, mem_undone, mem_append, mem_singleton]
    by_cases hu : u = v
    · subst hu
      simp [hw, hnot]
    · simp [hu]
  rw [hinsert, Finset.card_insert_of_notMem]
  simp [mem_undone]

/-! ## The call of run -/

def Frame.isRoots : Frame → Bool
  | .roots _ => true
  | _ => false

/-- The call of `cobalt_taskgraph_run` is the outermost one of its thread. -/
structure Callers (s : State) : Prop where
  caller_iff : ∀ t, (∃ f ∈ s.frames t, f.isRoots = true) ↔ s.caller = some t
  bottom : ∀ t, (s.frames t).Pairwise fun f _ => f.isRoots = false
  left_iff : .left ∈ s.log ↔ s.caller = none

variable {s : State} {f f' : Frame} {below : List Frame}

variable {s' : State}

lemma Callers.step (h : Callers s) (hframes : s'.frames = update s.frames t fs)
    (hlog : s'.log = s.log ++ [e]) (hcaller : s'.caller = s.caller) (hleft : e ≠ .left)
    (hroots : (∃ f ∈ fs, f.isRoots = true) ↔ ∃ f ∈ s.frames t, f.isRoots = true)
    (hbottom : fs.Pairwise fun f _ => f.isRoots = false) : Callers s' := by
  refine ⟨fun t' => ?_, fun t' => ?_, ?_⟩
  · rw [hframes, hcaller, ← h.caller_iff]
    by_cases ht : t' = t
    · subst ht
      rw [update_self, hroots]
    · rw [update_of_ne ht]
  · rw [hframes]
    exact (Function.forall_update_iff s.frames fun _ fs => fs.Pairwise _).mpr
      ⟨hbottom, fun t' _ => h.bottom t'⟩ t'
  · rw [hlog, hcaller, ← h.left_iff, mem_append, mem_singleton]
    exact ⟨fun h => h.resolve_right hleft.symm, .inl⟩

lemma Callers.top (h : Callers s) (hstack : s.frames t = f :: below)
    (hframes : s'.frames = update s.frames t (f' :: below)) (hlog : s'.log = s.log ++ [e])
    (hcaller : s'.caller = s.caller) (hleft : e ≠ .left) (hf : f'.isRoots = f.isRoots) :
    Callers s' := by
  refine h.step hframes hlog hcaller hleft ?_ ?_
  · rw [hstack]
    simp [hf]
  · have hbottom := h.bottom t
    rw [hstack, pairwise_cons] at hbottom
    exact pairwise_cons.mpr ⟨fun g hg => hf.trans (hbottom.1 g hg), hbottom.2⟩

lemma Callers.nest (h : Callers s) {f'' : Frame} (hstack : s.frames t = f :: below)
    (hframes : s'.frames = update s.frames t (f'' :: f' :: below)) (hlog : s'.log = s.log ++ [e])
    (hcaller : s'.caller = s.caller) (hleft : e ≠ .left) (hf : f'.isRoots = f.isRoots)
    (hf'' : f''.isRoots = false) : Callers s' := by
  refine h.step hframes hlog hcaller hleft ?_ ?_
  · rw [hstack]
    simp [hf, hf'']
  · have hbottom := h.bottom t
    rw [hstack, pairwise_cons] at hbottom
    exact pairwise_cons.mpr ⟨fun _ _ => hf'',
      pairwise_cons.mpr ⟨fun g hg => hf.trans (hbottom.1 g hg), hbottom.2⟩⟩

lemma Callers.pop (h : Callers s) (hstack : s.frames t = f :: below)
    (hframes : s'.frames = update s.frames t below) (hlog : s'.log = s.log ++ [e])
    (hcaller : s'.caller = s.caller) (hleft : e ≠ .left) (hf : f.isRoots = false) : Callers s' := by
  refine h.step hframes hlog hcaller hleft ?_ ?_
  · rw [hstack]
    simp [hf]
  · have hbottom := h.bottom t
    rw [hstack, pairwise_cons] at hbottom
    exact hbottom.2

/-! ## The invariant of a run -/

/-- Every callback starts after those of its predecessors have returned. -/
def Ordered (nodes : List Node) (log : List Event) : Prop :=
  ∀ before v after, log = before ++ .started v :: after →
    ∀ u, v ∈ succs nodes u → .returned u ∈ before

lemma Ordered.snoc (h : Ordered nodes log)
    (he : ∀ v, e = .started v → ∀ u, v ∈ succs nodes u → .returned u ∈ log) :
    Ordered nodes (log ++ [e]) := by
  intro before v after hlog u hu
  rcases eq_nil_or_concat after with rfl | ⟨front, last, rfl⟩
  · obtain ⟨hbefore, hv⟩ := append_inj' hlog rfl
    exact hbefore ▸ he v (singleton_inj.mp hv) u hu
  · rw [concat_eq_append, ← cons_append, ← append_assoc] at hlog
    exact h before v front (append_inj' hlog rfl).1 u hu

/-- The nodes whose worker has signalled. -/
def signalledIds (nodes : List Node) (log : List Event) : Finset Nat :=
  (Finset.range nodes.length).filter fun v => .signalled v ∈ log

/-- A node that may start, or has: its counter is zero, and it is a cached
root if it has no predecessor. -/
def Released (g : Graph) (s : State) (v : Nat) : Prop :=
  v < g.nodes.length ∧ s.remaining v = 0 ∧ (inDegreeOf g.nodes v = 0 → v ∈ g.roots)

/-- A run is going on, or is over. -/
structure Active (g : Graph) (s : State) (stage : Nat → Stage) : Prop where
  places : Places s.pool s.frames stage
  stages : ∀ v, StageOk g.nodes s.log v (stage v)
  released : ∀ v, stage v ≠ .waiting ↔ Released g s v
  degree : ∀ v < g.nodes.length, s.remaining v = (undone g.nodes s.log v).card
  count : s.wg = some (g.nodes.length - (signalledIds g.nodes s.log).card : Int)
  nodup : s.log.Nodup
  order : Ordered g.nodes s.log
  callers : Callers s

variable {g : Graph}

lemma signalledIds_snoc (he : ∀ v, e ≠ .signalled v) :
    signalledIds nodes (log ++ [e]) = signalledIds nodes log := by
  ext v
  simp [signalledIds, (he v).symm]

section

variable (h : Active g s stage)

include h

/-- A step that is no decrement and no signal: one node goes on to a stage in
which it is released as before. -/
lemma Active.event (hremaining : s'.remaining = s.remaining) (hwg : s'.wg = s.wg)
    (hlog : s'.log = s.log ++ [e]) (hplaces : Places s'.pool s'.frames (update stage v z))
    (hcallers : Callers s') (hnode : e.node = some v) (hstage : StageOk g.nodes (s.log ++ [e]) v z)
    (hfresh : e ∉ s.log) (hwas : stage v ≠ .waiting) (hz : z ≠ .waiting)
    (hdec : ∀ u w, e ≠ .decremented u w) (hsignal : ∀ u, e ≠ .signalled u)
    (hstart : ∀ u, e = .started u → ∀ p, u ∈ succs g.nodes p → .returned p ∈ s.log) :
    Active g s' (update stage v z) := by
  refine ⟨hplaces, ?_, fun u => ?_, fun u hu => ?_, ?_, ?_, ?_, hcallers⟩
  · rw [hlog]
    exact stageOk_update h.stages hnode hstage
  · rw [Released, hremaining, ← Released, ← h.released]
    by_cases hu : u = v
    · subst hu
      rw [update_self]
      exact iff_of_true hz hwas
    · rw [update_of_ne hu]
  · rw [hremaining, hlog, undone_snoc fun w => hdec w u]
    exact h.degree u hu
  · rw [hwg, hlog, signalledIds_snoc hsignal]
    exact h.count
  · rw [hlog]
    exact nodup_concat h.nodup hfresh
  · rw [hlog]
    exact h.order.snoc hstart

/-! ## The steps -/

lemma Active.holds (hstack : s.frames t = f :: below) (hworks : f.works = [(v, x)]) :
    (works (s.frames t)).Perm ((v, x) :: works below) ∧ stage v = .held t x ∧
      StageOk g.nodes s.log v (.held t x) := by
  have hperm : (works (s.frames t)).Perm ((v, x) :: works below) := by
    rw [hstack, works_cons, hworks]
    exact .refl _
  have hheld := h.places.held_of_perm hperm
  exact ⟨hperm, hheld, hheld ▸ h.stages v⟩

lemma Active.take (hidle : s.frames t = []) (hv : v ∈ s.pool) :
    Active g (({ s with pool := s.pool.erase v } : State).setStack t [.call v] (.taken v))
      (update stage v (.held t .called)) := by
  have hqueued := (h.places.pool_iff v).mp hv
  have honly : Only s.log v [.submitted v] := by
    have := h.stages v
    rwa [hqueued] at this
  have hgain : Places (s.pool.erase v) (update s.frames t [.call v])
      (update stage v (.held t .called)) := by
    refine h.places.gain (fun t' w => by rw [hqueued]; simp) ?_ (h.places.poolNodup.erase v)
      (fun u => h.places.poolNodup.mem_erase_iff)
    rw [hidle]
    exact Perm.refl _
  have hcallers : Callers (({ s with pool := s.pool.erase v } : State).setStack t
      [.call v] (.taken v)) :=
    h.callers.step rfl rfl rfl (by simp) (by simp [hidle, Frame.isRoots]) (by simp)
  exact h.event rfl rfl rfl hgain hcallers rfl (honly.snoc (.taken v))
    (honly.notMem rfl (by simp)) (by rw [hqueued]; simp) (by simp) (by simp) (by simp) (by simp)

lemma Active.submit (hstack : s.frames t = f :: below)
    (hworks : f.works.Perm ((v, .pending) :: f'.works)) (hroots : f'.isRoots = f.isRoots)
    (ok : Bool) : ∃ stage', Active g (submit s t v ok (f' :: below)) stage' := by
  have hperm : (works (s.frames t)).Perm ((v, .pending) :: works (f' :: below)) := by
    rw [hstack, works_cons, works_cons, ← cons_append]
    exact hworks.append_right _
  have hheld := h.places.held_of_perm hperm
  have honly : Only s.log v [] := by
    have := h.stages v
    rwa [hheld] at this
  have hwas : stage v ≠ .waiting := by rw [hheld]; simp
  have hnotpool : v ∉ s.pool := by
    rw [h.places.pool_iff, hheld]
    simp
  have hfresh : Event.submitted v ∉ s.log := honly.notMem rfl (by simp)
  cases ok with
  | true =>
    have hdrop : Places (s.pool ++ [v]) (update s.frames t (f' :: below))
        (update stage v .queued) := by
      refine h.places.drop hperm (Perm.refl _) (by simp) ?_ (fun u => ?_)
      · exact nodup_concat h.places.poolNodup hnotpool
      · by_cases hu : u = v <;> simp [hu]
    exact ⟨_, h.event rfl rfl rfl hdrop (h.callers.top hstack rfl rfl rfl (by simp) hroots) rfl
      (honly.snoc (.submitted v)) hfresh hwas (by simp) (by simp) (by simp) (by simp)⟩
  | false =>
    have hwork : Places s.pool (update s.frames t (.call v :: f' :: below))
        (update stage v (.held t .called)) := h.places.work hperm (Perm.refl _)
    refine ⟨_, h.event rfl rfl rfl hwork
      (h.callers.nest hstack rfl rfl rfl (by simp) hroots rfl) rfl
      ((honly.snoc (.submitted v)).mono ?_) hfresh hwas (by simp) (by simp) (by simp) (by simp)⟩
    simp

/-- A node whose counter is zero starts after its predecessors have returned. -/
lemma Active.returned_of_released (hv : stage v ≠ .waiting) {p : Nat}
    (hp : v ∈ succs g.nodes p) : .returned p ∈ s.log := by
  obtain ⟨hlt, hzero, -⟩ := (h.released v).mp hv
  have hcard := h.degree v hlt
  rw [hzero, eq_comm, Finset.card_eq_zero] at hcard
  refine (h.stages p).returned_of_decremented (w := v) ?_
  by_contra hnot
  have : p ∈ undone g.nodes s.log v := mem_undone.mpr ⟨hp, hnot⟩
  rw [hcard] at this
  cases this

lemma Active.call (hstack : s.frames t = .call v :: below) :
    Active g (s.setStack t (.inside v :: below) (.started v))
      (update stage v (.held t .inside)) := by
  obtain ⟨hperm, hheld, honly⟩ := h.holds hstack rfl
  have hwas : stage v ≠ .waiting := by rw [hheld]; simp
  refine h.event rfl rfl rfl (h.places.work hperm (.refl _))
    (h.callers.top hstack rfl rfl rfl (by simp) rfl) rfl ⟨by simp, Only.snoc honly (.started v)⟩
    (Only.notMem honly rfl (by simp)) hwas (by simp) (by simp) (by simp) ?_
  intro u hu p hp
  cases hu
  exact h.returned_of_released hwas hp

lemma Active.inside (hwf : WellFormed g.nodes) (hstack : s.frames t = .inside v :: below) :
    Active g (s.setStack t (.loop v (succs g.nodes v) :: below) (.returned v))
      (update stage v (.held t (.looping (succs g.nodes v)))) := by
  obtain ⟨hperm, hheld, hstarted, honly⟩ := h.holds hstack rfl
  have hnotdec : ∀ w, Event.decremented v w ∉ s.log := fun w => honly.notMem rfl (by simp)
  have hnotsignalled : Event.signalled v ∉ s.log := honly.notMem rfl (by simp)
  refine h.event rfl rfl rfl (h.places.work hperm (.refl _))
    (h.callers.top hstack rfl rfl rfl (by simp) rfl) rfl
    ⟨⟨by simp [hstarted], by simp, fun w => ?_⟩, by simp [hnotsignalled], hwf.nodup v,
      fun w hw => hw⟩ (honly.notMem rfl (by simp)) (by rw [hheld]; simp) (by simp) (by simp)
    (by simp) (by simp)
  simp [hnotdec w]

lemma lt_of_released (hv : stage v ≠ .waiting) : v < g.nodes.length := ((h.released v).mp hv).1

/-- The counter of `w` holds what is left after the worker of `v` took one. -/
lemma Active.degree_decremented {w : Nat} (hwf : WellFormed g.nodes)
    (hw : w ∈ succs g.nodes v) (hnot : .decremented v w ∉ s.log) :
    ∀ u < g.nodes.length, update s.remaining w (decr (s.remaining w)) u
      = (undone g.nodes (s.log ++ [.decremented v w]) u).card := by
  intro u hu
  by_cases huw : u = w
  · subst huw
    have hcard := undone_decremented hw hnot
    have hdegree := h.degree u hu
    have hle : (undone g.nodes s.log u).card ≤ g.nodes.length := card_undone_le
    have hsize := hwf.size
    rw [maxCap] at hsize
    rw [update_self, hdegree, hcard, decr_succ (by omega)]
  · rw [update_of_ne huw, undone_snoc fun p heq => huw ?_]
    · exact h.degree u hu
    · cases heq
      rfl

/-- A worker decrements a counter, and holds the successor if it was the last. -/
lemma Active.decrement {w : Nat} {rest : List Nat}
    (hwf : WellFormed g.nodes) (hstack : s.frames t = .loop v (w :: rest) :: below) :
    ∃ stage', Active g (({ s with
        remaining := update s.remaining w (decr (s.remaining w)) } : State).setStack t
      ((if s.remaining w = 1 then Frame.submit v w rest else Frame.loop v rest) :: below)
      (.decremented v w)) stage' := by
  obtain ⟨hperm, hheld, hcalled, hsignalled, hnodup, hsub⟩ := h.holds hstack rfl
  obtain ⟨hnotrest, hnodup'⟩ := nodup_cons.mp hnodup
  have hw : w ∈ succs g.nodes v := hsub w mem_cons_self
  have hfresh : Event.decremented v w ∉ s.log :=
    fun hdec => ((hcalled.decremented w).mp hdec).2 mem_cons_self
  have hpos : s.remaining w ≠ 0 := by
    have hcard := undone_decremented hw hfresh
    have hdegree := h.degree w (hwf.bound v w hw)
    omega
  have hwait : stage w = .waiting := by
    by_contra hne
    exact hpos ((h.released w).mp hne).2.1
  have hwv : w ≠ v := by
    rintro rfl
    rw [hheld] at hwait
    cases hwait
  have hstage : StageOk g.nodes (s.log ++ [.decremented v w]) v (.held t (.looping rest)) := by
    refine ⟨⟨by simp [hcalled.started], by simp [hcalled.returned], fun x => ?_⟩,
      by simp [hsignalled], hnodup', fun x hx => hsub x (mem_cons_of_mem _ hx)⟩
    rw [mem_append, hcalled.decremented, mem_singleton]
    by_cases hx : x = w
    · subst hx
      simp [hw, hnotrest]
    · simp [hx]
  have hstages := stageOk_update h.stages (e := .decremented v w) rfl hstage
  have hcount : s.wg = some (g.nodes.length
      - (signalledIds g.nodes (s.log ++ [.decremented v w])).card : Int) := by
    rw [signalledIds_snoc (by simp)]
    exact h.count
  have hlog := nodup_concat h.nodup hfresh
  have horder : Ordered g.nodes (s.log ++ [.decremented v w]) := h.order.snoc (by simp)
  have hdegree := h.degree_decremented hwf hw hfresh
  have hfirst : Places s.pool (update s.frames t (.loop v rest :: below))
      (update stage v (.held t (.looping rest))) := h.places.work hperm (.refl _)
  -- the other nodes are released as before
  have hothers : ∀ u, u ≠ w → (update stage v (.held t (.looping rest)) u ≠ .waiting ↔
      u < g.nodes.length ∧ update s.remaining w (decr (s.remaining w)) u = 0 ∧
        (inDegreeOf g.nodes u = 0 → u ∈ g.roots)) := by
    intro u hu
    rw [update_of_ne hu, ← Released, ← h.released]
    by_cases huv : u = v
    · subst huv
      rw [update_self, hheld]
      simp
    · rw [update_of_ne huv]
  by_cases hlast : s.remaining w = 1
  · -- the last decrement: `w` is released, and this thread holds it
    rw [if_pos hlast]
    have hplaces : Places s.pool (update s.frames t (.submit v w rest :: below))
        (update (update stage v (.held t (.looping rest))) w
          (.held t .pending)) := by
      have hnotpool : ∀ u, u ∈ s.pool ↔ u ≠ w ∧ u ∈ s.pool := by
        refine fun u => ⟨fun hu => ⟨?_, hu⟩, fun hu => hu.2⟩
        rintro rfl
        rw [h.places.pool_iff, hwait] at hu
        cases hu
      rw [← Function.update_idem (f := s.frames) (a := t) (v := .loop v rest :: below)]
      refine hfirst.gain (by simp [hwv, hwait]) ?_ hfirst.poolNodup hnotpool
      rw [update_self]
      exact Perm.swap _ _ _
    refine ⟨_, hplaces, fun u => ?_, fun u => ?_, hdegree, hcount, hlog, horder,
      h.callers.top hstack rfl rfl rfl (by simp) rfl⟩
    · by_cases hu : u = w
      · subst hu
        have := hstages u
        rw [update_of_ne hwv, hwait] at this
        rw [update_self]
        exact this
      · rw [update_of_ne hu]
        exact hstages u
    · by_cases hu : u = w
      · subst hu
        rw [update_self]
        refine iff_of_true (by simp) ⟨hwf.bound v u hw, ?_, fun hzero => ?_⟩
        · change update s.remaining u (decr (s.remaining u)) u = 0
          rw [update_self, hlast]
          decide
        · -- a node with a predecessor is no root
          rw [hwf.degree, Finset.card_eq_zero] at hzero
          have : v ∈ waiting g.nodes [] u := mem_waiting.mpr ⟨not_mem_nil, hw⟩
          rw [hzero] at this
          cases this
      · rw [update_of_ne hu]
        exact hothers u hu
  · rw [if_neg hlast]
    refine ⟨_, hfirst, hstages, fun u => ?_, hdegree, hcount, hlog, horder,
      h.callers.top hstack rfl rfl rfl (by simp) rfl⟩
    by_cases hu : u = w
    · subst hu
      rw [update_of_ne hwv, hwait]
      refine iff_of_false (by simp) fun hreleased => ?_
      have hzero : update s.remaining u (decr (s.remaining u)) u = 0 := hreleased.2.1
      have hle : (undone g.nodes s.log u).card ≤ g.nodes.length := card_undone_le
      have hcard := h.degree u (hwf.bound v u hw)
      have hsize := hwf.size
      rw [maxCap] at hsize
      rw [update_self, decr] at hzero
      omega
    · exact hothers u hu

lemma Active.signal (hstack : s.frames t = .loop v [] :: below) :
    Active g (({ s with wg := s.wg.map fun count => count - 1 } : State).setStack t below
      (.signalled v)) (update stage v .finished) := by
  obtain ⟨hperm, hheld, hcalled, hfresh, -⟩ := h.holds hstack rfl
  have hwas : stage v ≠ .waiting := by rw [hheld]; simp
  have hplaces : Places s.pool (update s.frames t below)
      (update stage v .finished) := by
    refine h.places.drop hperm (Perm.refl _) (by simp) h.places.poolNodup fun u => ?_
    by_cases hu : u = v
    · subst hu
      simp [h.places.pool_iff, hheld]
    · rw [if_neg hu]
  have hcard : (signalledIds g.nodes (s.log ++ [.signalled v])).card
      = (signalledIds g.nodes s.log).card + 1 := by
    have hinsert : signalledIds g.nodes (s.log ++ [.signalled v])
        = insert v (signalledIds g.nodes s.log) := by
      ext u
      by_cases hu : u = v
      · subst hu
        simp [signalledIds, lt_of_released h hwas]
      · simp [signalledIds, hu]
    rw [hinsert, Finset.card_insert_of_notMem]
    simp [signalledIds, hfresh]
  have hcount : (s.wg.map fun count => count - 1) = some (g.nodes.length
      - (signalledIds g.nodes (s.log ++ [.signalled v])).card : Int) := by
    rw [h.count, hcard, Option.map_some]
    congr 1
    omega
  refine ⟨hplaces, ?_, fun u => ?_, fun u hu => ?_, hcount, nodup_concat h.nodup hfresh,
    h.order.snoc (by simp), h.callers.pop hstack rfl rfl rfl (by simp) rfl⟩
  · refine stageOk_update h.stages rfl ⟨⟨by simp [hcalled.started], by simp [hcalled.returned],
      fun w => ?_⟩, by simp⟩
    rw [mem_append, hcalled.decremented]
    simp
  · change _ ↔ Released g s u
    rw [← h.released]
    by_cases hu : u = v
    · subst hu
      rw [update_self, hheld]
      simp
    · rw [update_of_ne hu]
  · change s.remaining u = (undone g.nodes (s.log ++ [.signalled v]) u).card
    rw [undone_snoc (by simp)]
    exact h.degree u hu

lemma Active.leave (hstack : s.frames t = .roots [] :: below) :
    Active g (({ s with caller := none } : State).setStack t below .left) stage := by
  have hbottom := h.callers.bottom t
  rw [hstack, pairwise_cons] at hbottom
  -- nothing is below the call
  have hbelow : below = [] := by
    cases below with
    | nil => rfl
    | cons f below => exact absurd (hbottom.1 f mem_cons_self) (by simp [Frame.isRoots])
  subst hbelow
  have hcaller : s.caller = some t :=
    (h.callers.caller_iff t).mp ⟨.roots [], by rw [hstack]; exact mem_cons_self, rfl⟩
  have hfresh : Event.left ∉ s.log := by
    rw [h.callers.left_iff, hcaller]
    simp
  have hplaces : Places s.pool (update s.frames t []) stage := h.places.same (by rw [hstack]; rfl)
  have hcount : s.wg = some (g.nodes.length
      - (signalledIds g.nodes (s.log ++ [.left])).card : Int) := by
    rw [signalledIds_snoc (by simp)]
    exact h.count
  refine ⟨hplaces, fun u => (h.stages u).other (by simp [Event.node]), h.released,
    fun u hu => ?_, hcount, nodup_concat h.nodup hfresh, h.order.snoc (by simp), ?_⟩
  · change s.remaining u = (undone g.nodes (s.log ++ [.left]) u).card
    rw [undone_snoc (by simp)]
    exact h.degree u hu
  · refine ⟨fun t' => ?_, fun t' => ?_, by simp⟩
    · change (∃ f ∈ update s.frames t [] t', f.isRoots = true) ↔ none = some t'
      by_cases ht : t' = t
      · subst ht
        simp
      · rw [update_of_ne ht, h.callers.caller_iff, hcaller]
        simp [Ne.symm ht]
    · change (update s.frames t [] t').Pairwise _
      by_cases ht : t' = t
      · subst ht
        simp
      · rw [update_of_ne ht]
        exact h.callers.bottom t'

end

/-- Every step of a thread keeps the invariant of the run. -/
lemma active_step (hwf : WellFormed g.nodes) {a : Act} (h : Active g s stage)
    (ha : a.isRun = false) (hs : step g s a = some s') : ∃ stage', Active g s' stage' := by
  cases a with
  | run t ok => cases ha
  | take t v =>
    rw [step] at hs
    split at hs
    · rename_i hok
      cases hs
      exact ⟨_, h.take hok.1 hok.2⟩
    · cases hs
  | submit t ok =>
    rw [step] at hs
    split at hs
    · rename_i v rest below hstack
      cases hs
      have hworks : (Frame.roots (v :: rest)).works.Perm
          ((v, .pending) :: (Frame.roots rest).works) := Perm.refl _
      exact h.submit hstack hworks rfl ok
    · rename_i v w rest below hstack
      cases hs
      have hworks : (Frame.submit v w rest).works.Perm
          ((w, .pending) :: (Frame.loop v rest).works) := Perm.swap _ _ _
      exact h.submit hstack hworks rfl ok
    · cases hs
  | go t =>
    rw [step] at hs
    split at hs
    · rename_i top below hstack
      cases top with
      | roots rest =>
        cases rest with
        | nil =>
          cases hs
          exact ⟨_, h.leave hstack⟩
        | cons v rest => cases hs
      | call v =>
        cases hs
        exact ⟨_, h.call hstack⟩
      | inside v =>
        cases hs
        exact ⟨_, h.inside hwf hstack⟩
      | loop v rest =>
        cases rest with
        | nil =>
          cases hs
          exact ⟨_, h.signal hstack⟩
        | cons w rest =>
          cases hs
          exact h.decrement hwf hstack
      | submit v w rest => cases hs
    · cases hs

end Cobalt.TaskGraph.Run
