/-
Cobalt.TaskGraph.CompileTheorems — when `compile` keeps its promise.

Up to the count of Kahn's loop `compile` is right whatever the allocations
do. After it the root cache is rebuilt without a look at the allocations:
a null vector swallows every root, an array that was not allocated is
written through, and a push that cannot grow the vector drops its root,
while `compile` returns 0 all the same. `compile_correct_iff` says exactly
which outcomes keep the promise.
-/
import Cobalt.TaskGraph.Kahn

namespace Cobalt.TaskGraph

open List Finset

variable {nodes : List Node} {o : Outcomes}

/-! ## The root cache -/

/-- A push on a vector of the cache that holds `size` ids has to grow it. -/
def Grows (size : Nat) : Prop := ∃ j, size = 8 * 2 ^ j

/-- The capacity of the cache once `size` ids are in it. -/
inductive Sized : Nat → Nat → Prop where
  | first {size : Nat} (h : size ≤ 8) : Sized 8 size
  | doubled {size : Nat} (j : Nat) (hj : j < 57) (hlow : 8 * 2 ^ j < size)
      (hhigh : size ≤ 8 * 2 ^ (j + 1)) : Sized (8 * 2 ^ (j + 1)) size
  | clamped {size : Nat} (hlow : 2 ^ 60 < size) (hhigh : size ≤ maxCap) : Sized maxCap size

variable {size capacity id : Nat}

lemma not_grows_between {j : Nat} (hlow : 8 * 2 ^ j < size) (hhigh : size < 8 * 2 ^ (j + 1)) :
    ¬ Grows size := by
  rintro ⟨i, rfl⟩
  have hj : 2 ^ j < 2 ^ i := by omega
  have hi : 2 ^ i < 2 ^ (j + 1) := by omega
  have := (Nat.pow_lt_pow_iff_right (by decide : 1 < 2)).mp hj
  have := (Nat.pow_lt_pow_iff_right (by decide : 1 < 2)).mp hi
  omega

lemma Sized.full_iff (h : Sized capacity size) (hsize : size < maxCap) :
    capacity ≤ size ↔ Grows size := by
  cases h with
  | first h =>
    constructor
    · intro hfull
      exact ⟨0, by omega⟩
    · rintro ⟨j, rfl⟩
      have := Nat.one_le_two_pow (n := j)
      omega
  | doubled j hj hlow hhigh =>
    constructor
    · intro hfull
      exact ⟨j + 1, by omega⟩
    · intro hgrows
      by_contra hnot
      exact not_grows_between hlow (by omega) hgrows
  | clamped hlow hhigh =>
    refine ⟨fun hfull => absurd hfull (by omega), fun hgrows => absurd hgrows ?_⟩
    refine not_grows_between (j := 57) (by omega) ?_
    rw [maxCap] at hsize
    omega

lemma Sized.push (h : Sized capacity size) (hroom : size < capacity) :
    Sized capacity (size + 1) := by
  cases h with
  | first h => exact .first (by omega)
  | doubled j hj hlow hhigh => exact .doubled j hj (by omega) (by omega)
  | clamped hlow hhigh => exact .clamped (by omega) (by omega)

lemma Sized.grow (h : Sized capacity size) (hfull : capacity ≤ size) (hsize : size < maxCap) :
    Sized (newCap capacity) (size + 1) := by
  cases h with
  | first h =>
    have : newCap 8 = 8 * 2 ^ (0 + 1) := by decide
    rw [this]
    exact .doubled 0 (by decide) (by omega) (by omega)
  | doubled j hj hlow hhigh =>
    by_cases hlast : j = 56
    · subst hlast
      have : newCap (8 * 2 ^ (56 + 1)) = maxCap := by decide
      rw [this]
      exact .clamped (by omega) (by omega)
    · have hpow : 2 ^ (j + 1) ≤ 2 ^ 56 := Nat.pow_le_pow_right (by decide) (by omega)
      have : newCap (8 * 2 ^ (j + 1)) = 8 * 2 ^ (j + 1 + 1) := by
        rw [newCap, if_neg (by omega), if_neg (by rw [maxCap]; omega)]
        omega
      rw [this]
      exact .doubled (j + 1) (by omega) (by omega) (by omega)
  | clamped hlow hhigh => omega

lemma lt_newCap (h : Sized capacity size) (hfull : capacity ≤ size) (hsize : size < maxCap) :
    size < newCap capacity := by
  have hgrow := h.grow hfull hsize
  generalize newCap capacity = c at hgrow
  cases hgrow <;> omega

/-- The pushes of `ids` into `v` store some of them, and all of them exactly
when the vector grows each time it has to. -/
def Filled (o : Outcomes) (v : Vec) (ids : List Nat) : Prop :=
  ∃ v' stored, cacheRoots o (some v) ids = .ok (some v') ∧ v'.data = v.data ++ stored ∧
    stored.Sublist ids ∧ (stored = ids ↔
      ∀ i id, ids[i]? = some id → Grows (v.data.length + i) → o.grow id = true)

variable {ids : List Nat}

lemma Filled.store {v v1 : Vec} (h : Filled o v1 ids)
    (hpush : vectorPush (some v) (o.grow id) id = .ok (0, some v1))
    (hdata : v1.data = v.data ++ [id]) (hok : Grows v.data.length → o.grow id = true) :
    Filled o v (id :: ids) := by
  have hlen : v1.data.length = v.data.length + 1 := by rw [hdata]; simp
  obtain ⟨v', stored, hloop, hdata', hsub, hiff⟩ := h
  refine ⟨v', id :: stored, ?_, ?_, hsub.cons_cons id, ?_⟩
  · rw [cacheRoots, foldlM_cons, hpush]
    exact hloop
  · rw [hdata', hdata, append_assoc, singleton_append]
  · rw [cons_inj_right, hiff, hlen]
    constructor
    · intro hall i x hx hg
      cases i with
      | zero =>
        cases hx
        exact hok hg
      | succ i => exact hall i x hx (by rwa [Nat.add_assoc, Nat.add_comm 1 i])
    · intro hall i x hx hg
      exact hall (i + 1) x hx (by rwa [← Nat.add_assoc, Nat.add_right_comm])

/-- The first push cannot grow the vector and drops its id. -/
lemma Filled.drop {v : Vec} (h : Filled o v ids)
    (hpush : vectorPush (some v) (o.grow id) id = .ok (-1, some v)) (hgrows : Grows v.data.length)
    (hfail : o.grow id = false) : Filled o v (id :: ids) := by
  obtain ⟨v', stored, hloop, hdata, hsub, -⟩ := h
  refine ⟨v', stored, ?_, hdata, hsub.cons id, fun heq => ?_, fun hall => ?_⟩
  · rw [cacheRoots, foldlM_cons, hpush]
    exact hloop
  · have := hsub.length_le
    rw [heq, length_cons] at this
    omega
  · have := hall 0 id rfl hgrows
    rw [hfail] at this
    cases this

lemma filled_cacheRoots {v : Vec} (hitems : v.items = true)
    (hsized : Sized v.capacity v.data.length) (hroom : v.data.length + ids.length ≤ maxCap) :
    Filled o v ids := by
  induction ids generalizing v with
  | nil => exact ⟨v, [], rfl, (append_nil _).symm, List.Sublist.refl _, by simp⟩
  | cons id ids ih =>
    rw [length_cons] at hroom
    have hlt : v.data.length < maxCap := by omega
    have hgrows := hsized.full_iff hlt
    by_cases hfull : v.capacity ≤ v.data.length
    · cases hok : o.grow id with
      | true =>
        have hstep := lt_newCap hsized hfull hlt
        have hpush : vectorPush (some v) (o.grow id) id
            = .ok (0, some ⟨true, newCap v.capacity, v.data ++ [id]⟩) := by
          simp [vectorPush, hfull, hok, Vec.store, Nat.not_le.mpr hstep, Bind.bind, Except.bind,
            pure, Except.pure]
        refine Filled.store (ih rfl ?_ ?_) hpush rfl fun _ => hok
        · rw [length_append]
          exact hsized.grow hfull hlt
        · rw [length_append, length_singleton]
          omega
      | false =>
        have hpush : vectorPush (some v) (o.grow id) id = .ok (-1, some v) := by
          simp [vectorPush, hfull, hok]
        exact Filled.drop (ih hitems hsized (by omega)) hpush (hgrows.mp hfull) hok
    · have hpush : vectorPush (some v) (o.grow id) id
          = .ok (0, some { v with data := v.data ++ [id] }) := by
        simp [vectorPush, hfull, Vec.store, hitems, Bind.bind, Except.bind, pure, Except.pure]
      have hrest : Filled o { v with data := v.data ++ [id] } ids := by
        refine ih hitems ?_ ?_
        · rw [length_append]
          exact hsized.push (by omega)
        · rw [length_append, length_singleton]
          omega
      exact hrest.store hpush rfl fun hg => absurd (hgrows.mpr hg) hfull

/-- A null vector swallows every push. -/
lemma cacheRoots_none (ids : List Nat) : cacheRoots o none ids = .ok none := by
  induction ids with
  | nil => rfl
  | cons id ids ih =>
    rw [cacheRoots, foldlM_cons]
    exact ih

/-- A push into an array that was not allocated is a write through null. -/
lemma cacheRoots_null (hids : ids ≠ []) :
    cacheRoots o (some ⟨false, 8, []⟩) ids = .error .null := by
  cases ids with
  | nil => exact absurd rfl hids
  | cons id ids =>
    rw [cacheRoots, foldlM_cons]
    rfl

lemma nodup_zeroIds : (zeroIds nodes).Nodup := List.Nodup.filter _ nodup_range

lemma length_zeroIds_le : (zeroIds nodes).length ≤ nodes.length :=
  (length_filter_le _ _).trans length_range.le

lemma filled_zeroIds (h : WellFormed nodes) : Filled o ⟨true, 8, []⟩ (zeroIds nodes) := by
  refine filled_cacheRoots rfl (.first (Nat.zero_le 8)) ?_
  rw [length_nil, Nat.zero_add]
  exact length_zeroIds_le.trans h.size

lemma sublist_of_cacheRoots (h : WellFormed nodes) {cache : Option Vec}
    (hcache : cacheRoots o (vectorCreate 8 o.vector o.items) (zeroIds nodes) = .ok cache) :
    (Graph.mk nodes cache true).roots.Sublist (zeroIds nodes) := by
  rw [vectorCreate] at hcache
  split at hcache
  · cases hitems : o.items with
    | false =>
      rw [hitems] at hcache
      cases hids : zeroIds nodes with
      | nil =>
        rw [hids] at hcache
        cases hcache
        exact List.Sublist.refl _
      | cons id ids =>
        rw [cacheRoots_null (by rw [hids]; simp)] at hcache
        cases hcache
    | true =>
      obtain ⟨v', stored, hloop, hdata, hsub, -⟩ := filled_zeroIds (o := o) h
      rw [hitems, hloop] at hcache
      cases hcache
      change v'.data.Sublist _
      rw [hdata]
      exact hsub
  · rw [cacheRoots_none] at hcache
    cases hcache
    exact nil_sublist _

/-! ## The contract of `compile` -/

/-- `root_nodes` holds exactly the nodes without a predecessor. -/
def Graph.HoldsRoots (g : Graph) : Prop :=
  g.roots.Nodup ∧ ∀ v, v ∈ g.roots ↔ v < g.nodes.length ∧ ∀ u, ¬ Edge g.nodes u v

/-- All allocations of `compile` succeed. -/
def Outcomes.Succeed (o : Outcomes) : Prop :=
  o.inDegree = true ∧ o.queue = true ∧ o.vector = true ∧ o.items = true ∧ ∀ id, o.grow id = true

/-- What `compile` promises: it returns, 0 only for a graph without a cycle
and with the roots cached, and always for such a graph where no allocation
fails; when it fails, the nodes are what they were. -/
def Graph.Compiles (o : Outcomes) (g : Graph) : Prop :=
  ∃ code g', g.compile o = .ok (code, g') ∧
    (code = 0 → Acyclic (Edge g.nodes) ∧ g'.nodes = g.nodes ∧ g'.HoldsRoots) ∧
    (Acyclic (Edge g.nodes) → o.Succeed → code = 0) ∧ (code ≠ 0 → g'.nodes = g.nodes)

/-- When `compile` comes to rebuild the cache, the two allocations of the new
vector succeed, and so does each `realloc` of the 9th, 17th, 33rd … root. -/
def Graph.CacheAllocates (o : Outcomes) (g : Graph) : Prop :=
  g.nodes ≠ [] → o.inDegree = true → o.queue = true → Acyclic (Edge g.nodes) →
    o.vector = true ∧ o.items = true ∧
      ∀ i id, (zeroIds g.nodes)[i]? = some id → Grows i → o.grow id = true

lemma mem_zeroIds_iff (h : WellFormed nodes) {v : Nat} :
    v ∈ zeroIds nodes ↔ v < nodes.length ∧ ∀ u, ¬ Edge nodes u v := by
  rw [mem_zeroIds, h.degree, card_eq_zero, eq_empty_iff_forall_notMem]
  simp [mem_waiting, Edge]

lemma holdsRoots_iff (h : WellFormed nodes) {v : Vec} (hsub : v.data.Sublist (zeroIds nodes)) :
    (Graph.mk nodes (some v) true).HoldsRoots ↔ v.data = zeroIds nodes := by
  constructor
  · rintro ⟨-, hmem⟩
    have hback : zeroIds nodes ⊆ v.data := fun x hx => (hmem x).mpr ((mem_zeroIds_iff h).mp hx)
    exact hsub.eq_of_length_le (subperm_of_subset nodup_zeroIds hback).length_le
  · intro heq
    refine ⟨?_, fun x => ?_⟩
    · change v.data.Nodup
      exact heq ▸ nodup_zeroIds
    · change x ∈ v.data ↔ _
      rw [heq]
      exact mem_zeroIds_iff h

/-- A graph without a cycle has a root. -/
lemma zeroIds_ne_nil (h : WellFormed nodes) (hne : nodes ≠ [])
    (hacyclic : Acyclic (Edge nodes)) : zeroIds nodes ≠ [] := by
  have hpos : 0 < nodes.length := length_pos_of_ne_nil hne
  obtain ⟨v, hv, hsource⟩ := hacyclic.exists_source (Finset.range nodes.length)
    ⟨0, Finset.mem_range.mpr hpos⟩
  refine ne_nil_of_mem ((mem_zeroIds_iff h).mpr ⟨Finset.mem_range.mp hv, fun u hedge => ?_⟩)
  exact hsource u (Finset.mem_range.mpr (lt_of_edge hedge)) hedge

lemma compile_eq {g : Graph} (h : WellFormed g.nodes) (hcompiled : g.compiled = false)
    (hne : g.nodes ≠ []) (hin : o.inDegree = true) (hqueue : o.queue = true)
    (hacyclic : Acyclic (Edge g.nodes)) :
    g.compile o = (cacheRoots o (vectorCreate 8 o.vector o.items) (zeroIds g.nodes)).map
      fun cache => (0, ⟨g.nodes, cache, true⟩) := by
  obtain ⟨visited, hdrain, hiff⟩ := drain_eq_length_iff h
  have hlength : g.nodes.length ≠ 0 := fun h0 => hne (eq_nil_of_length_eq_zero h0)
  rw [Graph.compile, if_neg (by simp [hcompiled]), if_neg hlength, if_pos ⟨hin, hqueue⟩, hdrain]
  simp only [Bind.bind, Except.bind, if_pos (hiff.mpr hacyclic)]
  cases cacheRoots o (vectorCreate 8 o.vector o.items) (zeroIds g.nodes) <;> rfl

lemma compiles_of_early {g : Graph} (h : WellFormed g.nodes) (hcompiled : g.compiled = false)
    (hempty : g.nodes = [] → g.roots = [])
    (hearly : ¬ (g.nodes ≠ [] ∧ o.inDegree = true ∧ o.queue = true ∧ Acyclic (Edge g.nodes))) :
    g.Compiles o := by
  rw [Graph.Compiles, Graph.compile, if_neg (by simp [hcompiled])]
  by_cases hnil : g.nodes = []
  · rw [if_pos (by rw [hnil]; rfl)]
    refine ⟨0, _, rfl, fun _ => ⟨?_, rfl, ?_⟩, fun _ _ => rfl, fun h0 => absurd rfl h0⟩
    · refine acyclic_of_rank id fun u v hedge => ?_
      have := h.bound u v hedge
      rw [hnil] at this
      exact absurd this (Nat.not_lt_zero v)
    · have hroots : Graph.roots { g with compiled := true } = [] := hempty hnil
      rw [Graph.HoldsRoots, hroots]
      simp [hnil]
  · have hlength : g.nodes.length ≠ 0 := fun h0 => hnil (eq_nil_of_length_eq_zero h0)
    rw [if_neg hlength]
    by_cases halloc : o.inDegree = true ∧ o.queue = true
    · have hcycle : ¬ Acyclic (Edge g.nodes) :=
        fun hacyclic => hearly ⟨hnil, halloc.1, halloc.2, hacyclic⟩
      obtain ⟨visited, hdrain, hiff⟩ := drain_eq_length_iff h
      rw [if_pos halloc, hdrain]
      simp only [Bind.bind, Except.bind, if_neg (fun hv => hcycle (hiff.mp hv))]
      exact ⟨-1, g, rfl, fun h0 => absurd h0 (by decide), fun ha => absurd ha hcycle, fun _ => rfl⟩
    · rw [if_neg halloc]
      exact ⟨-1, g, rfl, fun h0 => absurd h0 (by decide),
        fun _ hall => absurd ⟨hall.1, hall.2.1⟩ halloc, fun _ => rfl⟩

/-- Where `compile` rebuilds the cache, its promise is the promise of the cache. -/
lemma compiles_iff_of_cache {g : Graph} (h : WellFormed g.nodes)
    (hcompiled : g.compiled = false) (hne : g.nodes ≠ []) (hin : o.inDegree = true)
    (hqueue : o.queue = true) (hacyclic : Acyclic (Edge g.nodes)) :
    g.Compiles o ↔ ∃ cache,
      cacheRoots o (vectorCreate 8 o.vector o.items) (zeroIds g.nodes) = .ok cache ∧
        (Graph.mk g.nodes cache true).HoldsRoots := by
  rw [Graph.Compiles, compile_eq h hcompiled hne hin hqueue hacyclic]
  cases cacheRoots o (vectorCreate 8 o.vector o.items) (zeroIds g.nodes) with
  | error e => simp [Except.map]
  | ok cache =>
    simp only [Except.map, Except.ok.injEq, Prod.mk.injEq]
    constructor
    · rintro ⟨code, g', ⟨rfl, rfl⟩, hzero, -, -⟩
      exact ⟨cache, rfl, (hzero rfl).2.2⟩
    · rintro ⟨cache', rfl, hroots⟩
      exact ⟨0, _, ⟨rfl, rfl⟩, fun _ => ⟨hacyclic, rfl, hroots⟩, fun _ _ => rfl,
        fun h0 => absurd rfl h0⟩

lemma roots_build (ops : List Op) : (Graph.build ops).roots = [] := by
  have hkeep : ∀ (g : Graph) (op : Op), (g.apply op).roots = g.roots := by
    intro g op
    cases op with
    | addNode ok =>
      simp only [Graph.apply, Graph.addNode]
      split
      · rfl
      · split <;> rfl
    | addEdge ok fromId toId =>
      simp only [Graph.apply, Graph.addEdge]
      split
      · rfl
      · split
        · split
          · rfl
          · split <;> rfl
        · rfl
  have hfold : ∀ g : Graph, (ops.foldl Graph.apply g).roots = g.roots := by
    induction ops with
    | nil => exact fun _ => rfl
    | cons op ops ih => exact fun g => (ih (g.apply op)).trans (hkeep g op)
  exact hfold Graph.create

/-- What `compile` leaves when it returns 0, whatever the allocations do. -/
lemma compile_zero {ops : List Op} {g' : Graph} (h : (Graph.build ops).compile o = .ok (0, g')) :
    WellFormed g'.nodes ∧ Acyclic (Edge g'.nodes) ∧ g'.roots.Sublist (zeroIds g'.nodes) ∧
      g'.compiled = true := by
  have hwf := wellFormed_build ops
  have hcompiled := compiled_build ops
  have hroots := roots_build ops
  generalize Graph.build ops = g at h hwf hcompiled hroots
  by_cases hnil : g.nodes = []
  · rw [Graph.compile, if_neg (by simp [hcompiled]), if_pos (by rw [hnil]; rfl)] at h
    cases h
    refine ⟨hwf, acyclic_of_rank id fun u v hedge => ?_, ?_, rfl⟩
    · have := hwf.bound u v hedge
      rw [hnil] at this
      exact absurd this (Nat.not_lt_zero v)
    · change g.roots.Sublist _
      rw [hroots]
      exact nil_sublist _
  by_cases halloc : o.inDegree = true ∧ o.queue = true
  · by_cases hacyclic : Acyclic (Edge g.nodes)
    · rw [compile_eq hwf hcompiled hnil halloc.1 halloc.2 hacyclic] at h
      obtain ⟨cache, hcache, hg'⟩ : ∃ cache,
          cacheRoots o (vectorCreate 8 o.vector o.items) (zeroIds g.nodes) = .ok cache ∧
            g' = ⟨g.nodes, cache, true⟩ := by
        revert h
        cases cacheRoots o (vectorCreate 8 o.vector o.items) (zeroIds g.nodes) with
        | error e => exact fun h => by cases h
        | ok cache => exact fun h => by cases h; exact ⟨cache, rfl, rfl⟩
      subst hg'
      exact ⟨hwf, hacyclic, sublist_of_cacheRoots hwf hcache, rfl⟩
    · have hlength : g.nodes.length ≠ 0 := fun h0 => hnil (eq_nil_of_length_eq_zero h0)
      obtain ⟨visited, hdrain, hiff⟩ := drain_eq_length_iff hwf
      rw [Graph.compile, if_neg (by simp [hcompiled]), if_neg hlength, if_pos halloc, hdrain] at h
      simp only [Bind.bind, Except.bind, if_neg (fun hv => hacyclic (hiff.mp hv))] at h
      cases h
  · have hlength : g.nodes.length ≠ 0 := fun h0 => hnil (eq_nil_of_length_eq_zero h0)
    rw [Graph.compile, if_neg (by simp [hcompiled]), if_neg hlength, if_neg halloc] at h
    cases h

/-- **The contract of `compile`**: for every graph that the building calls
produce and every outcome of the allocations, `compile` keeps its promise
exactly when the root cache gets its memory. -/
theorem compile_correct_iff (ops : List Op) (o : Outcomes) :
    (Graph.build ops).Compiles o ↔ (Graph.build ops).CacheAllocates o := by
  have h := wellFormed_build ops
  have hcompiled := compiled_build ops
  have hroots := roots_build ops
  generalize Graph.build ops = g at h hcompiled hroots ⊢
  by_cases hearly : g.nodes ≠ [] ∧ o.inDegree = true ∧ o.queue = true ∧ Acyclic (Edge g.nodes)
  · obtain ⟨hne, hin, hqueue, hacyclic⟩ := hearly
    rw [compiles_iff_of_cache h hcompiled hne hin hqueue hacyclic, Graph.CacheAllocates]
    simp only [hne, hin, hqueue, hacyclic, ne_eq, not_false_eq_true, true_imp_iff]
    have hids := zeroIds_ne_nil h hne hacyclic
    cases hvector : o.vector with
    | false =>
      -- a null vector holds nothing, and the graph has a root
      simp only [vectorCreate, Bool.false_eq_true, if_false, cacheRoots_none, Except.ok.injEq,
        false_and, iff_false]
      rintro ⟨cache, rfl, -, hmem⟩
      obtain ⟨v, hv⟩ := exists_mem_of_ne_nil _ hids
      exact not_mem_nil ((hmem v).mpr ((mem_zeroIds_iff h).mp hv))
    | true =>
      cases hitems : o.items with
      | false =>
        simp only [vectorCreate, if_true, cacheRoots_null hids, reduceCtorEq, false_and,
          exists_false, Bool.false_eq_true, and_false]
      | true =>
        obtain ⟨v', stored, hloop, hdata, hsub, hiff⟩ := filled_zeroIds (o := o) h
        rw [nil_append] at hdata
        simp only [vectorCreate, if_true, hloop, Except.ok.injEq, true_and, exists_eq_left']
        rw [holdsRoots_iff h (hdata ▸ hsub), hdata, hiff]
        simp only [length_nil, Nat.zero_add]
  · refine iff_of_true (compiles_of_early h hcompiled (fun _ => hroots) hearly) ?_
    intro hne hin hqueue hacyclic
    exact absurd ⟨hne, hin, hqueue, hacyclic⟩ hearly

/-- One node, and the allocation of the vector fails: `compile` returns 0 and
the only root is lost. -/
theorem compile_loses_root :
    ∃ ops o g', (Graph.build ops).compile o = .ok (0, g') ∧ g'.rootNodes = none ∧
      ¬ g'.HoldsRoots := by
  refine ⟨[.addNode true], ⟨true, true, false, true, fun _ => true⟩, ⟨[⟨0, []⟩], none, true⟩,
    by decide, rfl, ?_⟩
  rintro ⟨-, hmem⟩
  have h0 : (0 : Nat) ∈ (Graph.mk [⟨0, []⟩] none true).roots := by
    refine (hmem 0).mpr ⟨by decide, fun u hedge => ?_⟩
    obtain rfl : u = 0 := Nat.lt_one_iff.mp (lt_of_edge hedge)
    cases hedge
  cases h0

end Cobalt.TaskGraph
