/-
Cobalt.TaskGraph.Kahn — what the elimination loop of `compile` counts.

A graph that the building calls produce is `WellFormed`: no successor is
listed twice, every successor is a node, and the static in-degree of a node
is the number of nodes it is a successor of. From there the invariant
`Progress` of the two arrays carries the loop: the remaining in-degree of a
node counts its predecessors that the loop has not visited, the queue holds
exactly the nodes whose remaining in-degree is zero, and each of them stands
behind its predecessors. So the loop ends, it never leaves its arrays, and
it visits every node exactly when the graph has no cycle
(`drain_eq_length_iff`).
-/
import Cobalt.Lib.Acyclic
import Cobalt.TaskGraph.Graph

namespace Cobalt.TaskGraph

open List
open TaskGraph.Graph (apply addNode addEdge build create)

variable {nodes : List Node} {handled rest : List Nat} {k : Kahn} {u v : Nat}

/-- The predecessors of `v` that are not handled. -/
def waiting (nodes : List Node) (handled : List Nat) (v : Nat) : Finset Nat :=
  (Finset.range nodes.length).filter fun u => u ∉ handled ∧ v ∈ succs nodes u

/-- What the building calls keep. -/
structure WellFormed (nodes : List Node) : Prop where
  size : nodes.length ≤ maxCap
  nodup : ∀ u, (succs nodes u).Nodup
  bound : ∀ u v, v ∈ succs nodes u → v < nodes.length
  degree : ∀ v, inDegreeOf nodes v = (waiting nodes [] v).card

lemma lt_of_edge (h : v ∈ succs nodes u) : u < nodes.length := by
  by_contra hu
  rw [succs, getElem?_eq_none (Nat.le_of_not_lt hu)] at h
  cases h

lemma mem_waiting : u ∈ waiting nodes handled v ↔ u ∉ handled ∧ v ∈ succs nodes u := by
  rw [waiting, Finset.mem_filter, Finset.mem_range]
  exact ⟨fun h => h.2, fun h => ⟨lt_of_edge h.2, h⟩⟩

lemma card_waiting_le : (waiting nodes handled v).card ≤ nodes.length :=
  (Finset.card_filter_le _ _).trans (Finset.card_range _).le

lemma nodup_concat {α : Type} {xs : List α} {x : α} (h : xs.Nodup) (hx : x ∉ xs) :
    (xs ++ [x]).Nodup := by
  rw [← concat_eq_append]
  exact h.concat hx

/-! ## The building calls -/

lemma succs_append (u : Nat) : succs (nodes ++ [⟨0, []⟩]) u = succs nodes u := by
  rcases Nat.lt_trichotomy u nodes.length with hu | hu | hu
  · rw [succs, getElem?_append_left hu, succs]
  · simp [succs, hu]
  · rw [succs, succs, getElem?_eq_none (by simp; omega), getElem?_eq_none hu.le]

lemma inDegreeOf_append (v : Nat) : inDegreeOf (nodes ++ [⟨0, []⟩]) v = inDegreeOf nodes v := by
  rcases Nat.lt_trichotomy v nodes.length with hv | hv | hv
  · rw [inDegreeOf, getElem?_append_left hv, inDegreeOf]
  · simp [inDegreeOf, hv]
  · rw [inDegreeOf, inDegreeOf, getElem?_eq_none (by simp; omega), getElem?_eq_none hv.le]

lemma WellFormed.append (h : WellFormed nodes) (hsize : nodes.length < maxCap) :
    WellFormed (nodes ++ [⟨0, []⟩]) := by
  have hwaiting : ∀ v, waiting (nodes ++ [⟨0, []⟩]) [] v = waiting nodes [] v := by
    intro v
    ext u
    rw [mem_waiting, mem_waiting, succs_append]
  refine ⟨?_, fun u => ?_, fun u v hv => ?_, fun v => ?_⟩
  · rw [length_append]
    exact hsize
  · rw [succs_append]
    exact h.nodup u
  · rw [succs_append] at hv
    have := h.bound u v hv
    simp only [length_append, length_singleton]
    omega
  · rw [inDegreeOf_append, hwaiting, h.degree]

/-- The nodes after the edge from `a` to `b` was stored. -/
def withEdge (nodes : List Node) (a b : Nat) : List Node :=
  (nodes.modify a fun node => { node with successors := node.successors ++ [b] }).modify b
    fun node => { node with staticInDegree := (node.staticInDegree + 1) % 2 ^ 64 }

variable {a b : Nat}

lemma length_withEdge : (withEdge nodes a b).length = nodes.length := by
  simp [withEdge]

lemma succs_withEdge (ha : a < nodes.length) (u : Nat) :
    succs (withEdge nodes a b) u = if u = a then succs nodes a ++ [b] else succs nodes u := by
  rw [succs, withEdge, getElem?_modify, getElem?_modify]
  by_cases hu : u = a
  · subst hu
    by_cases hb : b = u <;> simp [succs, ha, hb]
  · have hau : a ≠ u := fun h => hu h.symm
    by_cases hb : b = u <;> cases hn : nodes[u]? <;> simp [succs, hu, hau, hb, hn]

lemma inDegreeOf_withEdge (hb : b < nodes.length) (v : Nat) :
    inDegreeOf (withEdge nodes a b) v
      = if v = b then (inDegreeOf nodes b + 1) % 2 ^ 64 else inDegreeOf nodes v := by
  rw [inDegreeOf, withEdge, getElem?_modify, getElem?_modify]
  by_cases hv : v = b
  · subst hv
    by_cases ha : a = v <;> simp [inDegreeOf, hb, ha]
  · have hbv : b ≠ v := fun h => hv h.symm
    by_cases ha : a = v <;> cases hn : nodes[v]? <;> simp [inDegreeOf, hv, hbv, ha, hn]

lemma card_waiting_withEdge (ha : a < nodes.length) (hnew : b ∉ succs nodes a) (v : Nat) :
    (waiting (withEdge nodes a b) [] v).card
      = (waiting nodes [] v).card + if v = b then 1 else 0 := by
  by_cases hv : v = b
  · subst hv
    have hinsert : waiting (withEdge nodes a v) [] v = insert a (waiting nodes [] v) := by
      ext u
      rw [Finset.mem_insert, mem_waiting, mem_waiting, succs_withEdge ha]
      by_cases hu : u = a <;> simp [hu]
    have hnot : a ∉ waiting nodes [] v := fun h => hnew (mem_waiting.mp h).2
    rw [hinsert, Finset.card_insert_of_notMem hnot, if_pos rfl]
  · have hsame : waiting (withEdge nodes a b) [] v = waiting nodes [] v := by
      ext u
      rw [mem_waiting, mem_waiting, succs_withEdge ha]
      by_cases hu : u = a <;> simp [hu, hv]
    rw [hsame, if_neg hv, Nat.add_zero]

lemma WellFormed.withEdge (h : WellFormed nodes) (ha : a < nodes.length)
    (hb : b < nodes.length) (hnew : b ∉ succs nodes a) : WellFormed (withEdge nodes a b) := by
  refine ⟨?_, fun u => ?_, fun u v hv => ?_, fun v => ?_⟩
  · rw [length_withEdge]
    exact h.size
  · rw [succs_withEdge ha]
    split
    · exact nodup_concat (h.nodup a) hnew
    · exact h.nodup u
  · rw [length_withEdge]
    rw [succs_withEdge ha] at hv
    split at hv
    · rcases mem_append.mp hv with hv | hv
      · exact h.bound a v hv
      · rw [mem_singleton.mp hv]
        exact hb
    · exact h.bound u v hv
  · rw [inDegreeOf_withEdge hb, card_waiting_withEdge ha hnew]
    split
    · rename_i hv
      subst hv
      -- the counter is far from its last value
      have hle : (waiting nodes [] v).card ≤ nodes.length := card_waiting_le
      have hsize := h.size
      rw [maxCap] at hsize
      rw [h.degree, Nat.mod_eq_of_lt (by omega)]
    · rw [h.degree, Nat.add_zero]

lemma wellFormed_apply {g : Graph} (h : WellFormed g.nodes) (op : Op) :
    WellFormed (g.apply op).nodes := by
  cases op with
  | addNode ok =>
    simp only [apply, addNode]
    split
    · exact h
    · split
      · rename_i hroom
        exact h.append hroom.2
      · exact h
  | addEdge ok fromId toId =>
    simp only [apply, addEdge]
    split
    · exact h
    · split
      · rename_i fromNode toNode hfrom hto
        obtain ⟨ha, -⟩ := List.getElem?_eq_some_iff.mp hfrom
        obtain ⟨hb, -⟩ := List.getElem?_eq_some_iff.mp hto
        split
        · exact h
        · rename_i hnew
          split
          · refine h.withEdge ha hb ?_
            rw [succs, hfrom]
            exact hnew
          · exact h
      · exact h

/-- Every graph that the building calls produce is well formed. -/
lemma wellFormed_build (ops : List Op) : WellFormed (build ops).nodes := by
  have hcreate : WellFormed create.nodes := by
    refine ⟨Nat.zero_le _, fun u => ?_, fun u v hv => ?_, fun v => ?_⟩
    · simp [succs, create]
    · simp [succs, create] at hv
    · simp [inDegreeOf, waiting, create]
  rw [build]
  generalize create = g at hcreate ⊢
  induction ops generalizing g with
  | nil => exact hcreate
  | cons op ops ih => exact ih (g.apply op) (wellFormed_apply hcreate op)

lemma compiled_build (ops : List Op) : (build ops).compiled = false := by
  have hkeep : ∀ (g : Graph) (op : Op), (g.apply op).compiled = g.compiled := by
    intro g op
    cases op with
    | addNode ok =>
      simp only [apply, addNode]
      grind
    | addEdge ok fromId toId =>
      simp only [apply, addEdge]
      grind
  have hfold : ∀ g : Graph, (ops.foldl apply g).compiled = g.compiled := by
    induction ops with
    | nil => exact fun _ => rfl
    | cons op ops ih => exact fun g => (ih (g.apply op)).trans (hkeep g op)
  exact hfold create

/-! ## The loop -/

/-- The arrays when the nodes of `handled` were visited and the last of them
still has the successors `rest` to decrement. -/
structure Progress (nodes : List Node) (handled rest : List Nat) (k : Kahn) : Prop where
  degree : ∀ v < nodes.length,
    k.inDegree v = (waiting nodes handled v).card + if v ∈ rest then 1 else 0
  nodup : k.queue.Nodup
  mem : ∀ v, v ∈ k.queue ↔ v < nodes.length ∧ k.inDegree v = 0
  visited : handled <+: k.queue
  order : ∀ before v after, k.queue = before ++ v :: after → ∀ u, v ∈ succs nodes u → u ∈ before

lemma mem_zeroIds : v ∈ zeroIds nodes ↔ v < nodes.length ∧ inDegreeOf nodes v = 0 := by
  simp [zeroIds]

lemma progress_initial (h : WellFormed nodes) : Progress nodes [] [] (initial nodes) := by
  refine ⟨fun v _ => ?_, ?_, fun v => mem_zeroIds, nil_prefix, fun before v after hq u hu => ?_⟩
  · rw [if_neg not_mem_nil, Nat.add_zero]
    exact h.degree v
  · exact List.Nodup.filter _ nodup_range
  · -- a node of the first queue has no predecessor at all
    have hv : v ∈ zeroIds nodes := by
      change zeroIds nodes = _ at hq
      rw [hq]
      exact mem_append_right _ mem_cons_self
    have hzero := (mem_zeroIds.mp hv).2
    rw [h.degree, Finset.card_eq_zero] at hzero
    have : u ∈ waiting nodes [] v := mem_waiting.mpr ⟨not_mem_nil, hu⟩
    rw [hzero] at this
    cases this

lemma decr_succ {d : Nat} (hd : d < 2 ^ 61) : decr (d + 1) = d := by
  rw [decr]
  omega

lemma length_queue_lt (hk : Progress nodes handled rest k) (hv : v < nodes.length)
    (hnot : v ∉ k.queue) : k.queue.length < nodes.length := by
  have hnodup : (v :: k.queue).Nodup := nodup_cons.mpr ⟨hnot, hk.nodup⟩
  have hsub : (v :: k.queue) ⊆ List.range nodes.length := by
    intro x hx
    rw [mem_range]
    rcases mem_cons.mp hx with rfl | hx
    · exact hv
    · exact ((hk.mem x).mp hx).1
  have hle := (subperm_of_subset hnodup hsub).length_le
  rw [length_range, length_cons] at hle
  exact hle

lemma order_snoc {queue : List Nat}
    (h : ∀ before w after, queue = before ++ w :: after → ∀ u, w ∈ succs nodes u → u ∈ before)
    (hv : ∀ u, v ∈ succs nodes u → u ∈ queue) :
    ∀ before w after, queue ++ [v] = before ++ w :: after →
      ∀ u, w ∈ succs nodes u → u ∈ before := by
  intro before w after hq u hu
  rcases eq_nil_or_concat after with rfl | ⟨front, last, rfl⟩
  · obtain ⟨hbefore, hw⟩ := append_inj' hq rfl
    cases hw
    exact hbefore ▸ hv u hu
  · rw [concat_eq_append, ← cons_append, ← append_assoc] at hq
    exact h before w front (append_inj' hq rfl).1 u hu

lemma progress_relax (h : WellFormed nodes) (hv : v < nodes.length) (hrest : v ∉ rest)
    (hk : Progress nodes handled (v :: rest) k) :
    ∃ k', relax nodes.length k v = .ok k' ∧ Progress nodes handled rest k' := by
  have hdegree : k.inDegree v = (waiting nodes handled v).card + 1 := by
    rw [hk.degree v hv, if_pos mem_cons_self]
  have hdecr : decr (k.inDegree v) = (waiting nodes handled v).card := by
    have hle : (waiting nodes handled v).card ≤ nodes.length := card_waiting_le
    have hsize := h.size
    rw [maxCap] at hsize
    rw [hdegree, decr_succ (by omega)]
  have hnot : v ∉ k.queue := by
    intro hmem
    have := ((hk.mem v).mp hmem).2
    omega
  have hdegree' : ∀ w < nodes.length, Function.update k.inDegree v (decr (k.inDegree v)) w
      = (waiting nodes handled w).card + if w ∈ rest then 1 else 0 := by
    intro w hw
    by_cases hwv : w = v
    · subst hwv
      rw [Function.update_self, hdecr, if_neg hrest, Nat.add_zero]
    · rw [Function.update_of_ne hwv, hk.degree w hw]
      simp [hwv]
  rw [relax, if_pos hv]
  simp only [Function.update_self]
  split
  · rename_i hzero
    rw [if_pos (length_queue_lt hk hv hnot)]
    refine ⟨_, rfl, hdegree', ?_, fun w => ?_, hk.visited.trans (prefix_append _ _), ?_⟩
    · exact nodup_concat hk.nodup hnot
    · by_cases hwv : w = v
      · subst hwv
        simp [hv, hzero]
      · simp [hwv, hk.mem w]
    · -- every predecessor of `v` was visited, so it is queued already
      refine order_snoc hk.order fun u hu => hk.visited.subset ?_
      by_contra hnothandled
      rw [hdecr, Finset.card_eq_zero] at hzero
      have : u ∈ waiting nodes handled v := mem_waiting.mpr ⟨hnothandled, hu⟩
      rw [hzero] at this
      cases this
  · rename_i hpos
    refine ⟨_, rfl, hdegree', hk.nodup, fun w => ?_, hk.visited, hk.order⟩
    by_cases hwv : w = v
    · subst hwv
      simp [hnot, hpos]
    · simp [hwv, hk.mem w]

lemma progress_successors (h : WellFormed nodes) (hnodup : rest.Nodup)
    (hbound : ∀ v ∈ rest, v < nodes.length) (hk : Progress nodes handled rest k) :
    ∃ k', rest.foldlM (relax nodes.length) k = .ok k' ∧ Progress nodes handled [] k' := by
  induction rest generalizing k with
  | nil => exact ⟨k, rfl, hk⟩
  | cons v rest ih =>
    obtain ⟨hv, hrest⟩ := nodup_cons.mp hnodup
    obtain ⟨k1, hstep, hk1⟩ := progress_relax h (hbound v mem_cons_self) hv hk
    obtain ⟨k', hloop, hk'⟩ := ih hrest (fun w hw => hbound w (mem_cons_of_mem _ hw)) hk1
    refine ⟨k', ?_, hk'⟩
    rw [foldlM_cons, hstep]
    exact hloop

lemma prefix_snoc {queue : List Nat} (hpre : handled <+: queue)
    (hu : queue[handled.length]? = some u) : handled ++ [u] <+: queue := by
  obtain ⟨tail, rfl⟩ := hpre
  rw [getElem?_append_right (le_refl _), Nat.sub_self] at hu
  cases tail with
  | nil => cases hu
  | cons w tail =>
    cases hu
    exact ⟨tail, by simp⟩

lemma progress_take (hk : Progress nodes handled [] k) (hu : k.queue[handled.length]? = some u) :
    Progress nodes (handled ++ [u]) (succs nodes u) k := by
  have hprefix := prefix_snoc hk.visited hu
  have hnew : u ∉ handled := by
    intro hmem
    have := (nodup_append.mp (hk.nodup.sublist hprefix.sublist)).2.2
    exact this u hmem u (mem_singleton_self u) rfl
  refine ⟨fun v hv => ?_, hk.nodup, hk.mem, hprefix, hk.order⟩
  rw [hk.degree v hv, if_neg not_mem_nil, Nat.add_zero]
  by_cases hedge : v ∈ succs nodes u
  · have hinsert : waiting nodes handled v = insert u (waiting nodes (handled ++ [u]) v) := by
      ext w
      rw [Finset.mem_insert, mem_waiting, mem_waiting, mem_append, mem_singleton]
      by_cases hw : w = u
      · subst hw
        simp [hnew, hedge]
      · simp [hw]
    have hnot : u ∉ waiting nodes (handled ++ [u]) v := by
      simp [mem_waiting]
    rw [hinsert, Finset.card_insert_of_notMem hnot, if_pos hedge]
  · have hsame : waiting nodes handled v = waiting nodes (handled ++ [u]) v := by
      ext w
      rw [mem_waiting, mem_waiting, mem_append, mem_singleton]
      by_cases hw : w = u
      · subst hw
        simp [hedge]
      · simp [hw]
    rw [hsame, if_neg hedge, Nat.add_zero]

lemma length_queue_le (hk : Progress nodes handled rest k) : k.queue.length ≤ nodes.length := by
  have hsub : k.queue ⊆ List.range nodes.length :=
    fun x hx => mem_range.mpr ((hk.mem x).mp hx).1
  have hle := (subperm_of_subset hk.nodup hsub).length_le
  rwa [length_range] at hle

/-- The outer loop visits what it queues, and then nothing is left to visit. -/
lemma progress_drain (h : WellFormed nodes) (fuel : Nat)
    (hfuel : nodes.length < fuel + handled.length) (hk : Progress nodes handled [] k) :
    ∃ k', drain nodes fuel handled.length handled.length k = .ok k'.queue.length ∧
      Progress nodes k'.queue [] k' := by
  have hvisited := hk.visited.length_le
  have hqueue := length_queue_le hk
  induction fuel generalizing handled k with
  | zero => omega
  | succ fuel ih =>
    rw [drain]
    cases hu : k.queue[handled.length]? with
    | none =>
      -- the queue is exhausted: the visited prefix is the whole queue
      have hall : handled = k.queue := hk.visited.eq_of_length_le (getElem?_eq_none_iff.mp hu)
      exact ⟨k, by rw [hall], hall ▸ hk⟩
    | some u =>
      have hmem : u ∈ k.queue := mem_of_getElem? hu
      have hlt : u < nodes.length := ((hk.mem u).mp hmem).1
      have hnode : nodes[u]? = some nodes[u] := getElem?_eq_getElem hlt
      have hsuccs : nodes[u].successors = succs nodes u := by
        rw [succs, hnode]
        rfl
      obtain ⟨k1, hloop, hk1⟩ := progress_successors h (h.nodup u) (h.bound u)
        (progress_take hk hu)
      have hlen : (handled ++ [u]).length = handled.length + 1 := by simp
      obtain ⟨k', hdrain, hk'⟩ := ih (by omega) hk1 hk1.visited.length_le (length_queue_le hk1)
      refine ⟨k', ?_, hk'⟩
      simp only [hnode, hsuccs, hloop]
      rw [hlen] at hdrain
      exact hdrain

/-! ## What the count says -/

lemma acyclic_of_queue (h : WellFormed nodes) (hk : Progress nodes handled rest k)
    (hall : k.queue.length = nodes.length) : Acyclic (Edge nodes) := by
  have hperm : k.queue.Perm (List.range nodes.length) := by
    refine List.Subperm.perm_of_length_le (subperm_of_subset hk.nodup ?_) ?_
    · exact fun x hx => mem_range.mpr ((hk.mem x).mp hx).1
    · rw [length_range, hall]
  refine acyclic_of_rank k.queue.idxOf fun u v hedge => ?_
  have hv : v ∈ k.queue := hperm.mem_iff.mpr (mem_range.mpr (h.bound u v hedge))
  obtain ⟨before, after, hq⟩ := append_of_mem hv
  have hu : u ∈ before := hk.order before v after hq u hedge
  have hnot : v ∉ before := by
    intro hmem
    have hnodup := hk.nodup
    rw [hq] at hnodup
    exact (nodup_append.mp hnodup).2.2 v hmem v mem_cons_self rfl
  rw [hq, idxOf_append_of_mem hu, idxOf_append_of_notMem hnot, idxOf_cons_self]
  have := idxOf_lt_length_of_mem hu
  omega

/-- Without a cycle the elimination does not stop before the last node. -/
lemma queue_of_acyclic (hacyclic : Acyclic (Edge nodes))
    (hk : Progress nodes k.queue [] k) : k.queue.length = nodes.length := by
  by_contra hne
  have hle := length_queue_le hk
  -- the nodes that were never queued
  let left : Finset Nat := (Finset.range nodes.length).filter fun v => v ∉ k.queue
  have hleft : left.Nonempty := by
    by_contra hempty
    have hsub : List.range nodes.length ⊆ k.queue := by
      intro v hv
      by_contra hnot
      exact hempty ⟨v, Finset.mem_filter.mpr ⟨Finset.mem_range.mpr (mem_range.mp hv), hnot⟩⟩
    have hge := (subperm_of_subset nodup_range hsub).length_le
    rw [length_range] at hge
    omega
  obtain ⟨v, hv, hsource⟩ := hacyclic.exists_source left hleft
  obtain ⟨hlt, hnot⟩ := Finset.mem_filter.mp hv
  rw [Finset.mem_range] at hlt
  -- its in-degree is not zero, so a predecessor was never visited either
  have hdegree := hk.degree v hlt
  rw [if_neg not_mem_nil, Nat.add_zero] at hdegree
  have hpos : (waiting nodes k.queue v).Nonempty := by
    rw [← Finset.card_pos, ← hdegree]
    by_contra hzero
    exact hnot ((hk.mem v).mpr ⟨hlt, by omega⟩)
  obtain ⟨u, hu⟩ := hpos
  obtain ⟨hunvisited, hedge⟩ := mem_waiting.mp hu
  refine hsource u (Finset.mem_filter.mpr ⟨?_, hunvisited⟩) hedge
  exact Finset.mem_range.mpr (lt_of_edge hedge)

/-- The loop of `compile` ends, and visits all nodes exactly when there is no cycle. -/
lemma drain_eq_length_iff (h : WellFormed nodes) :
    ∃ visited, drain nodes (nodes.length + 1) 0 0 (initial nodes) = .ok visited ∧
      (visited = nodes.length ↔ Acyclic (Edge nodes)) := by
  obtain ⟨k, hdrain, hk⟩ := progress_drain h (nodes.length + 1) (by simp) (progress_initial h)
  exact ⟨k.queue.length, hdrain, acyclic_of_queue h hk, fun hacyclic => queue_of_acyclic hacyclic hk⟩

end Cobalt.TaskGraph
