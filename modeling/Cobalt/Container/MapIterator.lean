/-
Cobalt.Container.MapIterator — the iterators of `cobalt_map_t`.

The iterator of a hash map stands at a full slot, or behind the last one. The
iterator of a tree map has on its stack the nodes whose pairs are still to come,
the next one on top; the rest of the pairs is below their right children. It
starts with the first `next`, and until then its `has_next` knows nothing of the
tree.

Nodes are the subtrees they are the roots of. Allocations succeed, so the stack
is a list.
-/
import Cobalt.Container.HashMapTheorems

namespace Cobalt.Container.MapIterator

open HashMap BinaryTree Multiset

variable {σ K L : Type}

/-- `cobalt_map_pair_t`. -/
abbrev Pair (K : Type) : Type := Option K × Ptr

/-- `has_next` and `next` of an iterator with states `σ`. -/
structure Iterator (σ K : Type) where
  hasNext : σ → Bool
  next : σ → Pair K × σ

/-- From `s` on, `has_next` is true exactly while one of the pairs is left, and `next` yields
them one after the other. -/
def Drains (it : Iterator σ K) : List (Pair K) → σ → Prop
  | [], s => it.hasNext s = false
  | e :: es, s => it.hasNext s = true ∧ (it.next s).1 = e ∧ Drains it es (it.next s).2

/-! ## Hash maps -/

section Hash

variable (impl : Impl K)

def full (i : Nat) : Bool := (impl.slots i).psl != emptyPsl

def pairAt (i : Nat) : Pair K := ((impl.slots i).key, (impl.slots i).value)

/-- The loop of `hashmap_iter_advance`, with `fuel` slots before the end. -/
def advanceLoop : Nat → Nat → Nat
  | 0, idx => idx
  | fuel + 1, idx => if full impl idx then idx else advanceLoop fuel (idx + 1)

/-- `hashmap_iter_advance`. -/
def iterAdvance (idx : Nat) : Nat := advanceLoop impl (impl.capacity - idx) idx

/-- `hashmap_map_iter_has_next` and `hashmap_map_iter_next`; the state is `slot_idx`. -/
def hashmapIter : Iterator Nat K where
  hasNext idx := decide (idx < impl.capacity)
  next idx :=
    if idx < impl.capacity then (pairAt impl idx, iterAdvance impl (idx + 1))
    else ((none, null), idx)

/-- `hashmap_map_iterator`. -/
def hashmapIterator : Nat := iterAdvance impl 0

/-- The pairs in the full slots from `idx` on, `n` slots far. -/
def pairsFrom (idx n : Nat) : List (Pair K) :=
  ((List.range' idx n).filter (full impl)).map (pairAt impl)

/-- The entries of the map. -/
def hashmapPairs : List (Pair K) := pairsFrom impl 0 impl.capacity

lemma drains_from (n idx : Nat) (h : idx + n = impl.capacity) :
    Drains (hashmapIter impl) (pairsFrom impl idx n) (iterAdvance impl idx) := by
  induction n generalizing idx with
  | zero =>
    simp [pairsFrom, Drains, hashmapIter, iterAdvance, advanceLoop, ← h]
  | succ n ih =>
    have hrest := ih (idx + 1) (by omega)
    have hleft : impl.capacity - idx = impl.capacity - (idx + 1) + 1 := by omega
    rw [pairsFrom, List.range'_succ, iterAdvance, hleft, advanceLoop]
    by_cases hfull : full impl idx
    · rw [List.filter_cons_of_pos hfull, if_pos hfull, List.map_cons]
      have hlt : idx < impl.capacity := by omega
      refine ⟨decide_eq_true hlt, ?_⟩
      rw [hashmapIter]
      dsimp only
      rw [if_pos hlt]
      exact ⟨rfl, hrest⟩
    · rw [List.filter_cons_of_neg hfull, if_neg hfull]
      exact hrest

/-- The entries are those of the map that the table stands for. -/
lemma coe_pairsFrom (n : Nat)
    (hkeyed : ∀ i < n, (impl.slots i).psl ≠ emptyPsl → ∃ key, (impl.slots i).key = some key) :
    (↑(pairsFrom impl 0 n) : Multiset (Pair K)) =
      (contents n impl.slots).map fun e => (some e.1, e.2.1) := by
  induction n with
  | zero => rfl
  | succ n ih =>
    have hrest := ih fun i hi => hkeyed i (by omega)
    rw [contents, Finset.sum_range_succ, map_add, ← contents, ← hrest, pairsFrom,
      List.range'_concat, List.filter_append, List.map_append, ← coe_add, pairsFrom]
    congr 1
    by_cases hfull : (impl.slots n).psl = emptyPsl
    · simp [full, hfull, Slot.content]
    · obtain ⟨key, hkey⟩ := hkeyed n (Nat.lt_succ_self n) hfull
      have hpos : full impl n = true := by simp [full, hfull]
      simp [hpos, content_of_full hfull hkey, pairAt, hkey]

lemma hashmapPairs_exact [DecidableEq K] {hash : K → UInt32} {m : K → Option Ptr}
    (h : Represents hash impl m) : ((hashmapPairs impl).map Prod.fst).Nodup ∧
      ∀ e, e ∈ hashmapPairs impl ↔ ∃ key value, e = (some key, value) ∧ m key = some value := by
  have hkeyed : ∀ i < impl.capacity, (impl.slots i).psl ≠ emptyPsl →
      ∃ key, (impl.slots i).key = some key := by
    rcases h.array with hzero | ⟨k, hk⟩
    · intro i hi
      omega
    · intro i hi
      exact hk.table.keyed i (hk.capacity ▸ hi)
  have hcoe := coe_pairsFrom impl impl.capacity hkeyed
  constructor
  · rw [← coe_nodup, ← map_coe, hashmapPairs, hcoe, map_map]
    have hnodup := h.maps.nodup.map (Option.some_injective K)
    rwa [map_map] at hnodup
  · intro e
    rw [← mem_coe, hashmapPairs, hcoe, mem_map]
    constructor
    · rintro ⟨⟨key, value, hsh⟩, hmem, rfl⟩
      exact ⟨key, value, rfl, ((h.maps.mem key value hsh).mp hmem).1⟩
    · rintro ⟨key, value, rfl, hm⟩
      exact ⟨(key, value, hash key), (h.maps.mem key value _).mpr ⟨hm, rfl⟩, rfl⟩

end Hash

/-! ## Tree maps -/

section Tree

/-- The tree under a node; the node holds a key and a value. -/
abbrev Node (K : Type) : Type := BinaryTree (K × Ptr)

/-- The pairs from left to right. -/
def treePairs : Node K → List (Pair K)
  | nil => []
  | node e l r => treePairs l ++ (some e.1, e.2) :: treePairs r

/-- `treemap_map_iter_t`: of a node on the stack only its pair and its right child are looked at
again. -/
structure TreeIter (K : Type) where
  stack : List (Pair K × Node K)
  finished : Bool

/-- The node and its left descendants are pushed. -/
def pushLeft : Node K → List (Pair K × Node K) → List (Pair K × Node K)
  | nil, stack => stack
  | node e l r, stack => pushLeft l (((some e.1, e.2), r) :: stack)

/-- `treemap_map_iter_has_next` and `treemap_map_iter_next` on the tree with this root. -/
def treemapIter (root : Node K) : Iterator (TreeIter K) K where
  hasNext it := !it.finished
  next it :=
    if it.finished then ((none, null), it)
    else
      match if it.stack.isEmpty then pushLeft root [] else it.stack with
      | [] => ((none, null), { it with finished := true })
      | (pair, nil) :: stack => (pair, ⟨stack, stack.isEmpty⟩)
      | (pair, node e l r) :: stack => (pair, ⟨pushLeft (node e l r) stack, false⟩)

/-- `treemap_map_iterator`. -/
def treemapIterator : TreeIter K := ⟨[], false⟩

/-- What is still to come. -/
def unvisited (stack : List (Pair K × Node K)) : List (Pair K) :=
  stack.flatMap fun n => n.1 :: treePairs n.2

lemma unvisited_pushLeft (t : Node K) (stack : List (Pair K × Node K)) :
    unvisited (pushLeft t stack) = treePairs t ++ unvisited stack := by
  induction t generalizing stack with
  | nil => rfl
  | node e l r ihl _ =>
    rw [pushLeft, ihl]
    simp [unvisited, treePairs]

lemma pushLeft_ne_nil (e : K × Ptr) (l r : Node K) (stack : List (Pair K × Node K)) :
    (pushLeft (node e l r) stack).isEmpty = false := by
  induction l generalizing e r stack with
  | nil => rfl
  | node e' l' r' ihl _ => exact ihl e' r' _

/-- Once it has started, the iterator is finished exactly when its stack is empty. -/
lemma next_started (root : Node K) (pair : Pair K) (r : Node K) (stack : List (Pair K × Node K)) :
    (treemapIter root).next ⟨(pair, r) :: stack, false⟩ =
      (pair, ⟨pushLeft r stack, (pushLeft r stack).isEmpty⟩) := by
  cases r with
  | nil => rfl
  | node e l r =>
    rw [pushLeft_ne_nil]
    rfl

lemma drains_started (root : Node K) (es : List (Pair K)) (stack : List (Pair K × Node K))
    (h : unvisited stack = es) : Drains (treemapIter root) es ⟨stack, stack.isEmpty⟩ := by
  induction es generalizing stack with
  | nil =>
    cases stack with
    | nil => rfl
    | cons n stack => simp [unvisited] at h
  | cons e es ih =>
    cases stack with
    | nil => simp [unvisited] at h
    | cons n stack =>
      obtain ⟨pair, r⟩ := n
      obtain ⟨rfl, hes⟩ : pair = e ∧ treePairs r ++ unvisited stack = es := by
        simpa [unvisited] using h
      rw [List.isEmpty_cons, Drains, next_started]
      exact ⟨rfl, rfl, ih _ (by rw [unvisited_pushLeft, hes])⟩

lemma next_first {root : Node K} {n : Pair K × Node K} {stack : List (Pair K × Node K)}
    (h : pushLeft root [] = n :: stack) :
    (treemapIter root).next treemapIterator = (treemapIter root).next ⟨n :: stack, false⟩ := by
  obtain ⟨pair, r⟩ := n
  cases r <;> simp [treemapIter, treemapIterator, h]

/-- A tree without a node has no first pair, and `has_next` says that it has one. -/
lemma drains_tree_iff (t : Node K) :
    Drains (treemapIter t) (treePairs t) treemapIterator ↔ t ≠ nil := by
  cases t with
  | nil => simp [treePairs, Drains, treemapIter, treemapIterator]
  | node e l r =>
    refine iff_of_true ?_ (by simp)
    have hpairs := unvisited_pushLeft (node e l r) []
    cases hstack : pushLeft (node e l r) [] with
    | nil => simp [← List.isEmpty_iff, pushLeft_ne_nil] at hstack
    | cons n stack =>
      rw [hstack, unvisited, List.flatMap_cons, List.cons_append, unvisited, List.flatMap_nil,
        List.append_nil] at hpairs
      have hstarted := drains_started (node e l r) _ (n :: stack) rfl
      rw [unvisited, List.flatMap_cons, List.cons_append] at hstarted
      rw [← hpairs, Drains, next_first hstack]
      exact hstarted

/-- A search tree. -/
def Ordered [Preorder K] : Node K → Prop
  | nil => True
  | node e l r => (∀ p ∈ treePairs l, ∃ key < e.1, p.1 = some key) ∧
      (∀ p ∈ treePairs r, ∃ key > e.1, p.1 = some key) ∧ Ordered l ∧ Ordered r

/-- One key is below another. -/
def Below [Preorder K] (p q : Pair K) : Prop :=
  ∃ key key', p.1 = some key ∧ q.1 = some key' ∧ key < key'

lemma Ordered.ascending [Preorder K] {t : Node K} (h : Ordered t) :
    (treePairs t).Pairwise Below := by
  induction t with
  | nil => exact .nil
  | node e l r ihl ihr =>
    obtain ⟨hl, hr, hol, hor⟩ := h
    refine List.pairwise_append.mpr ⟨ihl hol, List.pairwise_cons.mpr ⟨fun q hq => ?_, ihr hor⟩,
      fun p hp q hq => ?_⟩
    · obtain ⟨key, hgt, hkey⟩ := hr q hq
      exact ⟨e.1, key, rfl, hkey, hgt⟩
    · obtain ⟨key, hlt, hkey⟩ := hl p hp
      rcases List.mem_cons.mp hq with rfl | hq
      · exact ⟨key, e.1, hkey, rfl, hlt⟩
      · obtain ⟨key', hgt, hkey'⟩ := hr q hq
        exact ⟨key, key', hkey, hkey', hlt.trans hgt⟩

end Tree

/-! ## Both -/

/-- For every hash map the iterator yields the entries, each once, and knows when they are all
visited. For every tree map it does so, in ascending order, exactly if there is an entry. -/
theorem mapIterators_exact_iff [DecidableEq K] [Preorder L] (impl : Impl K) (t : Node L)
    (ht : Ordered t) :
    Drains (hashmapIter impl) (hashmapPairs impl) (hashmapIterator impl) ∧
    (∀ hash m, Represents hash impl m → ((hashmapPairs impl).map Prod.fst).Nodup ∧
      ∀ e, e ∈ hashmapPairs impl ↔ ∃ key value, e = (some key, value) ∧ m key = some value) ∧
    (Drains (treemapIter t) (treePairs t) treemapIterator ∧ (treePairs t).Pairwise Below ↔ t ≠ nil) := by
  refine ⟨drains_from impl impl.capacity 0 (zero_add _),
    fun hash m h => hashmapPairs_exact impl h, ?_⟩
  rw [drains_tree_iff, and_iff_left ht.ascending]

/-- A hash map and a tree map with the same two entries. -/
theorem mapIterators_exact_two : ∃ impl : Impl Nat,
    Drains (hashmapIter impl) (hashmapPairs impl) (hashmapIterator impl) ∧
    ((hashmapPairs impl).map Prod.fst).Nodup ∧
    (some 1, 7) ∈ hashmapPairs impl ∧ (some 2, 8) ∈ hashmapPairs impl ∧
    Drains (treemapIter (node (1, 7) nil (node (2, 8) nil nil))) [(some 1, 7), (some 2, 8)]
      treemapIterator := by
  obtain ⟨impl₁, hput, h₁, -⟩ := (Represents.create (K := Nat) (fun _ => 3) 0).put_new 1 7 rfl
    (by decide)
  have hsize : (put (fun _ => 3) (create 0) 1 7).map (fun p => p.1.size) = some 1 := by
    decide +kernel
  rw [hput] at hsize
  have hone : impl₁.size = 1 := Option.some.inj hsize
  obtain ⟨impl, -, h, -⟩ := h₁.put_new 2 8 rfl (by rw [hone]; decide)
  obtain ⟨hdrains, hexact, hiff⟩ := mapIterators_exact_iff impl
    (node (1, 7) nil (node (2, 8) nil nil)) (by simp [Ordered, treePairs])
  obtain ⟨hnodup, hmem⟩ := hexact _ _ h
  exact ⟨impl, hdrains, hnodup, (hmem _).mpr ⟨1, 7, rfl, rfl⟩, (hmem _).mpr ⟨2, 8, rfl, rfl⟩,
    (hiff.mpr (by simp)).1⟩

/-- In an empty tree map `has_next` is true although there is no entry. -/
theorem treeIterator_empty :
    ¬ ∀ t : Node Nat, Ordered t → Drains (treemapIter t) (treePairs t) treemapIterator :=
  fun h => absurd (h nil trivial) (by simp [treePairs, Drains, treemapIter, treemapIterator])

end Cobalt.Container.MapIterator
