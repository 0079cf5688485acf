/-
Cobalt.Container.LinkedListTheorems — the list against an abstract sequence.

As long as it is not sorted, the list is a doubly linked list and every call
returns what it would return on a sequence. Sorting puts the nodes in the right
order along `next` and leaves every `prev` as it was. The back pointers of the
nodes fit one order only, the old one: unless the sequence was in order
already, the list is not well formed any more.
-/
import Cobalt.Container.LinkedListSort

namespace Cobalt.Container.LinkedList

open List LinkedList
open Multiset (coe_add add_assoc)
open Prod (snd fst)

/-! ## What is claimed -/

/-- The nodes are linked both ways, with `p` before the first of them. -/
def Linked : Addr → List (Addr × Node) → Prop
  | _, [] => True
  | p, c :: cs => c.2.prev = p ∧ c.2.next = headOr cs 0 ∧ Linked c.1 cs

/-- The list consists of these nodes. -/
structure Consists (l : State) (cs : List (Addr × Node)) : Prop where
  live : ∀ c ∈ cs, l.heap.load c.1 = .ok c.2
  linked : Linked 0 cs
  head : l.head = headOr cs 0
  tail : l.tail = lastOr cs 0
  size : l.size = cs.length

def WellFormed (l : State) : Prop := ∃ cs, Consists l cs

/-- Removing the first element that passes a test. -/
def removeFirstSpec (test : Addr → Bool) (s : List Addr) : Out × List Addr :=
  if s.any test then (.code 0, s.eraseP test) else (.code (-1), s)

/-- The calls on a sequence. The null pointer stands for a missing element. -/
def Op.spec : Op → List Addr → Out × List Addr
  | .pushFront item, s => (.code 0, item :: s)
  | .pushBack item, s => (.code 0, s ++ [item])
  | .popFront, s => (.item (s.head?.getD 0), s.tail)
  | .popBack, s => (.item (s.getLast?.getD 0), s.dropLast)
  | .get index, s => (.item (s[index]?.getD 0), s)
  | .remove item, s =>
    if item = 0 then (.code (-1), s) else removeFirstSpec (fun data => data == item) s
  | .removeIf none _, s => (.code (-1), s)
  | .removeIf (some predicate) userData, s =>
    removeFirstSpec (fun data => predicate data userData != 0) s
  | .removeAt index, s =>
    if index < s.length then (.code 0, s.eraseIdx index) else (.code (-1), s)
  | .sort none, s => (.done, s)
  -- the library's merge sort is stable
  | .sort (some compar), s => (.done, s.mergeSort fun a b => decide (compar a b ≤ 0))

/-- Every call returns what it returns on the sequence, and the list is well formed throughout. -/
def Refines : State → List Addr → List Op → Prop
  | l, _, [] => WellFormed l
  | l, s, op :: ops =>
    WellFormed l ∧ ∃ l', step l op = .ok ((op.spec s).1, l') ∧ Refines l' (op.spec s).2 ops

/-- A comparator is a total preorder. -/
def Op.Lawful : Op → Prop
  | .sort (some compar) =>
    (∀ a b, compar a b ≤ 0 ∨ compar b a ≤ 0) ∧
      ∀ a b c, compar a b ≤ 0 → compar b c ≤ 0 → compar a c ≤ 0
  | _ => True

/-- A sequence that is to be sorted is in order already. -/
def Op.Settled : Op → List Addr → Prop
  | .sort (some compar), s => s.Pairwise fun a b => compar a b ≤ 0
  | _, _ => True

/-- Whenever the sequence is to be sorted, it is in order already. -/
def InOrder : List Addr → List Op → Prop
  | _, [] => True
  | s, op :: ops => op.Settled s ∧ InOrder (op.spec s).2 ops

variable {l l' : State} {h : Heap Node} {xs ys pre post : List (Addr × Addr)} {c : Addr × Addr}
  {cs ds : List (Addr × Node)} {rest : Multiset (Addr × Node)} {p q v w z a d head tail : Addr}
  {s : List Addr} {k fuel : Nat} {test : Addr → Bool}

/-! ## The nodes of a list -/

/-- The nodes of a list with these elements, between `p` and `z`. -/
def nodes : Addr → List (Addr × Addr) → Addr → List (Addr × Node)
  | _, [], _ => []
  | p, c :: xs, z => (c.1, ⟨c.2, headOr xs z, p⟩) :: nodes c.1 xs z

lemma nodes_append : nodes p (xs ++ ys) z = nodes p xs (headOr ys z) ++ nodes (lastOr xs p) ys z := by
  induction xs generalizing p with
  | nil => rfl
  | cons c xs ih => rw [cons_append, nodes, nodes, ih, headOr_append, cons_append, lastOr_cons]

lemma nodes_concat :
    nodes p (xs ++ [c]) z = nodes p xs c.1 ++ [(c.1, ⟨c.2, z, lastOr xs p⟩)] := nodes_append

lemma nodes_mid : nodes p (pre ++ c :: post) z =
    nodes p pre c.1 ++ (c.1, ⟨c.2, headOr post z, lastOr pre p⟩) :: nodes c.1 post z := nodes_append

@[simp] lemma headOr_nodes : headOr (nodes p xs z) w = headOr xs w := by
  cases xs <;> rfl

@[simp] lemma lastOr_nodes : lastOr (nodes p xs z) w = lastOr xs w := by
  induction xs generalizing p w with
  | nil => rfl
  | cons c xs ih => exact ih

@[simp] lemma length_nodes : (nodes p xs z).length = xs.length := by
  induction xs generalizing p with
  | nil => rfl
  | cons c xs ih => rw [nodes, length_cons, length_cons, ih]

lemma relink_nodes : relink (nodes p xs z) z = nodes p xs z := by
  induction xs generalizing p with
  | nil => rfl
  | cons c xs ih =>
    rw [nodes, relink, ih, headOr_nodes]
    rfl

lemma map_data_nodes : (nodes p xs z).map (fun c => c.2.data) = xs.map snd := by
  induction xs generalizing p with
  | nil => rfl
  | cons c xs ih => rw [nodes, map_cons, map_cons, ih]

lemma linked_nodes : Linked p (nodes p xs 0) := by
  induction xs generalizing p with
  | nil => trivial
  | cons c xs ih => exact ⟨rfl, by rw [headOr_nodes], ih⟩

lemma headOr_of_ne_nil (hne : xs ≠ []) : headOr xs z = headOr xs w := by
  cases xs with
  | nil => exact absurd rfl hne
  | cons c xs => rfl

lemma lastOr_of_ne_nil (hne : xs ≠ []) : lastOr xs z = lastOr xs w := by
  cases xs with
  | nil => exact absurd rfl hne
  | cons c xs => rfl

/-- The list has these elements, and its nodes are all there is on its heap. -/
structure Rep (l : State) (xs : List (Addr × Addr)) : Prop where
  holds : l.heap.Holds (↑(nodes 0 xs 0) + 0)
  head : l.head = headOr xs 0
  tail : l.tail = lastOr xs 0
  size : l.size = xs.length

lemma Rep.wellFormed (hr : Rep l xs) : WellFormed l :=
  ⟨nodes 0 xs 0, fun _ hc => hr.holds.load_coe hc, linked_nodes, by rw [headOr_nodes, hr.head],
    by rw [lastOr_nodes, hr.tail], by rw [length_nodes, hr.size]⟩

lemma rep_create : Rep create [] := by
  refine ⟨?_, rfl, rfl, rfl⟩
  simpa [nodes, create] using Heap.Holds.empty

lemma ne_zero_of_holds (ho : h.Holds (↑(nodes p xs z) + rest)) (hc : c ∈ xs) : c.1 ≠ 0 := by
  obtain ⟨pre, post, rfl⟩ := append_of_mem hc
  rw [nodes_mid] at ho
  exact Heap.load_ne_zero (ho.load_coe (mem_append_right _ (mem_cons_self ..)))

lemma headOr_ne_zero (ho : h.Holds (↑(nodes p xs z) + rest)) (hne : xs ≠ []) : headOr xs w ≠ 0 := by
  obtain ⟨c, xs, rfl⟩ := exists_cons_of_ne_nil hne
  exact ne_zero_of_holds ho (mem_cons_self ..)

lemma lastOr_ne_zero (ho : h.Holds (↑(nodes p xs z) + rest)) (hne : xs ≠ []) : lastOr xs w ≠ 0 := by
  rw [← dropLast_append_getLast hne, lastOr_append]
  exact ne_zero_of_holds ho (getLast_mem hne)

/-! ## Linking -/

lemma setPrevOr_returns (ho : h.Holds (↑(nodes p ys 0) + rest))
    (htail : ys ≠ [] → tail = lastOr ys 0) :
    Returns (setPrevOr h tail (headOr ys 0) q) fun r =>
      r.1.Holds (↑(nodes q ys 0) + rest) ∧ r.2 = lastOr ys q := by
  by_cases hne : ys = []
  · subst hne
    exact ⟨(h, q), rfl, ho, rfl⟩
  · obtain ⟨c, ys, rfl⟩ := exists_cons_of_ne_nil hne
    obtain ⟨h', hmod, hh⟩ := ho.modify_cons (Node.setPrev q)
    refine ⟨(h', tail), ?_, hh, htail hne⟩
    rw [setPrevOr, if_pos (headOr_ne_zero ho hne)]
    exact congrArg (· >>= _) hmod

lemma setNextOr_returns (ho : h.Holds (↑(nodes 0 xs w) + rest))
    (hhead : xs ≠ [] → head = headOr xs 0) :
    Returns (setNextOr h head (lastOr xs 0) v) fun r =>
      r.1.Holds (↑(nodes 0 xs v) + rest) ∧ r.2 = headOr xs v := by
  by_cases hne : xs = []
  · subst hne
    exact ⟨(h, v), rfl, ho, rfl⟩
  · have hlast := dropLast_append_getLast hne
    generalize xs.dropLast = init, xs.getLast hne = c at hlast
    subst hlast
    have hcells := ho
    rw [nodes_concat] at hcells
    obtain ⟨h', hmod, hh⟩ := hcells.modify_mid (Node.setNext v)
    refine ⟨(h', head), ?_, ?_, (hhead hne).trans (headOr_of_ne_nil hne)⟩
    · rw [setNextOr, if_pos (lastOr_ne_zero ho hne), lastOr_append]
      exact congrArg (· >>= _) hmod
    · rw [nodes_concat]
      exact hh

/-! ## Pushing and popping -/

lemma coe_cons_add {c : Addr × Node} :
    (↑(c :: cs) + rest : Multiset (Addr × Node)) = ↑cs + ({c} + rest) := by
  rw [← Multiset.cons_coe, ← Multiset.singleton_add]
  ac_rfl

lemma coe_concat_add {c : Addr × Node} :
    (↑(cs ++ [c]) + rest : Multiset (Addr × Node)) = ↑cs + ({c} + rest) := by
  rw [← coe_add, Multiset.coe_singleton, add_assoc]

lemma Rep.pushFront (hr : Rep l xs) (item : Addr) :
    Returns (pushFront l item) fun r => r.1 = 0 ∧ Rep r.2 ((l.heap.next, item) :: xs) := by
  have halloc := hr.holds.alloc ⟨item, headOr xs 0, 0⟩
  rw [add_left_comm] at halloc
  obtain ⟨⟨h, tail⟩, hset, hh, rfl⟩ := setPrevOr_returns (q := l.heap.next) halloc fun _ => hr.tail
  refine ⟨(0, ⟨h, l.heap.next, lastOr xs l.heap.next, l.size + 1⟩), ?_, rfl, ?_, rfl, rfl, ?_⟩
  · rw [LinkedList.pushFront, hr.head]
    exact congrArg (· >>= _) hset
  · rw [nodes, coe_cons_add]
    exact hh
  · exact congrArg (· + 1) hr.size

lemma Rep.pushBack (hr : Rep l xs) (item : Addr) :
    Returns (pushBack l item) fun r => r.1 = 0 ∧ Rep r.2 (xs ++ [(l.heap.next, item)]) := by
  have halloc := hr.holds.alloc ⟨item, 0, lastOr xs 0⟩
  rw [add_left_comm] at halloc
  obtain ⟨⟨h, head⟩, hset, hh, rfl⟩ := setNextOr_returns (v := l.heap.next) halloc fun _ => hr.head
  refine ⟨(0, ⟨h, headOr xs l.heap.next, l.heap.next, l.size + 1⟩), ?_, rfl, ?_, ?_, ?_, ?_⟩
  · rw [LinkedList.pushBack, hr.tail]
    exact congrArg (· >>= _) hset
  · rw [nodes_concat, coe_concat_add]
    exact hh
  · rw [headOr_append]
    rfl
  · rw [lastOr_append]
    rfl
  · rw [length_append, length_singleton, hr.size]

lemma Rep.popFront_nil (hr : Rep l []) : popFront l = .ok (0, l) := if_pos hr.head

lemma Rep.popFront (hr : Rep l (c :: xs)) :
    Returns (popFront l) fun r => r.1 = c.2 ∧ Rep r.2 xs := by
  have ho := hr.holds
  rw [nodes, coe_cons_add] at ho
  obtain ⟨⟨h, tail⟩, hset, hh, rfl⟩ := setPrevOr_returns (q := 0) ho fun hne =>
    hr.tail.trans (lastOr_of_ne_nil hne)
  rw [add_left_comm] at hh
  obtain ⟨h', hfree, hh'⟩ := hh.free
  have hload := hr.holds.load_coe (mem_cons_self ..)
  refine ⟨(c.2, ⟨h', headOr xs 0, lastOr xs 0, l.size - 1⟩), ?_, rfl, hh', rfl, rfl, ?_⟩
  · have hhead : l.head = c.1 := hr.head
    rw [LinkedList.popFront, hhead, if_neg (Heap.load_ne_zero hload), hload, ok_bind]
    change (setPrevOr l.heap l.tail (headOr xs 0) 0 >>= _) = _
    rw [hset, ok_bind]
    change (h.load c.1 >>= _) = _
    rw [hh.load_head, ok_bind]
    exact congrArg (· >>= _) hfree
  · exact congrArg (· - 1) hr.size

lemma Rep.popBack_nil (hr : Rep l []) : popBack l = .ok (0, l) := if_pos hr.tail

lemma Rep.popBack (hr : Rep l (xs ++ [c])) :
    Returns (popBack l) fun r => r.1 = c.2 ∧ Rep r.2 xs := by
  have ho := hr.holds
  rw [nodes_concat, coe_concat_add] at ho
  obtain ⟨⟨h, head⟩, hset, hh, rfl⟩ := setNextOr_returns (v := 0) ho fun hne =>
    (hr.head.trans headOr_append).trans (headOr_of_ne_nil hne)
  rw [add_left_comm] at ho hh
  obtain ⟨h', hfree, hh'⟩ := hh.free
  refine ⟨(c.2, ⟨h', headOr xs 0, lastOr xs 0, l.size - 1⟩), ?_, rfl, hh', rfl, rfl, ?_⟩
  · have htail : l.tail = c.1 := hr.tail.trans lastOr_append
    rw [LinkedList.popBack, htail, if_neg (Heap.load_ne_zero ho.load_head), ho.load_head, ok_bind]
    change (setNextOr l.heap l.head (lastOr xs 0) 0 >>= _) = _
    rw [hset, ok_bind]
    change (h.load c.1 >>= _) = _
    rw [hh.load_head, ok_bind]
    exact congrArg (· >>= _) hfree
  · have hsize := hr.size
    rw [length_append, length_singleton] at hsize
    exact congrArg (· - 1) hsize

/-! ## Walking -/

lemma forward_eq (hload : ∀ c ∈ nodes p (pre ++ post) 0, h.load c.1 = .ok c.2) :
    forward h pre.length (headOr (pre ++ post) 0) = .ok (headOr post 0) := by
  induction pre generalizing p with
  | nil => rfl
  | cons c pre ih =>
    have hc : h.load c.1 = .ok _ := hload _ (mem_cons_self ..)
    rw [cons_append, headOr_cons, length_cons, forward, hc, ok_bind]
    exact ih fun d hd => hload d (mem_cons_of_mem _ hd)

lemma backward_eq (hload : ∀ c ∈ nodes p (pre ++ post) z, h.load c.1 = .ok c.2) :
    backward h post.length (lastOr (pre ++ post) p) = .ok (lastOr pre p) := by
  induction post using List.reverseRecOn generalizing z with
  | nil => rw [append_nil]; rfl
  | append_singleton post c ih =>
    rw [← append_assoc] at hload ⊢
    rw [nodes_concat] at hload
    have hc := hload _ (mem_append_right _ (mem_singleton_self _))
    rw [lastOr_append, length_append, length_singleton, backward]
    change (h.load c.1 >>= _) = _
    rw [hc, ok_bind]
    exact ih fun d hd => hload d (mem_append_left _ hd)

lemma Rep.nodeAt (hr : Rep l (pre ++ c :: post)) : nodeAt l pre.length = .ok c.1 := by
  have hload : ∀ d ∈ nodes 0 (pre ++ c :: post) 0, l.heap.load d.1 = .ok d.2 :=
    fun d hd => hr.holds.load_coe hd
  by_cases hhalf : pre.length < l.size / 2
  · rw [LinkedList.nodeAt, if_pos hhalf, hr.head, forward_eq hload, headOr_cons]
  · have hsize := hr.size
    rw [length_append, length_cons] at hsize
    have hassoc : pre ++ c :: post = (pre ++ [c]) ++ post := by simp
    rw [hassoc] at hload
    rw [LinkedList.nodeAt, if_neg hhalf, hr.tail, hassoc,
      show l.size - 1 - pre.length = post.length by omega, backward_eq hload, lastOr_append]
    rfl

lemma Rep.get (hr : Rep l xs) (index : Nat) : get l index = .ok ((xs.map snd)[index]?.getD 0) := by
  by_cases hlt : index < xs.length
  · obtain ⟨pre, c, post, rfl, rfl⟩ : ∃ pre c post, xs = pre ++ c :: post ∧ pre.length = index :=
      ⟨xs.take index, xs[index], xs.drop (index + 1), by rw [getElem_cons_drop, take_append_drop],
        by rw [length_take, Nat.min_eq_left hlt.le]⟩
    have hload := hr.holds
    rw [nodes_mid] at hload
    rw [get, if_neg (by rw [hr.size]; omega), hr.nodeAt, ok_bind,
      hload.load_coe (mem_append_right _ (mem_cons_self ..)), ok_bind]
    simp
  · rw [LinkedList.get, if_pos (by rw [hr.size]; omega), getElem?_eq_none (by simpa using hlt)]
    rfl

/-! ## Removing -/

lemma findFirst_skip {n : Node} (hload : h.load a = .ok n) (htest : test n.data = false) :
    findFirst test h (fuel + 1) p a = findFirst test h fuel a n.next := by
  rw [findFirst, if_neg (Heap.load_ne_zero hload), hload, ok_bind]
  rw [htest, if_neg Bool.false_ne_true]

lemma findFirst_none (hload : ∀ c ∈ nodes p xs 0, h.load c.1 = .ok c.2)
    (hnone : ∀ c ∈ xs, test c.2 = false) (hfuel : xs.length < fuel) :
    findFirst test h fuel p (headOr xs 0) = .ok none := by
  induction xs generalizing p fuel with
  | nil =>
    obtain ⟨fuel, rfl⟩ := Nat.exists_eq_succ_of_ne_zero (ne_of_gt hfuel)
    rfl
  | cons c xs ih =>
    obtain ⟨fuel, rfl⟩ := Nat.exists_eq_succ_of_ne_zero (ne_of_gt (Nat.zero_lt_of_lt hfuel))
    rw [headOr_cons, findFirst_skip (hload _ (mem_cons_self ..)) (hnone c (mem_cons_self ..))]
    exact ih (fun d hd => hload d (mem_cons_of_mem _ hd))
      (fun d hd => hnone d (mem_cons_of_mem _ hd)) (Nat.lt_of_succ_lt_succ hfuel)

lemma findFirst_some (hload : ∀ d ∈ nodes p (pre ++ c :: post) 0, h.load d.1 = .ok d.2)
    (hpre : ∀ d ∈ pre, test d.2 = false) (hc : test c.2 = true) (hfuel : pre.length < fuel) :
    findFirst test h fuel p (headOr (pre ++ c :: post) 0) = .ok (some (lastOr pre p, c.1)) := by
  induction pre generalizing p fuel with
  | nil =>
    obtain ⟨fuel, rfl⟩ := Nat.exists_eq_succ_of_ne_zero (ne_of_gt hfuel)
    have hfirst : h.load c.1 = .ok _ := hload _ (mem_cons_self ..)
    rw [nil_append, headOr_cons, findFirst, if_neg (Heap.load_ne_zero hfirst), hfirst, ok_bind,
      if_pos hc]
    rfl
  | cons d pre ih =>
    obtain ⟨fuel, rfl⟩ := Nat.exists_eq_succ_of_ne_zero (ne_of_gt (Nat.zero_lt_of_lt hfuel))
    rw [cons_append, headOr_cons, findFirst_skip (hload _ (mem_cons_self ..))
      (hpre d (mem_cons_self ..))]
    exact ih (fun e he => hload e (mem_cons_of_mem _ he))
      (fun e he => hpre e (mem_cons_of_mem _ he)) (Nat.lt_of_succ_lt_succ hfuel)

lemma seek_eq (hload : ∀ c ∈ nodes p xs 0, h.load c.1 = .ok c.2) :
    seek h k p (headOr xs 0) = .ok (lastOr (xs.take k) p, headOr (xs.drop k) 0) := by
  induction k generalizing p xs with
  | zero => rfl
  | succ k ih =>
    cases xs with
    | nil => rfl
    | cons c xs =>
      have hc : h.load c.1 = .ok _ := hload _ (mem_cons_self ..)
      rw [headOr_cons, seek, if_neg (Heap.load_ne_zero hc), hc, ok_bind]
      exact ih fun d hd => hload d (mem_cons_of_mem _ hd)

lemma Rep.unlink (hr : Rep l (pre ++ c :: post)) :
    Returns (unlink l (lastOr pre 0) c.1) fun l' => Rep l' (pre ++ post) := by
  have ho := hr.holds
  rw [nodes_mid, ← coe_add, add_assoc, coe_cons_add] at ho
  obtain ⟨⟨h1, head⟩, hnext, hh1, rfl⟩ := setNextOr_returns (v := headOr post 0) ho fun hne =>
    (hr.head.trans headOr_append).trans (headOr_of_ne_nil hne)
  rw [add_left_comm] at hh1
  obtain ⟨⟨h2, tail⟩, hprev, hh2, rfl⟩ := setPrevOr_returns (q := lastOr pre 0) hh1 fun hne =>
    ((hr.tail.trans lastOr_append).trans lastOr_cons).trans (lastOr_of_ne_nil hne)
  have hagain : h1.load c.1 = .ok ⟨c.2, headOr post 0, lastOr pre 0⟩ := hh1.load (by simp)
  rw [← add_assoc, add_left_comm] at hh2
  obtain ⟨h3, hfree, hh3⟩ := hh2.free
  have hload : l.heap.load c.1 = .ok ⟨c.2, headOr post 0, lastOr pre 0⟩ := ho.load (by simp)
  refine ⟨⟨h3, headOr pre (headOr post 0), lastOr post (lastOr pre 0), l.size - 1⟩, ?_, ?_,
    headOr_append.symm, lastOr_append.symm, ?_⟩
  · rw [LinkedList.unlink, hload, ok_bind, hnext, ok_bind]
    change (h1.load c.1 >>= _) = _
    rw [hagain, ok_bind]
    change (setPrevOr h1 l.tail (headOr post 0) (lastOr pre 0) >>= _) = _
    rw [hprev, ok_bind]
    exact congrArg (· >>= _) hfree
  · rw [nodes_append, ← coe_add,
      Multiset.add_comm (↑(nodes 0 pre (headOr post 0)) : Multiset (Addr × Node))]
    exact hh3
  · have hsize := hr.size
    rw [length_append, length_cons] at hsize
    rw [length_append, hsize]
    rfl

/-- The list has the elements of this sequence. -/
def Stores (l : State) (s : List Addr) : Prop := ∃ xs, Rep l xs ∧ xs.map Prod.snd = s

lemma Rep.stores (hr : Rep l xs) : Stores l (xs.map snd) := ⟨xs, hr, rfl⟩

lemma Rep.removeFirst (hr : Rep l xs) (test : Addr → Bool) :
    Returns (removeFirst test l) fun r =>
      .code r.1 = (removeFirstSpec test (xs.map snd)).1 ∧
      Stores r.2 (removeFirstSpec test (xs.map snd)).2 := by
  have hload : ∀ c ∈ nodes 0 xs 0, l.heap.load c.1 = .ok c.2 := fun c hc => hr.holds.load_coe hc
  have hfuel : xs.length < l.heap.next := by
    have hlt := hr.holds.length_lt
    rwa [length_nodes] at hlt
  by_cases hany : ∃ c ∈ xs, test c.2 = true
  · obtain ⟨c, hc, htest⟩ := hany
    have hspec : (xs.map snd).any test = true :=
      any_eq_true.mpr ⟨c.2, mem_map_of_mem hc, htest⟩
    rw [removeFirstSpec, if_pos hspec, eraseP_map]
    obtain ⟨c, pre, post, hpre, htest, rfl, herase⟩ :=
      exists_of_eraseP (p := test ∘ snd) hc htest
    rw [herase]
    rw [length_append] at hfuel
    have hfind := findFirst_some hload (fun d hd => Bool.eq_false_iff.mpr (hpre d hd)) htest
      (lt_of_le_of_lt (Nat.le_add_right _ _) hfuel)
    obtain ⟨l', hunlink, hr'⟩ := hr.unlink
    refine ⟨(0, l'), ?_, rfl, hr'.stores⟩
    rw [removeFirst, hr.head, hfind, ok_bind]
    exact congrArg (· >>= _) hunlink
  · have hnone : ∀ c ∈ xs, test c.2 = false := fun c hc =>
      Bool.eq_false_iff.mpr fun htest => hany ⟨c, hc, htest⟩
    have hspec : ¬ (xs.map snd).any test = true := by
      rw [any_map, any_eq_true]
      exact hany
    rw [removeFirstSpec, if_neg hspec]
    refine ⟨(-1, l), ?_, rfl, hr.stores⟩
    rw [LinkedList.removeFirst, hr.head, findFirst_none hload hnone hfuel]
    rfl

lemma Rep.removeAt (hr : Rep l xs) (index : Nat) :
    Returns (removeAt l index) fun r =>
      .code r.1 = ((Op.removeAt index).spec (xs.map snd)).1 ∧
      Stores r.2 ((Op.removeAt index).spec (xs.map snd)).2 := by
  have hseek := seek_eq (k := index) fun c hc => hr.holds.load_coe hc
  rw [Op.spec, length_map]
  by_cases hlt : index < xs.length
  · rw [if_pos hlt, eraseIdx_map, eraseIdx_eq_take_drop_succ]
    have hdrop : xs.drop index = xs[index] :: xs.drop (index + 1) := drop_eq_getElem_cons hlt
    have hcut : xs = xs.take index ++ xs[index] :: xs.drop (index + 1) := by
      rw [← hdrop, take_append_drop]
    have hnode : xs[index].1 ≠ 0 := ne_zero_of_holds hr.holds (getElem_mem hlt)
    have hr' := hr
    rw [hcut] at hr'
    obtain ⟨l', hunlink, hstores⟩ := hr'.unlink
    refine ⟨(0, l'), ?_, rfl, hstores.stores⟩
    rw [LinkedList.removeAt, hr.head, hseek, ok_bind, hdrop, headOr_cons]
    exact (if_neg hnode).trans (congrArg (· >>= _) hunlink)
  · rw [if_neg hlt]
    refine ⟨(-1, l), ?_, rfl, hr.stores⟩
    rw [LinkedList.removeAt, hr.head, hseek, ok_bind, drop_eq_nil_of_le (Nat.le_of_not_lt hlt)]
    exact if_pos rfl

/-! ## Sorting -/

/-- The nodes come back in order along `next`, with the `prev` they had. -/
lemma Rep.sort (hr : Rep l xs) (compar : Addr → Addr → Int) :
    Returns (sort l (some compar)) fun l' =>
      l'.heap.Holds (↑(relink ((nodes 0 xs 0).mergeSort (le compar)) 0) + 0) ∧
      l'.head = headOr ((nodes 0 xs 0).mergeSort (le compar)) 0 ∧
      l'.tail = lastOr ((nodes 0 xs 0).mergeSort (le compar)) 0 ∧ l'.size = xs.length := by
  have ho := hr.holds
  have hfuel := ho.length_lt
  rw [← relink_nodes] at ho
  obtain ⟨⟨first, h⟩, hsort, rfl, hh⟩ := listMergesort_returns compar ho hfuel
  have hlen := hh.length_lt
  rw [length_relink] at hlen
  have hlast := (reads_of_holds hh).lastNode (z := 0) hlen
  refine ⟨⟨h, headOr ((nodes 0 xs 0).mergeSort (le compar)) 0,
    lastOr ((nodes 0 xs 0).mergeSort (le compar)) 0, l.size⟩, ?_, hh, rfl, rfl, hr.size⟩
  rw [headOr_nodes] at hsort
  rw [LinkedList.sort, listSort, getHead, hr.head, hsort, ok_bind]
  exact congrArg (· >>= _) hlast

lemma Rep.sort_none (hr : Rep l xs) : Returns (LinkedList.sort l none) fun l' => Rep l' xs := by
  have hreads : Reads l.heap (nodes 0 xs 0) := by
    have ho := hr.holds
    rw [← relink_nodes] at ho
    exact reads_of_holds ho
  have hlast := hreads.lastNode (z := 0) hr.holds.length_lt
  rw [headOr_nodes, lastOr_nodes] at hlast
  refine ⟨⟨l.heap, headOr xs 0, lastOr xs 0, l.size⟩, ?_, hr.holds, rfl, rfl, hr.size⟩
  rw [LinkedList.sort, listSort, getHead, hr.head, ok_bind]
  exact congrArg (· >>= _) hlast

variable {compar : Addr → Addr → Int}

lemma Rep.sort_settled (hr : Rep l xs)
    (hsettled : (xs.map snd).Pairwise fun a b => compar a b ≤ 0) :
    Returns (LinkedList.sort l (some compar)) fun l' => Rep l' xs := by
  have hsame : (nodes 0 xs 0).mergeSort (le compar) = nodes 0 xs 0 := by
    apply mergeSort_of_pairwise
    rw [← map_data_nodes (p := 0) (z := 0), pairwise_map] at hsettled
    exact hsettled.imp fun hle => decide_eq_true hle
  refine (hr.sort compar).imp fun l' hl' => ?_
  rw [hsame, relink_nodes, headOr_nodes, lastOr_nodes] at hl'
  exact ⟨hl'.1, hl'.2.1, hl'.2.2.1, hl'.2.2.2⟩

/-- The back pointers fit this order of the nodes. -/
def Backed : Addr → List (Addr × Node) → Prop
  | _, [] => True
  | p, c :: cs => c.2.prev = p ∧ Backed c.1 cs

lemma Linked.backed (hl : Linked p (relink cs z)) : Backed p cs := by
  induction cs generalizing p with
  | nil => trivial
  | cons c cs ih => exact ⟨hl.1, ih hl.2.2⟩

lemma backed_nodes : Backed p (nodes p xs z) := by
  induction xs generalizing p with
  | nil => trivial
  | cons c xs ih => exact ⟨rfl, ih⟩

lemma Backed.prev_mem (hb : Backed p cs) {c : Addr × Node} (hc : c ∈ cs) :
    c.2.prev ∈ p :: cs.map fst := by
  induction cs generalizing p with
  | nil => cases hc
  | cons d cs ih =>
    rcases mem_cons.mp hc with rfl | hc
    · rw [hb.1]
      exact mem_cons_self ..
    · exact mem_cons_of_mem _ (ih hb.2 hc)

/-- The back pointers fit one order of the nodes only. -/
lemma Backed.eq_of_perm (hc : Backed p cs) (hd : Backed p ds) (hperm : ds.Perm cs)
    (hnodup : (cs.map fst).Nodup) (hp : p ∉ cs.map fst) : ds = cs := by
  induction cs generalizing p ds with
  | nil => exact perm_nil.mp hperm
  | cons c cs ih =>
    obtain ⟨d, ds, rfl⟩ := exists_cons_of_ne_nil (ne_nil_of_length_pos
      (by rw [hperm.length_eq]; exact Nat.succ_pos _) : ds ≠ [])
    rw [map_cons, nodup_cons] at hnodup
    rw [map_cons, mem_cons, not_or] at hp
    rcases mem_cons.mp (hperm.subset (mem_cons_self ..)) with rfl | hmem
    · rw [ih hc.2 hd.2 hperm.cons_inv hnodup.2 hnodup.1]
    · -- a later node has some node of the list before it, and `p` is none of them
      have hprev := hc.2.prev_mem hmem
      rw [hd.1, mem_cons] at hprev
      exact absurd hprev (not_or.mpr hp)

lemma eq_relink_of_linked (hreads : Reads h ds) (hlive : ∀ c ∈ cs, h.load c.1 = .ok c.2)
    (hlinked : Linked p cs) (hhead : headOr cs 0 = headOr ds 0) : cs = relink ds 0 := by
  induction ds generalizing p cs with
  | nil =>
    cases cs with
    | nil => rfl
    | cons c cs => exact absurd hhead (Heap.load_ne_zero (hlive c (mem_cons_self ..)))
  | cons d ds ih =>
    cases cs with
    | nil => exact absurd hhead.symm (hreads.headOr_ne_zero (cons_ne_nil _ _))
    | cons c cs =>
      have haddr : c.1 = d.1 := hhead
      have hcell := hlive c (mem_cons_self ..)
      rw [haddr, hreads.1] at hcell
      have hnode : d.2.setNext (headOr ds 0) = c.2 := Except.ok.inj hcell
      have hnext : headOr cs 0 = headOr ds 0 := by
        rw [← hlinked.2.1, ← hnode, Node.next_setNext]
      rw [relink, hnode, ← haddr,
        ih hreads.2 (fun e he => hlive e (mem_cons_of_mem _ he)) hlinked.2.2 hnext]

lemma pairwise_of_mergeSort_eq (hlaw : (Op.sort (some compar)).Lawful)
    (hsame : cs.mergeSort (le compar) = cs) :
    (cs.map fun c => c.2.data).Pairwise fun a b => compar a b ≤ 0 := by
  have hsorted : (cs.mergeSort (le compar)).Pairwise fun c d => le compar c d = true := by
    refine pairwise_mergeSort (fun a b c hab hbc => ?_) (fun a b => ?_) cs
    · exact decide_eq_true (hlaw.2 _ _ _ (of_decide_eq_true hab) (of_decide_eq_true hbc))
    · rw [Bool.or_eq_true, le, le, decide_eq_true_eq, decide_eq_true_eq]
      exact hlaw.1 _ _
  rw [hsame] at hsorted
  rw [pairwise_map]
  exact hsorted.imp fun hle => of_decide_eq_true hle

/-- Nodes that change places leave a list that is not well formed. -/
lemma Rep.sort_unsettled (hr : Rep l xs) (hlaw : (Op.sort (some compar)).Lawful)
    (hunsettled : ¬ (xs.map snd).Pairwise fun a b => compar a b ≤ 0)
    (hsort : LinkedList.sort l (some compar) = .ok l') : ¬ WellFormed l' := by
  rintro ⟨cs, hcs⟩
  obtain ⟨l'', hok, hh, hhead, -, -⟩ := hr.sort compar
  cases hok.symm.trans hsort
  have heq := eq_relink_of_linked (reads_of_holds hh) hcs.live hcs.linked (hcs.head.symm.trans hhead)
  have hbacked := hcs.linked
  rw [heq] at hbacked
  have hsame := backed_nodes.eq_of_perm hbacked.backed (mergeSort_perm _ _)
    hr.holds.nodup_coe hr.holds.zero_notMem
  have hpair := pairwise_of_mergeSort_eq hlaw hsame
  rw [map_data_nodes] at hpair
  exact hunsettled hpair

/-! ## Runs -/

lemma Stores.wellFormed (hs : Stores l s) : WellFormed l := by
  obtain ⟨xs, hr, -⟩ := hs
  exact hr.wellFormed

lemma Stores.step (hs : Stores l s) {op : Op} (hsettled : op.Settled s) :
    ∃ l', step l op = .ok ((op.spec s).1, l') ∧ Stores l' (op.spec s).2 := by
  obtain ⟨xs, hr, rfl⟩ := hs
  cases op with
  | pushFront item =>
    obtain ⟨⟨_, l'⟩, hok, rfl, hr'⟩ := hr.pushFront item
    exact ⟨l', by rw [step, hok]; rfl, hr'.stores⟩
  | pushBack item =>
    obtain ⟨⟨_, l'⟩, hok, rfl, hr'⟩ := hr.pushBack item
    refine ⟨l', by rw [step, hok]; rfl, _, hr', ?_⟩
    rw [map_append]
    rfl
  | popFront =>
    cases xs with
    | nil => exact ⟨l, by rw [step, hr.popFront_nil]; rfl, hr.stores⟩
    | cons c xs =>
      obtain ⟨⟨_, l'⟩, hok, rfl, hr'⟩ := hr.popFront
      exact ⟨l', by rw [step, hok]; rfl, hr'.stores⟩
  | popBack =>
    cases xs using List.reverseRecOn with
    | nil => exact ⟨l, by rw [step, hr.popBack_nil]; rfl, hr.stores⟩
    | append_singleton xs c =>
      obtain ⟨⟨_, l'⟩, hok, rfl, hr'⟩ := hr.popBack
      refine ⟨l', ?_, ?_⟩
      · rw [step, hok, Op.spec, map_append, map_singleton, getLast?_concat]
        rfl
      · rw [Op.spec, map_append, map_singleton, dropLast_concat]
        exact hr'.stores
  | get index => exact ⟨l, by rw [step, hr.get]; rfl, hr.stores⟩
  | remove item =>
    by_cases hnull : item = 0
    · refine ⟨l, ?_, ?_⟩
      · rw [step, remove, if_pos hnull, Op.spec, if_pos hnull]
        rfl
      · rw [Op.spec, if_pos hnull]
        exact hr.stores
    · obtain ⟨⟨_, l'⟩, hok, hcode, hs'⟩ := hr.removeFirst fun data => data == item
      rw [Op.spec, if_neg hnull, ← hcode]
      exact ⟨l', by rw [step, remove, if_neg hnull, hok]; rfl, hs'⟩
  | removeIf predicate userData =>
    cases predicate with
    | none => exact ⟨l, rfl, hr.stores⟩
    | some predicate =>
      obtain ⟨⟨_, l'⟩, hok, hcode, hs'⟩ := hr.removeFirst fun data => predicate data userData != 0
      rw [Op.spec, ← hcode]
      exact ⟨l', by rw [step, removeIf, hok]; rfl, hs'⟩
  | removeAt index =>
    obtain ⟨⟨_, l'⟩, hok, hcode, hs'⟩ := hr.removeAt index
    rw [← hcode]
    exact ⟨l', by rw [step, hok]; rfl, hs'⟩
  | sort compar =>
    cases compar with
    | none =>
      obtain ⟨l', hok, hr'⟩ := hr.sort_none
      exact ⟨l', by rw [step, hok]; rfl, hr'.stores⟩
    | some compar =>
      obtain ⟨l', hok, hr'⟩ := hr.sort_settled hsettled
      refine ⟨l', by rw [step, hok]; rfl, ?_⟩
      rw [Op.spec, mergeSort_of_pairwise (hsettled.imp fun hle => decide_eq_true hle)]
      exact hr'.stores

lemma Stores.step_unsettled (hs : Stores l s) {op : Op} (hlaw : op.Lawful)
    (hunsettled : ¬ op.Settled s) {out : Out} (hstep : LinkedList.step l op = .ok (out, l')) :
    ¬ WellFormed l' := by
  obtain ⟨xs, hr, rfl⟩ := hs
  cases op with
  | sort compar =>
    cases compar with
    | none => exact absurd trivial hunsettled
    | some compar =>
      obtain ⟨l'', hok, -⟩ := hr.sort compar
      rw [LinkedList.step, hok] at hstep
      cases hstep
      exact hr.sort_unsettled hlaw hunsettled hok
  | _ => exact absurd trivial hunsettled

lemma Refines.wellFormed {ops : List Op} (href : Refines l s ops) : WellFormed l := by
  cases ops with
  | nil => exact href
  | cons op ops => exact href.1

lemma Stores.refines_iff (hs : Stores l s) {ops : List Op} (hlaw : ∀ op ∈ ops, op.Lawful) :
    Refines l s ops ↔ InOrder s ops := by
  induction ops generalizing l s with
  | nil => exact ⟨fun _ => trivial, fun _ => hs.wellFormed⟩
  | cons op ops ih =>
    have hrest : ∀ op ∈ ops, op.Lawful := fun op' hop => hlaw op' (mem_cons_of_mem _ hop)
    constructor
    · rintro ⟨-, l', hstep, href⟩
      by_cases hsettled : op.Settled s
      · obtain ⟨l'', hstep', hs'⟩ := hs.step hsettled
        cases hstep.symm.trans hstep'
        exact ⟨hsettled, (ih hs' hrest).mp href⟩
      · exact absurd href.wellFormed
          (hs.step_unsettled (hlaw op (mem_cons_self ..)) hsettled hstep)
    · rintro ⟨hsettled, hinorder⟩
      obtain ⟨l', hstep, hs'⟩ := hs.step hsettled
      exact ⟨hs.wellFormed, l', hstep, (ih hs' hrest).mpr hinorder⟩

/-- The list is a well-formed doubly linked list throughout, with the results of a sequence, iff it
is only ever sorted when it is in order. -/
theorem list_refines_iff (ops : List Op) (hlaw : ∀ op ∈ ops, op.Lawful) :
    Refines create [] ops ↔ InOrder [] ops := Stores.refines_iff ⟨[], rep_create, rfl⟩ hlaw

/-- The order of the numbers. -/
def ascending (a b : Addr) : Int := (a : Int) - b

lemma lawful_ascending : (Op.sort (some ascending)).Lawful := by
  refine ⟨fun a b => ?_, fun a b c hab hbc => ?_⟩
  · simp only [ascending]
    omega
  · simp only [ascending] at *
    omega

theorem list_refines_sorted :
    Refines create [] [.pushBack 1, .pushBack 2, .sort (some ascending), .popBack] := by
  refine (list_refines_iff _ ?_).mpr ?_
  · simpa [Op.Lawful] using lawful_ascending
  · refine ⟨trivial, trivial, ?_, trivial, trivial⟩
    simp [Op.Settled, Op.spec, ascending]

/-- What the calls return, one after the other. -/
def outs : State → List Op → Except Fault (List Out)
  | _, [] => .ok []
  | l, op :: ops => do
    let (out, l) ← step l op
    let rest ← outs l ops
    .ok (out :: rest)

def specOuts : List Addr → List Op → List Out
  | _, [] => []
  | s, op :: ops => (op.spec s).1 :: specOuts (op.spec s).2 ops

lemma Refines.outs_eq {ops : List Op} (href : Refines l s ops) : outs l ops = .ok (specOuts s ops) := by
  induction ops generalizing l s with
  | nil => rfl
  | cons op ops ih =>
    obtain ⟨-, l', hstep, href⟩ := href
    rw [outs, hstep, ok_bind]
    change (outs l' ops >>= _) = _
    rw [ih href]
    rfl

/-- Two elements are sorted and the last one is popped: the other one is gone. -/
theorem sort_loses_element : ∃ ops, (∀ op ∈ ops, Op.Lawful op) ∧ ¬ Refines create [] ops := by
  refine ⟨[.pushBack 2, .pushBack 1, .sort (some ascending), .popBack, .popFront], ?_,
    fun href => ?_⟩
  · simpa [Op.Lawful] using lawful_ascending
  · have hcode : outs create [.pushBack 2, .pushBack 1, .sort (some ascending), .popBack, .popFront] =
        .ok [.code 0, .code 0, .done, .item 2, .item 0] := rfl
    have hspec : specOuts [] [.pushBack 2, .pushBack 1, .sort (some ascending), .popBack, .popFront] =
        [.code 0, .code 0, .done, .item 2, .item 1] := by
      simp [specOuts, Op.spec, List.mergeSort, ascending]
    rw [href.outs_eq, hspec] at hcode
    simp at hcode

end Cobalt.Container.LinkedList
