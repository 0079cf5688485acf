/-
Cobalt.Container.LinkedListSort — what the merge sort does to the nodes.

The sort writes `next` and nothing else. So it is enough to know the nodes up
to `next`: `relink` gives a list of nodes the `next` fields of a linked list
in that order. The nodes `relink xs` become the nodes `relink ys`, where `ys`
is the stable sort of `xs`, and each node of `ys` has kept the `prev` it had.
-/
import Cobalt.Container.LinkedList
import Cobalt.Lib.Linked

namespace Cobalt.Container.LinkedList

open List

variable {h : Heap Node} {xs ys : List (Addr × Node)} {rest : Multiset (Addr × Node)}
  {a t z : Addr} {n : Node} {fuel : Nat} {compar : Addr → Addr → Int}

@[simp] lemma Node.setNext_setNext : (n.setNext a).setNext z = n.setNext z := rfl

@[simp] lemma Node.data_setNext : (n.setNext a).data = n.data := rfl

@[simp] lemma Node.next_setNext : (n.setNext a).next = a := rfl

@[simp] lemma Node.prev_setNext : (n.setNext a).prev = n.prev := rfl

/-! ## Nodes up to `next` -/

/-- The nodes, each with its `next` pointing to the one after it, the last one's to `z`. -/
def relink : List (Addr × Node) → Addr → List (Addr × Node)
  | [], _ => []
  | c :: xs, z => (c.1, c.2.setNext (headOr xs z)) :: relink xs z

lemma relink_append : relink (xs ++ ys) z = relink xs (headOr ys z) ++ relink ys z := by
  induction xs with
  | nil => rfl
  | cons c xs ih => rw [cons_append, relink, relink, ih, headOr_append, cons_append]

lemma map_fst_relink : (relink xs z).map Prod.fst = xs.map Prod.fst := by
  induction xs with
  | nil => rfl
  | cons c xs ih => rw [relink, map_cons, map_cons, ih]

lemma length_relink : (relink xs z).length = xs.length := by
  rw [← length_map Prod.fst, map_fst_relink, length_map]

/-- Reading the nodes from the first one on gives `xs`. -/
def Reads (h : Heap Node) : List (Addr × Node) → Prop
  | [] => True
  | c :: xs => h.load c.1 = .ok (c.2.setNext (headOr xs 0)) ∧ Reads h xs

lemma reads_of_load (hload : ∀ c ∈ relink xs 0, h.load c.1 = .ok c.2) : Reads h xs := by
  induction xs with
  | nil => trivial
  | cons c xs ih =>
    exact ⟨hload _ (mem_cons_self ..), ih fun c hc => hload c (mem_cons_of_mem _ hc)⟩

lemma reads_of_holds (ho : h.Holds (↑(relink xs 0) + rest)) : Reads h xs :=
  reads_of_load fun _ hc => ho.load_coe hc

lemma Reads.headOr_ne_zero (hr : Reads h xs) (hne : xs ≠ []) : headOr xs 0 ≠ 0 := by
  cases xs with
  | nil => exact absurd rfl hne
  | cons c xs => exact Heap.load_ne_zero hr.1

lemma Reads.lastNode (hr : Reads h xs) (hfuel : xs.length < fuel) :
    lastNode h fuel z (headOr xs 0) = .ok (lastOr xs z) := by
  induction xs generalizing fuel z with
  | nil =>
    obtain ⟨fuel, rfl⟩ := Nat.exists_eq_succ_of_ne_zero (ne_of_gt hfuel)
    rfl
  | cons c xs ih =>
    obtain ⟨fuel, rfl⟩ := Nat.exists_eq_succ_of_ne_zero (ne_of_gt (Nat.zero_lt_of_lt hfuel))
    rw [LinkedList.lastNode, if_neg (hr.headOr_ne_zero (cons_ne_nil c xs)), headOr_cons, hr.1,
      ok_bind]
    exact ih hr.2 (Nat.lt_of_succ_lt_succ hfuel)

/-! ## Splitting -/

/-- The slow pointer has gone half as far as the fast one when that one ends. -/
lemma splitLoop_eq {slow fast : List (Addr × Node)} (hs : Reads h slow) (hf : Reads h fast)
    (hle : fast.length ≤ slow.length) (hfuel : fast.length < fuel) :
    splitLoop h fuel (headOr slow 0) (headOr fast 0) =
      .ok (headOr (slow.drop (fast.length / 2)) 0) := by
  induction fuel generalizing slow fast with
  | zero => exact absurd hfuel (Nat.not_lt_zero _)
  | succ fuel ih =>
    match fast, slow with
    | [], slow => rfl
    | [c], slow =>
      have hend : splitLoop h fuel (headOr slow 0) 0 = .ok (headOr slow 0) := by
        simpa using @ih slow [] hs trivial (Nat.zero_le _) (Nat.lt_of_succ_lt_succ hfuel)
      rw [splitLoop, if_neg (hf.headOr_ne_zero (cons_ne_nil _ _)), headOr_cons, hf.1, ok_bind]
      rw [length_singleton, show 1 / 2 = 0 from rfl, drop_zero]
      exact (if_pos rfl).trans hend
    | c :: d :: fast, [] => simp at hle
    | c :: d :: fast, e :: slow =>
      have hd : d.1 ≠ 0 := hf.2.headOr_ne_zero (cons_ne_nil _ _)
      simp only [length_cons] at hle hfuel
      have hrest := ih hs.2 hf.2.2 (by omega) (by omega)
      rw [splitLoop, if_neg (hf.headOr_ne_zero (cons_ne_nil _ _)), headOr_cons, hf.1, ok_bind]
      change (if d.1 = 0 then _ else _) = _
      rw [if_neg hd, headOr_cons, hs.1, ok_bind]
      change (h.load d.1 >>= _) = _
      rw [hf.2.1, ok_bind, length_cons, length_cons,
        show (fast.length + 1 + 1) / 2 = fast.length / 2 + 1 by omega, drop_succ_cons]
      exact hrest

variable {c d : Addr × Node}

lemma relink_split {post : List (Addr × Node)} :
    (↑(relink (xs ++ [c]) 0) + ↑(relink post 0) : Multiset (Addr × Node)) =
      ↑(relink xs c.1 ++ (c.1, c.2.setNext 0) :: relink post 0) := by
  rw [relink_append, Multiset.coe_add, append_assoc]
  rfl

/-- The list is cut where the slow pointer stands. -/
lemma exists_cut (hne : xs ≠ []) : ∃ pre c post, xs = pre ++ c :: post ∧
    pre.length = (xs.length - 1) / 2 := by
  have hpos := length_pos_iff.mpr hne
  have hk : (xs.length - 1) / 2 < xs.length := by omega
  refine ⟨xs.take ((xs.length - 1) / 2), xs[(xs.length - 1) / 2],
    xs.drop ((xs.length - 1) / 2 + 1), ?_, ?_⟩
  · rw [getElem_cons_drop, take_append_drop]
  · rw [length_take, Nat.min_eq_left hk.le]

lemma listSplit_returns (ho : h.Holds (↑(relink xs 0) + rest)) (hne : xs ≠ [])
    (hfuel : xs.length ≤ fuel) :
    Returns (listSplit fuel h (headOr xs 0)) fun r =>
      r.1 = headOr (xs.take ((xs.length + 1) / 2)) 0 ∧
      r.2.1 = headOr (xs.drop ((xs.length + 1) / 2)) 0 ∧
      r.2.2.Holds (↑(relink (xs.take ((xs.length + 1) / 2)) 0) +
        ↑(relink (xs.drop ((xs.length + 1) / 2)) 0) + rest) := by
  obtain ⟨x, tail, rfl⟩ := exists_cons_of_ne_nil hne
  have hr := reads_of_holds ho
  have hslow := splitLoop_eq hr hr.2 (Nat.le_succ _) hfuel
  obtain ⟨pre, c, post, hxs, hpre⟩ := exists_cut hne
  have hhalf : ((x :: tail).length + 1) / 2 = pre.length + 1 := by
    rw [hpre, length_cons]
    omega
  have htake : (x :: tail).take (pre.length + 1) = pre ++ [c] := by
    rw [hxs, take_length_add_append]
    rfl
  have hdrop : (x :: tail).drop (pre.length + 1) = post := by
    rw [hxs, drop_length_add_append]
    rfl
  have hdrop' : (x :: tail).drop (tail.length / 2) = c :: post := by
    rw [show tail.length / 2 = pre.length by rw [hpre]; rfl, hxs, drop_left]
  rw [hdrop', headOr_cons, headOr_cons] at hslow
  have hcells := ho
  rw [hxs, relink_append] at hcells
  obtain ⟨h', hmod, hholds⟩ := hcells.modify_mid (Node.setNext 0)
  have hload := hcells.load_coe (mem_append_right _ (mem_cons_self ..))
  rw [hhalf, htake, hdrop]
  refine ⟨(x.1, headOr post 0, h'), ?_, ?_, rfl, ?_⟩
  · rw [listSplit, if_neg (hr.headOr_ne_zero (cons_ne_nil _ _)), headOr_cons, hr.1, ok_bind]
    change (splitLoop h fuel x.1 (headOr tail 0) >>= _) = _
    rw [hslow, ok_bind, hload, ok_bind, hmod, ok_bind]
    rfl
  · have hfirst : x.1 = headOr (pre ++ c :: post) 0 := by rw [← hxs, headOr_cons]
    rw [hfirst, headOr_append, headOr_append]
    rfl
  · rw [relink_split]
    exact hholds

/-! ## Merging -/

/-- The order in which the sort puts the nodes. -/
def le (compar : Addr → Addr → Int) (c d : Addr × Node) : Bool :=
  decide (compar c.2.data d.2.data ≤ 0)

lemma merge_cons_le (hle : compar c.2.data d.2.data ≤ 0) :
    (c :: xs).merge (d :: ys) (le compar) = c :: xs.merge (d :: ys) (le compar) := by
  rw [cons_merge_cons_pos]
  exact decide_eq_true hle

lemma merge_cons_gt (hgt : ¬ compar c.2.data d.2.data ≤ 0) :
    (c :: xs).merge (d :: ys) (le compar) = d :: (c :: xs).merge ys (le compar) := by
  rw [cons_merge_cons_neg]
  simpa [le] using hgt

/-- The loop ends when one of the lists has ended, and hangs in what is left of the other. -/
lemma mergeLoop_end (hend : ¬ (headOr xs 0 ≠ 0 ∧ headOr ys 0 ≠ 0)) :
    mergeLoop compar (fuel + 1) h t (headOr xs 0) (headOr ys 0) =
      h.modify t (Node.setNext (if headOr xs 0 ≠ 0 then headOr xs 0 else headOr ys 0)) := by
  rw [mergeLoop, if_neg hend]

/-- The tail that has got its `next` is the first node of what hangs behind the new tail's
predecessors: the same cells, grouped in another way. -/
lemma relink_hang :
    ({(c.1, c.2.setNext (headOr xs 0))} + (↑(relink xs 0) + ({(t, n)} + rest)) :
      Multiset (Addr × Node)) = {(t, n)} + (↑(relink (c :: xs) 0) + rest) := by
  rw [relink, ← Multiset.cons_coe, ← Multiset.singleton_add]
  ac_rfl

/-- One round of the loop hangs a node behind the tail, and that node is the tail then. -/
lemma hang_returns (ho : h.Holds ({(t, n)} + (↑(relink (c :: xs) 0) + rest))) :
    Returns (h.modify t (Node.setNext c.1)) fun h' =>
      h'.load c.1 = .ok (c.2.setNext (headOr xs 0)) ∧ h'.Holds ({(c.1, c.2.setNext (headOr xs 0))} +
        (↑(relink xs 0) + ({(t, n.setNext c.1)} + rest))) := by
  refine (ho.modify (Node.setNext c.1)).imp fun h' hh => ?_
  rw [← relink_hang] at hh
  exact ⟨hh.load_head, hh⟩

variable (compar) in
lemma mergeLoop_returns (ho : h.Holds ({(t, n)} + (↑(relink xs 0) + (↑(relink ys 0) + rest))))
    (hfuel : xs.length + ys.length < fuel) :
    Returns (mergeLoop compar fuel h t (headOr xs 0) (headOr ys 0)) fun h' =>
      h'.Holds ({(t, n.setNext (headOr (xs.merge ys (le compar)) 0))} +
        (↑(relink (xs.merge ys (le compar)) 0) + rest)) := by
  induction fuel generalizing h t n xs ys rest with
  | zero => exact absurd hfuel (Nat.not_lt_zero _)
  | succ fuel ih =>
    have hxs : Reads h xs := reads_of_load fun c hc => ho.load (by simp [hc])
    have hys : Reads h ys := reads_of_load fun c hc => ho.load (by simp [hc])
    match xs, ys with
    | [], ys =>
      rw [mergeLoop_end (by simp), if_neg (by simp), nil_merge]
      have hmod := ho.modify (Node.setNext (headOr ys 0))
      simpa [relink] using hmod
    | c :: xs, [] =>
      rw [mergeLoop_end (by simp), if_pos (hxs.headOr_ne_zero (cons_ne_nil _ _)), merge_right]
      have hmod := ho.modify (Node.setNext (headOr (c :: xs) 0))
      simpa [relink] using hmod
    | c :: xs, d :: ys =>
      have hc := hxs.headOr_ne_zero (cons_ne_nil _ _)
      have hd := hys.headOr_ne_zero (cons_ne_nil _ _)
      simp only [length_cons] at hfuel
      rw [mergeLoop, if_pos ⟨hc, hd⟩, headOr_cons, headOr_cons, hxs.1, ok_bind, hys.1, ok_bind,
        Node.data_setNext, Node.data_setNext]
      by_cases hle : compar c.2.data d.2.data ≤ 0
      · obtain ⟨h', hmod, hload, hholds⟩ := hang_returns ho
        rw [add_left_comm {(t, _)}] at hholds
        have hrest := ih hholds (by rw [length_cons]; omega)
        rw [if_pos hle, hmod, ok_bind, hload, ok_bind, Node.next_setNext, merge_cons_le hle, headOr_cons]
        simpa only [Node.setNext_setNext, relink_hang, headOr_cons] using hrest
      · rw [add_left_comm (↑(relink (c :: xs) 0) : Multiset (Addr × Node))] at ho
        obtain ⟨h', hmod, hload, hholds⟩ := hang_returns ho
        rw [add_left_comm {(t, _)}, add_left_comm (↑(relink ys 0) : Multiset (Addr × Node))] at hholds
        have hrest := ih hholds (by rw [length_cons]; omega)
        rw [if_neg hle, hmod, ok_bind, hload, ok_bind, Node.next_setNext, merge_cons_gt hle, headOr_cons]
        simpa only [Node.setNext_setNext, relink_hang, headOr_cons] using hrest

variable (compar) in
lemma listMerge_returns (ho : h.Holds (↑(relink xs 0) + (↑(relink ys 0) + rest)))
    (hfuel : xs.length + ys.length < fuel) :
    Returns (listMerge compar fuel h (headOr xs 0) (headOr ys 0)) fun r =>
      r.1 = headOr (xs.merge ys (le compar)) 0 ∧
      r.2.Holds (↑(relink (xs.merge ys (le compar)) 0) + rest) := by
  obtain ⟨h1, hloop, hh1⟩ := mergeLoop_returns compar (ho.alloc ⟨0, 0, 0⟩) hfuel
  obtain ⟨h2, hfree, hh2⟩ := hh1.free
  refine ⟨(_, h2), ?_, rfl, hh2⟩
  rw [listMerge]
  change (mergeLoop compar fuel (h.alloc ⟨0, 0, 0⟩).2 h.next _ _ >>= _) = _
  rw [hloop, ok_bind, hh1.load_head, ok_bind, hfree, ok_bind]
  rfl

/-! ## Sorting -/

lemma mergeSort_halves (hlen : 2 ≤ xs.length) :
    xs.mergeSort (le compar) =
      ((xs.take ((xs.length + 1) / 2)).mergeSort (le compar)).merge
        ((xs.drop ((xs.length + 1) / 2)).mergeSort (le compar)) (le compar) := by
  match xs with
  | [] => simp at hlen
  | [_] => simp at hlen
  | _ :: _ :: _ =>
    rw [List.mergeSort]
    simp

variable (compar) in
lemma listMergesort_returns (ho : h.Holds (↑(relink xs 0) + rest)) (hfuel : xs.length < fuel) :
    Returns (listMergesort compar fuel h (headOr xs 0)) fun r =>
      r.1 = headOr (xs.mergeSort (le compar)) 0 ∧
      r.2.Holds (↑(relink (xs.mergeSort (le compar)) 0) + rest) := by
  induction fuel generalizing h xs rest with
  | zero => exact absurd hfuel (Nat.not_lt_zero _)
  | succ fuel ih =>
    have hr := reads_of_holds ho
    match xs with
    | [] => exact ⟨(0, h), rfl, by simp, by simpa using ho⟩
    | [c] =>
      refine ⟨(c.1, h), ?_, by simp, by simpa using ho⟩
      rw [listMergesort, if_neg (hr.headOr_ne_zero (cons_ne_nil _ _)), headOr_cons, hr.1, ok_bind]
      exact if_pos rfl
    | c :: d :: xs =>
      have hd : d.1 ≠ 0 := hr.2.headOr_ne_zero (cons_ne_nil _ _)
      obtain ⟨⟨a, b, h1⟩, hsplit, rfl, rfl, hh1⟩ := listSplit_returns ho (cons_ne_nil _ _) hfuel.le
      rw [mergeSort_halves (by simp)]
      generalize hm : ((c :: d :: xs).length + 1) / 2 = m at hsplit hh1 ⊢
      have hlen : (c :: d :: xs).length = xs.length + 2 := rfl
      rw [hlen] at hm hfuel
      have hfront : ((c :: d :: xs).take m).length = m := by
        rw [length_take, hlen]
        omega
      have hback : ((c :: d :: xs).drop m).length = xs.length + 2 - m := by
        rw [length_drop, hlen]
      -- the halves are sorted one after the other, each with the other one in the frame
      rw [Multiset.add_assoc] at hh1
      obtain ⟨⟨a, h2⟩, hfst, rfl, hh2⟩ := ih hh1 (by omega)
      rw [add_left_comm] at hh2
      obtain ⟨⟨b, h3⟩, hsnd, rfl, hh3⟩ := ih hh2 (by omega)
      rw [add_left_comm] at hh3
      rw [listMergesort, if_neg (hr.headOr_ne_zero (cons_ne_nil _ _)), headOr_cons, hr.1, ok_bind]
      change Returns (if d.1 = 0 then _ else _) _
      rw [if_neg hd]
      change Returns (listSplit (fuel + 1) h (headOr (c :: d :: xs) 0) >>= _) _
      refine .ok_bind hsplit (.ok_bind hfst (.ok_bind hsnd ?_))
      exact listMerge_returns compar hh3 (by rw [length_mergeSort, length_mergeSort]; omega)

end Cobalt.Container.LinkedList
