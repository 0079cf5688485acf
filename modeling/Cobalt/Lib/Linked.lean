/-
Cobalt.Lib.Linked — cells of a heap, listed in the order of a linked list.

A list of cells says where each cell lies and what is in it. The rules of
`Heap.Holds` are about one cell and the rest; here they are stated for a cell
in the middle of such a list.
-/
import Cobalt.Lib.Heap

namespace Cobalt

open List Multiset

variable {α : Type} {h : Heap α} {xs ys : List (Addr × α)} {rest : Multiset (Addr × α)}
  {a z : Addr} {x : α}

/-! ## Ends -/

/-- The address of the first cell, or `z`. -/
def headOr : List (Addr × α) → Addr → Addr
  | [], z => z
  | (a, _) :: _, _ => a

/-- The address of the last cell, or `z`. -/
def lastOr : List (Addr × α) → Addr → Addr
  | [], z => z
  | (a, _) :: xs, _ => lastOr xs a

@[simp] lemma headOr_nil : headOr ([] : List (Addr × α)) z = z := rfl

@[simp] lemma headOr_cons {c : Addr × α} : headOr (c :: xs) z = c.1 := rfl

@[simp] lemma lastOr_nil : lastOr ([] : List (Addr × α)) z = z := rfl

@[simp] lemma lastOr_cons {c : Addr × α} : lastOr (c :: xs) z = lastOr xs c.1 := rfl

lemma headOr_append : headOr (xs ++ ys) z = headOr xs (headOr ys z) := by
  cases xs <;> rfl

lemma lastOr_append : lastOr (xs ++ ys) z = lastOr ys (lastOr xs z) := by
  induction xs generalizing z with
  | nil => rfl
  | cons x xs ih => exact ih

/-! ## One cell of a list -/

namespace Heap

lemma load_ne_zero (hload : h.load a = .ok x) : a ≠ 0 := by
  intro ha
  rw [Heap.load, if_pos ha] at hload
  cases hload

namespace Holds

lemma coe_append_cons : (↑(xs ++ (a, x) :: ys) : Multiset (Addr × α)) = {(a, x)} + ↑(xs ++ ys) := by
  rw [singleton_add, cons_coe]
  exact coe_eq_coe.mpr perm_middle

lemma load_coe (ho : h.Holds (↑xs + rest)) (hmem : (a, x) ∈ xs) : h.load a = .ok x :=
  ho.load (mem_add.mpr (.inl (mem_coe.mpr hmem)))

lemma modify_mid (ho : h.Holds (↑(xs ++ (a, x) :: ys) + rest)) (f : α → α) :
    Returns (h.modify a f) fun h' => h'.Holds (↑(xs ++ (a, f x) :: ys) + rest) := by
  rw [coe_append_cons, Multiset.add_assoc] at ho ⊢
  exact ho.modify f

lemma modify_cons (ho : h.Holds (↑((a, x) :: ys) + rest)) (f : α → α) :
    Returns (h.modify a f) fun h' => h'.Holds (↑((a, f x) :: ys) + rest) := by
  rw [← nil_append ((a, x) :: ys)] at ho
  exact ho.modify_mid f

lemma nodup_coe (ho : h.Holds (↑xs + rest)) : (xs.map Prod.fst).Nodup := by
  have hnodup := ho.nodup
  rw [map_add, map_coe] at hnodup
  exact coe_nodup.mp (nodup_of_le (le_add_right _ _) hnodup)

lemma zero_notMem (ho : h.Holds (↑xs + rest)) : 0 ∉ xs.map Prod.fst := by
  intro hzero
  obtain ⟨⟨a, x⟩, hmem, rfl⟩ := mem_map.mp hzero
  exact load_ne_zero (ho.load_coe hmem) rfl

/-- There are fewer cells than addresses. -/
lemma length_lt (ho : h.Holds (↑xs + rest)) : xs.length < h.next := by
  have hsub : 0 :: xs.map Prod.fst ⊆ List.range h.next := by
    intro a ha
    rcases mem_cons.mp ha with rfl | ha
    · exact List.mem_range.mpr ho.next
    · obtain ⟨⟨a, x⟩, hmem, rfl⟩ := mem_map.mp ha
      exact List.mem_range.mpr
        (ho.bound a x (mem_add.mpr (.inl (mem_coe.mpr hmem))))
  have hnodup : (0 :: xs.map Prod.fst).Nodup := nodup_cons.mpr ⟨ho.zero_notMem, ho.nodup_coe⟩
  have hle := (subperm_of_subset hnodup hsub).length_le
  rwa [length_cons, length_map, length_range] at hle

end Holds

end Heap

end Cobalt
