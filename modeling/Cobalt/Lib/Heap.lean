/-
Cobalt.Lib.Heap — a heap of cells with explicit faults.

A load or a store through the null address or through a freed one is a
fault, and so is a loop that has used up its fuel. Addresses are handed out
in order and never again, so that a stale pointer never meets a new cell.

What a heap holds is said by a multiset of cells, which can be split into
the parts an operation works on and the rest: `Heap.Holds`. The rules for the
four operations are stated in this form.
-/
import Mathlib

namespace Cobalt

open Multiset

/-- An address; 0 is the null pointer. -/
abbrev Addr := Nat

inductive Fault where
  | null
  | freed
  | fuel
  deriving DecidableEq, Repr

structure Heap (α : Type) where
  cell : Addr → Option α
  next : Addr

namespace Heap

variable {α : Type}

def empty : Heap α := ⟨fun _ => none, 1⟩

def load (h : Heap α) (a : Addr) : Except Fault α :=
  if a = 0 then .error .null
  else match h.cell a with
    | some x => .ok x
    | none => .error .freed

def put (h : Heap α) (a : Addr) (x : Option α) : Heap α :=
  { h with cell := Function.update h.cell a x }

def modify (h : Heap α) (a : Addr) (f : α → α) : Except Fault (Heap α) := do
  let x ← h.load a
  .ok (h.put a (some (f x)))

def free (h : Heap α) (a : Addr) : Except Fault (Heap α) := do
  let _ ← h.load a
  .ok (h.put a none)

def alloc (h : Heap α) (x : α) : Addr × Heap α :=
  (h.next, ⟨Function.update h.cell h.next (some x), h.next + 1⟩)

end Heap

/-! ## Outcomes -/

@[simp] lemma ok_bind {α β : Type} (a : α) (f : α → Except Fault β) : (.ok a >>= f) = f a := rfl

/-- The computation returns, with a result of which `post` holds. -/
def Returns {α : Type} (m : Except Fault α) (post : α → Prop) : Prop := ∃ a, m = .ok a ∧ post a

namespace Returns

variable {α β : Type} {m : Except Fault α} {f : α → Except Fault β} {post : α → Prop}

lemma pure {a : α} (h : post a) : Returns (.ok a) post := ⟨a, rfl, h⟩

lemma ok_bind {a : α} {post' : β → Prop} (hm : m = .ok a) (hf : Returns (f a) post') :
    Returns (m >>= f) post' := by
  subst hm
  exact hf

lemma imp {post' : α → Prop} (hm : Returns m post) (h : ∀ a, post a → post' a) :
    Returns m post' := by
  obtain ⟨a, rfl, ha⟩ := hm
  exact ⟨a, rfl, h a ha⟩

end Returns

/-! ## What a heap holds -/

/-- The heap holds these cells, each at its own address, and no other. -/
structure Heap.Holds {α : Type} (h : Heap α) (cells : Multiset (Addr × α)) : Prop where
  mem : ∀ a x, h.cell a = some x ↔ (a, x) ∈ cells
  nodup : (cells.map Prod.fst).Nodup
  pos : ∀ a x, (a, x) ∈ cells → 0 < a
  bound : ∀ a x, (a, x) ∈ cells → a < h.next
  next : 0 < h.next

namespace Heap.Holds

variable {α : Type} {h : Heap α} {cells : Multiset (Addr × α)} {a b : Addr} {x y : α}

lemma empty : Heap.Holds (Heap.empty : Heap α) 0 :=
  ⟨fun _ _ => by simp [Heap.empty], by simp, by simp, by simp, Nat.one_pos⟩

lemma load (ho : Heap.Holds h cells) (hm : (a, x) ∈ cells) : h.load a = .ok x := by
  rw [Heap.load, if_neg (ho.pos a x hm).ne', (ho.mem a x).mpr hm]

section

variable (ho : Heap.Holds h ({(a, x)} + cells))

include ho

lemma load_head : h.load a = .ok x := ho.load (mem_add.mpr (.inl (mem_singleton_self _)))

lemma ne (hm : (b, y) ∈ cells) : a ≠ b := by
  have hnd := ho.nodup
  rw [map_add, map_singleton, singleton_add, nodup_cons] at hnd
  intro hab
  exact hnd.1 (mem_map.mpr ⟨(b, y), hm, hab.symm⟩)

lemma put (y : α) : Heap.Holds (h.put a (some y)) ({(a, y)} + cells) := by
  have hne : ∀ b z, (b, z) ∈ cells → a ≠ b := fun b z hm => ho.ne hm
  refine ⟨fun b z => ?_, ?_, fun b z hm => ?_, fun b z hm => ?_, ho.next⟩
  · have hold := ho.mem b z
    simp only [Heap.put, Function.update_apply, mem_add, mem_singleton, Prod.mk.injEq] at hold ⊢
    grind
  · have hnd := ho.nodup
    rwa [map_add, map_singleton] at hnd ⊢
  all_goals
    rcases mem_add.mp hm with hm | hm
    · obtain ⟨rfl, rfl⟩ := Prod.mk.inj (mem_singleton.mp hm)
      first
        | exact ho.pos b x (by simp)
        | exact ho.bound b x (by simp)
    · first
        | exact ho.pos b z (mem_add.mpr (.inr hm))
        | exact ho.bound b z (mem_add.mpr (.inr hm))

lemma modify (f : α → α) : Returns (h.modify a f) fun h' => Heap.Holds h' ({(a, f x)} + cells) := by
  rw [Heap.modify, ho.load_head]
  exact .pure (ho.put (f x))

lemma free : Returns (h.free a) fun h' => Heap.Holds h' cells := by
  rw [Heap.free, ho.load_head]
  have hne : ∀ b z, (b, z) ∈ cells → a ≠ b := fun b z hm => ho.ne hm
  have hnd := ho.nodup
  rw [map_add, map_singleton, singleton_add, nodup_cons] at hnd
  refine .pure ⟨fun b z => ?_, hnd.2, fun b z hm => ho.pos b z (mem_add.mpr (.inr hm)),
    fun b z hm => ho.bound b z (mem_add.mpr (.inr hm)), ho.next⟩
  have hold := ho.mem b z
  simp only [Heap.put, Function.update_apply, mem_add, mem_singleton, Prod.mk.injEq] at hold ⊢
  grind

end

lemma alloc (ho : Heap.Holds h cells) (x : α) : Heap.Holds (h.alloc x).2 ({(h.next, x)} + cells) := by
  have hne : ∀ b z, (b, z) ∈ cells → b ≠ h.next := fun b z hm => (ho.bound b z hm).ne
  refine ⟨fun b z => ?_, ?_, fun b z hm => ?_, fun b z hm => ?_, Nat.succ_pos _⟩
  · have hold := ho.mem b z
    simp only [Heap.alloc, Function.update_apply, mem_add, mem_singleton, Prod.mk.injEq]
    grind
  · rw [map_add, map_singleton, singleton_add, nodup_cons]
    refine ⟨fun hm => ?_, ho.nodup⟩
    obtain ⟨⟨b, z⟩, hm, rfl⟩ := mem_map.mp hm
    exact hne _ _ hm rfl
  · rcases mem_add.mp hm with hm | hm
    · obtain ⟨rfl, rfl⟩ := Prod.mk.inj (mem_singleton.mp hm)
      exact ho.next
    · exact ho.pos b z hm
  · change b < h.next + 1
    rcases mem_add.mp hm with hm | hm
    · obtain ⟨rfl, rfl⟩ := Prod.mk.inj (mem_singleton.mp hm)
      exact Nat.lt_succ_self _
    · exact Nat.lt_succ_of_lt (ho.bound b z hm)

end Heap.Holds

end Cobalt
