/-
Cobalt.Lib.Acyclic — relations without cycles.

A relation is acyclic when no element reaches itself. A rank that grows
along every edge shows it (`acyclic_of_rank`); in the other direction every
finite nonempty set of an acyclic relation has an element with no edge from
inside the set (`Acyclic.exists_source`), which is what lets an elimination
procedure go on until nothing is left.
-/
import Mathlib

namespace Cobalt

variable {α : Type}

/-- No element reaches itself along one edge or more. -/
def Acyclic (edge : α → α → Prop) : Prop := ∀ x, ¬ Relation.TransGen edge x x

/-- A relation along which a rank grows has no cycle. -/
lemma acyclic_of_rank {edge : α → α → Prop} (rank : α → Nat)
    (hrank : ∀ x y, edge x y → rank x < rank y) : Acyclic edge := by
  have hpath : ∀ x y, Relation.TransGen edge x y → rank x < rank y := by
    intro x y h
    induction h with
    | single h => exact hrank _ _ h
    | tail _ h ih => exact ih.trans (hrank _ _ h)
  intro x h
  exact lt_irrefl _ (hpath x x h)

/-- In a finite nonempty set some element has no edge from inside the set. -/
lemma Acyclic.exists_source {edge : α → α → Prop} (h : Acyclic edge) (S : Finset α)
    (hS : S.Nonempty) : ∃ x ∈ S, ∀ y ∈ S, ¬ edge y x := by
  let below : S → S → Prop := fun x y => Relation.TransGen edge x y
  have : IsTrans S below := ⟨fun _ _ _ hxy hyz => Relation.TransGen.trans hxy hyz⟩
  have : Std.Irrefl below := ⟨fun x => h x⟩
  obtain ⟨x0, hx0⟩ := hS
  -- a transitive and irreflexive relation on a finite set is well founded
  have hwf : WellFounded below := Finite.wellFounded_of_trans_of_irrefl below
  obtain ⟨m, -, hmin⟩ := hwf.has_min Set.univ ⟨⟨x0, hx0⟩, trivial⟩
  refine ⟨m, m.2, fun y hy hedge => ?_⟩
  exact hmin ⟨y, hy⟩ trivial (Relation.TransGen.single hedge)

end Cobalt
