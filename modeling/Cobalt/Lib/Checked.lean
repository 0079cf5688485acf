/-
Cobalt.Lib.Checked — programs over a state that may run into a fault.

A program takes a state and gives a result and the next state, or a fault.
`Ends m s post` says that from `s` it comes to an end without a fault, with a
result and in a state of which `post` holds: total correctness, one initial
state at a time. The rules follow the program's text.
-/
import Mathlib

namespace Cobalt

/-- A program with states `σ` and faults `ε`. -/
abbrev Prog (ε σ α : Type) : Type := StateT σ (Except ε) α

namespace Prog

variable {ε σ α β : Type}

/-- The program stops with a fault. -/
def fault (e : ε) : Prog ε σ α := fun _ => .error e

/-- From `s` the program comes to an end, and `post` holds of its result and of the state then. -/
def Ends (m : Prog ε σ α) (s : σ) (post : α → σ → Prop) : Prop :=
  ∃ a s', m s = .ok (a, s') ∧ post a s'

namespace Ends

variable {m : Prog ε σ α} {f : α → Prog ε σ β} {s : σ} {post : α → σ → Prop} {post' : β → σ → Prop}

lemma pure {a : α} (h : post a s) : Ends (Pure.pure a : Prog ε σ α) s post := ⟨a, s, rfl, h⟩

lemma bind (hm : Ends m s post) (hf : ∀ a s', post a s' → Ends (f a) s' post') :
    Ends (m >>= f) s post' := by
  obtain ⟨a, s', hrun, hpost⟩ := hm
  obtain ⟨b, s'', hrun', hpost'⟩ := hf a s' hpost
  refine ⟨b, s'', ?_, hpost'⟩
  change Except.bind (m s) (fun p => f p.1 p.2) = _
  rw [hrun]
  exact hrun'

lemma imp {post1 : α → σ → Prop} (hm : Ends m s post) (h : ∀ a s', post a s' → post1 a s') :
    Ends m s post1 := by
  obtain ⟨a, s', hrun, hpost⟩ := hm
  exact ⟨a, s', hrun, h a s' hpost⟩

end Ends

end Prog

end Cobalt
