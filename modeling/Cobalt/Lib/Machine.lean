/-
Cobalt.Lib.Machine — state machines whose steps are chosen from outside.

A machine has its initial states and, for each action, the state the
action leads to; `none` says that the action is not enabled. Threads that
interleave are a machine whose actions name the thread that moves. The
states of a run are those of `Reach`; `ReachVia ok` leaves out the runs in
which some action is taken where `ok` does not hold.
-/
import Mathlib

namespace Cobalt

structure Machine (σ α : Type) where
  init : σ → Prop
  step : σ → α → Option σ

namespace Machine

variable {σ α : Type} (M : Machine σ α)

/-- The states of the runs whose actions all meet `ok` where they are taken. -/
inductive ReachVia (ok : σ → α → Prop) : σ → Prop where
  | init {s : σ} (h : M.init s) : ReachVia ok s
  | step {s s' : σ} {a : α} (h : ReachVia ok s) (hok : ok s a) (hs : M.step s a = some s') :
      ReachVia ok s'

/-- The states of all runs. -/
abbrev Reach : σ → Prop := M.ReachVia fun _ _ => True

/-- The state a list of actions leads to, each of which passes the test where
it is taken. -/
def run (test : σ → α → Bool) : σ → List α → Option σ
  | s, [] => some s
  | s, a :: as => if test s a then (M.step s a).bind fun s' => run test s' as else none

/-- Each action as often as its number says. -/
def bursts (bs : List (Nat × α)) : List α := bs.flatMap fun b => List.replicate b.1 b.2

variable {M} {ok : σ → α → Prop} {s s' : σ}

/-- What holds at the start and is kept by every step holds along every run. -/
lemma ReachVia.invariant (inv : σ → Prop) (hinit : ∀ s, M.init s → inv s)
    (hstep : ∀ s s' a, inv s → ok s a → M.step s a = some s' → inv s')
    (h : M.ReachVia ok s) : inv s := by
  induction h with
  | init h => exact hinit _ h
  | step _ hok hs ih => exact hstep _ _ _ ih hok hs

/-- A condition may be replaced by what follows from it and an invariant. -/
lemma ReachVia.weaken {ok' : σ → α → Prop} (inv : σ → Prop) (hinit : ∀ s, M.init s → inv s)
    (hstep : ∀ s s' a, inv s → ok s a → M.step s a = some s' → inv s')
    (hok : ∀ s a, inv s → ok s a → ok' s a) (h : M.ReachVia ok s) : M.ReachVia ok' s := by
  induction h with
  | init h => exact .init h
  | step h hs ih hstep' => exact hstep'.step (hok _ _ (h.invariant inv hinit hstep) hs) ih

/-- There is no endless run of a machine whose steps lower a rank. -/
lemma not_endless {β : Type} {r : β → β → Prop} (hr : WellFounded r) (rank : σ → β)
    (hdown : ∀ s s' a, M.ReachVia ok s → M.step s a = some s' → r (rank s') (rank s)) :
    ¬ ∃ f : Nat → σ, M.init (f 0) ∧ ∀ k, ∃ a, ok (f k) a ∧ M.step (f k) a = some (f (k + 1)) := by
  rintro ⟨f, hinit, hsteps⟩
  have hreach : ∀ k, M.ReachVia ok (f k) := by
    intro k
    induction k with
    | zero => exact .init hinit
    | succ k ih =>
      obtain ⟨a, hok, hs⟩ := hsteps k
      exact ih.step hok hs
  have hnone : ∀ b k, rank (f k) ≠ b := by
    intro b
    induction b using hr.induction with
    | h b ih =>
      rintro k rfl
      obtain ⟨a, -, hs⟩ := hsteps k
      exact ih _ (hdown _ _ a (hreach k) hs) (k + 1) rfl
  exact hnone _ 0 rfl

/-- A run can be carried out, with a test that is enough for the condition. -/
lemma ReachVia.run (test : σ → α → Bool) (htest : ∀ s a, test s a = true → ok s a)
    (h : M.ReachVia ok s) (as : List α) (hrun : M.run test s as = some s') : M.ReachVia ok s' := by
  induction as generalizing s with
  | nil => cases hrun; exact h
  | cons a as ih =>
    rw [Machine.run] at hrun
    split at hrun
    · rename_i hok
      obtain ⟨s1, hs, hrest⟩ := Option.bind_eq_some_iff.mp hrun
      exact ih (h.step (htest s a hok) hs) hrest
    · cases hrun

/-- A run can be carried out, and `f` reads `v` off the state it leads to. -/
lemma ReachVia.run_map {β : Type} {f : σ → β} {v : β} (test : σ → α → Bool)
    (htest : ∀ s a, test s a = true → ok s a) (h : M.ReachVia ok s) (as : List α)
    (hrun : (M.run test s as).map f = some v) : ∃ s', M.ReachVia ok s' ∧ f s' = v := by
  obtain ⟨s', hs', hv⟩ := Option.map_eq_some_iff.mp hrun
  exact ⟨s', h.run test htest as hs', hv⟩

/-- A run shows that there is a state from which `f` reads `v`. -/
lemma ReachVia.exists_run {β : Type} {f : σ → β} {v : β} {p : σ → Prop} (test : σ → α → Bool)
    (htest : ∀ s a, test s a = true → ok s a) (h : M.ReachVia ok s) (as : List α)
    (hrun : (M.run test s as).map f = some v) (hp : ∀ s', M.ReachVia ok s' → f s' = v → p s') :
    ∃ s', M.ReachVia ok s' ∧ f s' = v ∧ p s' := by
  obtain ⟨s', hs', hv⟩ := h.run_map test htest as hrun
  exact ⟨s', hs', hv, hp s' hs' hv⟩

end Machine

end Cobalt
