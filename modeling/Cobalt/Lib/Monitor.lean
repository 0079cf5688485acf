/-
Cobalt.Lib.Monitor — threads that share a mutex and a condition variable.

`f` says what each thread is doing, `holds` which of these phases are those
of the owner of the mutex, `asleep` which are those of a thread that is
blocked on the condition variable or about to, and `caller` which are those
of a thread with a broadcast to make. Lost wake-ups are states in which a
thread is asleep and nobody is a caller.
-/
import Mathlib

namespace Cobalt

open Function (update update_self update_of_ne)

attribute [grind =] Function.update_apply

variable {ι β : Type} {f : ι → β} {t : ι} {x : β}

/-! ## The mutex -/

/-- The mutex is owned by the thread in a phase that holds it, if any. -/
def Owns (holds : β → Bool) (f : ι → β) (mutex : Option ι) : Prop :=
  ∀ t, mutex = some t ↔ holds (f t) = true

namespace Owns

variable {holds : β → Bool} {mutex : Option ι}

lemma move [DecidableEq ι] (h : Owns holds f mutex) (hx : holds x = holds (f t)) :
    Owns holds (update f t x) mutex := by
  intro u
  have := h u
  grind

lemma lock [DecidableEq ι] (h : Owns holds f none) (hx : holds x = true) :
    Owns holds (update f t x) (some t) := by
  intro u
  have := h u
  grind

lemma unlock [DecidableEq ι] (h : Owns holds f mutex) (ht : holds (f t) = true)
    (hx : holds x = false) : Owns holds (update f t x) none := by
  intro u
  have := h u
  have := h t
  grind

lemma unique (h : Owns holds f mutex) {u : ι} (ht : holds (f t) = true)
    (hu : holds (f u) = true) : u = t := by
  have h1 := (h t).mpr ht
  have h2 := (h u).mpr hu
  rw [h1] at h2
  exact (Option.some.inj h2).symm

end Owns

/-! ## The condition variable -/

/-- Every blocked thread wakes and goes for the mutex again. -/
def wakeAll [DecidableEq β] (blocked woken : β) (f : ι → β) : ι → β :=
  fun u => if f u = blocked then woken else f u

@[grind =]
theorem wakeAll_apply [DecidableEq β] (blocked woken : β) (u : ι) :
    wakeAll blocked woken f u = if f u = blocked then woken else f u := rfl

/-- Whoever is asleep has a broadcast to come. -/
def Awaited (asleep caller : β → Bool) (f : ι → β) : Prop :=
  ∀ t, asleep (f t) = true → ∃ u, caller (f u) = true

namespace Awaited

variable {asleep caller : β → Bool}

lemma of_caller [DecidableEq ι] (hx : caller x = true) : Awaited asleep caller (update f t x) :=
  fun _ _ => ⟨t, by rw [update_self]; exact hx⟩

lemma of_awake (h : ∀ t, asleep (f t) = false) : Awaited asleep caller f := by
  intro t ht
  rw [h t] at ht
  cases ht

/-- A thread moves that has no broadcast to make, or keeps it, and does not
fall asleep. -/
lemma move [DecidableEq ι] (h : Awaited asleep caller f)
    (ht : caller (f t) = true → caller x = true) (hx : asleep x = true → asleep (f t) = true) :
    Awaited asleep caller (update f t x) := by
  intro u hu
  have hu' : asleep (f u) = true := by
    by_cases hut : u = t
    · subst hut
      rw [update_self] at hu
      exact hx hu
    · rwa [update_of_ne hut] at hu
  obtain ⟨v, hv⟩ := h u hu'
  refine ⟨v, ?_⟩
  by_cases hvt : v = t
  · subst hvt
    rw [update_self]
    exact ht hv
  · rwa [update_of_ne hvt]

end Awaited

end Cobalt
