/-
Cobalt.Pool.WaitGroupTheorems — the contract of the wait group.

The last decrement loads the counter under the mutex and then stores zero;
an `add` in between, which takes no mutex, is overwritten. As long as none
comes there, the counter is what has been added less what has been taken,
and the transition to zero is made by the holder of the mutex with its
broadcast to come. `Inv` is proved step by step: `Inv.move` for the steps
that leave the counter alone, one lemma for each of the others.
-/
import Cobalt.Lib.Count
import Cobalt.Lib.Monitor
import Cobalt.Pool.WaitGroup

namespace Cobalt.Pool.WaitGroup

open Bool

open Function (update update_self update_of_ne)

/-- No `add` between the load and the store of the last decrement, and none that
overflows the `int_fast64_t` of the source. -/
def AddClear (s : State) : Tid × Act → Prop
  | (_, .add) => (∀ u, s.pc u ≠ .finalStore) ∧ s.counter + 1 < 2 ^ 63
  | _ => True

/-- Every decrement has been made and no call of `done` is under way. -/
def Quiet (s : State) : Prop := s.counter = 0 ∧ ∀ u, (s.pc u).inDone = false

/-- A thread that sleeps, or is about to, at a counter of zero has a
broadcast to come. -/
def Awaited (pc : Tid → Pc) (counter : Int) : Prop :=
  ∀ t, (pc t).asleep = true → counter = 0 → ∃ u, pc u = .finalBroadcast

variable {pc : Tid → Pc}

lemma Awaited.of_ne {counter : Int} (h : counter ≠ 0) : Awaited pc counter :=
  fun _ _ h0 => absurd h0 h

lemma Awaited.of_broadcast {counter : Int} {t : Tid} :
    Awaited (update pc t .finalBroadcast) counter :=
  fun _ _ _ => ⟨t, update_self ..⟩

lemma Awaited.move {counter : Int} {t : Tid} {x : Pc} (h : Awaited pc counter)
    (ht : pc t ≠ .finalBroadcast) (hx : x.asleep = true → (pc t).asleep = true) :
    Awaited (update pc t x) counter := by
  intro u hu h0
  have hu' : (pc u).asleep = true := by
    by_cases hut : u = t
    · subst hut
      rw [update_self] at hu
      exact hx hu
    · rwa [update_of_ne hut] at hu
  obtain ⟨v, hv⟩ := h u hu' h0
  refine ⟨v, ?_⟩
  rw [update_of_ne]
  · exact hv
  · rintro rfl
    exact ht hv

/-- What holds along every run that keeps `AddClear`. -/
structure Inv (s : State) : Prop where
  count : Counted Pc.pending s.pc (s.started - s.effects)
  awaited : Awaited s.pc s.counter
  effects_le : s.effects ≤ s.started
  started_le : s.started ≤ s.adds
  counter : s.counter = s.adds - s.effects
  owner : ∀ t, s.mutex = some t ↔ (s.pc t).holds = true
  cas : ∀ t cur, s.pc t = .doneCas cur → 1 < cur
  store : ∀ t, s.pc t = .finalStore → s.counter = 1
  called : ∀ t, (s.pc t).inWait = true → s.waitCalled = true
  zero : ∀ t, s.pc t = .helpLock → s.counter = 0
  clear : ∀ t, s.pc t = .waitUnlock ∨ s.pc t = .helpUnlock → Quiet s
  returned : s.waitReturned = true → s.waitCalled = true ∧ Quiet s

lemma inv_start : Inv start := by
  constructor <;> simp [start, Pc.holds, Pc.inWait]
  · exact Counted.zero (by simp [Pc.pending])
  · intro t ht
    simp [Pc.asleep] at ht

/-- Where a thread may go from `old` while the counter stays. -/
structure Fits (s : State) (old x : Pc) : Prop where
  pending : old.pending = x.pending
  inDone : x.inDone = true → old.inDone = true
  asleep : x.asleep = true → old.asleep = true ∨ s.counter ≠ 0
  called : x.inWait = true → s.waitCalled = true
  cas : ∀ cur, x = .doneCas cur → 1 < cur
  store : x = .finalStore → s.counter = 1
  zero : x = .helpLock → s.counter = 0
  clear : x = .waitUnlock ∨ x = .helpUnlock → Quiet s

/-- The phases with a condition of their own. -/
def Pc.special : Pc → Bool
  | doneCas _ | finalStore | helpLock | waitUnlock | helpUnlock | waitSleep | blocked => true
  | _ => false

lemma Fits.plain {s : State} {t : Tid} {old x : Pc} (hold : s.pc t = old)
    (hx : x.special = false) (hp : old.pending = x.pending)
    (hd : x.inDone = true → old.inDone = true) (hw : x.inWait = true → s.waitCalled = true) :
    Fits s (s.pc t) x := by
  rw [hold]
  refine ⟨hp, hd, ?_, hw, ?_, ?_, ?_, ?_⟩ <;> cases x <;> simp_all [Pc.special, Pc.asleep]

namespace Inv

variable {s : State} {t : Tid} {x : Pc}

variable (h : Inv s)

include h

lemma move {m : Option Tid} (ht : s.pc t ≠ .finalBroadcast) (hx : Fits s (s.pc t) x)
    (howner : ∀ u, m = some u ↔ (update s.pc t x u).holds = true) :
    Inv { s with pc := update s.pc t x, mutex := m } := by
  have hquiet : Quiet s → Quiet { s with pc := update s.pc t x, mutex := m } := by
    rintro ⟨h0, hq⟩
    refine ⟨h0, fun u => ?_⟩
    have := hx.inDone
    grind
  constructor
  case count => exact h.count.keep hx.pending
  case awaited =>
    by_cases h0 : s.counter = 0
    · exact h.awaited.move ht fun ha => (hx.asleep ha).resolve_right (not_not_intro h0)
    · exact .of_ne h0
  case effects_le => exact h.effects_le
  case started_le => exact h.started_le
  case counter => exact h.counter
  case owner => exact howner
  case cas => have := h.cas; have := hx.cas; grind
  case store => have := h.store; have := hx.store; grind
  case called => have := h.called; have := hx.called; grind
  case zero => have := h.zero; have := hx.zero; grind
  case clear => have := h.clear; have := hx.clear; grind
  case returned => exact fun hr => ⟨(h.returned hr).1, hquiet (h.returned hr).2⟩

lemma pending_le (ht : (s.pc t).pending = true) : 1 ≤ s.counter := by
  have := h.count.pos ht
  have := h.counter
  have := h.started_le
  omega

lemma two_le {u : Tid} (ht : (s.pc t).pending = true)
    (hu : (s.pc u).pending = true) (hne : t ≠ u) : 2 ≤ s.counter := by
  have := h.count.two_le ht hu hne
  have := h.counter
  have := h.started_le
  omega

lemma eq_zero (hle : ¬ s.counter > 0) : s.counter = 0 := by
  have := h.counter
  have := h.effects_le
  have := h.started_le
  omega

/-- With a counter of zero there is nothing left to add or to take. -/
lemma settled (h0 : s.counter = 0) : s.started = s.adds ∧ ∀ u, (s.pc u).pending = false := by
  have hc := h.counter
  have he := h.effects_le
  have hs := h.started_le
  refine ⟨by omega, fun u => eq_false_iff.mpr fun hu => ?_⟩
  have := h.pending_le hu
  omega

/-- No call of `done` is under way once the counter is zero and the mutex is
free. -/
lemma quiet (h0 : s.counter = 0) (hfree : ∀ u, (s.pc u).holds = true → u = t)
    (ht : (s.pc t).inDone = false) : Quiet s := by
  refine ⟨h0, fun u => ?_⟩
  have hp := (h.settled h0).2 u
  by_cases hu : u = t
  · rw [hu, ht]
  · have hh : (s.pc u).holds = false := eq_false_iff.mpr fun hh => hu (hfree u hh)
    cases hpc : s.pc u <;> simp_all [Pc.inDone, Pc.pending, Pc.holds]

lemma add (hcalled : s.waitCalled = false) (hclear : ∀ u, s.pc u ≠ .finalStore) :
    Inv { s with counter := s.counter + 1, adds := s.adds + 1 } := by
  have hc := h.counter
  have he := h.effects_le
  have hs := h.started_le
  have hwait := h.called
  constructor
  case count => exact h.count
  case awaited => exact .of_ne (by simp only; omega)
  case effects_le => exact he
  case started_le => simp only; omega
  case counter => simp only; omega
  case owner => exact h.owner
  case cas => exact h.cas
  case store => exact fun u hu => absurd hu (hclear u)
  case called => exact hwait
  case zero => intro u hu; have := hwait u (by rw [hu]; rfl); simp_all
  case clear => intro u hu; have := hwait u (by rcases hu with hu | hu <;> rw [hu] <;> rfl); simp_all
  case returned => intro hr; have := (h.returned hr).1; simp_all

lemma begin (ht : s.pc t = .idle) (hlt : s.started < s.adds) :
    Inv { s with pc := update s.pc t .doneLoad, started := s.started + 1 } := by
  have hne : s.counter ≠ 0 := by
    intro h0
    have := (h.settled h0).1
    omega
  have he := h.effects_le
  constructor
  case count =>
    have := h.count.enter (t := t) (x := Pc.doneLoad) (by rw [ht]; rfl) rfl
    rwa [← Nat.sub_add_comm he] at this
  case awaited => exact .of_ne hne
  case effects_le => simp only; omega
  case started_le => simp only; omega
  case counter => exact h.counter
  case owner => have := h.owner; grind
  case cas => have := h.cas; grind
  case store => have := h.store; grind
  case called => have := h.called; grind
  case zero => have := h.zero; grind
  case clear => have := h.clear; grind [Quiet]
  case returned => exact fun hr => absurd (h.returned hr).2.1 hne

lemma decrement (ht : (s.pc t).pending = true) (hx : x.pending = false)
    (hlast : x = .finalBroadcast ∨ x ≠ .finalBroadcast ∧ s.counter ≠ 1) (hwait : x.inWait = false)
    (howner : ∀ u, s.mutex = some u ↔ (update s.pc t x u).holds = true) :
    Inv { s with pc := update s.pc t x, counter := s.counter - 1,
                 effects := s.effects + 1 } := by
  have hone := h.pending_le ht
  have hpos := h.count.pos ht
  have hc := h.counter
  have hle := h.started_le
  constructor
  case count =>
    have hcount := h.count
    rw [show s.started - s.effects = s.started - (s.effects + 1) + 1 by omega] at hcount
    exact hcount.leave ht hx
  case awaited =>
    rcases hlast with rfl | ⟨-, hne⟩
    · exact .of_broadcast
    · exact .of_ne (by simp only; omega)
  case effects_le => simp only; omega
  case started_le => exact hle
  case counter => simp only; omega
  case owner => exact howner
  case cas => have := h.cas; grind
  case store =>
    intro u hu
    have hut : u ≠ t := by grind
    have hu' : s.pc u = .finalStore := by simpa [hut] using hu
    have := h.two_le ht (u := u) (by rw [hu']; rfl) (Ne.symm hut)
    have := h.store u hu'
    omega
  case called => have := h.called; grind
  case zero => have := h.zero; grind
  case clear =>
    intro u hu
    have hu' : s.pc u = .waitUnlock ∨ s.pc u = .helpUnlock := by grind
    have := (h.clear u hu').1
    omega
  case returned =>
    intro hr
    have := (h.returned hr).2.1
    omega

lemma broadcast (ht : s.pc t = .finalBroadcast) : Inv (s.broadcast t .finalUnlock) := by
  have hmutex : s.mutex = some t := (h.owner t).mpr (by rw [ht]; rfl)
  have hpend : ∀ u, (s.pc u).pending = ((s.broadcast t .finalUnlock).pc u).pending := by grind
  constructor
  case count => exact h.count.congr hpend
  case awaited =>
    -- nobody is left asleep: who is about to sleep would hold the mutex
    intro u hu
    have := h.owner u
    grind
  case effects_le => exact h.effects_le
  case started_le => exact h.started_le
  case counter => exact h.counter
  case owner => have := h.owner; grind
  case cas => have := h.cas; grind
  case store => have := h.store; grind
  case called => have := h.called; grind
  case zero => have := h.zero; grind
  case clear =>
    intro u hu
    have hu' : s.pc u = .waitUnlock ∨ s.pc u = .helpUnlock := by grind
    have := (h.clear u hu').2 t
    rw [ht] at this
    cases this
  case returned =>
    intro hr
    have := (h.returned hr).2.2 t
    rw [ht] at this
    cases this

lemma call : Inv { s with waitCalled := true } :=
  { h with
    called := fun _ _ => rfl
    clear := h.clear
    returned := fun hr => ⟨rfl, (h.returned hr).2⟩ }

lemma ret (hcalled : s.waitCalled = true) (hq : Quiet s) : Inv { s with waitReturned := true } :=
  { h with
    clear := h.clear
    returned := fun _ => ⟨hcalled, hq⟩ }

end Inv

/-! ## Steps -/

lemma inv_done {s s' : State} {t : Tid} {a : Act} (h : Inv s) (hin : (s.pc t).inDone = true)
    (hs : step s (t, a) = some s') : Inv s' := by
  have howner : Owns Pc.holds s.pc s.mutex := h.owner
  cases hpc : s.pc t <;> rw [hpc] at hin <;> try (exact absurd hin false_ne_true)
  all_goals cases a <;> simp only [step, hpc, reduceCtorEq] at hs
  case doneLoad.go =>
    split at hs
    · cases hs
      exact h.move (by simp [hpc]) (by constructor <;> grind) (howner.move (by rw [hpc]; rfl))
    · split at hs
      · have := h.pending_le (t := t) (by rw [hpc]; rfl)
        omega
      · cases hs
        exact h.move (by simp [hpc]) (.plain hpc rfl rfl (fun _ => rfl) nofun)
          (howner.move (by rw [hpc]; rfl))
  case doneCas.go cur =>
    split at hs
    · cases hs
      have hcur := h.cas t cur hpc
      subst cur
      exact h.decrement (by rw [hpc]; rfl) rfl (.inr ⟨by simp, by omega⟩) rfl
        (howner.move (by rw [hpc]; rfl))
    · cases hs
      exact h.move (by simp [hpc]) (.plain hpc rfl rfl (fun _ => rfl) nofun)
        (howner.move (by rw [hpc]; rfl))
  case doneCas.fail =>
    cases hs
    exact h.move (by simp [hpc]) (.plain hpc rfl rfl (fun _ => rfl) nofun)
      (howner.move (by rw [hpc]; rfl))
  case finalLock.go =>
    simp only [State.lock] at hs
    split at hs
    · rename_i hfree
      cases hs
      rw [hfree] at howner
      exact h.move (by simp [hpc]) (.plain hpc rfl rfl (fun _ => rfl) nofun) (howner.lock rfl)
    · cases hs
  case finalLoad.go =>
    split at hs
    · cases hs
      exact h.move (by simp [hpc]) (by constructor <;> grind) (howner.move (by rw [hpc]; rfl))
    · split at hs
      · cases hs
        exact h.move (by simp [hpc]) (.plain hpc rfl rfl (fun _ => rfl) nofun)
          (howner.move (by rw [hpc]; rfl))
      · have := h.pending_le (t := t) (by rw [hpc]; rfl)
        omega
  case finalStore.go =>
    cases hs
    have hone := h.store t hpc
    have hdec := h.decrement (t := t) (x := .finalBroadcast) (by rw [hpc]; rfl) rfl (.inl rfl) rfl
      (howner.move (by rw [hpc]; rfl))
    rwa [hone, Int.sub_self] at hdec
  case finalSub.go =>
    cases hs
    refine h.decrement (by rw [hpc]; rfl) ?_ ?_ ?_ (howner.move ?_)
    · split <;> rfl
    · split
      · exact .inl rfl
      · exact .inr ⟨by simp, ‹_›⟩
    · split <;> rfl
    · rw [hpc]; split <;> rfl
  case finalBroadcast.go =>
    cases hs
    exact h.broadcast hpc
  case finalUnlock.go =>
    cases hs
    exact h.move (by simp [hpc]) (.plain hpc rfl rfl nofun nofun)
      (howner.unlock (by rw [hpc]; rfl) rfl)

/-- The wait group is quiet where a `wait` finds the counter zero and no other
thread with the mutex. -/
lemma Inv.quiet_of_owner {s : State} {t : Tid} (h : Inv s) (h0 : s.counter = 0)
    (hm : s.mutex = some t ∨ s.mutex = none) (ht : (s.pc t).inDone = false) : Quiet s := by
  refine h.quiet (t := t) h0 (fun u hu => ?_) ht
  have hmu := (h.owner u).mpr hu
  rcases hm with hm | hm <;> rw [hm] at hmu
  · exact (Option.some.inj hmu).symm
  · cases hmu

lemma inv_wait {s s' : State} {t : Tid} {a : Act} (h : Inv s) (hin : (s.pc t).inWait = true)
    (hs : step s (t, a) = some s') : Inv s' := by
  have howner : Owns Pc.holds s.pc s.mutex := h.owner
  have hcalled := h.called t hin
  cases hpc : s.pc t <;> rw [hpc] at hin <;> try (exact absurd hin false_ne_true)
  all_goals cases a <;> simp only [step, hpc, reduceCtorEq] at hs
  case blocked.fail =>
    cases hs
    exact h.move (by simp [hpc]) (.plain hpc rfl rfl nofun fun _ => hcalled)
      (howner.move (by rw [hpc]; rfl))
  case waitLock.go | woken.go =>
    simp only [State.lock] at hs
    split at hs
    · rename_i hfree
      cases hs
      rw [hfree] at howner
      exact h.move (by simp [hpc]) (.plain hpc rfl rfl nofun fun _ => hcalled) (howner.lock rfl)
    · cases hs
  case waitSleep.go =>
    cases hs
    exact h.move (by simp [hpc]) (by constructor <;> grind)
      (howner.unlock (by rw [hpc]; rfl) rfl)
  case waitCheck.go =>
    have hmutex : s.mutex = some t := (h.owner t).mpr (by rw [hpc]; rfl)
    split at hs
    · cases hs
      exact h.move (by simp [hpc]) (by constructor <;> grind) (howner.move (by rw [hpc]; rfl))
    · cases hs
      have hq := h.quiet_of_owner (h.eq_zero ‹_›) (.inl hmutex) (by rw [hpc]; rfl)
      exact h.move (by simp [hpc]) (by constructor <;> grind) (howner.move (by rw [hpc]; rfl))
  case helpCheck.go =>
    split at hs
    · cases hs
      exact h.move (by simp [hpc]) (.plain hpc rfl rfl nofun fun _ => hcalled)
        (howner.move (by rw [hpc]))
    · cases hs
      have h0 := h.eq_zero ‹_›
      exact h.move (by simp [hpc]) (by constructor <;> grind) (howner.move (by rw [hpc]; rfl))
  case helpLock.go =>
    simp only [State.lock] at hs
    split at hs
    · rename_i hfree
      cases hs
      have hq := h.quiet_of_owner (h.zero t hpc) (.inr hfree) (by rw [hpc]; rfl)
      rw [hfree] at howner
      exact h.move (by simp [hpc]) (by constructor <;> grind) (howner.lock rfl)
    · cases hs
  case waitUnlock.go | helpUnlock.go =>
    cases hs
    have hq := h.clear t (by simp [hpc])
    have hr := h.ret hcalled hq
    exact hr.move (by simp [hpc]) (.plain hpc rfl rfl nofun nofun)
      (howner.unlock (by rw [hpc]; rfl) rfl)

/-- Every step that keeps `AddClear` keeps the invariant. -/
lemma inv_step {s s' : State} {t : Tid} {a : Act} (h : Inv s) (hok : AddClear s (t, a))
    (hs : step s (t, a) = some s') : Inv s' := by
  have howner : Owns Pc.holds s.pc s.mutex := h.owner
  cases hpc : s.pc t with
  | idle =>
    cases a <;> simp only [step, hpc, reduceCtorEq] at hs
    case add =>
      split at hs
      · cases hs
      · cases hs
        exact h.add (eq_false_iff.mpr ‹_›) hok.1
    case done =>
      split at hs
      · cases hs
        exact h.begin hpc ‹_›
      · cases hs
    case wait | help =>
      cases hs
      have hcall := h.call
      exact hcall.move (by simp [hpc]) (.plain hpc rfl rfl nofun fun _ => rfl)
        (howner.move (by rw [hpc]; rfl))
  | doneLoad | doneCas | finalLock | finalLoad | finalStore | finalSub | finalBroadcast
  | finalUnlock => exact inv_done h (by rw [hpc]; rfl) hs
  | waitLock | waitCheck | waitSleep | blocked | woken | waitUnlock | helpCheck | helpLock
  | helpUnlock => exact inv_wait h (by rw [hpc]; rfl) hs

/-! ## The contract -/

/-- What a caller relies on. -/
structure Contract (s : State) : Prop where
  /-- The counter is the number of adds less the number of decrements. -/
  counter : s.counter = s.adds - s.effects
  /-- `wait` returns after the last decrement. -/
  complete : s.waitReturned = true → s.effects = s.adds
  /-- Nobody sleeps at a counter of zero without a broadcast to come. -/
  wakes : s.counter = 0 → ∀ t, s.pc t = .blocked → ∃ u, s.pc u = .finalBroadcast
  /-- After `wait` has returned no call of `done` is under way or begins. -/
  quiet : s.waitReturned = true → ∀ t, (s.pc t).inDone = false ∧ step s (t, .done) = none

lemma Inv.contract {s : State} (h : Inv s) : Contract s where
  counter := h.counter
  complete := by
    intro hr
    have := h.counter
    have := (h.returned hr).2.1
    omega
  wakes h0 t ht := h.awaited t (by rw [ht]; rfl) h0
  quiet := by
    intro hr t
    obtain ⟨-, h0, hq⟩ := h.returned hr
    refine ⟨hq t, ?_⟩
    have hall := (h.settled h0).1
    cases hpc : s.pc t <;> simp [step, hpc, hall]

/-- In every run in which no `add` comes between the load and the store of a
last decrement, and none overflows, every state meets the contract. -/
theorem waitGroup_contract {s : State} (h : machine.ReachVia AddClear s) : Contract s := by
  refine (h.invariant Inv ?_ ?_).contract
  · rintro s rfl
    exact inv_start
  · rintro s s' ⟨t, a⟩ hinv hok hs
    exact inv_step hinv hok hs

/-- One `add`, its `done` by another thread, and a `wait` that returns. -/
theorem waitGroup_contract_once : ∃ s, machine.ReachVia AddClear s ∧ s.waitReturned = true ∧
    s.adds = 1 ∧ Contract s := by
  have h₁ : machine.ReachVia AddClear { start with counter := 1, adds := 1 } :=
    .step (a := (0, .add)) (.init rfl) ⟨fun u => by simp [start], by decide⟩ rfl
  have h₂ := h₁.run (fun _ e => e.2 != .add)
    (by rintro s ⟨t, a⟩ htest; cases a <;> simp_all [AddClear]) [(1, .done), (1, .go), (1, .go),
    (1, .go), (1, .go), (1, .go), (1, .go), (0, .wait), (0, .go), (0, .go), (0, .go)] rfl
  exact ⟨_, h₂, rfl, rfl, waitGroup_contract h₂⟩

/-- An `add` after the last `done` has loaded the counter and before it has
stored zero is lost. -/
theorem waitGroup_lostAdd : ∃ s, machine.Reach s ∧ s.adds = 2 ∧ s.effects = 1 ∧ s.counter = 0 ∧
    ¬ Contract s := by
  have h : machine.Reach start := .init rfl
  have h₁ := h.run (fun _ _ => true) (by simp) [(0, .add), (1, .done), (1, .go), (1, .go),
    (1, .go), (0, .add), (1, .go)] rfl
  refine ⟨_, h₁, rfl, rfl, rfl, fun hc => ?_⟩
  have := hc.counter
  revert this
  decide

end Cobalt.Pool.WaitGroup
