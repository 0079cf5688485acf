/-
Cobalt.Container.GuardsTheorems — when a guard protects.

A guard or an iterator keeps its handle active until it is closed if the
thread begins nothing else on the container in between: any call that enters
and exits, and so every point operation and every inner guard, leaves the
handle inactive under the outer guard.
-/
import Cobalt.Container.Guards

namespace Cobalt.Container.Guards

open Memory Option Ebr
open Function (update update_self)

variable {t : Ebr.Tid} {h : Ebr.Hid} {s s' : State} {e e' : Ebr.State}

/-! ## The calls of the thread -/

/-- Phases of calls that leave the owner of a handle as it is. -/
def Calm : Ebr.Pc → Prop
  | .registerHead | .registerTry _ _ | .registerActive _ | .registerSplice _ => False
  | .registerNew | .registerLoad _ | .registerCas _ _ => False
  | .unregisterActive _ | .unregisterFlag _ | .unregisterSplice _ => False
  | _ => True

lemma calm_listLoop (k : Ebr.After) (curr : Option Ebr.Nid) : Calm (listLoop k curr) := by
  cases curr <;> cases k <;> trivial

lemma calm_advanceLoop (g : Nat) (rest : List Ebr.Hid) : Calm (advanceLoop g rest) := by
  cases rest <;> trivial

lemma calm_orphanLoop (slot limit : Nat) (keep : Option (Ebr.Nid × Ebr.Nid))
    (curr : Option Ebr.Nid) : Calm (orphanLoop slot limit keep curr) := by
  cases curr <;> cases keep <;> trivial

lemma calm_move {x : Ebr.Pc} (hpc : e'.pc = update e.pc t x)
    (howner : e'.owner = e.owner) (hx : Calm x) : Calm (e'.pc t) ∧ e'.owner = e.owner := by
  rw [hpc, update_self]
  exact ⟨hx, howner⟩

lemma calm_go (hc : Calm (e.pc t)) (hs : go e t = some e') :
    Calm (e'.pc t) ∧ e'.owner = e.owner := by
  rw [go] at hs
  cases hpc : e.pc t <;> rw [hpc] at hc <;> simp only [hpc, Option.some.injEq, reduceCtorEq] at hs
  case advanceCas => split at hs <;> cases hs <;> exact calm_move rfl rfl trivial
  case orphanEpoch =>
    split at hs
    · split at hs <;> cases hs
      · exact calm_move rfl rfl (calm_orphanLoop ..)
      · exact calm_move rfl rfl trivial
    · cases hs
      exact calm_move rfl rfl trivial
  case listTest r slot k =>
    subst hs
    refine calm_move rfl rfl ?_
    split
    · exact calm_listLoop k none
    · trivial
  case retireCheck | advanceRegistered | advanceActive =>
    subst hs
    refine calm_move rfl rfl ?_
    split <;> first | trivial | exact calm_advanceLoop ..
  case listClear | listFree => exact hs ▸ calm_move rfl rfl (calm_listLoop ..)
  case advanceHead => exact hs ▸ calm_move rfl rfl (calm_advanceLoop ..)
  case orphanTake | orphanKeep | orphanFree => exact hs ▸ calm_move rfl rfl (calm_orphanLoop ..)
  all_goals first
    | exact absurd hc id
    | subst hs
      exact calm_move rfl rfl trivial

/-- In the reclaim at the end of enter. -/
def Listing : Ebr.Pc → Prop
  | .listTest _ _ .done | .listRead _ _ .done | .listClear _ _ _ .done => True
  | .listNext _ .done | .listFree _ _ .done => True
  | _ => False

/-- In the enter of the handle. -/
def Entering (t : Ebr.Tid) (h : Ebr.Hid) (e : Ebr.State) : Prop :=
  e.pc t = .enterLoad h ∨ (∃ g, e.pc t = .enterStore h g) ∨ e.Active h ∧ Listing (e.pc t)

lemma listing_listLoop (curr : Option Ebr.Nid) :
    Listing (listLoop .done curr) ∨ listLoop .done curr = .idle := by
  cases curr with
  | none => exact .inr rfl
  | some n => exact .inl trivial

lemma entering_go (he : Entering t h e) (hs : go e t = some e') :
    Entering t h e' ∨ e'.pc t = .idle ∧ e'.Active h := by
  rw [go] at hs
  rcases he with hpc | ⟨g, hpc⟩ | ⟨hact, hlist⟩
  · simp only [hpc, Option.some.injEq] at hs
    subst hs
    exact .inl (.inr (.inl ⟨_, update_self ..⟩))
  · simp only [hpc, Option.some.injEq] at hs
    subst hs
    refine .inl (.inr (.inr ⟨?_, ?_⟩))
    · simp only [Ebr.State.Active, update_self]
      exact active_publish g
    · simp only [update_self]
      trivial
  · -- the reclaim goes on, or it is done
    have hnext : ∀ x, e'.pc = update e.pc t x → e'.activeEpoch = e.activeEpoch →
        Listing x ∨ x = .idle → Entering t h e' ∨ e'.pc t = .idle ∧ e'.Active h := by
      intro x hpc' hepoch hx
      have hact' : e'.Active h := by rwa [Ebr.State.Active, hepoch]
      rw [Entering, hpc', update_self]
      exact hx.imp (fun hx => .inr (.inr ⟨hact', hx⟩)) fun hx => ⟨hx, hact'⟩
    cases hpc : e.pc t <;> rw [hpc] at hlist <;>
      simp only [hpc, Option.some.injEq, reduceCtorEq] at hs
    case listTest r slot k =>
      obtain ⟨⟩ | r := k
      · subst hs
        refine hnext _ rfl rfl ?_
        split
        · exact .inr rfl
        · exact .inl trivial
      · exact absurd hlist id
    case listRead k | listNext k =>
      obtain ⟨⟩ | r := k
      · subst hs
        exact hnext _ rfl rfl (.inl trivial)
      · exact absurd hlist id
    case listClear curr k | listFree curr k =>
      obtain ⟨⟩ | r := k
      · subst hs
        exact hnext _ rfl rfl (listing_listLoop curr)
      · exact absurd hlist id
    all_goals exact absurd hlist id

/-! ## The invariant -/

/-- Nothing is begun on the container while a guard or an iterator is open. -/
def Alone (s : State) : Act → Prop
  | .pin | .iterCreate | .point _ => s.opened = []
  | _ => True

structure Inv (t : Ebr.Tid) (h : Ebr.Hid) (s : State) : Prop where
  owned : Ebr.Owned s.ebr
  owner : s.ebr.owner h = some t
  calm : Calm (s.ebr.pc t)
  idle : s.phase = .idle → s.ebr.pc t = .idle
  opening : ∀ kind, s.phase = .opening kind → Entering t h s.ebr
  opened : ∀ o ∈ s.opened, s.phase = .idle ∧ s.opened = [o] ∧ s.ebr.Active h ∧
    s.ebr.activeEpoch h = o.2

lemma Inv.guarded (hi : Inv t h s) : Guarded h s := by
  intro o ho
  obtain ⟨-, -, hact, heq⟩ := hi.opened o (List.mem_of_getLast? ho)
  exact ⟨hact, by rw [heq]⟩

/-! ## Every step keeps the invariant -/

lemma Inv.opened_eq_nil (hi : Inv t h s) (hphase : s.phase ≠ .idle) : s.opened = [] := by
  cases hopen : s.opened with
  | nil => rfl
  | cons o rest => exact absurd (hi.opened o (by simp [hopen])).1 hphase

/-- A call of `ebr.c` by the thread, with nothing open. -/
lemma Inv.begin (hi : Inv t h s) (hnil : s.opened = []) {a : Ebr.Act} {phase : Phase}
    (hs : call t s a phase = some s') (ha : a ≠ .go) (hcalm : Calm (a.first s.ebr.nodeCount))
    (hphase : phase ≠ .idle)
    (hopening : ∀ kind, phase = .opening kind → a = .enter h) : Inv t h s' := by
  obtain ⟨e, hstep, rfl⟩ := map_eq_some_iff.mp hs
  have howned := hi.owned.step hstep
  obtain ⟨-, -, rfl⟩ := step_call ha hstep
  refine ⟨howned, hi.owner, ?_, fun hidle => absurd hidle hphase, fun kind hkind => .inl ?_, ?_⟩
  · simp only [update_self]
    exact hcalm
  · simp only [update_self, hopening kind hkind]
    rfl
  · simp [hnil]

lemma Inv.close (hi : Inv t h s) {kind : Kind} (hs : close t h s kind = some s') : Inv t h s' := by
  rw [Guards.close] at hs
  split at hs
  · rename_i k g rest _ hopen
    split at hs
    · -- it was the only one
      have hone := (hi.opened (k, g) (by simp [hopen])).2.1
      rw [hopen, List.cons.injEq] at hone
      obtain ⟨-, rfl⟩ := hone
      have hi' : Inv t h { s with opened := [] } := { hi with opened := by simp }
      exact hi'.begin rfl hs (by simp) trivial (by simp) (by rintro _ ⟨⟩)
    · cases hs
  · cases hs

/-- An access of the thread, in a call of `ebr.c`. -/
lemma Inv.go (hi : Inv t h s) (hstep : go s.ebr t = some e') :
    Inv t h (if e'.pc t = .idle then resume h { s with ebr := e' } else { s with ebr := e' }) := by
  have hphase : s.phase ≠ .idle := by
    intro hidle
    rw [Ebr.go, hi.idle hidle] at hstep
    cases hstep
  have hnil := hi.opened_eq_nil hphase
  obtain ⟨hcalm, howner⟩ := calm_go hi.calm hstep
  have howned : Ebr.Owned e' := hi.owned.go hstep
  have hmine : e'.owner h = some t := by
    rw [howner]
    exact hi.owner
  split
  · rename_i hidle
    rw [resume]
    cases hp : s.phase with
    | idle => exact absurd hp hphase
    | opening kind =>
      have hact : e'.Active h := by
        rcases entering_go (hi.opening kind hp) hstep with hent | hdone
        · rw [Entering, hidle] at hent
          rcases hent with ⟨⟨⟩⟩ | ⟨_, ⟨⟩⟩ | ⟨-, ⟨⟩⟩
        · exact hdone.2
      refine ⟨howned, hmine, hcalm, fun _ => hidle, by rintro _ ⟨⟩, ?_⟩
      intro o ho
      simp only [hnil, List.mem_singleton] at ho
      subst ho
      exact ⟨rfl, by rw [hnil], hact, rfl⟩
    | closing | leaving =>
      exact ⟨howned, hmine, hcalm, fun _ => hidle, by rintro _ ⟨⟩, by simp [hnil]⟩
    | entering op | body op =>
      exact ⟨howned, hmine, hcalm, by rintro ⟨⟩, by rintro _ ⟨⟩, by simp [hnil]⟩
    | retiring op => exact ⟨howned, hmine, hcalm, by rintro ⟨⟩, by rintro _ ⟨⟩, by simp [hnil]⟩
  · rename_i hbusy
    refine ⟨howned, hmine, hcalm, fun hidle => absurd hidle hphase, fun kind hkind => ?_,
      by simp [hnil]⟩
    rcases entering_go (hi.opening kind hkind) hstep with hent | hdone
    · exact hent
    · exact absurd hdone.1 hbusy

lemma inv_step {a : Act} (hi : Inv t h s) (hok : Alone s a) (hs : step t h s a = some s') :
    Inv t h s' := by
  cases a with
  | pin | iterCreate =>
    obtain ⟨-, hs⟩ := ite_none_right_eq_some.mp hs
    exact hi.begin hok hs (by simp) trivial (by simp) (fun _ _ => rfl)
  | point op =>
    obtain ⟨-, hs⟩ := ite_none_right_eq_some.mp hs
    exact hi.begin hok hs (by simp) trivial (by simp) (by rintro _ ⟨⟩)
  | unpin | iterDestroy => exact hi.close hs
  | retire | leave =>
    simp only [step] at hs
    split at hs
    · rename_i op hphase
      exact hi.begin (hi.opened_eq_nil (by simp [hphase])) hs (by simp) trivial (by simp)
        (by rintro _ ⟨⟩)
    · cases hs
  | other u a =>
    simp only [step] at hs
    split at hs
    · cases hs
    · rename_i hu
      obtain ⟨e, hstep, rfl⟩ := map_eq_some_iff.mp hs
      obtain ⟨hact, howner, hpc⟩ := hi.owned.other_step hi.owner hu hstep
      refine ⟨hi.owned.step hstep, howner.trans hi.owner, hpc ▸ hi.calm, ?_, ?_, ?_⟩
      · intro hphase
        exact hpc.trans (hi.idle hphase)
      · intro kind hphase
        have := hi.opening kind hphase
        rw [Entering, Ebr.State.Active] at this ⊢
        rw [hpc, hact]
        exact this
      · intro o ho
        rw [Ebr.State.Active, hact]
        exact hi.opened o ho
  | go =>
    obtain ⟨e, hstep, rfl⟩ := map_eq_some_iff.mp hs
    exact hi.go hstep

/-! ## Every run -/

/-- If nothing is begun on the container while a guard or an iterator is open,
the handle is active, and in the epoch of the guard, as long as it is open. -/
theorem guarded_of_alone (hr : (machine t h).ReachVia Alone s) : Guarded h s := by
  have hinv : Inv t h s := by
    refine hr.invariant (Inv t h) ?_ fun _ _ _ hi hok hs => inv_step hi hok hs
    rintro s ⟨hreach, howner, hpc, hphase, hopen⟩
    have howned : Ebr.Owned s.ebr :=
      hreach.invariant Ebr.Owned (by rintro _ rfl; exact owned_start) fun _ _ _ ho _ hs =>
        ho.step hs
    refine ⟨howned, howner, ?_, fun _ => hpc, ?_, by simp [hopen]⟩
    · rw [hpc]
      trivial
    · intro kind hkind
      rw [hphase] at hkind
      cases hkind
  exact hinv.guarded

/-- Thread 1 registers handle 0. -/
def registering : List (Ebr.Tid × Ebr.Act) := (1, .register) :: List.replicate 4 (1, .go)

lemma start_registered {e : Ebr.State}
    (he : Ebr.machine.run (fun _ _ => true) Ebr.start registering = some e) :
    Start 1 0 ⟨e, .idle, []⟩ := by
  have hout : (Ebr.machine.run (fun _ _ => true) Ebr.start registering).map
      (fun e => (e.owner 0, e.pc 1)) = some (some 1, .idle) := by decide +kernel
  rw [he, map_some, Option.some.injEq, Prod.mk.injEq] at hout
  have hreach : Ebr.machine.Reach e :=
    Machine.ReachVia.run (fun _ _ => true) (by simp) (.init rfl) registering he
  exact ⟨hreach, hout.1, hout.2, rfl, rfl⟩

/-- After a point operation a guard is opened, while another thread reads the
epoch to advance it. -/
theorem guarded_of_alone_once : ∃ s, (machine 1 0).ReachVia Alone s ∧
    s.opened = [(.guard, 1)] ∧ Guarded 0 s := by
  have htest : ∀ (s : State) a, (match a with
      | .pin | .iterCreate | .point _ => s.opened.isEmpty
      | _ => true) = true → Alone s a := by
    intro s a htest
    cases a <;> first | trivial | exact List.isEmpty_iff.mp htest
  obtain ⟨s, hs, hopen⟩ := map_eq_some_iff.mp (show
    ((Ebr.machine.run (fun _ _ => true) Ebr.start registering).bind fun e =>
      (machine 1 0).run (fun s a => match a with
        | .pin | .iterCreate | .point _ => s.opened.isEmpty
        | _ => true) ⟨e, .idle, []⟩ [.point .insert, .go, .go, .go, .leave, .go, .go, .go, .pin, .go,
          .go, .other 2 .advance, .other 2 .go, .go]).map State.opened = some [(.guard, 1)]
      by decide +kernel)
  obtain ⟨e, he, hs⟩ := bind_eq_some_iff.mp hs
  have hreach := Machine.ReachVia.run _ htest
    (.init (start_registered he) : (machine 1 0).ReachVia Alone _) _ hs
  exact ⟨s, hreach, hopen, guarded_of_alone hreach⟩

/-- A get leaves the handle inactive, with the guard still open. -/
theorem get_unguards : ∃ s, (machine 1 0).Reach s ∧ s.phase = .idle ∧ s.opened = [(.guard, 1)] ∧
    ¬ Guarded 0 s := by
  obtain ⟨s, hs, hout⟩ := map_eq_some_iff.mp (show
    ((Ebr.machine.run (fun _ _ => true) Ebr.start registering).bind fun e =>
      (machine 1 0).run (fun _ _ => true) ⟨e, .idle, []⟩ [.pin, .go, .go, .go, .point .get, .go, .go,
        .go, .leave, .go, .go, .go]).map (fun s => (s.phase, s.opened, s.ebr.activeEpoch 0))
      = some (.idle, [(.guard, 1)], 0) by decide +kernel)
  obtain ⟨e, he, hs⟩ := bind_eq_some_iff.mp hs
  simp only [Prod.mk.injEq] at hout
  obtain ⟨hphase, hopen, hact⟩ := hout
  refine ⟨s, Machine.ReachVia.run _ (by simp) (.init (start_registered he)) _ hs, hphase, hopen, ?_⟩
  intro hg
  have := (hg (.guard, 1) (by simp [hopen])).1
  rw [Ebr.State.Active, hact] at this
  exact this rfl

end Cobalt.Container.Guards
