/-
Cobalt.Memory.EbrOwners — a handle is used by one thread.

A call with a handle is made by its owner, and a handle gets an owner only
when it has none: register takes it over by a compare-and-swap of
`registered`, which is false only when unregister has given it up.
-/
import Cobalt.Memory.Ebr

namespace Cobalt.Memory.Ebr

open Option

open Function (update update_self update_of_ne)

variable {s s' : State} {t u : Tid} {h : Hid}

/-! ## Phases and handles -/

/-- The handle a call works with. -/
def Pc.handle? : Pc → Option Hid
  | enterLoad h | enterStore h _ | exitStore h | exitLoad h => some h
  | retireLoad h _ | retireLink h _ _ | retirePush h _ _ | retireCount h _ | retireStore h _ _ =>
      some h
  | listTest h _ _ | listRead h _ _ | listClear h _ _ _ => some h
  | registerActive h | registerSplice h | registerLoad h | registerCas h _ => some h
  | unregisterActive h | unregisterFlag h => some h
  | _ => none

/-- Between reading the head of a list of a handle and writing it. -/
def Pc.window? : Pc → Option (Hid × Nat)
  | retirePush h _ g => some (h, g % 3)
  | listClear h slot _ _ => some (h, slot)
  | _ => none

lemma Pc.handle_of_window {pc : Pc} {slot : Nat} (hw : pc.window? = some (h, slot)) :
    pc.handle? = some h := by
  cases pc <;> simp_all [Pc.window?, Pc.handle?]

/-- The handles a register still has to look at. -/
def Pc.scan : Pc → List Hid
  | registerTry h rest => h :: rest
  | _ => []

/-- The phase a call begins with; `n` is the node that retire gets. -/
def Act.first (n : Nid) : Act → Pc
  | enter h => .enterLoad h
  | exit h => .exitStore h
  | retire h => .retireLoad h n
  | advance => .advanceLoad
  | register => .registerHead
  | unregister h => .unregisterActive h
  | go => .idle

/-- The number of nodes after a call has begun. -/
def Act.count (n : Nat) : Act → Nat
  | retire _ => n + 1
  | _ => n

/-- A call is begun by an idle thread, with a handle that it owns. -/
lemma step_call {a : Act} (ha : a ≠ .go) (hs : step s (t, a) = some s') :
    s.pc t = .idle ∧ (∀ h, (a.first s.nodeCount).handle? = some h → s.owner h = some t) ∧
      s' = ({ s with nodeCount := a.count s.nodeCount } : State).move t (a.first s.nodeCount) := by
  cases a with
  | go => exact absurd rfl ha
  | advance | register =>
    simp only [step, ite_none_right_eq_some, Option.some.injEq] at hs
    exact ⟨hs.1, by rintro _ ⟨⟩, hs.2.symm⟩
  | _ =>
    simp only [step, call, ite_none_right_eq_some, Option.some.injEq] at hs
    exact ⟨hs.1.1, by rintro _ ⟨⟩; exact hs.1.2, hs.2.symm⟩

section Loops

variable (k : After) (slot limit g : Nat) (keep : Option (Nid × Nid)) (curr : Option Nid)
  (rest : List Hid)

@[simp] lemma handle_listLoop : (listLoop k curr).handle? = none := by
  cases curr <;> cases k <;> rfl

@[simp] lemma handle_orphanLoop : (orphanLoop slot limit keep curr).handle? = none := by
  cases curr <;> cases keep <;> rfl

@[simp] lemma handle_advanceLoop : (advanceLoop g rest).handle? = none := by
  cases rest <;> rfl

@[simp] lemma handle_after : k.pc.handle? = none := by
  cases k <;> rfl

@[simp] lemma scan_after : k.pc.scan = [] := by
  cases k <;> rfl

@[simp] lemma scan_listLoop : (listLoop k curr).scan = [] := by
  cases curr <;> cases k <;> rfl

@[simp] lemma scan_advanceLoop : (advanceLoop g rest).scan = [] := by
  cases rest <;> rfl

@[simp] lemma scan_orphanLoop : (orphanLoop slot limit keep curr).scan = [] := by
  cases curr <;> cases keep <;> rfl

end Loops

/-! ## Sections -/

/-- What the sections of register and unregister leave as it is. -/
structure SameHandles (s s' : State) : Prop where
  pc : s'.pc = s.pc
  owner : s'.owner = s.owner
  registered : s'.registered = s.registered
  handles : s'.handles = s.handles
  handleCount : s'.handleCount = s.handleCount
  activeEpoch : s'.activeEpoch = s.activeEpoch

lemma sameHandles_spliceSlot {slot : Nat} (hs : s.spliceSlot h slot = some s') :
    SameHandles s s' := by
  rw [State.spliceSlot] at hs
  split at hs
  · cases hs
    exact ⟨rfl, rfl, rfl, rfl, rfl, rfl⟩
  · obtain ⟨tail, -, rfl⟩ := map_eq_some_iff.mp hs
    exact ⟨rfl, rfl, rfl, rfl, rfl, rfl⟩

lemma SameHandles.trans {s1 s2 s3 : State} (h : SameHandles s1 s2) (h' : SameHandles s2 s3) :
    SameHandles s1 s3 :=
  ⟨h'.pc.trans h.pc, h'.owner.trans h.owner, h'.registered.trans h.registered,
    h'.handles.trans h.handles, h'.handleCount.trans h.handleCount,
    h'.activeEpoch.trans h.activeEpoch⟩

lemma sameHandles_splice (hs : s.splice h = some s') : SameHandles s s' := by
  simp only [State.splice, bind_eq_bind, bind_eq_some_iff, Option.some.injEq] at hs
  obtain ⟨s1, h1, s2, h2, s3, h3, rfl⟩ := hs
  exact ((sameHandles_spliceSlot h1).trans (sameHandles_spliceSlot h2)).trans
    { sameHandles_spliceSlot h3 with }

/-! ## Who owns a handle -/

structure Owned (s : State) : Prop where
  owner : ∀ t h, (s.pc t).handle? = some h → s.owner h = some t
  registered : ∀ h, s.registered h = false → s.owner h = none
  fresh : ∀ h, s.handleCount ≤ h → s.owner h = none
  handles : ∀ h ∈ s.handles, h < s.handleCount
  scan : ∀ t, ∀ h ∈ (s.pc t).scan, h < s.handleCount

lemma owned_start : Owned start where
  owner := by rintro _ _ ⟨⟩
  registered _ _ := rfl
  fresh _ _ := rfl
  handles := by simp [start]
  scan := by rintro _ _ ⟨⟩

/-- The lists of a handle are in nobody else's window when its owner writes them. -/
lemma Owned.window_ne (ho : Owned s) {r : Hid} (hr : s.owner r = some t) (hu : u ≠ t)
    {r' : Hid} {slot : Nat} (hw : (s.pc u).window? = some (r', slot)) : r' ≠ r := by
  rintro rfl
  have := ho.owner u r' (Pc.handle_of_window hw)
  rw [hr, Option.some.injEq] at this
  exact hu this.symm

namespace Owned

variable {x : Pc} {r : Hid}

variable (ho : Owned s)

include ho

lemma move (hx : ∀ h, x.handle? = some h → s.owner h = some t)
    (hscan : ∀ h ∈ x.scan, h < s.handleCount) : Owned (s.move t x) where
  owner u := by
    by_cases hu : u = t
    · subst hu
      simp only [update_self]
      exact hx
    · simp only [update_of_ne hu]
      exact ho.owner u
  registered := ho.registered
  fresh := ho.fresh
  handles := ho.handles
  scan u := by
    by_cases hu : u = t
    · subst hu
      simp only [update_self]
      exact hscan
    · simp only [update_of_ne hu]
      exact ho.scan u

lemma keep (hpc : s'.pc = update s.pc t x) (howner : s'.owner = s.owner)
    (hregistered : s'.registered = s.registered) (hhandles : s'.handles = s.handles)
    (hcount : s'.handleCount = s.handleCount)
    (hx : x.handle? = none ∨ x.handle? = (s.pc t).handle?) (hscan : x.scan = []) : Owned s' := by
  have hmove : Owned (s.move t x) := by
    refine ho.move (fun h hh => ?_) (by simp [hscan])
    rcases hx with hx | hx
    · rw [hx] at hh
      cases hh
    · exact ho.owner t h (hx ▸ hh)
  refine ⟨?_, ?_, ?_, ?_, ?_⟩
  · rw [hpc, howner]
    exact hmove.owner
  · rw [hregistered, howner]
    exact hmove.registered
  · rw [hcount, howner]
    exact hmove.fresh
  · rw [hhandles, hcount]
    exact hmove.handles
  · rw [hpc, hcount]
    exact hmove.scan

/-- A thread gets a handle that nobody owns. -/
lemma adopt (hr : s.owner r = none) {count : Nat} (hc : s.handleCount ≤ count)
    (hrc : r < count) (hx : x.handle? = some r) (hscan : x.scan = []) :
    Owned ((({ s with handleCount := count } : State).setOwner r (some t)).move t x) where
  owner u h hh := by
    by_cases hu : u = t
    · subst hu
      simp only [update_self, hx, Option.some.injEq] at hh
      simp only [← hh, update_self]
    · simp only [update_of_ne hu] at hh
      have := ho.owner u h hh
      have hne : h ≠ r := by
        rintro rfl
        rw [hr] at this
        cases this
      simp only [update_of_ne hne]
      exact this
  registered h hh := by
    by_cases heq : h = r
    · simp only [heq, update_self] at hh
      cases hh
    · simp only [update_of_ne heq] at hh ⊢
      exact ho.registered h hh
  fresh h hh := by
    have hne : h ≠ r := by
      rintro rfl
      exact absurd hrc (Nat.not_lt.mpr hh)
    simp only [update_of_ne hne]
    exact ho.fresh h (le_trans hc hh)
  handles h hh := lt_of_lt_of_le (ho.handles h hh) hc
  scan u h hh := by
    by_cases hu : u = t
    · subst hu
      simp only [update_self, hscan] at hh
      cases hh
    · simp only [update_of_ne hu] at hh
      exact lt_of_lt_of_le (ho.scan u h hh) hc

lemma release (hpc : s.pc t = .unregisterFlag r) :
    Owned ((s.setOwner r none).move t (.unregisterSplice r)) where
  owner u h hh := by
    by_cases hu : u = t
    · subst hu
      simp only [update_self] at hh
      cases hh
    · simp only [update_of_ne hu] at hh
      have hr : s.owner r = some t := ho.owner t r (by rw [hpc]; rfl)
      have := ho.owner u h hh
      have hne : h ≠ r := by
        rintro rfl
        rw [hr, Option.some.injEq] at this
        exact hu this.symm
      simp only [update_of_ne hne]
      exact this
  registered h hh := by
    by_cases heq : h = r
    · simp only [heq, update_self]
    · simp only [update_of_ne heq] at hh ⊢
      exact ho.registered h hh
  fresh h hh := by
    by_cases heq : h = r
    · simp only [heq, update_self]
    · simp only [update_of_ne heq]
      exact ho.fresh h hh
  handles := ho.handles
  scan u h hh := by
    by_cases hu : u = t
    · subst hu
      simp only [update_self] at hh
      cases hh
    · simp only [update_of_ne hu] at hh
      exact ho.scan u h hh

lemma go (hs : go s t = some s') : Owned s' := by
  rw [Ebr.go] at hs
  cases hpc : s.pc t <;> simp only [hpc, Option.some.injEq, reduceCtorEq] at hs
  case registerHead =>
    subst hs
    refine ho.move ?_ ?_
    · cases s.handles <;> rintro _ ⟨⟩
    · have := ho.handles
      cases hh : s.handles with
      | nil => rintro _ ⟨⟩
      | cons h rest =>
        rw [hh] at this
        exact this
  case registerTry h rest =>
    have hscan := ho.scan t
    rw [hpc] at hscan
    split at hs <;> cases hs
    · refine ho.move ?_ ?_
      · cases rest <;> rintro _ ⟨⟩
      · cases rest with
        | nil => rintro _ ⟨⟩
        | cons h' rest => exact fun r hr => hscan r (List.mem_cons_of_mem _ hr)
    · rename_i hr
      exact ho.adopt (ho.registered h (by simpa using hr)) le_rfl (hscan h (List.mem_cons_self ..))
        rfl rfl
  case registerNew =>
    subst hs
    exact ho.adopt (ho.fresh _ le_rfl) (Nat.le_succ _) (Nat.lt_succ_self _) rfl rfl
  case registerCas h old =>
    have howner := ho.owner t h (by rw [hpc]; rfl)
    have hlt : h < s.handleCount := by
      by_contra hge
      rw [ho.fresh h (Nat.not_lt.mp hge)] at howner
      cases howner
    split at hs <;> cases hs
    · rename_i hold
      have hidle : Owned (s.move t .idle) := ho.move (by rintro _ ⟨⟩) (by rintro _ ⟨⟩)
      refine { hidle with handles := ?_ }
      intro r hr
      rcases List.mem_cons.mp hr with rfl | hr
      · exact hlt
      · exact ho.handles r (hold ▸ hr)
    · exact ho.keep rfl rfl rfl rfl rfl (.inr (by rw [hpc]; rfl)) rfl
  case unregisterFlag h => exact hs ▸ ho.release hpc
  case registerSplice | unregisterSplice =>
    obtain ⟨s1, h1, rfl⟩ := map_eq_some_iff.mp hs
    obtain ⟨hpc', howner, hregistered, hhandles, hcount, -⟩ := sameHandles_splice h1
    exact ho.keep (by rw [← hpc']) howner hregistered hhandles hcount (.inl rfl) rfl
  case advanceCas => split at hs <;> cases hs <;> exact ho.keep rfl rfl rfl rfl rfl (.inl rfl) rfl
  case orphanEpoch =>
    split at hs
    · split at hs <;> cases hs
      · exact ho.keep rfl rfl rfl rfl rfl (.inl (by simp)) (by simp)
      · exact ho.keep rfl rfl rfl rfl rfl (.inl rfl) rfl
    · cases hs
      exact ho.keep rfl rfl rfl rfl rfl (.inl rfl) rfl
  -- a choice of the next phase
  case retireCheck | listTest | advanceRegistered | advanceActive =>
    subst hs
    refine ho.keep rfl rfl rfl rfl rfl ?_ ?_
    · split
      all_goals first | exact .inl rfl | exact .inl (by simp) | exact .inr (by rw [hpc]; rfl)
    · split
      all_goals first | rfl | simp
  all_goals
    subst hs
    refine ho.keep rfl rfl rfl rfl rfl ?_ ?_
    · first | exact .inl rfl | exact .inl (by simp) | exact .inr (by rw [hpc]; rfl)
    · first | rfl | simp

lemma step {a : Act} (hs : step s (t, a) = some s') : Owned s' := by
  by_cases ha : a = .go
  · subst ha
    exact ho.go hs
  · obtain ⟨-, hr, rfl⟩ := step_call ha hs
    exact { ho.move hr (by cases a <;> rintro _ ⟨⟩) with }

/-- A handle is as its owner left it: another thread changes neither its epoch
nor its owner, nor where the owner is. -/
lemma other_go (hr : s.owner r = some t) (hu : u ≠ t) (hs : Ebr.go s u = some s') :
    s'.activeEpoch r = s.activeEpoch r ∧ s'.owner r = s.owner r ∧ s'.pc t = s.pc t := by
  have hne : ∀ r', (s.pc u).handle? = some r' → r ≠ r' := by
    rintro r' hr' rfl
    have := ho.owner u r hr'
    rw [hr, Option.some.injEq] at this
    exact hu this.symm
  have hfree : ∀ r', s.owner r' = none → r ≠ r' := by
    rintro r' hr' rfl
    rw [hr] at hr'
    cases hr'
  have hpcs : ∀ x, update s.pc u x t = s.pc t := fun x => update_of_ne hu.symm ..
  rw [Ebr.go] at hs
  cases hpc : s.pc u <;> rw [hpc] at hne <;> simp only [hpc, Option.some.injEq, reduceCtorEq] at hs
  -- stores to `active_epoch`
  case enterStore | exitStore | registerActive | unregisterActive =>
    subst hs
    exact ⟨update_of_ne (hne _ rfl) .., rfl, hpcs _⟩
  -- a new owner, or none
  case registerTry r' rest =>
    split at hs <;> cases hs
    · exact ⟨rfl, rfl, hpcs _⟩
    · rename_i hreg
      exact ⟨rfl, update_of_ne (hfree r' (ho.registered r' (by simpa using hreg))) .., hpcs _⟩
  case registerNew =>
    subst hs
    exact ⟨rfl, update_of_ne (hfree _ (ho.fresh _ le_rfl)) .., hpcs _⟩
  case unregisterFlag r' =>
    subst hs
    exact ⟨rfl, update_of_ne (hne r' rfl) .., hpcs _⟩
  case registerSplice | unregisterSplice =>
    obtain ⟨s1, h1, rfl⟩ := map_eq_some_iff.mp hs
    obtain ⟨hpc', howner, -, -, -, hactive⟩ := sameHandles_splice h1
    refine ⟨by simp only [hactive], by simp only [howner], ?_⟩
    simp only [hpc', update_of_ne hu.symm]
  case advanceCas | registerCas => split at hs <;> cases hs <;> exact ⟨rfl, rfl, hpcs _⟩
  case orphanEpoch =>
    split at hs
    · split at hs <;> cases hs <;> exact ⟨rfl, rfl, hpcs _⟩
    · cases hs
      exact ⟨rfl, rfl, hpcs _⟩
  all_goals
    subst hs
    exact ⟨rfl, rfl, hpcs _⟩

lemma other_step (hr : s.owner r = some t) (hu : u ≠ t) {a : Act}
    (hs : Ebr.step s (u, a) = some s') :
    s'.activeEpoch r = s.activeEpoch r ∧ s'.owner r = s.owner r ∧ s'.pc t = s.pc t := by
  by_cases ha : a = .go
  · subst ha
    exact ho.other_go hr hu hs
  · obtain ⟨-, -, rfl⟩ := step_call ha hs
    exact ⟨rfl, rfl, update_of_ne hu.symm ..⟩

end Owned

end Cobalt.Memory.Ebr
