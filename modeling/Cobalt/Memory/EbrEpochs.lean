/-
Cobalt.Memory.EbrEpochs — the epochs of handles and of nodes.

For each open critical section, `base` is the global epoch at the moment it
was published. The epoch the handle shows is not newer, and the global epoch
has advanced at most once since: an advance from `base + 1` would have to
scan the handles after it has read that epoch, and would find the handle
lagging. A node of epoch `e` is freed by a thread that has read an epoch of
at least `e + 2`, because the list of a slot has only nodes of every third
epoch and none that is newer than what its owner has read.

All this is about runs in which no handle is unregistered and the global
epoch stays below `2 ^ 64 - 1`, where `(g + 1) % 3` leaves the cycle.
-/
import Cobalt.Memory.EbrLists

namespace Cobalt.Memory.Ebr

open List
open State (Active)

open Function (update update_self update_of_ne)

variable {s s' : State} {t u : Tid} {h : Hid} {n : Nid}

/-! ## Arithmetic -/

lemma publish_shiftRight_le (g : Nat) : publish g >>> 1 ≤ g := by
  rw [publish_eq, Nat.shiftRight_eq_div_pow]
  omega

lemma old_of_safeSlot {e g : Nat} (hg : g + 1 < 2 ^ 64) (hslot : e % 3 = safeSlot g)
    (hle : e ≤ g) : e + 2 ≤ g := by
  rw [safeSlot, Nat.mod_eq_of_lt hg] at hslot
  omega

/-! ## The invariant -/

/-- The new handle of a register that has not published it yet. -/
def Pc.pending? : Pc → Option Hid
  | registerLoad h | registerCas h _ => some h
  | _ => none

variable {L L' : Place → List Nid} {base base' : Hid → Nat}

/-- Epoch `g` has been read, and no node of the handle is newer. -/
def Bound (s : State) (L : Place → List Nid) (h : Hid) (g : Nat) : Prop :=
  g ≤ s.globalEpoch ∧ ∀ slot, ∀ n ∈ L (.handle h slot), s.nodeEpoch n ≤ g

/-- An advance from `g` has found no handle lagging, apart from those it still
has to look at. -/
def Scanned (s : State) (base : Hid → Nat) (g : Nat) (rest : List Hid) : Prop :=
  g ≤ s.globalEpoch ∧ (∀ h ∈ rest, h ∈ s.handles) ∧ ∀ h, s.Active h → h ∉ rest → g ≤ base h

/-- What is known in each phase; those that reuse or unregister a handle or
have orphans do not occur. -/
def PhaseOk (s : State) (L : Place → List Nid) (base : Hid → Nat) : Pc → Prop
  | .enterStore h g => Bound s L h g
  | .retireLink h n g | .retirePush h n g => Bound s L h g ∧ s.nodeEpoch n = g
  | .retireCount h g | .retireStore h g _ => Bound s L h g
  | .listTest h slot _ | .listRead h slot _ | .listClear h slot _ _ =>
      ∃ g, Bound s L h g ∧ slot = safeSlot g
  | .advanceHead g => g ≤ s.globalEpoch
  | .advanceRegistered g h rest | .advanceActive g h rest => Scanned s base g (h :: rest)
  | .advanceCas g => Scanned s base g []
  | .registerTry h rest => ∀ r ∈ h :: rest, r ∈ s.handles
  | .registerLoad h | .registerCas h _ => s.registered h = true
  | .registerActive _ | .registerSplice _ => False
  | .unregisterActive _ | .unregisterFlag _ | .unregisterSplice _ => False
  | .orphanNext _ _ _ _ | .orphanEpoch _ _ _ _ _ | .orphanFree _ _ _ _ _ => False
  | .orphanKeep _ _ _ _ _ | .orphanReturn _ _ => False
  | _ => True

/-- How old a node of epoch `e` is at a place, in epoch `g`. -/
def AgeAt (e g : Nat) : Place → Prop
  | .handle _ slot => e % 3 = slot ∧ e ≤ g
  | .held _ | .freed => e + 2 ≤ g
  | .orphaned _ | .kept _ => False
  | .hand _ => True

structure Epochs (s : State) (L : Place → List Nid) (base : Hid → Nat) : Prop where
  bound : s.globalEpoch + 1 < 2 ^ 64
  ages : ∀ q, ∀ n ∈ L q, AgeAt (s.nodeEpoch n) s.globalEpoch q
  phase : ∀ t, PhaseOk s L base (s.pc t)
  registered : ∀ h ∈ s.handles, s.registered h = true
  listed : ∀ h t, s.owner h = some t → h ∈ s.handles ∨ (s.pc t).pending? = some h
  active : ∀ h, s.Active h → h ∈ s.handles ∧ s.activeEpoch h >>> 1 ≤ base h ∧
    base h ≤ s.globalEpoch ∧ s.globalEpoch ≤ base h + 1
  guards : ∀ n h c, s.guards n h = some c → c ≤ s.sections h ∧
    (s.Active h → s.sections h = c → base h ≤ s.nodeEpoch n)

lemma epochs_start : Epochs start (fun _ => []) (fun _ => 0) where
  bound := by decide
  ages := by simp
  phase _ := trivial
  registered := by simp [start]
  listed := by rintro _ _ ⟨⟩
  active h hh := absurd (by simp [start]) hh
  guards := by rintro _ _ _ ⟨⟩

lemma AgeAt.mono {e g g' : Nat} {q : Place} (h : AgeAt e g q) (hle : g ≤ g') : AgeAt e g' q := by
  cases q with
  | handle r slot => exact ⟨h.1, h.2.trans hle⟩
  | held u | freed => exact le_trans h hle
  | orphaned slot => exact h
  | kept u => exact h
  | hand u => trivial

/-- A node is as old as the place needs that it moves to. -/
lemma Epochs.ageAt_edge (he : Epochs s L base) (hL : Shape s L) {p q : Place}
    (hedge : Edge s t p q) (hn : n ∈ L p) : AgeAt (s.nodeEpoch n) s.globalEpoch q := by
  have hage := he.ages p n hn
  have hphase := he.phase t
  have hhand := (hL.thread t).hand
  rw [Edge] at hedge
  cases hpc : s.pc t <;> simp only [hpc] at hedge hphase hhand
  case retirePush r m g =>
    obtain ⟨rfl, rfl⟩ := hedge
    obtain ⟨hbound, hm⟩ := hphase
    rw [hhand] at hn
    obtain rfl : n = m := by simpa [Pc.hand] using hn
    rw [hm]
    exact ⟨rfl, hbound.1⟩
  case listClear r slot curr k =>
    obtain ⟨rfl, rfl⟩ := hedge
    obtain ⟨g, hbound, rfl⟩ := hphase
    have hg := he.bound
    have hold := old_of_safeSlot (by have := hbound.1; omega) hage.1 (hbound.2 _ n hn)
    exact le_trans hold hbound.1
  case listFree m p k =>
    obtain ⟨rfl, rfl⟩ := hedge
    exact hage
  case orphanTake slot limit =>
    obtain ⟨rfl, rfl⟩ := hedge
    exact absurd hage id
  all_goals exact absurd hphase id

/-! ## Threads that do not move -/

/-- Nothing a thread knows is lost in a step of another. -/
lemma PhaseOk.frame {pc : Pc} (hp : PhaseOk s L base pc)
    (hepoch : s.globalEpoch ≤ s'.globalEpoch)
    (hlocal : ∀ r, pc.handle? = some r → ∀ slot, ∀ n ∈ L' (.handle r slot),
      n ∈ L (.handle r slot) ∧ s'.nodeEpoch n = s.nodeEpoch n)
    (hhand : ∀ n, pc.hand = some n → s'.nodeEpoch n = s.nodeEpoch n)
    (hactive : ∀ r, s'.Active r → s.Active r ∧ base' r = base r ∨ s.globalEpoch ≤ base' r)
    (hhandles : ∀ r ∈ s.handles, r ∈ s'.handles)
    (hregistered : ∀ r, s.registered r = true → s'.registered r = true) :
    PhaseOk s' L' base' pc := by
  have hbound : ∀ r g, pc.handle? = some r → Bound s L r g → Bound s' L' r g := by
    intro r g hr hb
    refine ⟨hb.1.trans hepoch, fun slot n hn => ?_⟩
    obtain ⟨hn, heq⟩ := hlocal r hr slot n hn
    rw [heq]
    exact hb.2 slot n hn
  have hscanned : ∀ g rest, Scanned s base g rest → Scanned s' base' g rest := by
    intro g rest hsc
    refine ⟨hsc.1.trans hepoch, fun r hr => hhandles r (hsc.2.1 r hr), fun r hr hrest => ?_⟩
    rcases hactive r hr with ⟨hold, heq⟩ | hge
    · rw [heq]
      exact hsc.2.2 r hold hrest
    · exact hsc.1.trans hge
  cases pc with
  | enterStore r g => exact hbound r g rfl hp
  | retireLink r n g | retirePush r n g =>
    exact ⟨hbound r g rfl hp.1, by rw [hhand n rfl]; exact hp.2⟩
  | retireCount r g | retireStore r g c => exact hbound r g rfl hp
  | listTest r slot k | listRead r slot k | listClear r slot curr k =>
    exact hp.imp fun g hg => ⟨hbound r g rfl hg.1, hg.2⟩
  | advanceHead g => exact le_trans hp hepoch
  | advanceRegistered g r rest | advanceActive g r rest | advanceCas g => exact hscanned g _ hp
  | registerTry r rest => exact fun r hr => hhandles r (hp r hr)
  | registerLoad r | registerCas r old => exact hregistered r hp
  | _ => exact hp

variable {r : Hid}

lemma edge_handle (ho : Owned s) (hu : u ≠ t) (hr : (s.pc u).handle? = some r) {p : Place}
    {slot : Nat} : ¬ Edge s t p (.handle r slot) := by
  intro hedge
  have hown := ho.owner u r hr
  rw [Edge] at hedge
  cases hpc : s.pc t <;> simp only [hpc, reduceCtorEq, and_false, exists_false] at hedge
  case retirePush r' m g =>
    obtain ⟨-, heq⟩ := hedge
    cases heq
    have := ho.owner t r (by rw [hpc]; rfl)
    rw [hown, Option.some.injEq] at this
    exact hu this

lemma not_mem_of_retireLoad (hL : Shape s L) {q : Place} (hpc : s.pc t = .retireLoad r n)
    (hq : q ≠ .hand t) : n ∉ L q := by
  refine hL.part.not_mem (p := .hand t) ?_ hq
  rw [(hL.thread t).hand, hpc]
  simp [Pc.hand]

lemma Moves.or_hand (h : Moves s t L L') (q : Place) (n : Nid) (hn : n ∈ L' q) :
    n ∈ L q ∨ q = .hand t ∨ ∃ p, Edge s t p q ∧ n ∈ L p := (h q n hn).imp_right .inr

namespace Epochs

variable {x : Pc}

section

variable (he : Epochs s L base)

include he

lemma assemble (ho : Owned s) (hL : Shape s L) (hpc : s'.pc = update s.pc t x)
    (hmoves : ∀ q, ∀ n ∈ L' q, n ∈ L q ∨ q = .hand t ∨ ∃ p, Edge s t p q ∧ n ∈ L p)
    (hepoch : s.globalEpoch ≤ s'.globalEpoch) (hbound : s'.globalEpoch + 1 < 2 ^ 64)
    (hnode : ∀ n, (∀ r, s.pc t ≠ .retireLoad r n) → s'.nodeEpoch n = s.nodeEpoch n)
    (hnew : ∀ r, s'.Active r → s.Active r ∧ base' r = base r ∨ s.globalEpoch ≤ base' r)
    (hhandles : ∀ r ∈ s.handles, r ∈ s'.handles)
    (hkeep : ∀ r, s.registered r = true → s'.registered r = true)
    (hx : PhaseOk s' L' base' x) (hregistered : ∀ h ∈ s'.handles, s'.registered h = true)
    (hlisted : ∀ h u, s'.owner h = some u → h ∈ s'.handles ∨ (s'.pc u).pending? = some h)
    (hactive : ∀ h, s'.Active h → h ∈ s'.handles ∧ s'.activeEpoch h >>> 1 ≤ base' h ∧
      base' h ≤ s'.globalEpoch ∧ s'.globalEpoch ≤ base' h + 1)
    (hguards : ∀ n h c, s'.guards n h = some c → c ≤ s'.sections h ∧
      (s'.Active h → s'.sections h = c → base' h ≤ s'.nodeEpoch n)) : Epochs s' L' base' where
  bound := hbound
  ages q n hn := by
    by_cases hq : q = .hand t
    · subst hq
      trivial
    · rcases hmoves q n hn with hn | hq' | ⟨p, hedge, hn⟩
      · rw [hnode n fun r hr => not_mem_of_retireLoad hL hr hq hn]
        exact (he.ages q n hn).mono hepoch
      · exact absurd hq' hq
      · rw [hnode n ?_]
        · exact (he.ageAt_edge hL hedge hn).mono hepoch
        · intro r hr
          rw [Edge, hr] at hedge
          exact hedge
  phase u := by
    rw [hpc]
    by_cases hu : u = t
    · subst hu
      rw [update_self]
      exact hx
    · rw [update_of_ne hu]
      refine (he.phase u).frame hepoch (fun r hr slot n hn => ?_) (fun n hn => ?_) hnew hhandles
        hkeep
      · have hn : n ∈ L (.handle r slot) := by
          rcases hmoves _ n hn with hn | hq | ⟨p, hedge, -⟩
          · exact hn
          · cases hq
          · exact absurd hedge (edge_handle ho hu hr)
        exact ⟨hn, hnode n fun r hr => not_mem_of_retireLoad hL hr (by simp) hn⟩
      · refine hnode n fun r hr => not_mem_of_retireLoad (q := .hand u) hL hr (by simpa using hu) ?_
        rw [(hL.thread u).hand, hn]
        simp
  registered := hregistered
  listed := hlisted
  active := hactive
  guards := hguards

lemma listed_move (hx : x.pending? = (s.pc t).pending?) : ∀ h u, s.owner h = some u →
      h ∈ s.handles ∨ (update s.pc t x u).pending? = some h := by
  intro h u hu
  by_cases hut : u = t
  · subst hut
    rw [update_self, hx]
    exact he.listed h u hu
  · rw [update_of_ne hut]
    exact he.listed h u hu

/-- A step that changes neither epochs nor handles. -/
lemma still (ho : Owned s) (hL : Shape s L)
    (hmoves : ∀ q, ∀ n ∈ L' q, n ∈ L q ∨ q = .hand t ∨ ∃ p, Edge s t p q ∧ n ∈ L p)
    (hpc : s'.pc = update s.pc t x) (hepoch : s'.globalEpoch = s.globalEpoch)
    (hnode : s'.nodeEpoch = s.nodeEpoch) (hactive : s'.activeEpoch = s.activeEpoch)
    (hhandles : s'.handles = s.handles) (hregistered : s'.registered = s.registered)
    (howner : s'.owner = s.owner) (hsections : s'.sections = s.sections)
    (hguards : s'.guards = s.guards) (hpending : x.pending? = (s.pc t).pending?)
    (hx : PhaseOk s' L' base x) : Epochs s' L' base := by
  have hAct : ∀ r, s'.Active r ↔ s.Active r := by
    intro r
    rw [Active, hactive, Active]
  refine he.assemble ho hL hpc hmoves hepoch.ge (hepoch ▸ he.bound) (fun n _ => by rw [hnode])
    (fun r hr => .inl ⟨(hAct r).mp hr, rfl⟩) (by rw [hhandles]; exact fun _ => id)
    (by rw [hregistered]; exact fun _ => id) hx ?_ ?_ ?_ ?_
  · rw [hhandles, hregistered]
    exact he.registered
  · rw [howner, hhandles, hpc]
    exact he.listed_move hpending
  · intro h hh
    rw [hhandles, hactive, hepoch]
    exact he.active h ((hAct h).mp hh)
  · intro n h c hc
    rw [hguards] at hc
    rw [hsections, hnode, hAct]
    exact he.guards n h c hc

lemma bound_global (h : Hid) : Bound s L h s.globalEpoch :=
  ⟨le_rfl, fun slot n hn => (he.ages (.handle h slot) n hn).2⟩

lemma publish (ho : Owned s) (hL : Shape s L) (hmoves : Moves s t L L') {g : Nat}
    (hpc : s.pc t = .enterStore r g) :
    Epochs (((s.setActive r (Ebr.publish g)).beginSection r).move t (.listTest r (safeSlot g) .done))
      L' (update base r s.globalEpoch) := by
  have hnone : ∀ p q, ¬ Edge s t p q := fun p q h => by rwa [Edge, hpc] at h
  have hphase := he.phase t
  rw [hpc] at hphase
  have hlisted : r ∈ s.handles := by
    rcases he.listed r t (ho.owner t r (by rw [hpc]; rfl)) with hr | hr
    · exact hr
    · rw [hpc] at hr
      cases hr
  -- at the handle itself, and elsewhere
  have hself : (((s.setActive r (Ebr.publish g)).beginSection r).move t
      (.listTest r (safeSlot g) .done)).activeEpoch r = Ebr.publish g := update_self ..
  have hother : ∀ q, q ≠ r → (((s.setActive r (Ebr.publish g)).beginSection r).move t
      (.listTest r (safeSlot g) .done)).activeEpoch q = s.activeEpoch q :=
    fun q hq => update_of_ne hq ..
  refine he.assemble ho hL rfl hmoves.or_hand le_rfl he.bound
    (fun _ _ => rfl) ?_ (fun _ => id) (fun _ => id) ?_ he.registered ?_ ?_ ?_
  · intro q hq
    by_cases hqr : q = r
    · subst hqr
      rw [update_self]
      exact .inr le_rfl
    · rw [Active, hother q hqr] at hq
      exact .inl ⟨hq, update_of_ne hqr ..⟩
  · refine ⟨g, ⟨hphase.1, fun slot n hn => ?_⟩, rfl⟩
    rcases hmoves _ n hn with hn | ⟨p, hedge, -⟩
    · exact hphase.2 slot n hn
    · exact absurd hedge (hnone _ _)
  · exact he.listed_move (by rw [hpc]; rfl)
  · intro q hq
    by_cases hqr : q = r
    · subst hqr
      rw [hself, update_self]
      exact ⟨hlisted, (publish_shiftRight_le g).trans hphase.1, le_rfl, Nat.le_succ _⟩
    · rw [Active, hother q hqr] at hq
      rw [hother q hqr, update_of_ne hqr]
      exact he.active q hq
  · intro n q c hc
    obtain ⟨hle, hbase⟩ := he.guards n q c hc
    by_cases hqr : q = r
    · -- the critical section is a new one
      subst hqr
      simp only [update_self]
      exact ⟨Nat.le_succ_of_le hle, fun _ heq => absurd heq (by omega)⟩
    · simp only [update_of_ne hqr]
      rw [Active, hother q hqr]
      exact ⟨hle, hbase⟩

lemma exitStore (ho : Owned s) (hL : Shape s L) (hmoves : Moves s t L L')
    (hpc : s.pc t = .exitStore r) : Epochs ((s.setActive r 0).move t (.exitLoad r)) L' base := by
  have hother : ∀ q, ((s.setActive r 0).move t (.exitLoad r)).Active q →
      s.Active q ∧ ((s.setActive r 0).move t (.exitLoad r)).activeEpoch q = s.activeEpoch q := by
    intro q hq
    by_cases hqr : q = r
    · subst hqr
      simp [Active] at hq
    · have heq : ((s.setActive r 0).move t (.exitLoad r)).activeEpoch q = s.activeEpoch q :=
        update_of_ne hqr ..
      rw [Active, heq] at hq
      exact ⟨hq, heq⟩
  refine he.assemble ho hL rfl hmoves.or_hand le_rfl he.bound
    (fun _ _ => rfl) (fun q hq => .inl ⟨(hother q hq).1, rfl⟩) (fun _ => id) (fun _ => id) trivial
    he.registered (he.listed_move (by rw [hpc]; rfl)) ?_ ?_
  · intro q hq
    obtain ⟨hact, heq⟩ := hother q hq
    rw [heq]
    exact he.active q hact
  · intro n q c hc
    obtain ⟨hle, hbase⟩ := he.guards n q c hc
    exact ⟨hle, fun hq => hbase (hother q hq).1⟩

end

/-- Retire stamps its node with the epoch, and the critical sections that are
open now are not newer. -/
lemma stamp (he : Epochs s L base) (ho : Owned s) (hL : Shape s L) (hmoves : Moves s t L L')
    (hpc : s.pc t = .retireLoad r n) :
    Epochs ((s.stamp n).move t (.retireLink r n s.globalEpoch)) L' base := by
  have hnone : ∀ p q, ¬ Edge s t p q := fun p q h => by rwa [Edge, hpc] at h
  have hnode : ∀ m, m ≠ n →
      ((s.stamp n).move t (.retireLink r n s.globalEpoch)).nodeEpoch m = s.nodeEpoch m :=
    fun m hm => update_of_ne hm ..
  refine he.assemble ho hL rfl hmoves.or_hand le_rfl he.bound
    (fun m hm => hnode m fun heq => hm r (heq ▸ hpc)) (fun q hq => .inl ⟨hq, rfl⟩) (fun _ => id)
    (fun _ => id) ⟨⟨le_rfl, fun slot m hm => ?_⟩, update_self ..⟩
    he.registered (he.listed_move (by rw [hpc]; rfl)) he.active ?_
  · rcases hmoves _ m hm with hm | ⟨p, hedge, -⟩
    · rw [hnode m]
      · exact (he.ages _ m hm).2
      · rintro rfl
        exact not_mem_of_retireLoad hL hpc (by simp) hm
    · exact absurd hedge (hnone _ _)
  · intro m q c hc
    by_cases hm : m = n
    · subst hm
      simp only [update_self, Option.ite_none_right_eq_some, Option.some.injEq] at hc ⊢
      exact ⟨hc.2.ge, fun hq _ => (he.active q hq).2.2.1⟩
    · simp only [update_of_ne hm] at hc ⊢
      exact he.guards m q c hc

/-- The global epoch advances when no critical section lags. -/
lemma tick (he : Epochs s L base) (ho : Owned s) (hL : Shape s L) (hmoves : Moves s t L L')
    (hpc : s.pc t = .advanceCas s.globalEpoch) (hbound : s.globalEpoch + 2 < 2 ^ 64)
    (slot limit : Nat) :
    Epochs (({ s with globalEpoch := (s.globalEpoch + 1) % 2 ^ 64 } : State).move t
      (.orphanTake slot limit)) L' base := by
  have hphase := he.phase t
  rw [hpc] at hphase
  have hmod : (s.globalEpoch + 1) % 2 ^ 64 = s.globalEpoch + 1 := Nat.mod_eq_of_lt (by omega)
  rw [hmod]
  refine he.assemble ho hL rfl hmoves.or_hand (Nat.le_succ _) hbound
    (fun _ _ => rfl) (fun q hq => .inl ⟨hq, rfl⟩) (fun _ => id) (fun _ => id) trivial
    he.registered (he.listed_move (by rw [hpc]; rfl)) ?_ he.guards
  intro q hq
  obtain ⟨hlisted, hle, hbase, -⟩ := he.active q hq
  have hge : s.globalEpoch ≤ base q := hphase.2.2 q hq (by simp)
  exact ⟨hlisted, hle, Nat.le_succ_of_le hbase, Nat.succ_le_succ hge⟩

lemma newHandle (he : Epochs s L base) (ho : Owned s) (hL : Shape s L) (hmoves : Moves s t L L')
    (hpc : s.pc t = .registerNew) :
    Epochs ((({ s with handleCount := s.handleCount + 1 } : State).setOwner s.handleCount
      (some t)).move t (.registerLoad s.handleCount)) L' base := by
  have hkeep : ∀ r, s.registered r = true → update s.registered s.handleCount true r = true := by
    intro r hr
    by_cases heq : r = s.handleCount
    · rw [heq, update_self]
    · rw [update_of_ne heq]
      exact hr
  refine he.assemble ho hL rfl hmoves.or_hand le_rfl he.bound
    (fun _ _ => rfl) (fun q hq => .inl ⟨hq, rfl⟩) (fun _ => id) hkeep (update_self ..)
    (fun r hr => hkeep r (he.registered r hr)) ?_ he.active he.guards
  intro r u hu
  by_cases hr : r = s.handleCount
  · simp only [hr, update_self, Option.some.injEq] at hu
    subst hu
    simp [hr, Pc.pending?]
  · simp only [update_of_ne hr] at hu
    rcases he.listed r u hu with h | h
    · exact .inl h
    · by_cases hut : u = t
      · subst hut
        rw [hpc] at h
        cases h
      · simp only [update_of_ne hut]
        exact .inr h

/-- Register publishes its handle. -/
lemma enlist (he : Epochs s L base) (ho : Owned s) (hL : Shape s L) (hmoves : Moves s t L L')
    (hpc : s.pc t = .registerCas r s.handles) :
    Epochs (({ s with handles := r :: s.handles } : State).move t .idle) L' base := by
  have hphase := he.phase t
  rw [hpc] at hphase
  refine he.assemble ho hL rfl hmoves.or_hand le_rfl he.bound
    (fun _ _ => rfl) (fun q hq => .inl ⟨hq, rfl⟩) (fun _ => mem_cons_of_mem _) (fun _ => id)
    trivial ?_ ?_ ?_ he.guards
  · intro q hq
    rcases mem_cons.mp hq with rfl | hq
    · exact hphase
    · exact he.registered q hq
  · intro q u hu
    rcases he.listed q u hu with h | h
    · exact .inl (mem_cons_of_mem _ h)
    · by_cases hut : u = t
      · subst hut
        rw [hpc] at h
        cases h
        exact .inl (mem_cons_self ..)
      · simp only [update_of_ne hut]
        exact .inr h
  · intro q hq
    obtain ⟨hlisted, hrest⟩ := he.active q hq
    exact ⟨mem_cons_of_mem _ hlisted, hrest⟩

end Epochs

/-! ## Every step keeps the epochs -/

/-- No handle is unregistered, and the global epoch does not advance to
`2 ^ 64 - 1`. -/
def Bounded (s : State) : Tid × Act → Prop
  | (_, .unregister _) => False
  | (t, .go) => ∀ g, s.pc t = .advanceCas g → s.globalEpoch = g → g + 2 < 2 ^ 64
  | _ => True

lemma pending_listLoop (k : After) (curr : Option Nid) : (listLoop k curr).pending? = none := by
  cases curr <;> cases k <;> rfl

lemma pending_advanceLoop (g : Nat) (rest : List Hid) : (advanceLoop g rest).pending? = none := by
  cases rest <;> rfl

lemma pending_registerLoop (rest : List Hid) : (registerLoop rest).pending? = none := by
  cases rest <;> rfl

lemma phaseOk_listLoop (k : After) (curr : Option Nid) : PhaseOk s L base (listLoop k curr) := by
  cases curr <;> cases k <;> trivial

lemma phaseOk_advanceLoop {g : Nat} {rest : List Hid} (hsc : Scanned s base g rest) :
    PhaseOk s L base (advanceLoop g rest) := by
  cases rest <;> exact hsc

lemma phaseOk_registerLoop {rest : List Hid} (hrest : ∀ r ∈ rest, r ∈ s.handles) :
    PhaseOk s L base (registerLoop rest) := by
  cases rest with
  | nil => trivial
  | cons h rest => exact hrest

lemma epochs_go (he : Epochs s L base) (ho : Owned s) (hL : Shape s L) (hmoves : Moves s t L L')
    (hok : Bounded s (t, .go)) (hs : go s t = some s') : ∃ base', Epochs s' L' base' := by
  have hphase := he.phase t
  -- most accesses change the phase, and at most a count besides
  have hstill : ∀ {x : Pc} {c : Hid → Nat}, x.pending? = (s.pc t).pending? → PhaseOk s L' base x →
      ∃ base', Epochs (({ s with retiredCount := c } : State).move t x) L' base' :=
    fun hpending hx => ⟨base, he.still ho hL hmoves.or_hand rfl rfl rfl rfl rfl rfl
      rfl rfl rfl hpending hx⟩
  -- a bound on the lists of a handle is kept when no node moves
  have hbound : ∀ {r g}, (∀ p slot, ¬ Edge s t p (.handle r slot)) → Bound s L r g →
      Bound s L' r g := by
    intro r g hnone hb
    refine ⟨hb.1, fun slot n hn => ?_⟩
    rcases hmoves _ n hn with hn | ⟨p, hedge, -⟩
    · exact hb.2 slot n hn
    · exact absurd hedge (hnone p slot)
  rw [go] at hs
  simp only [Edge] at hbound
  cases hpc : s.pc t <;> rw [hpc] at hphase hstill hbound <;>
    simp only [hpc, Option.some.injEq, reduceCtorEq] at hs
  case enterLoad r => exact hs ▸ hstill rfl (hbound (fun _ _ => id) (he.bound_global r))
  case enterStore r g => exact ⟨_, hs ▸ he.publish ho hL hmoves hpc⟩
  case exitStore r => exact ⟨_, hs ▸ he.exitStore ho hL hmoves hpc⟩
  case exitLoad r =>
    exact hs ▸ hstill rfl ⟨_, hbound (fun _ _ => id) (he.bound_global r), rfl⟩
  case retireLoad r n => exact ⟨_, hs ▸ he.stamp ho hL hmoves hpc⟩
  case retireLink r n g =>
    subst hs
    exact ⟨base, he.still ho hL hmoves.or_hand rfl rfl rfl rfl rfl rfl rfl rfl rfl
      (by rw [hpc]; rfl) ⟨hbound (fun _ _ => id) hphase.1, hphase.2⟩⟩
  case retirePush r n g =>
    subst hs
    refine ⟨base, he.still ho hL hmoves.or_hand rfl rfl rfl rfl rfl rfl rfl rfl rfl
      (by rw [hpc]; rfl) ⟨hphase.1.1, fun slot m hm => ?_⟩⟩
    rcases hmoves _ m hm with hm | ⟨p, hedge, hm⟩
    · exact hphase.1.2 slot m hm
    · rw [Edge, hpc] at hedge
      obtain ⟨rfl, -⟩ := hedge
      rw [(hL.thread t).hand, hpc] at hm
      obtain rfl : m = n := by simpa [Pc.hand] using hm
      exact hphase.2.le
  case retireCount r g => exact hs ▸ hstill rfl (hbound (fun _ _ => id) hphase)
  case retireStore r g c => exact hs ▸ hstill rfl ⟨g, hbound (fun _ _ => id) hphase, rfl⟩
  case retireCheck r =>
    subst hs
    split <;> exact hstill rfl trivial
  case retireReset r => exact hs ▸ hstill rfl trivial
  case listTest r slot k =>
    subst hs
    obtain ⟨g, hb, hslot⟩ := hphase
    split
    · exact hstill (pending_listLoop k none) (phaseOk_listLoop k none)
    · exact hstill rfl ⟨g, hbound (fun _ _ => id) hb, hslot⟩
  case listRead r slot k =>
    obtain ⟨g, hb, hslot⟩ := hphase
    exact hs ▸ hstill rfl ⟨g, hbound (fun _ _ => id) hb, hslot⟩
  case listClear r slot curr k =>
    subst hs
    exact ⟨base, he.still ho hL hmoves.or_hand rfl rfl rfl rfl rfl rfl rfl rfl rfl
      (by rw [hpc]; exact pending_listLoop k curr) (phaseOk_listLoop k curr)⟩
  case listNext n k => exact hs ▸ hstill rfl trivial
  case listFree n p k =>
    subst hs
    exact ⟨base, he.still ho hL hmoves.or_hand rfl rfl rfl rfl rfl rfl rfl rfl rfl
      (by rw [hpc]; exact pending_listLoop k p) (phaseOk_listLoop k p)⟩
  case advanceLoad => exact hs ▸ hstill rfl (le_refl s.globalEpoch)
  case advanceHead g =>
    exact hs ▸ hstill (pending_advanceLoop g _) (phaseOk_advanceLoop
      ⟨hphase, fun _ => id, fun r hr hnot => absurd (he.active r hr).1 hnot⟩)
  case advanceRegistered g r rest =>
    rw [if_pos (he.registered r (hphase.2.1 r (mem_cons_self ..)))] at hs
    exact hs ▸ hstill rfl hphase
  case advanceActive g r rest =>
    subst hs
    split
    · exact hstill rfl trivial
    · -- the handle is inactive, or shows an epoch that does not lag
      rename_i hlag
      refine hstill (pending_advanceLoop g rest) (phaseOk_advanceLoop ⟨hphase.1,
        fun q hq => hphase.2.1 q (mem_cons_of_mem _ hq), fun q hq hnot => ?_⟩)
      by_cases hqr : q = r
      · subst hqr
        have hge : g ≤ s.activeEpoch q >>> 1 := Nat.not_lt.mp fun hlt => hlag ⟨hq, hlt⟩
        exact hge.trans (he.active q hq).2.1
      · exact hphase.2.2 q hq (by simp [hqr, hnot])
  case advanceCas g =>
    split at hs <;> cases hs
    · rename_i hg
      subst hg
      exact ⟨base, he.tick ho hL hmoves hpc (hok _ hpc rfl) _ _⟩
    · exact hstill rfl trivial
  case orphanTake slot limit =>
    -- there are no orphans
    have hnone : s.orphanedRetired slot = none := by
      have hchain := hL.orphaned slot
      cases hlist : L (.orphaned slot) with
      | nil => rwa [hlist] at hchain
      | cons n rest => exact absurd (he.ages (.orphaned slot) n (by simp [hlist])) id
    subst hs
    rw [hnone]
    exact ⟨base, he.still ho hL hmoves.or_hand rfl rfl rfl rfl rfl rfl rfl rfl rfl
      (by rw [hpc]; rfl) trivial⟩
  case registerHead =>
    exact hs ▸ hstill (pending_registerLoop _) (phaseOk_registerLoop fun _ => id)
  case registerTry r rest =>
    rw [if_pos (he.registered r (hphase r (mem_cons_self ..))), Option.some.injEq] at hs
    exact hs ▸ hstill (pending_registerLoop _)
      (phaseOk_registerLoop fun q hq => hphase q (mem_cons_of_mem _ hq))
  case registerNew => exact ⟨base, hs ▸ he.newHandle ho hL hmoves hpc⟩
  case registerLoad r => exact hs ▸ hstill rfl hphase
  case registerCas r old =>
    split at hs <;> cases hs
    · rename_i hold
      subst hold
      exact ⟨base, he.enlist ho hL hmoves hpc⟩
    · exact hstill rfl hphase
  all_goals exact absurd hphase id

lemma epochs_step (he : Epochs s L base) (ho : Owned s) (hL : Shape s L) {a : Act}
    (hmoves : Moved s L L' (t, a)) (hok : Bounded s (t, a)) (hs : step s (t, a) = some s') :
    ∃ base', Epochs s' L' base' := by
  cases a with
  | go => exact epochs_go he ho hL hmoves hok hs
  | unregister r => exact absurd hok id
  | _ =>
    obtain ⟨hpc, -, rfl⟩ := step_call (by simp) hs
    exact ⟨base, he.still ho hL (t := t) (fun q n hn => (hmoves q n hn).imp_right .inl) rfl rfl rfl
      rfl rfl rfl rfl rfl rfl (by rw [hpc]; rfl) trivial⟩

/-! ## Critical sections protect what was retired in them -/

/-- No node that has been freed was retired in a critical section that is
still open. -/
def Protected (s : State) : Prop :=
  ∀ n ∈ s.freed, ∀ h c, s.guards n h = some c → ¬ (s.Active h ∧ s.sections h = c)

lemma Epochs.protected (he : Epochs s L base) (hL : Shape s L) : Protected s := by
  rintro n hn h c hc ⟨hact, hsec⟩
  have hage : s.nodeEpoch n + 2 ≤ s.globalEpoch := he.ages .freed n (hL.freed ▸ hn)
  have hbase := (he.guards n h c hc).2 hact hsec
  have hnow := (he.active h hact).2.2.2
  omega

end Cobalt.Memory.Ebr
