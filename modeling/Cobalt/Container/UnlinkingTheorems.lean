/-
Cobalt.Container.UnlinkingTheorems — when the lock-free containers are safe from
their own reclamation.

The handle of a running operation is active and its critical section is the
one that enter opened: only an enter or an exit with the same handle could
change that. So when retire stamps a node with the open sections, those of
all operations from before the unlinking are among them, and what `ebr.c`
promises about sections is a promise about operations.
-/
import Cobalt.Container.Unlinking

namespace Cobalt.Container.Unlinking

open Function (update update_self update_of_ne)

open Memory Ebr List Option Ebr

variable {s s' : State} {e e' : Ebr.State} {t u : Tid}

/-! ## Steps of `ebr.c` -/

/-- The handle whose activity the thread is about to change. -/
def entry? : Pc → Option Hid
  | .enterLoad h | .enterStore h _ | .exitStore h => some h
  | _ => none

lemma entry_of_handle {pc : Pc} (h : pc.handle? = none) : entry? pc = none := by
  cases pc <;> first | rfl | cases h

/-- A step of thread `t` that neither opens nor ends a section nor stamps a node. -/
structure Calm (t : Tid) (e e' : Ebr.State) : Prop where
  activeEpoch : e'.activeEpoch = e.activeEpoch
  sections : e'.sections = e.sections
  guards : e'.guards = e.guards
  nodeCount : e'.nodeCount = e.nodeCount
  owner : ∀ h u, e.owner h = some u → e'.owner h = some u
  pc : ∀ u ≠ t, e'.pc u = e.pc u
  load : ∀ h k, e.pc t ≠ .retireLoad h k

/-- The thread begins neither enter nor exit. -/
def Goes (t : Tid) (e e' : Ebr.State) : Prop :=
  ∀ h, entry? (e'.pc t) = some h → entry? (e.pc t) = some h

lemma calm_move {x : Pc} (hpc : e'.pc = update e.pc t x)
    (hsame : e'.activeEpoch = e.activeEpoch ∧ e'.sections = e.sections ∧ e'.guards = e.guards ∧
      e'.nodeCount = e.nodeCount) (howner : ∀ h u, e.owner h = some u → e'.owner h = some u)
    (hload : ∀ h k, e.pc t ≠ .retireLoad h k) (hx : entry? x = none ∨ entry? x = entry? (e.pc t)) :
    Calm t e e' ∧ Goes t e e' := by
  refine ⟨⟨hsame.1, hsame.2.1, hsame.2.2.1, hsame.2.2.2, howner, fun u hu => ?_, hload⟩, ?_⟩
  · rw [hpc, update_of_ne hu]
  · intro h hh
    rw [hpc, update_self] at hh
    rcases hx with hx | hx
    · rw [hx] at hh
      cases hh
    · rwa [hx] at hh

variable {h : Hid}

lemma owner_update (hnone : e.owner h = none) (t : Tid) (h' : Hid) (u : Tid)
    (hu : e.owner h' = some u) : update e.owner h (some t) h' = some u := by
  rw [update_of_ne, hu]
  rintro rfl
  rw [hnone] at hu
  cases hu

lemma calm_go (hr : Ebr.machine.ReachVia Bounded e) (hs : Ebr.go e t = some e')
    (henter : ∀ h g, e.pc t ≠ .enterStore h g) (hexit : ∀ h, e.pc t ≠ .exitStore h)
    (hload : ∀ h k, e.pc t ≠ .retireLoad h k) : Calm t e e' ∧ Goes t e e' := by
  obtain ⟨ho, L, base, hL, he⟩ := bounded_inv hr
  have hphase := he.phase t
  have hmove : ∀ {e' : Ebr.State} {x : Pc}, e'.pc = update e.pc t x →
      e'.activeEpoch = e.activeEpoch ∧ e'.sections = e.sections ∧ e'.guards = e.guards ∧
        e'.nodeCount = e.nodeCount → e'.owner = e.owner → entry? x = none →
      Calm t e e' ∧ Goes t e e' :=
    fun hpc hsame howner hx => calm_move hpc hsame (fun _ _ => howner ▸ id) hload (.inl hx)
  rw [go] at hs
  cases hpc : e.pc t <;> rw [hpc] at hphase <;>
    simp only [hpc, Option.some.injEq, reduceCtorEq] at hs
  case enterStore h g => exact absurd hpc (henter h g)
  case exitStore h => exact absurd hpc (hexit h)
  case retireLoad h k => exact absurd hpc (hload h k)
  case registerTry h rest =>
    split at hs <;> cases hs
    · refine hmove rfl ⟨rfl, rfl, rfl, rfl⟩ rfl ?_
      cases rest <;> rfl
    · rename_i hreg
      refine calm_move rfl ⟨rfl, rfl, rfl, rfl⟩ ?_ hload (.inl rfl)
      exact owner_update (ho.registered h (by simpa using hreg)) t
  case registerNew =>
    subst hs
    exact calm_move rfl ⟨rfl, rfl, rfl, rfl⟩ (owner_update (ho.fresh _ le_rfl) t) hload (.inl rfl)
  case registerHead =>
    subst hs
    refine hmove rfl ⟨rfl, rfl, rfl, rfl⟩ rfl ?_
    cases e.handles <;> rfl
  case advanceCas | registerCas =>
    split at hs <;> cases hs <;> exact hmove rfl ⟨rfl, rfl, rfl, rfl⟩ rfl rfl
  case retireCheck | listTest | advanceRegistered | advanceActive =>
    subst hs
    refine hmove rfl ⟨rfl, rfl, rfl, rfl⟩ rfl ?_
    split <;> first | rfl | exact entry_of_handle (by simp)
  case enterLoad h =>
    subst hs
    exact calm_move rfl ⟨rfl, rfl, rfl, rfl⟩ (fun _ _ => id) hload (.inr (by rw [hpc]; rfl))
  all_goals first
    | exact absurd hphase id
    | subst hs
      refine hmove rfl ⟨rfl, rfl, rfl, rfl⟩ rfl ?_
      first | rfl | exact entry_of_handle (by simp)

/-! ## The invariant -/

structure Inv (s : State) : Prop where
  ebr : Ebr.machine.ReachVia Bounded s.ebr
  handle : ∀ t, ∀ op ∈ s.running t, ∃ h, op.handle = some h ∧ s.ebr.Active h ∧
    s.ebr.owner h = some t
  apart : ∀ t, (s.running t).Pairwise fun op op' => op.handle ≠ op'.handle
  entry : ∀ t h, entry? (s.ebr.pc t) = some h → ∀ op ∈ s.running t, op.handle ≠ some h
  unlinked : ∀ n, ∀ m ∈ s.unlinked n, m ≤ s.started
  retired : ∀ n ∈ s.retired, s.unlinked n ≠ none
  pointer : ∀ k < s.ebr.nodeCount, s.pointer k ∈ s.retired
  /-- A node that has been stamped guards the operations from before its unlinking. -/
  guarded : ∀ k < s.ebr.nodeCount, (∀ t h, s.ebr.pc t ≠ .retireLoad h k) → ∀ t, ∀ op ∈ s.running t,
    ∀ h, op.handle = some h → s.After op (s.pointer k) ∨ s.ebr.guards k h = some (s.ebr.sections h)
  freedNow : ∀ p ∈ s.freedNow, p.2 ∈ s.retired ∧ ∀ t ≠ p.1, ∀ op ∈ s.running t, s.After op p.2

lemma Inv.safe (hi : Inv s) : Safe s where
  active t op hop := by
    obtain ⟨h, hh, hact, -⟩ := hi.handle t op hop
    exact ⟨h, hh, hact⟩
  freed k hk t op hop := by
    obtain ⟨ho, L, base, hL, he⟩ := bounded_inv hi.ebr
    have hmem : k ∈ L .freed := hL.freed ▸ hk
    have hlt : k < s.ebr.nodeCount := (hL.part.mem_iff k).mp ⟨_, hmem⟩
    obtain ⟨h, hh, hact, -⟩ := hi.handle t op hop
    refine (hi.guarded k hlt (fun u r hpc => ?_) t op hop h hh).resolve_right fun hg => ?_
    · exact not_mem_of_retireLoad hL hpc (by simp) hmem
    · exact he.protected hL k hk h _ hg ⟨hact, rfl⟩
  freedNow p hp := (hi.freedNow p hp).2

/-- Nobody is in an operation with a handle that is about to be entered or left. -/
lemma Inv.ne_entry (hi : Inv s) (hpc : entry? (s.ebr.pc t) = some h) {op : Op}
    (hop : op ∈ s.running u) : op.handle ≠ some h := by
  intro hh
  obtain ⟨r, hr, -, howner⟩ := hi.handle u op hop
  obtain rfl : r = h := Option.some.inj (hr.symm.trans hh)
  have hhandle : (s.ebr.pc t).handle? = some r := by
    revert hpc
    cases s.ebr.pc t <;> first | exact id | rintro ⟨⟩
  have ht := (bounded_inv hi.ebr).1.owner t r hhandle
  obtain rfl : t = u := Option.some.inj (ht.symm.trans howner)
  exact hi.entry t r hpc op hop hh

/-! ## Every step keeps the invariant -/

lemma Inv.calm (hi : Inv s) (hr : Ebr.machine.ReachVia Bounded e') (hc : Calm t s.ebr e')
    (hentry : ∀ h, entry? (e'.pc t) = some h → ∀ op ∈ s.running t, op.handle ≠ some h) :
    Inv { s with ebr := e' } where
  ebr := hr
  handle u op hop := by
    obtain ⟨h, hh, hact, howner⟩ := hi.handle u op hop
    refine ⟨h, hh, ?_, hc.owner h u howner⟩
    rwa [Ebr.State.Active, hc.activeEpoch]
  apart := hi.apart
  entry u h hh := by
    by_cases hu : u = t
    · subst hu
      exact hentry h hh
    · simp only [hc.pc u hu] at hh
      exact hi.entry u h hh
  unlinked := hi.unlinked
  retired := hi.retired
  pointer k hk := hi.pointer k (hc.nodeCount ▸ hk)
  guarded k hk hload u op hop h hh := by
    simp only [hc.guards, hc.sections]
    refine hi.guarded k (hc.nodeCount ▸ hk) (fun v r hpc => ?_) u op hop h hh
    by_cases hv : v = t
    · subst hv
      exact hc.load r k hpc
    · exact hload v r ((hc.pc v hv).trans hpc)
  freedNow := hi.freedNow

lemma Inv.call (hi : Inv s) {a : Ebr.Act} (hs : s.call t a = some s')
    (hok : Bounded s.ebr (t, a)) (ha : a ≠ .go) (hcount : a.count s.ebr.nodeCount = s.ebr.nodeCount)
    (hentry : ∀ h, entry? (a.first s.ebr.nodeCount) = some h →
      ∀ op ∈ s.running t, op.handle ≠ some h) : Inv s' := by
  obtain ⟨e', he, rfl⟩ := map_eq_some_iff.mp hs
  have hr := hi.ebr.step hok he
  obtain ⟨hpc, -, rfl⟩ := step_call ha he
  refine hi.calm (t := t) hr ⟨rfl, rfl, rfl, hcount, fun _ _ => id, fun u hu => ?_, ?_⟩ ?_
  · exact update_of_ne hu ..
  · simp [hpc]
  · simp only [update_self]
    exact hentry

lemma Inv.drop (hi : Inv s) {running : Tid → List Op}
    (h : ∀ u, (running u).Sublist (s.running u)) : Inv { s with running := running } where
  ebr := hi.ebr
  handle u op hop := hi.handle u op ((h u).subset hop)
  apart u := (hi.apart u).sublist (h u)
  entry u r hr op hop := hi.entry u r hr op ((h u).subset hop)
  unlinked := hi.unlinked
  retired := hi.retired
  pointer := hi.pointer
  guarded k hk hload u op hop := hi.guarded k hk hload u op ((h u).subset hop)
  freedNow p hp := ⟨(hi.freedNow p hp).1, fun u hu op hop =>
    (hi.freedNow p hp).2 u hu op ((h u).subset hop)⟩

lemma Inv.setUnlinked (hi : Inv s) {n : Node} {v : Option Nat} (hn : n ∉ s.retired)
    (hv : ∀ m ∈ v, m ≤ s.started) : Inv { s with unlinked := update s.unlinked n v } := by
  have hsame : ∀ n' ∈ s.retired, update s.unlinked n v n' = s.unlinked n' := by
    intro n' hn'
    have hne : n' ≠ n := by
      rintro rfl
      exact hn hn'
    exact update_of_ne hne ..
  have hafter : ∀ n' ∈ s.retired, ∀ op, s.After op n' →
      State.After { s with unlinked := update s.unlinked n v } op n' := by
    rintro n' hn' op ⟨m, hm, hle⟩
    exact ⟨m, (hsame n' hn').trans hm, hle⟩
  refine { hi with unlinked := ?_, retired := ?_, guarded := ?_, freedNow := ?_ }
  · intro n' m hm
    by_cases heq : n' = n
    · subst heq
      simp only [update_self] at hm
      exact hv m hm
    · simp only [update_of_ne heq] at hm
      exact hi.unlinked n' m hm
  · intro n' hn'
    exact fun hnone => hi.retired n' hn' ((hsame n' hn').symm.trans hnone)
  · intro k hk hload u op hop h hh
    exact (hi.guarded k hk hload u op hop h hh).imp_left (hafter _ (hi.pointer k hk) op)
  · intro p hp
    obtain ⟨hmem, hrest⟩ := hi.freedNow p hp
    exact ⟨hmem, fun u hu op hop => hafter _ hmem op (hrest u hu op hop)⟩

/-- The thread goes to a phase in which it neither enters nor exits. -/
lemma Inv.entry_move (hi : Inv s) {x : Pc} (hx : entry? x = none) (u : Tid) (h : Hid)
    (hh : entry? (update s.ebr.pc t x u) = some h) :
    u ≠ t ∧ ∀ op ∈ s.running u, op.handle ≠ some h := by
  by_cases hu : u = t
  · rw [hu, update_self, hx] at hh
    cases hh
  · rw [update_of_ne hu] at hh
    exact ⟨hu, hi.entry u h hh⟩

lemma load_of_move {pc : Tid → Pc} {x : Pc} {k : Nid} (ht : ∀ h, pc t ≠ .retireLoad h k)
    (hload : ∀ u h, update pc t x u ≠ .retireLoad h k) (u : Tid) (h : Hid) :
    pc u ≠ .retireLoad h k := by
  by_cases hu : u = t
  · exact hu ▸ ht h
  · rw [← update_of_ne hu x pc]
    exact hload u h

lemma Inv.enterStore (hi : Inv s) {g : Nat} (hpc : s.ebr.pc t = .enterStore h g)
    (hreach : Ebr.machine.ReachVia Bounded e') (hs : Ebr.go s.ebr t = some e') :
    Inv (({ s with ebr := e' } : State).enter t (some h)) := by
  simp only [go, hpc, Option.some.injEq] at hs
  subst hs
  have howner : s.ebr.owner h = some t := (bounded_inv hi.ebr).1.owner t h (by rw [hpc]; rfl)
  have hne : ∀ u, ∀ op ∈ s.running u, op.handle ≠ some h :=
    fun u op hop => hi.ne_entry (t := t) (by rw [hpc]; rfl) hop
  have hne' : ∀ u, ∀ op ∈ s.running u, ∀ r, op.handle = some r → r ≠ h := by
    rintro u op hop r hr rfl
    exact hne u op hop hr
  -- the operations are the old ones and the new one
  have hcases : ∀ u op, op ∈ update s.running t (⟨s.started, some h⟩ :: s.running t) u →
      op ∈ s.running u ∨ u = t ∧ op = ⟨s.started, some h⟩ := by
    intro u op hop
    by_cases hu : u = t
    · subst hu
      rw [update_self] at hop
      exact (mem_cons.mp hop).symm.imp_right fun heq => ⟨rfl, heq⟩
    · rw [update_of_ne hu] at hop
      exact .inl hop
  have hnew : ∀ n ∈ s.retired, s.After ⟨s.started, some h⟩ n := by
    intro n hn
    obtain ⟨m, hm⟩ := ne_none_iff_exists'.mp (hi.retired n hn)
    exact ⟨m, hm, hi.unlinked n m hm⟩
  refine ⟨hreach, ?_, ?_, ?_, ?_, hi.retired, hi.pointer, ?_, ?_⟩
  · intro u op hop
    rcases hcases u op hop with hop | ⟨rfl, rfl⟩
    · obtain ⟨r, hr, hact, hown⟩ := hi.handle u op hop
      refine ⟨r, hr, ?_, hown⟩
      simpa only [State.enter, Ebr.State.Active, update_of_ne (hne' u op hop r hr)] using hact
    · refine ⟨h, rfl, ?_, howner⟩
      simp only [State.enter, Ebr.State.Active, update_self]
      exact active_publish g
  · intro u
    simp only [State.enter]
    by_cases hu : u = t
    · subst hu
      rw [update_self]
      exact pairwise_cons.mpr ⟨fun op hop => (hne u op hop).symm, hi.apart u⟩
    · rw [update_of_ne hu]
      exact hi.apart u
  · intro u r hr op hop
    obtain ⟨hu, hrest⟩ := hi.entry_move rfl u r hr
    exact hrest op ((hcases u op hop).resolve_right fun heq => hu heq.1)
  · exact fun n m hm => (hi.unlinked n m hm).trans (Nat.le_succ _)
  · intro k hk hload u op hop r hr
    rcases hcases u op hop with hop | ⟨rfl, rfl⟩
    · simp only [State.enter, update_of_ne (hne' u op hop r hr)]
      exact hi.guarded k hk (load_of_move (by simp [hpc]) hload) u op hop r hr
    · exact .inl (hnew _ (hi.pointer k hk))
  · intro p hp
    obtain ⟨hmem, hrest⟩ := hi.freedNow p hp
    refine ⟨hmem, fun u hu op hop => ?_⟩
    rcases hcases u op hop with hop | ⟨rfl, rfl⟩
    · exact hrest u hu op hop
    · exact hnew _ hmem

lemma Inv.exitStore (hi : Inv s) (hpc : s.ebr.pc t = .exitStore h)
    (hreach : Ebr.machine.ReachVia Bounded e') (hs : Ebr.go s.ebr t = some e') :
    Inv { s with ebr := e' } := by
  simp only [go, hpc, Option.some.injEq] at hs
  subst hs
  refine { hi with ebr := hreach, handle := ?_, entry := ?_, guarded := ?_ }
  · intro u op hop
    obtain ⟨r, hr, hact, howner⟩ := hi.handle u op hop
    have hne : r ≠ h := by
      rintro rfl
      exact hi.ne_entry (t := t) (by rw [hpc]; rfl) hop hr
    refine ⟨r, hr, ?_, howner⟩
    simpa only [Ebr.State.Active, update_of_ne hne] using hact
  · exact fun u r hr => (hi.entry_move rfl u r hr).2
  · exact fun k hk hload => hi.guarded k hk (load_of_move (by simp [hpc]) hload)

/-- The stamp has the sections of all running operations. -/
lemma Inv.retireLoad (hi : Inv s) {n : Nid} (hpc : s.ebr.pc t = .retireLoad h n)
    (hreach : Ebr.machine.ReachVia Bounded e') (hs : Ebr.go s.ebr t = some e') :
    Inv { s with ebr := e' } := by
  simp only [go, hpc, Option.some.injEq] at hs
  subst hs
  refine { hi with ebr := hreach, entry := ?_, guarded := ?_ }
  · exact fun u r hr => (hi.entry_move rfl u r hr).2
  · intro k hk hload u op hop r hr
    by_cases hkn : k = n
    · subst hkn
      obtain ⟨r', hr', hact, -⟩ := hi.handle u op hop
      obtain rfl : r' = r := Option.some.inj (hr'.symm.trans hr)
      simp only [update_self]
      exact .inr (if_pos hact)
    · simp only [update_of_ne hkn]
      refine hi.guarded k hk (load_of_move (fun r' hv => ?_) hload) u op hop r hr
      rw [hpc] at hv
      cases hv
      exact hkn rfl

lemma Inv.retire (hi : Inv s) {n : Node} (hn : s.unlinked n ≠ none) (hs : ({ s with
      pointer := update s.pointer s.ebr.nodeCount n
      retired := n :: s.retired } : State).call t (.retire h) = some s') : Inv s' := by
  obtain ⟨e', he, rfl⟩ := map_eq_some_iff.mp hs
  have hreach := hi.ebr.step (a := (t, Ebr.Act.retire h)) trivial he
  obtain ⟨hpc, -, rfl⟩ := step_call (s := s.ebr) (by simp) he
  have hold : ∀ k < s.ebr.nodeCount, update s.pointer s.ebr.nodeCount n k = s.pointer k :=
    fun k hk => update_of_ne (ne_of_lt hk) ..
  have hlt : ∀ k, k < s.ebr.nodeCount + 1 → k ≠ s.ebr.nodeCount → k < s.ebr.nodeCount := by omega
  refine { hi with
    ebr := hreach
    entry := ?_
    retired := ?_
    pointer := ?_
    guarded := ?_
    freedNow := ?_ }
  · exact fun u r hr => (hi.entry_move rfl u r hr).2
  · exact forall_mem_cons.mpr ⟨hn, hi.retired⟩
  · intro k hk
    by_cases hk' : k = s.ebr.nodeCount
    · subst hk'
      simp
    · have hk := hlt k hk hk'
      simp only [hold k hk]
      exact mem_cons_of_mem _ (hi.pointer k hk)
  · intro k hk hload
    have hk' : k ≠ s.ebr.nodeCount := by
      rintro rfl
      exact hload t h (update_self ..)
    have hk := hlt k hk hk'
    simp only [hold k hk]
    exact hi.guarded k hk (load_of_move (by simp [hpc]) hload)
  · exact fun p hp => ⟨mem_cons_of_mem _ (hi.freedNow p hp).1, (hi.freedNow p hp).2⟩

lemma Inv.go (hi : Inv s) (hok : Bounded s.ebr (t, .go)) (hs : step s (t, .go) = some s') :
    Inv s' := by
  obtain ⟨e', he, rfl⟩ := map_eq_some_iff.mp hs
  have hreach := hi.ebr.step (a := (t, Ebr.Act.go)) hok he
  split
  · rename_i h g hpc
    exact hi.enterStore hpc hreach he
  rename_i henter
  by_cases hexit : ∃ h, s.ebr.pc t = .exitStore h
  · obtain ⟨h, hpc⟩ := hexit
    exact hi.exitStore hpc hreach he
  by_cases hload : ∃ h k, s.ebr.pc t = .retireLoad h k
  · obtain ⟨h, k, hpc⟩ := hload
    exact hi.retireLoad hpc hreach he
  obtain ⟨hcalm, hgoes⟩ := calm_go hi.ebr he henter (fun h hpc => hexit ⟨h, hpc⟩)
    fun h k hpc => hload ⟨h, k, hpc⟩
  exact hi.calm hreach hcalm fun h hh => hi.entry t h (hgoes h hh)

/-- The other operations of the thread have other handles. -/
lemma Inv.apart_erase (hi : Inv s) {op op' : Op} (hop : op ∈ s.running t)
    (hop' : op' ∈ (s.running t).erase op) : op'.handle ≠ op.handle := by
  have hpair := ((perm_cons_erase hop).pairwise_iff fun hne => hne.symm).mp (hi.apart t)
  exact ((pairwise_cons.mp hpair).1 op' hop').symm

lemma Inv.step (hi : Inv s) {a : Act} (hok : Fine s (t, a)) (hs : step s (t, a) = some s') :
    Inv s' := by
  cases a with
  | begin h => exact hi.call hs trivial (by simp) rfl (by rintro r ⟨⟩; exact hok)
  | register => exact hi.call hs trivial (by simp) rfl (by rintro r ⟨⟩)
  | registerFails => exact absurd hok id
  | advance => exact hi.call hs trivial (by simp) rfl (by rintro r ⟨⟩)
  | leave op =>
    simp only [Unlinking.step, ite_none_right_eq_some] at hs
    obtain ⟨⟨-, hop⟩, hs⟩ := hs
    have hdrop : Inv { s with running := update s.running t ((s.running t).erase op) } := by
      refine hi.drop fun u => ?_
      by_cases hu : u = t
      · subst hu
        rw [update_self]
        exact erase_sublist
      · rw [update_of_ne hu]
    cases hh : op.handle with
    | none =>
      simp only [hh, Option.some.injEq] at hs
      exact hs ▸ hdrop
    | some h =>
      simp only [hh] at hs
      refine hdrop.call hs trivial (by simp) rfl ?_
      rintro r ⟨⟩ op' hop'
      simp only [update_self] at hop'
      exact hh ▸ hi.apart_erase hop hop'
  | link n =>
    simp only [Unlinking.step, ite_none_right_eq_some, Option.some.injEq] at hs
    obtain ⟨-, rfl⟩ := hs
    exact hi.setUnlinked hok (by rintro m ⟨⟩)
  | unlink n =>
    simp only [Unlinking.step, ite_none_right_eq_some, Option.some.injEq] at hs
    obtain ⟨-, rfl⟩ := hs
    cases hn : s.unlinked n with
    | none =>
      refine hi.setUnlinked (fun hmem => hi.retired n hmem hn) ?_
      rintro m ⟨⟩
      exact le_rfl
    | some m =>
      -- it stays unlinked since then
      rw [getD_some, ← hn, Function.update_eq_self]
      exact hi
  | retire op n granted =>
    simp only [Unlinking.step, ite_none_right_eq_some] at hs
    obtain ⟨hn, hgranted⟩ := hok
    obtain ⟨-, hs⟩ := hs
    cases hh : op.handle with
    | none =>
      simp only [hh, Option.some.injEq] at hs
      exact hs ▸ hi
    | some h =>
      simp only [hh] at hs
      split at hs
      · exact hi.retire hn hs
      · rename_i hnot
        cases hs
        refine { hi with retired := ?_, pointer := ?_, freedNow := ?_ }
        · exact forall_mem_cons.mpr ⟨hn, hi.retired⟩
        · exact fun k hk => mem_cons_of_mem _ (hi.pointer k hk)
        · refine forall_mem_cons.mpr ⟨⟨mem_cons_self .., hgranted.resolve_left hnot⟩, ?_⟩
          exact fun p hp => ⟨mem_cons_of_mem _ (hi.freedNow p hp).1, (hi.freedNow p hp).2⟩
  | go => exact hi.go hok hs

lemma inv_start : Inv start where
  ebr := .init rfl
  handle := by rintro _ _ ⟨⟩
  apart _ := .nil
  entry := by rintro _ _ ⟨⟩
  unlinked := by rintro _ _ ⟨⟩
  retired := by rintro _ ⟨⟩
  pointer := by rintro _ ⟨⟩
  guarded := by rintro _ ⟨⟩
  freedNow := by rintro _ ⟨⟩

/-! ## Operations are protected -/

lemma inv_of_fine (hr : machine.ReachVia Fine s) : Inv s := by
  refine hr.invariant Inv ?_ ?_
  · rintro s rfl
    exact inv_start
  · rintro s s' ⟨t, a⟩ hi hok hs
    exact hi.step hok hs

/-- In every run whose steps are all fine, every operation that works on the list
has an active handle, and no node is freed under an operation that began
before the node was unlinked. After such a run a register without memory
always ends that, and a retire without memory does if it is not fine. -/
theorem safe_of_fine (hr : machine.ReachVia Fine s) : Safe s ∧
    (∀ t s', step s (t, .registerFails) = some s' → ¬ Safe s') ∧
    ∀ t op n s', s.unlinked n ≠ none → step s (t, .retire op n false) = some s' →
      (Safe s' ↔ Fine s (t, .retire op n false)) := by
  have hi := inv_of_fine hr
  refine ⟨hi.safe, fun t s' hs hsafe => ?_, fun t op n s' hn hs => ⟨fun hsafe => ?_, fun hok => ?_⟩⟩
  · simp only [step, ite_none_right_eq_some, Option.some.injEq] at hs
    obtain ⟨-, rfl⟩ := hs
    obtain ⟨h, hh, -⟩ := hsafe.active t ⟨s.started, none⟩ (by simp [State.enter])
    cases hh
  · refine ⟨hn, .inr ?_⟩
    simp only [step, ite_none_right_eq_some] at hs
    obtain ⟨⟨-, hop⟩, hs⟩ := hs
    obtain ⟨h, hh, -⟩ := hi.handle t op hop
    simp only [hh, Bool.false_eq_true, if_false, Option.some.injEq] at hs
    subst hs
    exact hsafe.freedNow (t, n) (mem_cons_self ..)
  · exact (hi.step hok hs).safe

/-- A test that is enough for `Fine`. -/
def fineTest (s : State) : Tid × Act → Bool
  | (t, .begin h) => (s.running t).all fun op => op.handle != some h
  | (_, .registerFails) | (_, .link _) => false
  | (_, .retire _ n granted) => (s.unlinked n).isSome && granted
  | (t, .go) =>
      match s.ebr.pc t with
      | .advanceCas g => decide (g + 2 < 2 ^ 64)
      | _ => true
  | _ => true

lemma fine_of_fineTest (s : State) (e : Tid × Act) (h : fineTest s e = true) : Fine s e := by
  obtain ⟨t, a⟩ := e
  cases a with
  | begin r => simpa [fineTest, Fine] using h
  | registerFails | link => cases h
  | retire op n granted =>
    simp only [fineTest, Bool.and_eq_true] at h
    exact ⟨isSome_iff_ne_none.mp h.1, .inl h.2⟩
  | go =>
    intro g hpc _
    simpa [fineTest, hpc] using h
  | _ => trivial

/-- Thread 2 is in an operation when thread 1 begins one and unlinks node 5. -/
def unlinking : List (Tid × Act) :=
  Machine.bursts [(1, 1, .register), (4, 1, .go), (1, 2, .register), (5, 2, .go), (1, 2, .begin 1),
    (3, 2, .go), (1, 1, .begin 0), (3, 1, .go), (1, 1, .unlink 5)]

/-- Node 5 is freed when both operations are over, under a third one. -/
theorem safe_of_fine_once : ∃ s, machine.ReachVia Fine s ∧ s.ebr.freed.map s.pointer = [5] ∧
    s.running 1 = [⟨2, some 0⟩] ∧ Safe s := by
  have hr : machine.ReachVia Fine start := .init rfl
  obtain ⟨s, hreach, hout⟩ := hr.run_map (f := fun s => (s.ebr.freed.map s.pointer, s.running 1))
    (v := ([5], [⟨2, some 0⟩])) _ fine_of_fineTest (unlinking ++ Machine.bursts
      [(1, 1, .retire ⟨1, some 0⟩ 5 true), (7, 1, .go), (1, 2, .leave ⟨0, some 1⟩), (3, 2, .go),
        (1, 1, .leave ⟨1, some 0⟩), (3, 1, .go), (1, 3, .advance), (8, 3, .go), (1, 3, .advance),
        (8, 3, .go), (1, 1, .begin 0), (7, 1, .go)]) (by decide +kernel)
  exact ⟨s, hreach, congrArg Prod.fst hout, congrArg Prod.snd hout, (safe_of_fine hreach).1⟩

/-- Without memory for its node, retire frees node 5 under the operation of
thread 2; without memory for a handle, an operation runs without one. -/
theorem unsafe_without_memory :
    (∃ s s', machine.ReachVia Fine s ∧ step s (1, .retire ⟨1, some 0⟩ 5 false) = some s' ∧
      s'.freedNow = [(1, 5)] ∧ s'.running 2 = [⟨0, some 1⟩] ∧ s'.unlinked 5 = some 2 ∧ ¬ Safe s') ∧
    ∃ s s', machine.ReachVia Fine s ∧ step s (1, .registerFails) = some s' ∧
      s'.running 1 = [⟨0, none⟩] ∧ ¬ Safe s' := by
  have hr : machine.ReachVia Fine start := .init rfl
  constructor
  · obtain ⟨s, hreach, hout⟩ := hr.run_map (f := fun s => (step s (1, .retire ⟨1, some 0⟩ 5
        false)).map fun s => (s.freedNow, s.running 2, s.unlinked 5))
      (v := some ([(1, 5)], [⟨0, some 1⟩], some 2)) _ fine_of_fineTest unlinking (by decide +kernel)
    obtain ⟨s', hs', hout⟩ := map_eq_some_iff.mp hout
    simp only [Prod.mk.injEq] at hout
    obtain ⟨hfreed, hrunning, hunlinked⟩ := hout
    refine ⟨s, s', hreach, hs', hfreed, hrunning, hunlinked, fun hsafe => ?_⟩
    obtain ⟨m, hm, hle⟩ := hsafe.freedNow (1, 5) (by simp [hfreed]) 2 (by decide) ⟨0, some 1⟩
      (by simp [hrunning])
    simp only [hunlinked, mem_some] at hm
    subst hm
    exact absurd hle (by decide)
  · obtain ⟨s, hreach, hout⟩ := hr.run_map
      (f := fun s => (step s (1, .registerFails)).map fun s => s.running 1)
      (v := some [⟨0, none⟩]) _ fine_of_fineTest [(1, .register), (1, .go)] (by decide +kernel)
    obtain ⟨s', hs', hrunning⟩ := map_eq_some_iff.mp hout
    refine ⟨s, s', hreach, hs', hrunning, fun hsafe => ?_⟩
    obtain ⟨h, hh, -⟩ := hsafe.active 1 ⟨0, none⟩ (by simp [hrunning])
    cases hh

end Cobalt.Container.Unlinking
