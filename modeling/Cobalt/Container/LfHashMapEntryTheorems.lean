/-
Cobalt.Container.LfHashMapEntryTheorems — when the operations on one key of
the hash map are linearizable.

The nodes that a search passes form a chain whose last link is the only one
to a node of the key, so at most one node of the key is linked. An operation
that changes the entry takes effect at its compare-and-swap; a put at the one
on the value, which is sound only while the node is not marked. put looks at
the mark after it has stored the value, too late: when a remove marks the
node in between, remove hands out the value of put and put stores it again.
`lfHashMap_linearizable` excludes exactly these marks.
-/
import Cobalt.Container.LfHashMapEntry

namespace Cobalt.Container.LfHashMapEntry

open Function (update update_self update_of_ne)

open Cobalt.Linear MapEntry List

variable {V : Type}

/-! ## The list -/

/-- What of the state the entry depends on; `last` is the last passed node. -/
def view (s : State V) (last : Nid) : View V :=
  ⟨s.next last, s.marked, s.value, s.hist, s.nodeCount, s.passed⟩

/-- The passed nodes lead to `last`, and the nodes of the key lead nowhere. -/
structure Shape (s : State V) (last : Nid) : Prop where
  lastPassed : s.passed last = true
  passed_lt : ∀ n, s.passed n = true → n < s.nodeCount
  inner : ∀ n, s.passed n = true → n ≠ last → ∃ m, s.next n = some m ∧ s.passed m = true
  key_next : ∀ k, k < s.nodeCount → s.passed k = false → s.next k = none

/-- A node that a search passes. -/
def Passed (w : View V) (n : Nat) : Prop := n < w.count ∧ w.other n = true

lemma Passed.later {w w' : View V} {n : Nat} (h : Passed w n) (hg : Grows w w') : Passed w' n :=
  ⟨h.1.trans_le hg.count, (hg.other n h.1).trans h.2⟩

variable {s s' : State V} {last last' k n : Nid} {v : V}

lemma Shape.eq_last (h : Shape s last) (hn : s.passed n = true)
    (hnext : ∀ m, s.next n = some m → s.passed m = false) : n = last := by
  by_contra hne
  obtain ⟨m, hm, hpassed⟩ := h.inner n hn hne
  rw [hnext m hm] at hpassed
  cases hpassed

lemma Shape.eq_last_of_none (h : Shape s last) (hn : s.passed n = true) (hnext : s.next n = none) :
    n = last := h.eq_last hn (by simp [hnext])

lemma Shape.eq_last_of_key (h : Shape s last) (hn : s.passed n = true)
    (hnext : s.next n = some k) (hkey : s.passed k = false) : n = last :=
  h.eq_last hn (by simp [hnext, hkey])

lemma Shape.ne_last (h : Shape s last) (hkey : s.passed k = false) : k ≠ last := by
  rintro rfl
  exact absurd h.lastPassed (by rw [hkey]; decide)

lemma Shape.setNext (h : Shape s last) (p : Option Nid) : Shape (s.setNext last p) last := by
  have hother : ∀ n, n ≠ last → (s.setNext last p).next n = s.next n :=
    fun n hn => update_of_ne hn ..
  refine { h with inner := fun n hn hne => ?_, key_next := fun k hk hkey => ?_ }
  · rw [hother n hne]
    exact h.inner n hn hne
  · rw [hother k (h.ne_last hkey)]
    exact h.key_next k hk hkey

lemma view_setNext (p : Option Nid) :
    view (s.setNext last p) last = { view s last with cell := p } := by
  simp [view]

/-! ## The threads -/

/-- The number of the call a thread is in. -/
def Pc.id? : Pc V → Option Nat
  | .idle => none
  | .findStart j _ | .findNext j _ _ _ | .findUnlink j _ _ _ _ | .publish j _ _ _
  | .putLoad j _ _ | .putCas j _ _ _ | .putRecheck j _ _ _ | .putCheck j _ _ _
  | .removeLoad j _ | .removeCas j _ _ | .removeValue j _ | .getNext j _ | .getValue j _ =>
    some j.id
  | .ret id _ => some id

/-- The node that a put is about to update, or has not checked since. -/
def Pc.updates : Pc V → Option Nid
  | .putLoad _ _ curr | .putCas _ _ curr _ | .putRecheck _ _ curr _ | .putCheck _ _ curr _ =>
    some curr
  | _ => none

/-- The node that a thread has created and not linked. -/
def Pc.new? : Pc V → Option Nid
  | .publish _ _ _ new => some new
  | _ => none

/-- The operation that a search serves, and what is known about it. -/
def Ready (w : View V) (log : Log V) (id : Nat) : Goal V → Prop
  | .insert v => Pending w log id (.insert v)
  | .put v => Pending w log id (.put v)
  | .remove => Pending w log id .remove
  | .unlink v => Done log id (.removed (some v))

/-- The value of the node that a search for `g` creates. -/
def Goal.new? : Goal V → Option V
  | .insert v | .put v => some v
  | _ => none

/-- A get at `curr`: the key was not removed before the call, or the get is
known to find nothing. -/
def Getting (w : View V) (log : Log V) (time : Nat → Nat) (id curr : Nat) : Prop :=
  Pending w log id .get ∧ Before w time id .get curr ∨
    Done log id (.found none) ∧ w.marked curr = true

/-- What is known in each phase of a thread. -/
def ThreadOk (w : View V) (log : Log V) (time : Nat → Nat) : Pc V → Prop
  | .idle => True
  | .findStart j g => Passed w j.head ∧ Ready w log j.id g
  | .findNext j g pred curr => Passed w j.head ∧ Ready w log j.id g ∧ Passed w pred ∧
      (Passed w curr ∨ Linked w curr)
  | .findUnlink j g pred curr succ => Passed w j.head ∧ Ready w log j.id g ∧ Passed w pred ∧
      Linked w curr ∧ w.marked curr = true ∧ succ = none
  | .publish j g pred new => Passed w j.head ∧ Ready w log j.id g ∧ Passed w pred ∧
      ∃ v, g.new? = some v ∧ Own w new v
  | .putLoad j v curr | .putCas j v curr _ | .putRecheck j v curr _ => Passed w j.head ∧
      Pending w log j.id (.put v) ∧ Linked w curr ∧ w.marked curr = false
  | .putCheck j _ curr old => Passed w j.head ∧ Done log j.id (.old (some old)) ∧
      w.marked curr = false
  | .removeLoad j victim | .removeCas j victim _ => Passed w j.head ∧
      Pending w log j.id .remove ∧ Linked w victim ∧ Before w time j.id .remove victim
  | .removeValue j victim => Passed w j.head ∧
      Done log j.id (.removed (some (w.value victim))) ∧ w.marked victim = true
  | .getNext j curr =>
      Passed w curr ∧ Pending w log j.id .get ∨ Linked w curr ∧ Getting w log time j.id curr
  | .getValue j curr => Linked w curr ∧ Pending w log j.id .get ∧ Before w time j.id .get curr
  | .ret id res => Done log id res

variable {w w' : View V} {log log' : Log V} {time time' : Nat → Nat} {t u : Tid} {id : Nat}
  {x : Pc V} {g : Goal V}

lemma Ready.later {i : Nat} (h : Ready w log i g) (hl : Later id w log time w' log' time')
    (hne : i ≠ id) : Ready w' log' i g := by
  cases g with
  | insert v | put v | remove => exact Pending.later h hl hne
  | unlink v => exact Done.later h hl

lemma ThreadOk.later (hl : Later id w log time w' log' time') (hid : x.id? ≠ some id)
    (hclear : ∀ k, x.updates = some k → w'.marked k = true → w.marked k = true)
    (hown : ∀ n v, x.new? = some n → Own w n v → Own w' n v)
    (h : ThreadOk w log time x) : ThreadOk w' log' time' x := by
  have hg := hl.toGrows
  have hne : ∀ j : Nat, x.id? = some j → j ≠ id := fun j hj heq => hid (heq ▸ hj)
  -- a node that a put is about to update stays unmarked
  have hunmarked : ∀ k, x.updates = some k → w.marked k = false → w'.marked k = false := by
    intro k hk hwas
    refine Bool.eq_false_iff.mpr fun hnow => ?_
    rw [hclear k hk hnow] at hwas
    cases hwas
  cases x with
  | idle => trivial
  | findStart j g => exact ⟨h.1.later hg, h.2.later hl (hne _ rfl)⟩
  | findNext j g pred curr =>
    obtain ⟨hhead, hready, hpred, hcurr⟩ := h
    exact ⟨hhead.later hg, hready.later hl (hne _ rfl), hpred.later hg,
      hcurr.imp (·.later hg) (·.later hg)⟩
  | findUnlink j g pred curr succ =>
    obtain ⟨hhead, hready, hpred, hcurr, hmarked, hsucc⟩ := h
    exact ⟨hhead.later hg, hready.later hl (hne _ rfl), hpred.later hg, hcurr.later hg,
      hg.marks _ hmarked, hsucc⟩
  | publish j g pred new =>
    obtain ⟨hhead, hready, hpred, v, hv, hnew⟩ := h
    exact ⟨hhead.later hg, hready.later hl (hne _ rfl), hpred.later hg, v, hv,
      hown new v rfl hnew⟩
  | putLoad j v curr | putCas j v curr old | putRecheck j v curr old =>
    obtain ⟨hhead, hp, hcurr, hmark⟩ := h
    exact ⟨hhead.later hg, hp.later hl (hne _ rfl), hcurr.later hg, hunmarked curr rfl hmark⟩
  | putCheck j v curr old =>
    obtain ⟨hhead, hdone, hmark⟩ := h
    exact ⟨hhead.later hg, hdone.later hl, hunmarked curr rfl hmark⟩
  | removeLoad j victim | removeCas j victim next =>
    obtain ⟨hhead, hp, hvictim, hbefore⟩ := h
    exact ⟨hhead.later hg, hp.later hl (hne _ rfl), hvictim.later hg, hbefore.later hp.1 hl⟩
  | removeValue j victim =>
    obtain ⟨hhead, hdone, hmarked⟩ := h
    refine ⟨hhead.later hg, ?_, hg.marks _ hmarked⟩
    rw [hg.value _ hmarked]
    exact hdone.later hl
  | getNext j curr =>
    rcases h with ⟨hcurr, hp⟩ | ⟨hcurr, ⟨hp, hbefore⟩ | ⟨hdone, hmarked⟩⟩
    · exact .inl ⟨hcurr.later hg, hp.later hl (hne _ rfl)⟩
    · exact .inr ⟨hcurr.later hg, .inl ⟨hp.later hl (hne _ rfl), hbefore.later hp.1 hl⟩⟩
    · exact .inr ⟨hcurr.later hg, .inr ⟨hdone.later hl, hg.marks _ hmarked⟩⟩
  | getValue j curr =>
    obtain ⟨hcurr, hp, hbefore⟩ := h
    exact ⟨hcurr.later hg, hp.later hl (hne _ rfl), hbefore.later hp.1 hl⟩
  | ret i res => exact Done.later h hl

def phases : Phases (Pc V) V where
  id? := Pc.id?
  updates := Pc.updates
  new? := Pc.new?
  Ok := ThreadOk
  new_lt := by
    intro w log time x n h hn
    cases x with
    | publish j g pred new =>
      cases hn
      obtain ⟨-, -, -, v, -, ho⟩ := h
      exact ho.lt
    | _ => cases hn
  later := ThreadOk.later

/-- The invariant, for a log and the moments of the marks. -/
structure InvAt (s : State V) (last : Nid) (log : Log V) (time : Nat → Nat) : Prop
    extends Threads phases (view s last) s.pc s.callCount log time where
  shape : Shape s last

def Inv (s : State V) : Prop := ∃ last log time, InvAt s last log time

section

variable (h : InvAt s last log time)

include h

lemma InvAt.passed (hn : s.passed n = true) : Passed (view s last) n := ⟨h.shape.passed_lt n hn, hn⟩

lemma InvAt.linked_of_next (hn : s.passed n = true) {m : Nid} (hm : s.next n = some m) :
    Passed (view s last) m ∨ Linked (view s last) m := by
  by_cases hlast : n = last
  · subst hlast
    obtain ⟨hkey, hlt⟩ := h.tracked.placed m (.inl hm)
    exact .inr ⟨hkey, hlt, .inl hm⟩
  · obtain ⟨m', hm', hpassed⟩ := h.shape.inner n hn hlast
    rw [hm] at hm'
    cases hm'
    exact .inl (h.passed hpassed)

lemma InvAt.next_none (hk : Linked (view s last) k) : s.next k = none :=
  h.shape.key_next k hk.lt hk.key

section

variable (hthread : (s.pc t).id? = some id)

include hthread

/-- A thread goes on and changes nothing but, maybe, what is known about its call. -/
lemma InvAt.quiet (htracked : Tracked (view s last) log' time)
    (hl : Later id (view s last) log time (view s last) log' time)
    (hid : x.id? = some id) (hnew : x.new? = none) (hx : ThreadOk (view s last) log' time x) :
    InvAt (s.move t x) last log' time := by
  refine ⟨h.toThreads.quiet hthread htracked hl (fun i hi => ?_) (fun n hn => ?_) hx,
    { h.shape with }⟩
  · exact Option.some.inj (hi.symm.trans hid)
  · cases hnew.symm.trans hn

lemma InvAt.go (hid : x.id? = some id) (hnew : x.new? = none)
    (hx : ThreadOk (view s last) log time x) : Inv (s.move t x) :=
  ⟨last, log, time, h.quiet hthread h.tracked (Later.refl _ _ _ _) hid hnew hx⟩

lemma InvAt.answer {res : Res V} (hread : Answer id (view s last) log time res) :
    Inv (s.move t (.ret id res)) := by
  obtain ⟨log', htracked, hdone, hlater⟩ := hread
  exact ⟨last, log', time, h.quiet hthread htracked hlater rfl rfl hdone⟩

end

/-! ## Steps that change the list -/

lemma InvAt.unlink (hcell : s.next last = some k) (hmarked : s.marked k = true) :
    InvAt (s.setNext last none) last log time := by
  refine ⟨?_, h.shape.setNext none⟩
  rw [view_setNext]
  exact h.toThreads.unlink hcell hmarked

lemma InvAt.grow {p : Nid} (hp : s.passed p = true) (hs' : s' = { s with
      nodeCount := s.nodeCount + 1
      passed := update s.passed s.nodeCount true
      next := update (update s.next s.nodeCount (s.next p)) p
        (some s.nodeCount) }) : ∃ last', InvAt s' last' log time := by
  have hfresh : ∀ n, s.passed n = true → n ≠ s.nodeCount :=
    fun n hn => Nat.ne_of_lt (h.shape.passed_lt n hn)
  have hpne := hfresh p hp
  have hpassed : ∀ n, s'.passed n = true ↔ n = s.nodeCount ∨ s.passed n = true := by
    intro n
    subst hs'
    by_cases hn : n = s.nodeCount <;> simp [hn]
  have hold : ∀ n, n ≠ s.nodeCount → s'.passed n = s.passed n := by
    intro n hn
    rw [hs']
    exact update_of_ne hn ..
  have hnexts : s'.next = update (update s.next s.nodeCount (s.next p)) p
      (some s.nodeCount) := by rw [hs']
  have hnextp : s'.next p = some s.nodeCount := by
    rw [hnexts, update_self]
  have hnextnew : s'.next s.nodeCount = s.next p := by
    rw [hnexts, update_of_ne hpne.symm, update_self]
  have hnext : ∀ n, n ≠ p → n ≠ s.nodeCount → s'.next n = s.next n := by
    intro n hnp hnc
    rw [hnexts, update_of_ne hnp, update_of_ne hnc]
  -- the last passed node is the new one if `p` was the last
  obtain ⟨last', hlast'⟩ : ∃ last', p = last ∧ last' = s.nodeCount ∨ p ≠ last ∧ last' = last := by
    by_cases hlast : p = last
    · exact ⟨_, .inl ⟨hlast, rfl⟩⟩
    · exact ⟨_, .inr ⟨hlast, rfl⟩⟩
  have hcell : s'.next last' = s.next last := by
    rcases hlast' with ⟨rfl, rfl⟩ | ⟨hne, rfl⟩
    · exact hnextnew
    · exact hnext last' hne.symm (hfresh last' h.shape.lastPassed)
  have hcount : s'.nodeCount = s.nodeCount + 1 := by rw [hs']
  have hview : view s' last' = { view s last with count := s.nodeCount + 1, other := s'.passed } := by
    rw [view, hcell, hcount, hs']
    rfl
  have hsilent : Tracked (view s' last') log time ∧
      Later s.callCount (view s last) log time (view s' last') log time := by
    rw [hview]
    exact h.tracked.silent ⟨Nat.le_succ _, fun n hn => hold n (Nat.ne_of_lt hn), fun _ hk => .inl hk,
      fun _ hk => hk, fun _ _ => rfl⟩ rfl rfl rfl fun _ hk => hk
  have hthreads : Threads phases (view s' last') s'.pc s'.callCount log time := by
    rw [show s'.pc = s.pc by rw [hs'], show s'.callCount = s.callCount by rw [hs']]
    refine h.toThreads.silent hsilent ?_ ?_ fun n v ho => ?_ <;> rw [hview]
    exact ⟨(hold n (Nat.ne_of_lt ho.lt)).trans ho.key, Nat.lt_succ_of_lt ho.lt, ho.unmarked,
      ho.apart, ho.value⟩
  refine ⟨last', hthreads, ?_, fun n hn => ?_, fun n hn hne => ?_, fun k hk hkk => ?_⟩
  · rcases hlast' with ⟨-, rfl⟩ | ⟨-, rfl⟩
    · exact (hpassed _).mpr (.inl rfl)
    · exact (hpassed _).mpr (.inr h.shape.lastPassed)
  · rw [hcount]
    rcases (hpassed n).mp hn with rfl | hn
    · exact Nat.lt_succ_self _
    · exact Nat.lt_succ_of_lt (h.shape.passed_lt n hn)
  · by_cases hnp : n = p
    · subst hnp
      exact ⟨s.nodeCount, hnextp, (hpassed _).mpr (.inl rfl)⟩
    by_cases hnc : n = s.nodeCount
    · subst hnc
      obtain ⟨hlast, -⟩ := hlast'.resolve_left fun heq => hne heq.2.symm
      obtain ⟨m, hm, hmp⟩ := h.shape.inner p hp hlast
      exact ⟨m, by rw [hnextnew, hm], (hpassed m).mpr (.inr hmp)⟩
    · have hnlast : n ≠ last := by
        rintro rfl
        exact hlast'.elim (fun heq => hnp heq.1.symm) fun heq => hne heq.2.symm
      obtain ⟨m, hm, hmp⟩ := h.shape.inner n (((hpassed n).mp hn).resolve_left hnc) hnlast
      exact ⟨m, by rw [hnext n hnp hnc, hm], (hpassed m).mpr (.inr hmp)⟩
  · have hkc : k ≠ s.nodeCount := by
      rintro rfl
      rw [(hpassed _).mpr (.inl rfl)] at hkk
      cases hkk
    rw [hold k hkc] at hkk
    have hkp : k ≠ p := by
      rintro rfl
      rw [hp] at hkk
      cases hkk
    rw [hnext k hkp hkc]
    rw [hcount] at hk
    exact h.shape.key_next k (Nat.lt_of_le_of_ne (Nat.le_of_lt_succ hk) hkc) hkk

variable {j : Job}

lemma InvAt.create {pred : Nid} (hthread : (s.pc t).id? = some j.id)
    (hhead : Passed (view s last) j.head) (hready : Ready (view s last) log j.id g)
    (hpred : Passed (view s last) pred) (hg : g.new? = some v) :
    InvAt ((s.create v).move t (.publish j g pred s.nodeCount)) last log time := by
  have hlt := h.shape.passed_lt
  have hnext : ∀ n, n ≠ s.nodeCount → (s.create v).next n = s.next n :=
    fun n hn => update_of_ne hn ..
  have hkey : s.passed s.nodeCount = false :=
    Bool.eq_false_iff.mpr fun hk => Nat.lt_irrefl _ (hlt _ hk)
  refine ⟨?_, h.shape.lastPassed, fun n hn => Nat.lt_succ_of_lt (hlt n hn), fun n hn hne => ?_,
    fun k hk hkey => ?_⟩
  · have hview : view ((s.create v).move t (.publish j g pred s.nodeCount)) last =
        { view s last with count := s.nodeCount + 1, value := update s.value s.nodeCount v } := by
      rw [view, hnext last (Nat.ne_of_lt (hlt last h.shape.lastPassed))]
      rfl
    rw [hview]
    refine h.toThreads.create hthread hkey rfl rfl fun w' hl ho =>
      ⟨hhead.later hl.toGrows, ?_, hpred.later hl.toGrows, v, hg, ho⟩
    cases g with
    | insert v | put v => exact Pending.grow hready hl.hist
    | remove | unlink v => cases hg
  · rw [hnext n (Nat.ne_of_lt (hlt n hn))]
    exact h.shape.inner n hn hne
  · by_cases hkc : k = s.nodeCount
    · subst hkc
      exact update_self ..
    · rw [hnext k hkc]
      exact h.shape.key_next k (Nat.lt_of_le_of_ne (Nat.le_of_lt_succ hk) hkc) hkey

lemma InvAt.publish {new : Nid} (hpc : s.pc t = .publish j g last new)
    (hcell : s.next last = none) :
    Inv ((s.setNext last (some new)).move t (.ret j.id (linked g))) := by
  have hok := h.ok t
  rw [hpc] at hok
  obtain ⟨-, hready, -, v, hg, hnew⟩ := hok
  obtain ⟨op, hp, happly⟩ : ∃ op, Pending (view s last) log j.id op ∧
      apply (none : Option V) op = (linked g, some v) := by
    cases g with
    | insert w | put w => cases hg; exact ⟨_, hready, rfl⟩
    | remove => cases hg
    | unlink w => cases hg
  obtain ⟨log', time', hthreads⟩ := h.toThreads.link
    (show (s.pc t).id? = some j.id by rw [hpc]; rfl)
    (.ret j.id (linked g)) rfl rfl (show (s.pc t).new? = some new by rw [hpc]; rfl) hp hnew hcell
    happly fun _ _ _ _ hdone _ => hdone
  have hshape := h.shape.setNext (some new)
  refine ⟨last, log', time', ?_, { hshape with }⟩
  rw [← view_setNext] at hthreads
  exact hthreads

lemma InvAt.update {curr : Nid} (hpc : s.pc t = .putCas j v curr (s.value curr)) :
    Inv ((s.setValue curr v).move t (.putCheck j v curr (s.value curr))) := by
  have hok := h.ok t
  rw [hpc] at hok
  obtain ⟨hhead, hp, hcurr, hunmarked⟩ := hok
  obtain ⟨log', time', hthreads⟩ := h.toThreads.exchange
    (show (s.pc t).id? = some j.id by rw [hpc]; rfl) (.putCheck j v curr (s.value curr)) rfl rfl hp
    hcurr hunmarked
    fun _ _ _ hl hdone hmarked => ⟨hhead.later hl.toGrows, hdone, hmarked⟩
  exact ⟨last, log', time', hthreads, { h.shape with }⟩

lemma InvAt.mark {victim : Nid} {next : Option Nid} (hpc : s.pc t = .removeCas j victim next)
    (hunmarked : s.marked victim = false) (hclear : ∀ u, (s.pc u).updates ≠ some victim) :
    Inv ((s.setMark victim).move t (.removeValue j victim)) := by
  have hok := h.ok t
  rw [hpc] at hok
  obtain ⟨hhead, hp, hvictim, -⟩ := hok
  obtain ⟨log', time', hthreads⟩ := h.toThreads.mark
    (show (s.pc t).id? = some j.id by rw [hpc]; rfl)
    (.removeValue j victim) rfl rfl hp hvictim hunmarked hclear
    fun _ _ _ hl hdone hmarked => ⟨hhead.later hl.toGrows, hdone, hmarked⟩
  exact ⟨last, log', time', hthreads, { h.shape with }⟩

lemma InvAt.ret {res : Res V} (hpc : s.pc t = .ret id res) :
    Inv (({ s with hist := s.hist ++ [.ret id res] } : State V).move t .idle) := by
  have hok := h.ok t
  rw [hpc] at hok
  exact ⟨last, log, time, h.toThreads.ret (show (s.pc t).id? = some id by rw [hpc]; rfl) hok rfl rfl
    fun _ => trivial, { h.shape with }⟩

lemma InvAt.call {op : Op V} {head : Nid} (hhead : s.passed head = true) :
    Inv (({ s with
      callCount := s.callCount + 1
      hist := s.hist ++ [.call s.callCount op] } : State V).move t (first ⟨s.callCount, head⟩ op))
    := by
  refine ⟨last, log, time, h.toThreads.call ?_ ?_ fun w' hl hp => ?_, { h.shape with }⟩
  · cases op <;> rfl
  · cases op <;> rfl
  · have hpassed := (h.passed hhead).later hl.toGrows
    cases op with
    | insert v | put v | remove => exact ⟨hpassed, hp⟩
    | get => exact .inl ⟨hpassed, hp⟩

/-! ## The search -/

lemma InvAt.miss {pred : Nid} (hthread : (s.pc t).id? = some j.id)
    (hhead : Passed (view s last) j.head) (hready : Ready (view s last) log j.id g)
    (hpred : Passed (view s last) pred) (hnext : s.next pred = none) : Inv (miss s t j pred g) := by
  obtain rfl : pred = last := h.shape.eq_last_of_none hpred.2 hnext
  have hentry : (view s pred).entry = none := entry_none (by simp [view, hnext])
  cases g with
  | insert v | put v => exact ⟨pred, log, time, h.create hthread hhead hready hpred rfl⟩
  | remove =>
    exact h.answer hthread (h.tracked.readNow hready (by rw [hentry]; rfl))
  | unlink v => exact h.go hthread rfl rfl hready

lemma InvAt.arrive {pred : Nid} (hthread : (s.pc t).id? = some j.id)
    (hhead : Passed (view s last) j.head) (hready : Ready (view s last) log j.id g)
    (hpred : Passed (view s last) pred) : Inv (arrive s t j g pred (s.next pred)) := by
  cases hnext : s.next pred with
  | none => exact h.miss hthread hhead hready hpred hnext
  | some curr =>
    exact h.go hthread rfl rfl ⟨hhead, hready, hpred, h.linked_of_next hpred.2 hnext⟩

lemma InvAt.hit {curr : Nid} (hthread : (s.pc t).id? = some j.id) (hhead : Passed (view s last) j.head)
    (hready : Ready (view s last) log j.id g) (hcurr : Linked (view s last) curr)
    (hunmarked : s.marked curr = false) : Inv (s.move t (hit j curr g)) := by
  have hentry := hcurr.entry hunmarked
  cases g with
  | insert v =>
    have happly : apply (view s last).entry (.insert v)
        = (.inserted false, (view s last).entry) := by rw [hentry]; rfl
    exact h.answer hthread (h.tracked.readNow hready happly)
  | put v =>
    exact h.go hthread rfl rfl ⟨hhead, hready, hcurr, hunmarked⟩
  | remove =>
    refine h.go hthread rfl rfl ⟨hhead, hready, hcurr, fun hmarked => ?_⟩
    rw [show (view s last).marked curr = s.marked curr from rfl, hunmarked] at hmarked
    cases hmarked
  | unlink v => exact h.go hthread rfl rfl hready

lemma inv_getNext [DecidableEq V] {fail : Bool} {curr : Nid} (hpc : s.pc t = .getNext j curr)
    (hs : go s t fail (.getNext j curr) = some s') : Inv s' := by
  have hok := h.ok t
  rw [hpc] at hok
  have hthread : (s.pc t).id? = some j.id := by rw [hpc]; rfl
  rw [go] at hs
  split at hs
  · -- an unmarked node of the key
    rename_i hfound
    cases hs
    rcases hok with ⟨hpassed, -⟩ | ⟨hcurr, ⟨hp, hbefore⟩ | ⟨-, hmarked⟩⟩
    · cases hfound.2.symm.trans hpassed.2
    · exact h.go hthread rfl rfl ⟨hcurr, hp, hbefore⟩
    · cases hfound.1.symm.trans hmarked
  · rename_i hnotfound
    rcases hok with ⟨hpassed, hp⟩ | ⟨hcurr, hgetting⟩
    · split at hs
      · rename_i next hnext
        cases hs
        rcases h.linked_of_next hpassed.2 hnext with hnextp | hlinked
        · exact h.go hthread rfl rfl (.inl ⟨hnextp, hp⟩)
        · cases hmarked : s.marked next with
          | false =>
            refine h.go hthread rfl rfl (.inr ⟨hlinked, .inl ⟨hp, ?_⟩⟩)
            intro hmarked'
            rw [show (view s last).marked next = s.marked next from rfl, hmarked] at hmarked'
            cases hmarked'
          | true =>
            -- the node is marked already: the get finds nothing, from now on
            obtain rfl : curr = last := h.shape.eq_last_of_key hpassed.2 hnext hlinked.key
            have hentry : (view s curr).entry = none := entry_none (by simp [view, hnext, hmarked])
            have happly : apply (view s curr).entry .get
                = (.found none, (view s curr).entry) := by rw [hentry]; rfl
            obtain ⟨log', htracked, hdone, hlater⟩ := h.tracked.readNow hp happly
            exact ⟨curr, log', time, h.quiet hthread htracked hlater rfl rfl
              (.inr ⟨hlinked, .inr ⟨hdone, hmarked⟩⟩)⟩
      · rename_i hnext
        cases hs
        obtain rfl : curr = last := h.shape.eq_last_of_none hpassed.2 hnext
        have hentry : (view s curr).entry = none := entry_none (by simp [view, hnext])
        have happly : apply (view s curr).entry .get
            = (.found none, (view s curr).entry) := by rw [hentry]; rfl
        exact h.answer hthread (h.tracked.readNow hp happly)
    · rw [h.next_none hcurr] at hs
      cases hs
      rcases hgetting with ⟨hp, hbefore⟩ | ⟨hdone, -⟩
      · have hmarked : s.marked curr = true := by
          by_contra hunmarked
          exact hnotfound ⟨Bool.eq_false_iff.mpr hunmarked, hcurr.key⟩
        exact h.answer hthread (h.tracked.readGone hp hbefore hmarked rfl)
      · exact h.go hthread rfl rfl hdone

end

/-! ## Every step -/

/-- No remove marks a node that a put has found and not checked since. -/
def Clear (s : State V) : Act V → Prop
  | .go t false => ∀ j victim next, s.pc t = .removeCas j victim next →
      s.nextIs victim next → ∀ u, (s.pc u).updates ≠ some victim
  | _ => True

variable [DecidableEq V]

lemma inv_go (h : InvAt s last log time) {fail : Bool} (hclear : Clear s (.go t fail))
    (hs : go s t fail (s.pc t) = some s') : Inv s' := by
  have hok := h.ok t
  generalize hpc : s.pc t = x at hs hok
  have hthread : ∀ i, x.id? = some i → (s.pc t).id? = some i := fun i hi => hpc ▸ hi
  cases x with
  | idle => cases hs
  | findStart j g =>
    cases hs
    exact h.arrive (hthread _ rfl) hok.1 hok.2 hok.1
  | findNext j g pred curr =>
    obtain ⟨hhead, hready, hpred, hcurr⟩ := hok
    rw [go] at hs
    split at hs
    · rename_i hmarked
      cases hs
      have hlinked : Linked (view s last) curr := hcurr.resolve_left fun hpassed => by
        cases (h.tracked.placed curr (.inr hmarked)).1.symm.trans hpassed.2
      exact h.go (hthread _ rfl) rfl rfl
        ⟨hhead, hready, hpred, hlinked, hmarked, h.next_none hlinked⟩
    · rename_i hmarked
      split at hs
      · rename_i hpassed
        cases hs
        exact h.arrive (hthread _ rfl) hhead hready (h.passed hpassed)
      · rename_i hpassed
        cases hs
        exact h.hit (hthread _ rfl) hhead hready (hcurr.resolve_left fun hp => hpassed hp.2)
          (Bool.eq_false_iff.mpr hmarked)
  | findUnlink j g pred curr succ =>
    obtain ⟨hhead, hready, hpred, hcurr, hmarked, rfl⟩ := hok
    rw [go] at hs
    split at hs
    · rename_i hcas
      cases hs
      -- the node in front of a node of the key is the last passed one
      obtain rfl : pred = last := h.shape.eq_last_of_key hpred.2 hcas.2.1 hcurr.key
      have hunlinked := h.unlink hcas.2.1 hmarked
      have hok := hunlinked.ok t
      rw [show (s.setNext pred none).pc t = s.pc t from rfl, hpc] at hok
      exact hunlinked.miss (hthread _ rfl) hok.1 hok.2.1 hok.2.2.1 (update_self ..)
    · cases hs
      exact h.go (hthread _ rfl) rfl rfl ⟨hhead, hready⟩
  | publish j g pred new =>
    obtain ⟨hhead, hready, hpred, -⟩ := hok
    rw [go] at hs
    split at hs
    · rename_i hcas
      cases hs
      obtain rfl : pred = last := h.shape.eq_last_of_none hpred.2 hcas.2.1
      exact h.publish hpc hcas.2.1
    · cases hs
      exact h.go (hthread _ rfl) rfl rfl ⟨hhead, hready⟩
  | putLoad j v curr =>
    cases hs
    exact h.go (hthread _ rfl) rfl rfl hok
  | putCas j v curr old =>
    rw [go] at hs
    split at hs
    · rename_i hcas
      obtain ⟨-, rfl⟩ := hcas
      cases hs
      exact h.update hpc
    · cases hs
      exact h.go (hthread _ rfl) rfl rfl hok
  | putRecheck j v curr old =>
    have hunmarked : s.marked curr = false := hok.2.2.2
    rw [go, if_neg (Bool.eq_false_iff.mp hunmarked)] at hs
    cases hs
    exact h.go (hthread _ rfl) rfl rfl hok
  | putCheck j v curr old =>
    have hunmarked : s.marked curr = false := hok.2.2
    rw [go, if_neg (Bool.eq_false_iff.mp hunmarked)] at hs
    cases hs
    exact h.go (hthread _ rfl) rfl rfl hok.2.1
  | removeLoad j victim =>
    obtain ⟨hhead, hp, hvictim, hbefore⟩ := hok
    rw [go] at hs
    split at hs
    · rename_i hmarked
      cases hs
      exact h.answer (hthread _ rfl) (h.tracked.readGone hp hbefore hmarked rfl)
    · cases hs
      exact h.go (hthread _ rfl) rfl rfl ⟨hhead, hp, hvictim, hbefore⟩
  | removeCas j victim next =>
    obtain ⟨hhead, hp, hvictim, hbefore⟩ := hok
    rw [go] at hs
    split at hs
    · rename_i hcas
      obtain ⟨rfl, hword⟩ := hcas
      cases hs
      exact h.mark hpc hword.2 (hclear j victim next hpc hword)
    · split at hs
      · rename_i hmarked
        cases hs
        exact h.answer (hthread _ rfl) (h.tracked.readGone hp hbefore hmarked rfl)
      · cases hs
        exact h.go (hthread _ rfl) rfl rfl ⟨hhead, hp, hvictim, hbefore⟩
  | removeValue j victim =>
    cases hs
    exact h.go (hthread _ rfl) rfl rfl ⟨hok.1, hok.2.1⟩
  | getNext j curr => exact inv_getNext h hpc hs
  | getValue j curr =>
    obtain ⟨hcurr, hp, hbefore⟩ := hok
    cases hs
    cases hmarked : s.marked curr with
    | true =>
      exact h.answer (hthread _ rfl) (h.tracked.readLast hp hbefore hmarked)
    | false =>
      have happly : apply (view s last).entry .get
          = (.found (some (s.value curr)), (view s last).entry) := by
        rw [hcurr.entry hmarked]
        rfl
      exact h.answer (hthread _ rfl) (h.tracked.readNow hp happly)
  | ret i res =>
    cases hs
    exact h.ret hpc

lemma inv_step {a : Act V} (h : Inv s) (hclear : Clear s a) (hs : step s a = some s') : Inv s' := by
  obtain ⟨last, log, time, h⟩ := h
  cases a with
  | call t op head =>
    rw [step] at hs
    split at hs
    · rename_i hok
      cases hs
      exact h.call hok.2.2
    · cases hs
  | go t fail => exact inv_go h hclear hs
  | grow p =>
    rw [step] at hs
    split at hs
    · rename_i hok
      obtain ⟨last', h'⟩ := h.grow hok.2 (Option.some.inj hs).symm
      exact ⟨last', log, time, h'⟩
    · cases hs

omit [DecidableEq V] in
lemma inv_start (value : Nid → V) : Inv (start value) := by
  refine ⟨0, [], fun _ => 0, threads_start value 1 _ (fun _ => rfl) (fun _ => rfl)
    fun _ _ _ _ => trivial, rfl, fun n hn => ?_, fun n hn hne => ?_, fun _ _ _ => rfl⟩
  · rw [of_decide_eq_true hn]
    exact Nat.zero_lt_one
  · exact absurd (of_decide_eq_true hn) hne

/-- **The operations on one key of the hash map are linearizable** in every run
in which no remove marks a node that a put has found and not checked since. -/
theorem lfHashMap_linearizable (h : (machine V).ReachVia Clear s) :
    Linearizable apply none s.hist := by
  have hinv : Inv s := by
    refine h.invariant Inv (fun s hs => ?_) (fun s s' a hinv hok hs => inv_step hinv hok hs)
    obtain ⟨value, rfl⟩ := hs
    exact inv_start value
  obtain ⟨last, log, time, hinv⟩ := hinv
  exact hinv.tracked.timed.linearizable

lemma idle_step {a : Act V} (hs : step s a = some s') (hidle : s.pc u = .idle)
    (hcall : ∀ op head, a ≠ .call u op head) : s'.pc u = .idle := by
  have harrive : ∀ (s : State V) t j g pred p, u ≠ t →
      (arrive s t j g pred p).pc u = s.pc u := by
    intro s t j g pred p hu
    cases p <;> cases g <;> exact update_of_ne hu ..
  cases a with
  | call t op head =>
    have hu : u ≠ t := fun hut => hcall op head (hut ▸ rfl)
    rw [step] at hs
    split at hs <;> cases hs
    exact (update_of_ne hu ..).trans hidle
  | go t fail =>
    have hu : u ≠ t := by
      rintro rfl
      rw [step, hidle] at hs
      cases hs
    rw [step] at hs
    rw [← hidle]
    generalize s.pc t = x at hs
    cases x with
    | idle => cases hs
    | _ =>
      simp only [go] at hs
      repeat' split at hs
      all_goals cases hs
      all_goals first
        | exact update_of_ne hu ..
        | exact harrive _ _ _ _ _ _ hu
  | grow p =>
    rw [step] at hs
    split at hs <;> cases hs
    exact hidle

/-- A get that has found the node returns after a second put and a remove. -/
theorem lfHashMap_linearizable_once :
    ∃ s : State Nat, (machine Nat).ReachVia Clear s ∧
      s.hist = [.call 0 (.put 1), .ret 0 (.old none), .call 1 .get, .call 2 (.put 2),
        .ret 2 (.old (some 1)), .call 3 .remove, .ret 3 (.removed (some 2)),
        .ret 1 (.found (some 2)), .call 4 .get, .ret 4 (.found none)] ∧
      Linearizable apply none s.hist := by
  -- the three threads that call are the only ones that may be about to update
  let test : State Nat → Act Nat → Bool := fun s a => match a with
    | .call t _ _ => t < 3
    | .go t _ => match s.pc t with
      | .removeCas _ _ _ => decide (∀ u : Nat, u < 3 → (s.pc u).updates = none)
      | _ => true
    | _ => true
  have hclear : ∀ s, (machine Nat).ReachVia (fun s a => test s a = true) s →
      (machine Nat).ReachVia Clear s := by
    intro s hs
    refine hs.weaken (fun s => ∀ u, 3 ≤ u → s.pc u = .idle) ?_ ?_ ?_
    · rintro _ ⟨_, rfl⟩ u -
      rfl
    · intro s s' a hidle htest hs u hu
      refine idle_step hs (hidle u hu) ?_
      rintro op head rfl
      exact absurd (of_decide_eq_true htest) (Nat.not_lt.mpr hu)
    · intro s a hidle htest
      cases a with
      | call t op head | grow p => trivial
      | go t fail =>
        cases fail with
        | true => trivial
        | false =>
          intro j victim next hpc hnext u
          simp only [test, hpc, decide_eq_true_eq] at htest
          rcases Nat.lt_or_ge u 3 with hu | hu
          · simp [htest u hu]
          · simp [hidle u hu, Pc.updates]
  have hstart : (machine Nat).ReachVia (fun s a => test s a = true) (start fun _ => 0) :=
    .init ⟨_, rfl⟩
  refine (hstart.run_map (f := State.hist) test (fun _ _ htest => htest) (Machine.bursts
    [(1, .call 0 (.put 1) 0), (3, .go 0 false), (1, .call 1 .get 0), (2, .go 1 false),
      (1, .call 0 (.put 2) 0), (6, .go 0 false), (1, .call 2 .remove 0), (9, .go 2 false),
      (2, .go 1 false), (1, .call 0 .get 0), (2, .go 0 false)]) ?_).imp fun s hs =>
    ⟨hclear s hs.1, hs.2, lfHashMap_linearizable (hclear s hs.1)⟩
  decide +kernel

/-- A put stores its value, a remove marks the node and hands that value out,
and then the put, which finds the mark, stores it again: a later get finds it. -/
theorem put_revives_removed :
    ∃ s : State Nat, (machine Nat).Reach s ∧
      s.hist = [.call 0 (.insert 1), .ret 0 (.inserted true), .call 1 (.put 2), .call 2 .remove,
        .ret 2 (.removed (some 2)), .ret 1 (.old none), .call 3 .get, .ret 3 (.found (some 2))] ∧
      ¬ Linearizable apply none s.hist := by
  have hstart : (machine Nat).Reach (start fun _ => 0) := .init ⟨_, rfl⟩
  refine hstart.exists_run (fun _ _ => true) (fun _ _ _ => trivial)
    (Machine.bursts [(1, .call 0 (.insert 1) 0), (3, .go 0 false), (1, .call 1 (.put 2) 0),
      (1, .call 2 .remove 0), (4, .go 1 false), (9, .go 2 false), (4, .go 1 false),
      (1, .call 3 .get 0), (4, .go 3 false)]) (by decide +kernel) fun s _ hhist hlin => ?_
  rw [hhist] at hlin
  have hret : Event.ret 0 (Res.inserted true) ∈ ([.call 0 (.insert 1), .ret 0 (.inserted true),
      .call 1 (.put 2), .call 2 .remove, .ret 2 (.removed (some 2)), .ret 1 (.old none),
      .call 3 .get, .ret 3 (.found (some 2))] : List (Event (Op Nat) (Res Nat))) := by decide
  obtain ⟨op, es, hop, -, hrest⟩ := hlin.first hret (by
    intro j op hcall hj
    simp only [mem_cons, Event.call.injEq, reduceCtorEq, not_mem_nil, or_false, false_or] at hcall
    rcases hcall with ⟨rfl, -⟩ | ⟨rfl, rfl⟩ | ⟨rfl, rfl⟩ | ⟨rfl, rfl⟩
    · exact absurd rfl hj
    · exact ⟨1, 2, _, _, by decide, rfl, rfl⟩
    · exact ⟨1, 3, _, _, by decide, rfl, rfl⟩
    · exact ⟨1, 6, _, _, by decide, rfl, rfl⟩)
  obtain rfl : op = .insert 1 := by simpa using hop
  -- behind the insert no answer of the other three is right
  obtain ⟨⟨i, op, res⟩, es', -, hcall, hpast, hres, hanswer, -⟩ :=
    hrest.next ⟨1, .old none, by simp, by simp⟩
  simp only [mem_cons, Event.call.injEq, reduceCtorEq, not_mem_nil, or_false, false_or] at hcall
  rcases hcall with ⟨rfl, -⟩ | ⟨rfl, rfl⟩ | ⟨rfl, rfl⟩ | ⟨rfl, rfl⟩
  · exact absurd mem_cons_self hpast
  · rw [hres (.old none) (by simp)] at hanswer
    cases hanswer
  · rw [hres (.removed (some 2)) (by simp)] at hanswer
    cases hanswer
  · rw [hres (.found (some 2)) (by simp)] at hanswer
    cases hanswer

end Cobalt.Container.LfHashMapEntry
