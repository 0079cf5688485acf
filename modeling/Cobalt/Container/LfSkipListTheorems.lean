/-
Cobalt.Container.LfSkipListTheorems — when the operations on one key of the
skip list are linearizable.

In a run whose calls are all on one key the other nodes stay as they are, so
level 0 has one place for the key: behind the last node that comes before it.
That node leads to the linked node of the key, if there is one, and otherwise
to the node that comes after the key. The levels above are shortcuts; all that
matters about them is that they lead to nodes that are or were in the list.
insert takes effect when it links its node at level 0 and remove when it marks
level 0. A search that meets the node after the key has missed the key when it
loaded the pointer, not when it compares the keys. A put on a node that it has
found takes effect at its exchange, which is sound only while the node is not
marked; put does not look.
-/
import Cobalt.Container.LfSkipList

namespace Cobalt.Container.LfSkipList

open Function (update update_self update_of_ne)
open LfSkipList (create found linkNext)

open Cobalt.Linear MapEntry

variable {K V : Type}

/-! ## The list -/

/-- The place of the key: of the `base` nodes that were there before the run,
those up to `last` come before it. -/
structure Gap where
  base : Nat
  last : Nat
  last_lt : last < base

variable {γ : Gap}

/-- Where level 0 goes on behind the place of the key. -/
def Gap.rest (γ : Gap) : Option Nat := if γ.last + 1 < γ.base then some (γ.last + 1) else none

lemma Gap.rest_eq_some {m : Nat} : γ.rest = some m ↔ m = γ.last + 1 ∧ m < γ.base := by
  unfold Gap.rest
  grind

/-- What of the state the entry depends on. -/
def view (γ : Gap) (s : State K V) : View V :=
  ⟨(s.next γ.last 0).filter (γ.base ≤ ·), fun n => s.marked n 0, s.value, s.hist, s.nodeCount,
    fun n => n < γ.base⟩

/-- A node that is or was in the list. -/
def Known (γ : Gap) (w : View V) (m : Nat) : Prop := head < m ∧ m < γ.base ∨ Linked w m

/-- The keys of the nodes. -/
structure Keys [LT K] (γ : Gap) (k : K) (key : Nat → K) (count : Nat) : Prop where
  base_le : γ.base ≤ count
  low : ∀ n : Nat, head < n → n ≤ γ.last → key n < k
  high : ∀ n, γ.last < n → n < γ.base → k < key n
  new : ∀ n, γ.base ≤ n → n < count → key n = k

/-- The pointers of level 0. -/
structure Bottom (γ : Gap) (next : Nat → Option Nat) (count : Nat) : Prop where
  low : ∀ n, n < γ.last → next n = some (n + 1)
  last : next γ.last = γ.rest ∨ ∃ m, next γ.last = some m ∧ γ.base ≤ m
  new : ∀ n, γ.base ≤ n → n < count → next n = γ.rest

/-- All pointers lead to nodes that are or were in the list. -/
structure Shape [LT K] (γ : Gap) (k : K) (s : State K V) : Prop where
  keys : Keys γ k s.key s.nodeCount
  bottom : Bottom γ (fun n => s.next n 0) s.nodeCount
  links : ∀ n i m, s.next n i = some m → Known γ (view γ s) m
  preds : ∀ t i, s.preds t i ≤ γ.last
  succs : ∀ t i m, s.succs t i = some m → Known γ (view γ s) m

variable {k : K} {s s' : State K V} {w w' : View V} {count m n : Nat} {v : V}

lemma cell_eq_some : (view γ s).cell = some m ↔ s.next γ.last 0 = some m ∧ γ.base ≤ m := by
  simp [view, Option.filter_eq_some_iff]

lemma cell_eq_none (h : s.next γ.last 0 = γ.rest) : (view γ s).cell = none := by
  refine Option.eq_none_iff_forall_ne_some.mpr fun m hm => ?_
  obtain ⟨hnext, hbase⟩ := cell_eq_some.mp hm
  exact absurd (Gap.rest_eq_some.mp (h ▸ hnext)).2 (Nat.not_lt.mpr hbase)

lemma base_le (h : Linked (view γ s) m) : γ.base ≤ m := Nat.not_lt.mp (of_decide_eq_false h.key)

lemma Known.later (h : Known γ w m) (hg : Grows w w') : Known γ w' m := h.imp_right (·.later hg)

lemma Gap.known_rest (h : γ.rest = some m) : Known γ w m := by
  obtain ⟨rfl, hlt⟩ := Gap.rest_eq_some.mp h
  exact .inl ⟨Nat.succ_pos _, hlt⟩

lemma Bottom.eq_last {next : Nid → Option Nid} (h : Bottom γ next count) (hn : n ≤ γ.last)
    (hnext : ∀ m, next n = some m → γ.last < m) : n = γ.last := by
  refine Nat.le_antisymm hn (Nat.not_lt.mp fun hlt => ?_)
  exact absurd (hnext _ (h.low n hlt)) (Nat.not_lt.mpr hlt)

section Order

variable [LinearOrder K]

lemma Shape.le_last (h : Shape γ k s) (hm : Known γ (view γ s) m)
    (hkey : s.key m < k) : m ≤ γ.last := by
  rcases hm with ⟨-, hlt⟩ | hm
  · exact Nat.not_lt.mp fun hlast => lt_asymm hkey (h.keys.high m hlast hlt)
  · exact absurd (h.keys.new m (base_le hm) hm.lt) (ne_of_lt hkey)

lemma Shape.linked_of_key (h : Shape γ k s) (hm : Known γ (view γ s) m)
    (hkey : s.key m = k) : Linked (view γ s) m := by
  refine hm.resolve_left fun hold => ?_
  rcases Nat.lt_or_ge γ.last m with hlast | hlast
  · exact ne_of_gt (h.keys.high m hlast hold.2) hkey
  · exact ne_of_lt (h.keys.low m hold.1 hlast) hkey

lemma Shape.last_lt (h : Shape γ k s) (hm : Known γ (view γ s) m)
    (hkey : ¬ s.key m < k) : γ.last < m := by
  rcases hm with ⟨hhead, -⟩ | hm
  · exact Nat.not_le.mp fun hlast => hkey (h.keys.low m hhead hlast)
  · exact Nat.lt_of_lt_of_le γ.last_lt (base_le hm)

lemma Shape.rest_ne (h : Shape γ k s) (hkey : s.key m ≤ k) : γ.rest ≠ some m := by
  intro hrest
  obtain ⟨rfl, hlt⟩ := Gap.rest_eq_some.mp hrest
  exact absurd (h.keys.high _ (Nat.lt_succ_self _) hlt) (not_lt.mpr hkey)

end Order

/-! ## The threads -/

/-- The operation that links a node. -/
def Kind.op : Kind V → Op V
  | .insert v => .insert v
  | .put v => .put v

/-- The number of the call a thread is in. -/
def Pc.id? : Pc K V → Option Nat
  | .idle => none
  | .findLevel c _ _ _ | .findNext c _ _ _ _ | .findUnlink c _ _ _ _ _ | .create c _ _
  | .publish c _ _ | .linkLoad c _ _ _ | .linkCas c _ _ _ | .linkStore c _ _ _
  | .exchange c _ _ | .markLoad c _ _ | .markCas c _ _ _ | .loadValue c _ | .retire c _ _
  | .getLevel c _ _ | .getNext c _ _ _ | .getMark c _ _ _ | .getValue c _ => some c.id
  | .ret id _ => some id

/-- The node that a put is about to update. -/
def Pc.updates : Pc K V → Option Nid
  | .exchange _ _ victim => some victim
  | _ => none

/-- The node that a search still has to link. -/
def Goal.new? : Goal V → Option Nid
  | .link _ new => new
  | _ => none

/-- The node that a thread has created and not linked. -/
def Pc.new? : Pc K V → Option Nid
  | .findLevel _ g _ _ | .findNext _ g _ _ _ | .findUnlink _ g _ _ _ _ => g.new?
  | .create _ _ new => new
  | .publish _ _ new => some new
  | _ => none

/-- What is known about the call that a search serves. -/
def Ready (w : View V) (log : Log V) (id : Nat) : Goal V → Prop
  | .link kd new => Pending w log id kd.op ∧ ∀ n, new = some n → Own w n kd.value
  | .relink kd new level => Done log id (linked kd) ∧ Linked w new ∧ level ≠ 0
  | .remove => Pending w log id .remove
  | .unlink _ v => Done log id (.removed (some v))

/-- The same once the search has missed the key: a remove has its answer. -/
def Missed (w : View V) (log : Log V) (id : Nat) : Goal V → Prop
  | .remove => Done log id (.removed none)
  | g => Ready w log id g

/-- A search has arrived at `curr`. -/
def Arrived (γ : Gap) (w : View V) (log : Log V) (id : Nat) (g : Goal V) (level curr : Nat) :
    Prop :=
  Ready w log id g ∧ (level = 0 → curr ≤ γ.last ∨ γ.base ≤ curr) ∨
    level = 0 ∧ γ.rest = some curr ∧ Missed w log id g

/-- A get has arrived at `curr`. At level 0 the node comes before the key, or it
was not marked before the call, or the get is known to find nothing. -/
def Getting (γ : Gap) (w : View V) (log : Log V) (time : Nat → Nat) (id level curr : Nat) : Prop :=
  Pending w log id .get ∧
      (level = 0 → curr ≤ γ.last ∨ γ.base ≤ curr ∧ Before w time id .get curr) ∨
    level = 0 ∧ Done log id (.found none) ∧ (w.marked curr = true ∨ γ.rest = some curr)

/-- What is known in each phase of a thread; `a` is its `succs[0]`. -/
def ThreadOk (γ : Gap) (k : K) (w : View V) (log : Log V) (time : Nat → Nat) (a : Option Nid) :
    Pc K V → Prop
  | .idle => True
  | .findLevel c g _ pred => c.key = k ∧ pred ≤ γ.last ∧ Ready w log c.id g
  | .findNext c g level pred curr => c.key = k ∧ pred ≤ γ.last ∧ Known γ w curr ∧
      Arrived γ w log c.id g level curr
  | .findUnlink c g level pred curr succ => c.key = k ∧ pred ≤ γ.last ∧
      Ready w log c.id g ∧ (∀ m, succ = some m → Known γ w m) ∧
      (level = 0 → w.marked curr = true ∧ γ.base ≤ curr ∧ succ = γ.rest)
  | .create c kd new => c.key = k ∧ Ready w log c.id (.link kd new) ∧ a = γ.rest
  | .publish c kd new => c.key = k ∧ Ready w log c.id (.link kd (some new)) ∧ a = γ.rest
  | .linkLoad c kd new level | .linkCas c kd new level | .linkStore c kd new level =>
      c.key = k ∧ Ready w log c.id (.relink kd new level)
  | .exchange c v victim => Pending w log c.id (.put v) ∧ Linked w victim ∧
      w.marked victim = false
  | .markLoad c victim _ | .markCas c victim _ _ => c.key = k ∧ Pending w log c.id .remove ∧
      Linked w victim ∧ Before w time c.id .remove victim
  | .loadValue c victim => c.key = k ∧ Done log c.id (.removed (some (w.value victim))) ∧
      w.marked victim = true
  | .retire c _ v => Done log c.id (.removed (some v))
  | .getLevel c _ pred => c.key = k ∧ pred ≤ γ.last ∧ Pending w log c.id .get
  | .getNext c level pred curr => c.key = k ∧ pred ≤ γ.last ∧ Known γ w curr ∧
      Getting γ w log time c.id level curr
  | .getMark c level pred curr => c.key = k ∧ pred ≤ γ.last ∧ Linked w curr ∧
      Pending w log c.id .get ∧ (level = 0 → Before w time c.id .get curr)
  | .getValue c curr => Linked w curr ∧ Pending w log c.id .get ∧
      Before w time c.id .get curr
  | .ret id res => Done log id res

variable {log log' : Log V} {time time' : Nat → Nat} {t u : Tid} {id : Nat} {x : Pc K V}
  {a : Option Nid} {g : Goal V}

lemma Ready.later {i : Nat} (h : Ready w log i g) (hl : Later id w log time w' log' time')
    (hne : i ≠ id) (hown : ∀ n v, g.new? = some n → Own w n v → Own w' n v) :
    Ready w' log' i g := by
  cases g with
  | link kd new => exact ⟨h.1.later hl hne, fun n hn => hown n _ hn (h.2 n hn)⟩
  | relink kd new level => exact ⟨h.1.later hl, h.2.1.later hl.toGrows, h.2.2⟩
  | remove => exact Pending.later h hl hne
  | unlink victim v => exact Done.later h hl

lemma answer_trans {log₂ : Log V} (h : Later id w log time w log' time)
    (h' : Later id w log' time w log₂ time) : Later id w log time w log₂ time :=
  { h with
    kept := fun y hy => h'.kept y (h.kept y hy)
    own := fun y hy => (h'.own y hy).elim (h.own y) .inr }

lemma Missed.later {i : Nat} (h : Missed w log i g) (hl : Later id w log time w' log' time')
    (hne : i ≠ id) (hown : ∀ n v, g.new? = some n → Own w n v → Own w' n v) :
    Missed w' log' i g := by
  cases g with
  | remove => exact Done.later h hl
  | link kd new => exact Ready.later (g := .link kd new) h hl hne hown
  | relink kd new level => exact Ready.later (g := .relink kd new level) h hl hne hown
  | unlink victim v => exact Ready.later (g := .unlink victim v) h hl hne hown

lemma Ready.new_lt {i : Nat} (h : Ready w log i g) (hn : g.new? = some n) : n < w.count := by
  cases g with
  | link kd new => exact (h.2 n hn).lt
  | _ => cases hn

lemma Arrived.new_lt {i level curr : Nat} (h : Arrived γ w log i g level curr)
    (hn : g.new? = some n) : n < w.count := by
  rcases h with h | h
  · exact h.1.new_lt hn
  · cases g with
    | link kd new => exact Ready.new_lt (g := .link kd new) h.2.2 hn
    | _ => cases hn

lemma ThreadOk.later (hl : Later id w log time w' log' time') (hid : x.id? ≠ some id)
    (hclear : ∀ m, x.updates = some m → w'.marked m = true → w.marked m = true)
    (hown : ∀ n v, x.new? = some n → Own w n v → Own w' n v)
    (h : ThreadOk γ k w log time a x) : ThreadOk γ k w' log' time' a x := by
  have hg := hl.toGrows
  have hne : ∀ i : Nat, x.id? = some i → i ≠ id := fun i hi heq => hid (heq ▸ hi)
  cases x with
  | idle => trivial
  | findLevel c g level pred =>
    obtain ⟨hkey, hpred, hready⟩ := h
    exact ⟨hkey, hpred, hready.later hl (hne _ rfl) hown⟩
  | findNext c g level pred curr =>
    obtain ⟨hkey, hpred, hcurr, ⟨hready, hplace⟩ | ⟨hlevel, hrest, hmissed⟩⟩ := h
    · exact ⟨hkey, hpred, hcurr.later hg, .inl ⟨hready.later hl (hne _ rfl) hown, hplace⟩⟩
    · exact ⟨hkey, hpred, hcurr.later hg,
        .inr ⟨hlevel, hrest, hmissed.later hl (hne _ rfl) hown⟩⟩
  | findUnlink c g level pred curr succ =>
    obtain ⟨hkey, hpred, hready, hsucc, hzero⟩ := h
    exact ⟨hkey, hpred, hready.later hl (hne _ rfl) hown, fun m hm => (hsucc m hm).later hg,
      fun hlevel => ⟨hg.marks _ (hzero hlevel).1, (hzero hlevel).2⟩⟩
  | create c kd new | publish c kd new =>
    obtain ⟨hkey, hready, ha⟩ := h
    exact ⟨hkey, hready.later hl (hne _ rfl) hown, ha⟩
  | linkLoad c kd new level | linkCas c kd new level | linkStore c kd new level =>
    exact ⟨h.1, h.2.later hl (hne _ rfl) fun n v hn => by cases hn⟩
  | exchange c v victim =>
    obtain ⟨hp, hvictim, hunmarked⟩ := h
    refine ⟨hp.later hl (hne _ rfl), hvictim.later hg, ?_⟩
    refine Bool.eq_false_iff.mpr fun hnow => ?_
    rw [hclear victim rfl hnow] at hunmarked
    cases hunmarked
  | markLoad c victim level | markCas c victim level next =>
    obtain ⟨hkey, hp, hvictim, hbefore⟩ := h
    exact ⟨hkey, hp.later hl (hne _ rfl), hvictim.later hg, hbefore.later hp.1 hl⟩
  | loadValue c victim =>
    obtain ⟨hkey, hdone, hmarked⟩ := h
    refine ⟨hkey, ?_, hg.marks _ hmarked⟩
    rw [hg.value _ hmarked]
    exact hdone.later hl
  | retire c victim v => exact Done.later h hl
  | getLevel c level pred => exact ⟨h.1, h.2.1, h.2.2.later hl (hne _ rfl)⟩
  | getNext c level pred curr =>
    obtain ⟨hkey, hpred, hcurr, ⟨hp, hplace⟩ | ⟨hlevel, hdone, hmarked⟩⟩ := h
    · exact ⟨hkey, hpred, hcurr.later hg, .inl ⟨hp.later hl (hne _ rfl), fun hlevel =>
        (hplace hlevel).imp_right fun hnew => ⟨hnew.1, hnew.2.later hp.1 hl⟩⟩⟩
    · exact ⟨hkey, hpred, hcurr.later hg,
        .inr ⟨hlevel, hdone.later hl, hmarked.imp_left (hg.marks _)⟩⟩
  | getMark c level pred curr =>
    obtain ⟨hkey, hpred, hcurr, hp, hbefore⟩ := h
    exact ⟨hkey, hpred, hcurr.later hg, hp.later hl (hne _ rfl),
      fun hlevel => (hbefore hlevel).later hp.1 hl⟩
  | getValue c curr =>
    obtain ⟨hcurr, hp, hbefore⟩ := h
    exact ⟨hcurr.later hg, hp.later hl (hne _ rfl), hbefore.later hp.1 hl⟩
  | ret i res => exact Done.later h hl

/-- A thread is where it is, with its `succs[0]`. -/
def threads (s : State K V) (t : Tid) : Pc K V × Option Nid := (s.pc t, s.succs t 0)

def phases (γ : Gap) (k : K) : Phases (Pc K V × Option Nid) V where
  id? x := x.1.id?
  updates x := x.1.updates
  new? x := x.1.new?
  Ok w log time x := ThreadOk γ k w log time x.2 x.1
  new_lt := by
    rintro w log time ⟨x, a⟩ n h hn
    cases x with
    | findLevel c g level pred => exact h.2.2.new_lt hn
    | findNext c g level pred curr => exact h.2.2.2.new_lt hn
    | findUnlink c g level pred curr succ => exact h.2.2.1.new_lt hn
    | create c kd new | publish c kd new => exact (h.2.1.2 n hn).lt
    | _ => cases hn
  later := ThreadOk.later

/-- The invariant, for a log and the moments of the marks. -/
structure InvAt [LT K] (γ : Gap) (k : K) (s : State K V) (log : Log V) (time : Nat → Nat) : Prop
    extends Threads (phases γ k) (view γ s) (threads s) s.callCount log time where
  shape : Shape γ k s

def Inv [LT K] (γ : Gap) (k : K) (s : State K V) : Prop := ∃ log time, InvAt γ k s log time

lemma threads_update (hpc : s'.pc = update s.pc t x)
    (hsuccs : ∀ u, u ≠ t → s'.succs u = s.succs u) :
    threads s' = update (threads s) t (x, s'.succs t 0) := by
  funext u
  by_cases hu : u = t
  · subst hu
    rw [update_self, threads, hpc, update_self]
  · rw [update_of_ne hu, threads, threads, hpc, update_of_ne hu, hsuccs u hu]

lemma threads_move (s : State K V) (t : Tid) (x : Pc K V) :
    threads (s.move t x) = update (threads s) t (x, s.succs t 0) :=
  threads_update rfl fun _ _ => rfl

lemma setNext_apply (s : State K V) (n : Nid) (level : Nat) (p : Option Nid) (n' : Nid)
    (i : Nat) : (s.setNext n level p).next n' i
      = if n' = n ∧ i = level then p else s.next n' i := by
  by_cases hn : n' = n
  · subst hn
    by_cases hi : i = level <;> simp [hi]
  · simp [hn]

lemma setMark_apply (s : State K V) (n : Nid) (level : Nat) (b : Bool) (n' : Nid) (i : Nat) :
    (s.setMark n level b).marked n' i = if n' = n ∧ i = level then b else s.marked n' i := by
  by_cases hn : n' = n
  · subst hn
    by_cases hi : i = level <;> simp [hi]
  · simp [hn]

lemma Bottom.setLast {p : Option Nid} (h : Bottom γ (fun n => s.next n 0) count)
    (hp : p = γ.rest ∨ ∃ m, p = some m ∧ γ.base ≤ m) :
    Bottom γ (fun n => (s.setNext γ.last 0 p).next n 0) count := by
  refine ⟨fun n hn => ?_, ?_, fun n hn hlt => ?_⟩
  · rw [setNext_apply, if_neg fun heq => ne_of_lt hn heq.1]
    exact h.low n hn
  · rwa [setNext_apply, if_pos ⟨rfl, rfl⟩]
  · rw [setNext_apply, if_neg fun heq => ne_of_gt (Nat.lt_of_lt_of_le γ.last_lt hn) heq.1]
    exact h.new n hn hlt

section Inv

variable [LinearOrder K]

lemma Shape.grow (h : Shape γ k s) (hg : Grows (view γ s) (view γ s')) (hkey : s'.key = s.key)
    (hcount : s'.nodeCount = s.nodeCount) (hnext : s'.next = s.next) (hpreds : s'.preds = s.preds)
    (hsuccs : s'.succs = s.succs) : Shape γ k s' where
  keys := by rw [hkey, hcount]; exact h.keys
  bottom := by rw [hnext, hcount]; exact h.bottom
  links n i m hm := (h.links n i m (hnext ▸ hm)).later hg
  preds := hpreds ▸ h.preds
  succs t i m hm := (h.succs t i m (hsuccs ▸ hm)).later hg

section

variable (h : InvAt γ k s log time)

include h

lemma InvAt.at (hpc : s.pc t = x) : ThreadOk γ k (view γ s) log time (s.succs t 0) x :=
  hpc ▸ h.ok t

/-- Level 0 is marked in nodes of the key only. -/
lemma InvAt.marks (hn : s.marked n 0 = true) : γ.base ≤ n ∧ n < s.nodeCount := by
  obtain ⟨hkey, hlt⟩ := h.tracked.placed n (.inr hn)
  exact ⟨Nat.not_lt.mp (of_decide_eq_false hkey), hlt⟩

/-- Something changes that no other thread sees. -/
lemma InvAt.same (hpc : s'.pc = update s.pc t x) (hthread : (s.pc t).id? = some id)
    (hview : view γ s' = view γ s) (hcount : s'.callCount = s.callCount) (hshape : Shape γ k s')
    (hsuccs : ∀ u, u ≠ t → s'.succs u = s.succs u) (htracked : Tracked (view γ s) log' time)
    (hl : Later id (view γ s) log time (view γ s) log' time) (hid : ∀ i, x.id? = some i → i = id)
    (hnew : ∀ n, x.new? = some n → (s.pc t).new? = some n)
    (hx : ThreadOk γ k (view γ s) log' time (s'.succs t 0) x) : InvAt γ k s' log' time := by
  refine ⟨?_, hshape⟩
  rw [hview, hcount, threads_update hpc hsuccs]
  exact h.toThreads.quiet hthread htracked hl hid hnew hx

variable (hthread : (s.pc t).id? = some id)

include hthread

/-- A thread goes on and changes nothing but, maybe, what is known about its call. -/
lemma InvAt.quiet (htracked : Tracked (view γ s) log' time)
    (hl : Later id (view γ s) log time (view γ s) log' time) (hid : x.id? = some id)
    (hnew : ∀ n, x.new? = some n → (s.pc t).new? = some n)
    (hx : ThreadOk γ k (view γ s) log' time (s.succs t 0) x) : InvAt γ k (s.move t x) log' time :=
  h.same rfl hthread rfl rfl { h.shape with } (fun _ _ => rfl) htracked hl
    (fun _ hi => Option.some.inj (hi.symm.trans hid)) hnew hx

lemma InvAt.move (hid : x.id? = some id) (hnew : ∀ n, x.new? = some n → (s.pc t).new? = some n)
    (hx : ThreadOk γ k (view γ s) log time (s.succs t 0) x) :
    InvAt γ k (s.move t x) log time := h.quiet hthread h.tracked (Later.refl _ _ _ _) hid hnew hx

lemma InvAt.go (hid : x.id? = some id) (hnew : x.new? = none)
    (hx : ThreadOk γ k (view γ s) log time (s.succs t 0) x) : Inv γ k (s.move t x) :=
  ⟨log, time, h.move hthread hid (by simp [hnew]) hx⟩

lemma InvAt.answer {res : Res V} (hread : Answer id (view γ s) log time res) :
    Inv γ k (s.move t (.ret id res)) := by
  obtain ⟨log', htracked, hdone, hlater⟩ := hread
  exact ⟨log', time, h.quiet hthread htracked hlater rfl (by rintro _ ⟨⟩) hdone⟩

end

/-! ## Steps that change the list -/

variable {level : Nat} {c : Call K} {kd : Kind V}

/-- Level 0 goes on with `p` behind the last node before the key. -/
lemma Shape.setLast {p : Option Nid} (h : Shape γ k s)
    (hg : Grows (view γ s) (view γ (s.setNext γ.last 0 p)))
    (hp : p = γ.rest ∨ ∃ m, p = some m ∧ Linked (view γ (s.setNext γ.last 0 p)) m) :
    Shape γ k (s.setNext γ.last 0 p) := by
  refine { h with
    bottom := h.bottom.setLast (hp.imp_right fun ⟨m, hm, hlinked⟩ => ⟨m, hm, base_le hlinked⟩)
    links := fun n' i m hm => ?_
    succs := fun t i m hm => (h.succs t i m hm).later hg }
  rw [setNext_apply] at hm
  split at hm
  · rcases hp with rfl | ⟨m', rfl, hlinked⟩
    · exact Gap.known_rest hm
    · cases hm
      exact .inr hlinked
  · exact (h.links n' i m hm).later hg

section

variable (h : InvAt γ k s log time)

include h

lemma InvAt.setNext {p : Option Nid} (hlevel : level ≠ 0)
    (hp : ∀ m, p = some m → Known γ (view γ s) m) : InvAt γ k (s.setNext n level p) log time := by
  have hzero : ∀ n', (s.setNext n level p).next n' 0 = s.next n' 0 := fun n' => by
    rw [setNext_apply, if_neg fun heq => hlevel heq.2.symm]
  have hview : view γ (s.setNext n level p) = view γ s := by rw [view, hzero]; rfl
  refine ⟨hview.symm ▸ h.toThreads, { h.shape with
    bottom := (funext hzero).symm ▸ h.shape.bottom
    links := fun n' i m hm => ?_
    succs := hview.symm ▸ h.shape.succs }⟩
  rw [hview]
  rw [setNext_apply] at hm
  split at hm
  · exact hp m hm
  · exact h.shape.links n' i m hm

lemma InvAt.setMark {b : Bool} (hlevel : level ≠ 0) : InvAt γ k (s.setMark n level b) log time := by
  have hzero : ∀ n', (s.setMark n level b).marked n' 0 = s.marked n' 0 := fun n' => by
    rw [setMark_apply, if_neg fun heq => hlevel heq.2.symm]
  have hview : view γ (s.setMark n level b) = view γ s := by rw [view, funext hzero]; rfl
  exact ⟨hview.symm ▸ h.toThreads, { h.shape with
    links := hview.symm ▸ h.shape.links
    succs := hview.symm ▸ h.shape.succs }⟩

lemma InvAt.unlink (hnext : s.next γ.last 0 = some m) (hbase : γ.base ≤ m)
    (hmarked : s.marked m 0 = true) : InvAt γ k (s.setNext γ.last 0 γ.rest) log time := by
  have hcell : (view γ s).cell = some m := cell_eq_some.mpr ⟨hnext, hbase⟩
  have hview : view γ (s.setNext γ.last 0 γ.rest) = { view γ s with cell := none } := by
    rw [← cell_eq_none (show (s.setNext γ.last 0 γ.rest).next γ.last 0 = γ.rest by simp)]
    rfl
  have hg : Grows (view γ s) (view γ (s.setNext γ.last 0 γ.rest)) :=
    hview ▸ .unlink hcell hmarked
  exact ⟨hview ▸ h.toThreads.unlink hcell hmarked, h.shape.setLast hg (.inl rfl)⟩

lemma InvAt.reuse {new : Nid} (hpc : s.pc t = .create c kd (some new)) :
    Inv γ k (create s t level c kd (some new)) := by
  let s' : State K V := create s t level c kd (some new)
  obtain ⟨hkey, hready, hrest⟩ := h.at hpc
  have hown := hready.2 new rfl
  have hbase : γ.base ≤ new := Nat.not_lt.mp (of_decide_eq_false hown.key)
  have hnext : ∀ n' i, s'.next n' i = s.next n' i ∨ n' = new ∧ s'.next n' i = s.succs t i := by
    intro n' i
    by_cases hn' : n' = new
    · subst hn'
      by_cases hi : i < s.topLevel n'
      · exact .inr ⟨rfl, by simp [s', create, hi]⟩
      · exact .inl (by simp [s', create, hi])
    · exact .inl (by simp [s', create, hn'])
  have hzero : ∀ n', s'.next n' 0 = s.next n' 0 := by
    intro n'
    rcases hnext n' 0 with heq | ⟨rfl, heq⟩
    · exact heq
    · rw [heq, hrest]
      exact (h.shape.bottom.new n' hbase hown.lt).symm
  have hview : view γ s' = view γ s := by rw [view, hzero]; rfl
  refine ⟨log, time, h.same rfl (by rw [hpc]; rfl) hview rfl { h.shape with
    bottom := (funext hzero).symm ▸ h.shape.bottom
    links := fun n' i m hm => ?_
    succs := hview.symm ▸ h.shape.succs }
    (fun _ _ => rfl) h.tracked (Later.refl _ _ _ _) (fun i hi => (Option.some.inj hi).symm)
    (fun n hn => hpc ▸ hn) ⟨hkey, hready, hrest⟩⟩
  rw [hview]
  rcases hnext n' i with heq | ⟨-, heq⟩
  · exact h.shape.links n' i m (heq ▸ hm)
  · exact h.shape.succs t i m (heq ▸ hm)

lemma InvAt.create (hpc : s.pc t = .create c kd none) (hlevel : 1 ≤ level) :
    Inv γ k (create s t level c kd none) := by
  let s' : State K V := LfSkipList.create s t level c kd none
  obtain ⟨hkey, hready, hrest⟩ := h.at hpc
  have hbase := h.shape.keys.base_le
  have hlt := γ.last_lt
  have hnext : ∀ n', n' ≠ s.nodeCount → s'.next n' = s.next n' := fun n' hn' => update_of_ne hn' ..
  have hnew : s'.next s.nodeCount = fun i => if i < level then s.succs t i else none :=
    update_self ..
  have hlast := hnext γ.last (ne_of_lt (Nat.lt_of_lt_of_le γ.last_lt hbase))
  have hmarks : ∀ n', s'.marked n' 0 = s.marked n' 0 := by
    intro n'
    by_cases hn' : n' = s.nodeCount
    · subst hn'
      have hfresh : s.marked s.nodeCount 0 = false :=
        Bool.eq_false_iff.mpr fun hm => lt_irrefl _ (h.marks hm).2
      simp [s', LfSkipList.create, hfresh]
    · simp [s', LfSkipList.create, hn']
  have hview : view γ s' = { view γ s with
      count := s.nodeCount + 1
      value := update s.value s.nodeCount kd.value } := by
    rw [view, hlast, funext hmarks]
    rfl
  have hg : Grows (view γ s) (view γ s') := hview ▸ h.tracked.grows_create kd.value
  have hkeys : Keys γ k s'.key (s.nodeCount + 1) := by
    have hold : ∀ n', n' < s.nodeCount → s'.key n' = s.key n' :=
      fun n' hn' => update_of_ne (ne_of_lt hn') ..
    refine ⟨Nat.le_succ_of_le hbase, fun n' hhead hn' => ?_, fun n' hn' hn'' => ?_,
      fun n' hn' hlt' => ?_⟩
    · rw [hold n' (by omega)]
      exact h.shape.keys.low n' hhead hn'
    · rw [hold n' (by omega)]
      exact h.shape.keys.high n' hn' hn''
    · by_cases heq : n' = s.nodeCount
      · subst heq
        exact (update_self ..).trans hkey
      · rw [hold n' (by omega)]
        exact h.shape.keys.new n' hn' (by omega)
  have hbottom : Bottom γ (fun n' => s'.next n' 0) (s.nodeCount + 1) := by
    refine ⟨fun n' hn' => ?_, ?_, fun n' hn' hlt' => ?_⟩
    · rw [hnext n' (by omega)]
      exact h.shape.bottom.low n' hn'
    · rw [hlast]
      exact h.shape.bottom.last
    · by_cases heq : n' = s.nodeCount
      · rw [heq, hnew]
        exact (if_pos hlevel).trans hrest
      · rw [hnext n' heq]
        exact h.shape.bottom.new n' hn' (by omega)
  refine ⟨log, time, ?_, hkeys, hbottom, fun n' i m hm => ?_, h.shape.preds,
    fun u i m hm => (h.shape.succs u i m hm).later hg⟩
  · rw [hview, show threads s' = _ from threads_move ..]
    refine h.toThreads.create (show (s.pc t).id? = some c.id by rw [hpc]; rfl)
      (decide_eq_false (Nat.not_lt.mpr hbase)) rfl rfl fun w' hl ho =>
      ⟨hkey, ⟨hready.1.grow hl.hist, fun n' hn' => ?_⟩, hrest⟩
    cases hn'
    exact ho
  · by_cases heq : n' = s.nodeCount
    · change s'.next n' i = some m at hm
      rw [heq, hnew] at hm
      refine (h.shape.succs t i m ?_).later hg
      exact (Option.ite_none_right_eq_some.mp hm).2
    · exact (h.shape.links n' i m (hnext n' heq ▸ hm)).later hg

lemma InvAt.publish {new : Nid} (hpc : s.pc t = .publish c kd new)
    (hnext : s.next γ.last 0 = γ.rest) (hid : x.id? = some c.id) (hnew : x.new? = none)
    (hx : ∀ w log time, Done log c.id (linked kd) → Linked w new →
      ThreadOk γ k w log time (s.succs t 0) x) :
    Inv γ k ((s.setNext γ.last 0 (some new)).move t x) := by
  let s' : State K V := s.setNext γ.last 0 (some new)
  obtain ⟨-, ⟨hp, hown⟩, -⟩ := h.at hpc
  have ho := hown new rfl
  have hnone := cell_eq_none hnext
  have hcell : (view γ s').cell = some new := by
    refine cell_eq_some.mpr ⟨(setNext_apply ..).trans (if_pos ⟨rfl, rfl⟩), ?_⟩
    exact Nat.not_lt.mp (of_decide_eq_false ho.key)
  have hview : view γ s' = { view γ s with cell := some new } := by rw [← hcell]; rfl
  have hg : Grows (view γ s) (view γ s') := hview ▸ .link hnone
  have hlinked : Linked (view γ s') new := hview ▸ ⟨ho.key, ho.lt, .inl rfl⟩
  have hshape : Shape γ k s' := h.shape.setLast hg (.inr ⟨new, rfl, hlinked⟩)
  obtain ⟨log', time', hthreads⟩ := h.toThreads.link (t := t)
    (show (s.pc t).id? = some c.id by rw [hpc]; rfl) (x, s.succs t 0) hid hnew
    (show (s.pc t).new? = some new by rw [hpc]; rfl) hp ho hnone (by cases kd <;> rfl)
    fun w' log' time' _ hdone hlinked => hx w' log' time' hdone hlinked
  refine ⟨log', time', ?_, { hshape with }⟩
  rw [threads_move, show view γ (s'.move t x) = _ from hview]
  exact hthreads

lemma InvAt.exchange {victim : Nid} (hpc : s.pc t = .exchange c v victim) :
    Inv γ k ((s.setValue victim v).move t (.ret c.id (.old (some (s.value victim))))) := by
  obtain ⟨hp, hvictim, hunmarked⟩ := h.at hpc
  obtain ⟨log', time', hthreads⟩ := h.toThreads.exchange (t := t)
    (show (s.pc t).id? = some c.id by rw [hpc]; rfl)
    (.ret c.id (.old (some (s.value victim))), s.succs t 0) rfl rfl hp hvictim hunmarked
    fun _ _ _ _ hdone _ => hdone
  refine ⟨log', time', ?_, h.shape.grow (.exchange hunmarked) rfl rfl rfl rfl rfl⟩
  rw [threads_move]
  exact hthreads

/-- A remove marks level 0 of a node that no put is about to update: it takes effect. -/
lemma InvAt.mark {victim : Nid} {next : Option Nid} (hpc : s.pc t = .markCas c victim level next)
    (hunmarked : s.marked victim 0 = false) (hclear : ∀ u, (s.pc u).updates ≠ some victim) :
    Inv γ k ((s.setMark victim 0 true).move t (.loadValue c victim)) := by
  obtain ⟨hkey, hp, hvictim, -⟩ := h.at hpc
  have hview : view γ (s.setMark victim 0 true)
      = { view γ s with marked := update (view γ s).marked victim true } := by
    rw [view, funext fun m => setMark_apply s victim 0 true m 0]
    congr 1
    funext m
    by_cases hm : m = victim <;> simp [hm, view]
  obtain ⟨log', time', hthreads⟩ := h.toThreads.mark (t := t)
    (show (s.pc t).id? = some c.id by rw [hpc]; rfl) (.loadValue c victim, s.succs t 0) rfl rfl hp
    hvictim hunmarked hclear fun _ _ _ _ hdone hmarked => ⟨hkey, hdone, hmarked⟩
  refine ⟨log', time', ?_, h.shape.grow (hview ▸ .mark) rfl rfl rfl rfl rfl⟩
  rw [threads_move, show view γ ((s.setMark victim 0 true).move t (.loadValue c victim)) = _ from hview]
  exact hthreads

lemma InvAt.ret {res : Res V} (hpc : s.pc t = .ret id res) :
    Inv γ k (({ s with hist := s.hist ++ [.ret id res] } : State K V).move t .idle) := by
  refine ⟨log, time, ?_, h.shape.grow (.hist _) rfl rfl rfl rfl rfl⟩
  rw [threads_move]
  exact h.toThreads.ret (show (s.pc t).id? = some id by rw [hpc]; rfl) (h.at hpc) rfl rfl
    fun _ => trivial

lemma InvAt.call {op : Op V} : Inv γ k (({ s with
      callCount := s.callCount + 1
      hist := s.hist ++ [.call s.callCount op] } : State K V).move t
        (first ⟨s.callCount, k⟩ op)) := by
  refine ⟨log, time, ?_, h.shape.grow (.hist _) rfl rfl rfl rfl rfl⟩
  rw [threads_move]
  refine h.toThreads.call ?_ ?_ fun w' _ hp => ?_
  · cases op <;> rfl
  · cases op <;> rfl
  · cases op with
    | insert v | put v => exact ⟨rfl, Nat.zero_le _, hp, fun n hn => by cases hn⟩
    | get | remove => exact ⟨rfl, Nat.zero_le _, hp⟩

end

/-! ## The search -/

/-- What is known after the search at level 0: it has missed the key, or `curr`
is in the list. -/
def Met (γ : Gap) (w : View V) (log : Log V) (id : Nat) (g : Goal V)
    (curr : Option Nid) : Prop :=
  curr = γ.rest ∧ Missed w log id g ∨
    ∃ m, curr = some m ∧ Linked w m ∧ w.marked m = false ∧ Ready w log id g

variable {pred : Nid} {curr : Option Nid}

lemma Shape.setArrays (h : Shape γ k s) (hpred : pred ≤ γ.last)
    (hcurr : ∀ m, curr = some m → Known γ (view γ s) m) :
    Shape γ k (s.setArrays t level pred curr) := by
  refine { h with preds := fun u i => ?_, succs := fun u i m hm => ?_ }
  · by_cases hu : u = t
    · subst hu
      by_cases hi : i = level <;> simp [hi, h.preds, hpred]
    · simp [hu, h.preds]
  · by_cases hu : u = t
    · subst hu
      by_cases hi : i = level
      · exact hcurr m (by simpa [hi] using hm)
      · exact h.succs u i m (by simpa [hi] using hm)
    · exact h.succs u i m (by simpa [hu] using hm)

/-- The search meets the end of the place of the key: a remove finds nothing. -/
lemma InvAt.miss (h : InvAt γ k s log time) (hready : Ready (view γ s) log id g)
    (hnext : s.next γ.last 0 = γ.rest) :
    ∃ log', Tracked (view γ s) log' time ∧ Later id (view γ s) log time (view γ s) log' time ∧
      Missed (view γ s) log' id g := by
  cases g with
  | remove =>
    obtain ⟨log', htracked, hdone, hlater⟩ : Answer id (view γ s) log time (.removed none) := by
      refine h.tracked.readNow hready ?_
      rw [entry_none (by simp [cell_eq_none hnext])]
      rfl
    exact ⟨log', htracked, hlater, hdone⟩
  | link kd new | relink kd new level | unlink victim v =>
    exact ⟨log, h.tracked, Later.refl _ _ _ _, hready⟩

lemma InvAt.store (h : InvAt γ k s log time) (hthread : (s.pc t).id? = some id)
    (hpred : pred ≤ γ.last) (hcurr : ∀ m, curr = some m → Known γ (view γ s) m)
    (htracked : Tracked (view γ s) log' time)
    (hlater : Later id (view γ s) log time (view γ s) log' time) (hid : x.id? = some id)
    (hnew : ∀ n, x.new? = some n → (s.pc t).new? = some n)
    (hx : ThreadOk γ k (view γ s) log' time
      ((s.setArrays t level pred curr).succs t 0) x) :
    Inv γ k ((s.setArrays t level pred curr).move t x) := by
  have hshape : Shape γ k (s.setArrays t level pred curr) := h.shape.setArrays hpred hcurr
  refine ⟨log', time, h.same rfl hthread rfl rfl { hshape with }
    (fun u hu => update_of_ne hu ..) htracked hlater (fun i hi => ?_) hnew hx⟩
  rw [hid] at hi
  exact (Option.some.inj hi).symm

lemma InvAt.found (h : InvAt γ k s log time) (hthread : (s.pc t).id? = some c.id) (hkey : c.key = k)
    (hpred : pred ≤ γ.last) (hnew : ∀ n, g.new? = some n → (s.pc t).new? = some n)
    (htracked : Tracked (view γ s) log' time)
    (hlater : Later c.id (view γ s) log time (view γ s) log' time)
    (hmet : Met γ (view γ s) log' c.id g curr) (hs' : s' = s.setArrays t 0 pred curr) :
    Inv γ k (s'.move t (found s' t c g)) := by
  have hsucc : s'.succs t 0 = curr := by rw [hs']; simp
  have hkeys : s'.key = s.key := by rw [hs']
  have hcurr : ∀ m, curr = some m → Known γ (view γ s) m := by
    rintro m rfl
    rcases hmet with ⟨hrest, -⟩ | ⟨m', heq, hm', -⟩
    · exact Gap.known_rest hrest.symm
    · cases heq
      exact .inr hm'
  -- the thread goes on with what is known in the old state
  have hgo : ∀ {x : Pc K V} {log₂ : Log V}, Tracked (view γ s) log₂ time →
      Later c.id (view γ s) log time (view γ s) log₂ time → x.id? = some c.id →
      (∀ n, x.new? = some n → (s.pc t).new? = some n) →
      ThreadOk γ k (view γ s) log₂ time curr x → Inv γ k (s'.move t x) := by
    intro x log₂ htracked hlater hid hxnew hx
    rw [← hsucc] at hx
    subst hs'
    exact h.store hthread hpred hcurr htracked hlater hid hxnew hx
  rcases hmet with ⟨hrest, hmissed⟩ | ⟨m, hm, hlinked, hunmarked, hready⟩
  · -- the keys of the nodes behind the place of the key are greater
    have hother : ∀ m, curr = some m → s'.key m ≠ c.key := by
      intro m hm heq
      rw [hkeys, hkey] at heq
      exact h.shape.rest_ne (le_of_eq heq) (hrest ▸ hm)
    cases g with
    | link kd new =>
      have hcreate : LfSkipList.found s' t c (.link kd new) = .create c kd new := by
        rw [LfSkipList.found, hsucc]
        cases curr with
        | none => rfl
        | some m => exact if_neg (hother m rfl)
      rw [hcreate]
      exact hgo htracked hlater rfl hnew ⟨hkey, hmissed, hrest⟩
    | relink kd new level =>
      exact hgo htracked hlater rfl (fun n hn => by cases hn) ⟨hkey, hmissed⟩
    | remove =>
      have hnone : LfSkipList.found s' t c .remove = .ret c.id (.removed none) := by
        rw [LfSkipList.found, hsucc]
        cases curr with
        | none => rfl
        | some m => exact if_neg (hother m rfl)
      rw [hnone]
      exact hgo htracked hlater rfl (fun n hn => by cases hn) hmissed
    | unlink victim v => exact hgo htracked hlater rfl (fun n hn => by cases hn) hmissed
  · have hmkey : s'.key m = c.key := by
      rw [hkeys, hkey, h.shape.keys.new m (base_le hlinked) hlinked.lt]
    cases g with
    | link kd new =>
      rw [LfSkipList.found, hsucc, hm]
      simp only [hmkey, if_true]
      cases kd with
      | insert v =>
        have happly : apply (view γ s).entry (.insert v) = (.inserted false, (view γ s).entry) := by
          rw [hlinked.entry hunmarked]
          rfl
        obtain ⟨log₂, htracked₂, hdone, hlater₂⟩ := htracked.readNow hready.1 happly
        exact hgo htracked₂ (answer_trans hlater hlater₂) rfl (fun n hn => by cases hn) hdone
      | put v =>
        exact hgo htracked hlater rfl (fun n hn => by cases hn) ⟨hready.1, hlinked, hunmarked⟩
    | relink kd new level =>
      exact hgo htracked hlater rfl (fun n hn => by cases hn) ⟨hkey, hready⟩
    | remove =>
      rw [LfSkipList.found, hsucc, hm]
      simp only [hmkey, if_true]
      refine hgo htracked hlater rfl (fun n hn => by cases hn) ⟨hkey, hready, hlinked, ?_⟩
      exact fun hmarked => absurd (hmarked.symm.trans hunmarked) (by decide)
    | unlink victim v => exact hgo htracked hlater rfl (fun n hn => by cases hn) hready

lemma InvAt.down (h : InvAt γ k s log time) (hthread : (s.pc t).id? = some c.id) (hkey : c.key = k)
    (hpred : pred ≤ γ.last) (hnew : ∀ n, g.new? = some n → (s.pc t).new? = some n)
    (hcurr : ∀ m, curr = some m → Known γ (view γ s) m) (hlevel : level ≠ 0)
    (hready : Ready (view γ s) log c.id g) : Inv γ k (findDown s t c g level pred curr) := by
  cases level with
  | zero => exact absurd rfl hlevel
  | succ level =>
    exact h.store hthread hpred hcurr h.tracked (Later.refl _ _ _ _) rfl hnew ⟨hkey, hpred, hready⟩

lemma InvAt.arrive (h : InvAt γ k s log time) {p : Option Nid} (hthread : (s.pc t).id? = some c.id)
    (hkey : c.key = k) (hpred : pred ≤ γ.last) (hready : Ready (view γ s) log c.id g)
    (hnew : ∀ n, g.new? = some n → (s.pc t).new? = some n) (hp : s.next pred level = p) :
    Inv γ k (findArrive s t c g level pred p) := by
  have hlinks := h.shape.links pred level
  rw [hp] at hlinks
  -- the search meets a node at which it has not missed the key
  have hmeet : ∀ curr, p = some curr → (level = 0 → curr ≤ γ.last ∨ γ.base ≤ curr) →
      Inv γ k (findArrive s t c g level pred p) := by
    rintro curr rfl hplace
    exact ⟨log, time, h.move hthread rfl hnew
      ⟨hkey, hpred, hlinks curr rfl, .inl ⟨hready, hplace⟩⟩⟩
  by_cases hlevel : level = 0
  · subst hlevel
    rcases Nat.lt_or_eq_of_le hpred with hlt | rfl
    · exact hmeet (pred + 1) (hp ▸ h.shape.bottom.low pred hlt) fun _ => .inl hlt
    rcases h.shape.bottom.last with hrest | ⟨m, hm, hbase⟩
    · obtain ⟨log', htracked, hlater, hmissed⟩ := h.miss hready hrest
      have hp' : p = γ.rest := hp ▸ hrest
      cases p with
      | none => exact h.found hthread hkey hpred hnew htracked hlater (.inl ⟨hp', hmissed⟩) rfl
      | some curr =>
        exact ⟨log', time, h.quiet hthread htracked hlater rfl hnew
          ⟨hkey, hpred, hlinks curr rfl, .inr ⟨rfl, hp'.symm, hmissed⟩⟩⟩
    · exact hmeet m (hp ▸ hm) fun _ => .inr hbase
  · cases p with
    | none => exact h.down hthread hkey hpred hnew (fun m hm => by cases hm) hlevel hready
    | some curr => exact hmeet curr rfl fun hzero => absurd hzero hlevel

/-! ## get -/

section

variable (h : InvAt γ k s log time)

include h

lemma InvAt.readNone (hp : Pending (view γ s) log id .get)
    (hentry : (view γ s).entry = none) : Answer id (view γ s) log time (.found none) :=
  h.tracked.readNow hp (by rw [hentry]; rfl)

variable (hthread : (s.pc t).id? = some c.id)

include hthread

/-- A get is through with a level above 0 at which it has not found the key. -/
lemma InvAt.getDown (hkey : c.key = k) (hpred : pred ≤ γ.last) (hlevel : level ≠ 0)
    (hp : Pending (view γ s) log c.id .get) : Inv γ k (s.move t (getDown c pred level)) := by
  cases level with
  | zero => exact absurd rfl hlevel
  | succ level => exact h.go hthread rfl rfl ⟨hkey, hpred, hp⟩

lemma InvAt.getRest (hkey : c.key = k) (hpred : pred ≤ γ.last)
    (hmiss : Answer c.id (view γ s) log time (.found none)) :
    Inv γ k (s.move t (getArrive c 0 pred γ.rest)) := by
  cases hrest : γ.rest with
  | none => exact h.answer hthread hmiss
  | some curr =>
    obtain ⟨log', htracked, hdone, hlater⟩ := hmiss
    exact ⟨log', time, h.quiet hthread htracked hlater rfl (fun n hn => by cases hn)
      ⟨hkey, hpred, Gap.known_rest hrest, .inr ⟨rfl, hdone, .inr hrest⟩⟩⟩

lemma InvAt.getLevel (hkey : c.key = k) (hpred : pred ≤ γ.last)
    (hp : Pending (view γ s) log c.id .get) :
    Inv γ k (s.move t (getArrive c level pred (s.next pred level))) := by
  by_cases hlevel : level = 0
  · subst hlevel
    rcases Nat.lt_or_eq_of_le hpred with hlt | rfl
    · have hnext : s.next pred 0 = some (pred + 1) := h.shape.bottom.low pred hlt
      rw [hnext]
      exact h.go hthread rfl rfl
        ⟨hkey, hpred, h.shape.links pred 0 _ hnext, .inl ⟨hp, fun _ => .inl hlt⟩⟩
    rcases h.shape.bottom.last with hrest | ⟨m, hm, hbase⟩
    · rw [show s.next γ.last 0 = γ.rest from hrest]
      exact h.getRest hthread hkey hpred (h.readNone hp (entry_none (by simp [cell_eq_none hrest])))
    · rw [show s.next γ.last 0 = some m from hm]
      have hknown := h.shape.links γ.last 0 m hm
      cases hmarked : s.marked m 0 with
      | false =>
        refine h.go hthread rfl rfl ⟨hkey, hpred, hknown, .inl ⟨hp, fun _ => .inr ⟨hbase, ?_⟩⟩⟩
        exact fun hm => absurd (hmarked.symm.trans hm) (by decide)
      | true =>
        -- the node is marked already: the get finds nothing, from now on
        have hcell : (view γ s).cell = some m := cell_eq_some.mpr ⟨hm, hbase⟩
        obtain ⟨log', htracked, hdone, hlater⟩ := h.readNone hp (entry_none fun m' hm' => by
          cases hcell.symm.trans hm'
          exact hmarked)
        exact ⟨log', time, h.quiet hthread htracked hlater rfl (fun n hn => by cases hn)
          ⟨hkey, hpred, hknown, .inr ⟨rfl, hdone, .inl hmarked⟩⟩⟩
  · cases hnext : s.next pred level with
    | none => exact h.getDown hthread hkey hpred hlevel hp
    | some curr =>
      exact h.go hthread rfl rfl ⟨hkey, hpred, h.shape.links pred level curr hnext,
        .inl ⟨hp, fun heq => absurd heq hlevel⟩⟩

lemma InvAt.getSkip {curr : Nid} (hkey : c.key = k) (hpred : pred ≤ γ.last)
    (hgetting : Getting γ (view γ s) log time c.id level curr)
    (hmarked : s.marked curr level = true) :
    Inv γ k (s.move t (getArrive c level pred (s.next curr level))) := by
  by_cases hlevel : level = 0
  · subst hlevel
    obtain ⟨hbase, hlt⟩ := h.marks hmarked
    rw [show s.next curr 0 = γ.rest from h.shape.bottom.new curr hbase hlt]
    refine h.getRest hthread hkey hpred ?_
    rcases hgetting with ⟨hp, hplace⟩ | ⟨-, hdone, -⟩
    · have hnew := (hplace rfl).resolve_left
        (Nat.not_le.mpr (Nat.lt_of_lt_of_le γ.last_lt hbase))
      exact h.tracked.readGone hp hnew.2 hmarked rfl
    · exact ⟨log, h.tracked, hdone, Later.refl _ _ _ _⟩
  · have hp : Pending (view γ s) log c.id .get :=
      (hgetting.resolve_right fun hdone => hlevel hdone.1).1
    cases hnext : s.next curr level with
    | none => exact h.getDown hthread hkey hpred hlevel hp
    | some m =>
      exact h.go hthread rfl rfl ⟨hkey, hpred, h.shape.links curr level m hnext,
        .inl ⟨hp, fun heq => absurd heq hlevel⟩⟩

lemma InvAt.getCompare {curr : Nid} (hkey : c.key = k) (hpred : pred ≤ γ.last)
    (hcurr : Known γ (view γ s) curr) (hgetting : Getting γ (view γ s) log time c.id level curr)
    (hmarked : s.marked curr level = false) :
    Inv γ k (s.move t (if s.key curr < c.key then getArrive c level curr (s.next curr level)
      else if s.key curr = c.key then .getMark c level pred curr
      else LfSkipList.getDown c pred level)) := by
  subst hkey
  split_ifs with hlt heq
  · have hlast := h.shape.le_last hcurr hlt
    refine h.getLevel hthread rfl hlast (hgetting.resolve_right fun hdone => ?_).1
    obtain ⟨rfl, -, hmark | hrest⟩ := hdone
    · exact absurd (hmarked.symm.trans hmark) (by decide)
    · exact h.shape.rest_ne (le_of_lt hlt) hrest
  · have hlinked := h.shape.linked_of_key hcurr heq
    obtain ⟨hp, hplace⟩ := hgetting.resolve_right fun hdone => by
      obtain ⟨rfl, -, hmark | hrest⟩ := hdone
      · exact absurd (hmarked.symm.trans hmark) (by decide)
      · exact h.shape.rest_ne (le_of_eq heq) hrest
    refine h.go hthread rfl rfl ⟨rfl, hpred, hlinked, hp, fun hlevel => ?_⟩
    exact ((hplace hlevel).resolve_left (Nat.not_le.mpr (h.shape.last_lt hcurr hlt))).2
  · rcases hgetting with ⟨hp, hplace⟩ | ⟨rfl, hdone, -⟩
    · refine h.getDown hthread rfl hpred (fun hlevel => heq ?_) hp
      have hnew := (hplace hlevel).resolve_left (Nat.not_le.mpr (h.shape.last_lt hcurr hlt))
      exact h.shape.keys.new curr hnew.1 (hcurr.resolve_left fun hold => absurd hold.2
        (Nat.not_lt.mpr hnew.1)).lt
    · exact h.answer hthread ⟨log, h.tracked, hdone, Later.refl _ _ _ _⟩

/-! ## remove and the upper levels -/

lemma InvAt.markedBy {victim : Nid} (hkey : c.key = k) (hp : Pending (view γ s) log c.id .remove)
    (hvictim : Linked (view γ s) victim) (hbefore : Before (view γ s) time c.id .remove victim)
    (hmarked : s.marked victim level = true) : Inv γ k (s.move t (markedBy c victim level)) := by
  cases level with
  | zero =>
    exact h.answer hthread (h.tracked.readGone hp hbefore hmarked rfl)
  | succ level =>
    exact h.go hthread rfl rfl ⟨hkey, hp, hvictim, hbefore⟩

lemma InvAt.linkNext {kd : Kind V} {new : Nid} {s0 : State K V} (hkey : c.key = k)
    (hdone : Done log c.id (linked kd)) (hnew : Linked (view γ s) new) :
    Inv γ k (s.move t (linkNext s0 c kd new (level + 1))) := by
  unfold LfSkipList.linkNext
  split
  · exact h.go hthread rfl rfl ⟨hkey, hdone, hnew, Nat.succ_ne_zero level⟩
  · exact h.go hthread rfl rfl hdone

end

/-! ## Every step -/

/-- A call is on the key `k`. -/
def OnKey (k : K) : Act K V → Prop
  | .call _ key _ => key = k
  | _ => True

/-- All calls are on the key `k`, and no remove marks level 0 of a node that a
put has found and is about to update. -/
def Clear (k : K) (s : State K V) : Act K V → Prop
  | .call _ key _ => key = k
  | .go t _ => ∀ c victim next, s.pc t = .markCas c victim 0 next → s.nextIs victim 0 next →
      ∀ u, (s.pc u).updates ≠ some victim
  | _ => True

lemma inv_go (h : InvAt γ k s log time) {fail : Bool} (hclear : Clear k s (.go t fail))
    (hs : go s t fail (s.pc t) = some s') : Inv γ k s' := by
  have hok := h.at (t := t) rfl
  generalize hpc : s.pc t = x at hs hok
  have hthread : ∀ i, x.id? = some i → (s.pc t).id? = some i := fun i hi => hpc ▸ hi
  have hsame : ∀ n, x.new? = some n → (s.pc t).new? = some n := fun n hn => hpc ▸ hn
  cases x with
  | idle => cases hs
  | findLevel c g level pred =>
    obtain ⟨hkey, hpred, hready⟩ := hok
    cases hs
    exact h.arrive (hthread _ rfl) hkey hpred hready hsame rfl
  | findNext c g level pred curr =>
    obtain ⟨hkey, hpred, hcurr, harrived⟩ := hok
    rw [go] at hs
    split at hs
    · rename_i hmarked
      cases hs
      have hzero : level = 0 → γ.base ≤ curr ∧ curr < s.nodeCount := by
        rintro rfl
        exact h.marks hmarked
      have hready := harrived.resolve_right fun hmissed =>
        absurd (Gap.rest_eq_some.mp hmissed.2.1).2 (Nat.not_lt.mpr (hzero hmissed.1).1)
      refine ⟨log, time, h.move (hthread _ rfl) rfl hsame ⟨hkey, hpred, hready.1,
        fun m hm => h.shape.links curr level m hm, ?_⟩⟩
      rintro rfl
      obtain ⟨hbase, hlt⟩ := hzero rfl
      exact ⟨hmarked, hbase, h.shape.bottom.new curr hbase hlt⟩
    · rename_i hmarked
      split at hs
      · rename_i hlt
        cases hs
        rw [hkey] at hlt
        have hready := harrived.resolve_right fun hmissed =>
          h.shape.rest_ne (le_of_lt hlt) hmissed.2.1
        exact h.arrive (hthread _ rfl) hkey (h.shape.le_last hcurr hlt) hready.1 hsame rfl
      · rename_i hlt
        cases hs
        rw [hkey] at hlt
        by_cases hlevel : level = 0
        · subst hlevel
          refine h.found (hthread _ rfl) hkey hpred hsame h.tracked (Later.refl _ _ _ _) ?_ rfl
          rcases harrived with ⟨hready, hplace⟩ | ⟨-, hrest, hmissed⟩
          · have hbase := (hplace rfl).resolve_left (Nat.not_le.mpr (h.shape.last_lt hcurr hlt))
            exact .inr ⟨curr, rfl, hcurr.resolve_left fun hold => absurd hold.2
              (Nat.not_lt.mpr hbase), Bool.eq_false_iff.mpr hmarked, hready⟩
          · exact .inl ⟨hrest.symm, hmissed⟩
        · refine h.down (hthread _ rfl) hkey hpred hsame (fun m hm => ?_) hlevel
            (harrived.resolve_right fun hmissed => hlevel hmissed.1).1
          cases hm
          exact hcurr
  | findUnlink c g level pred curr succ =>
    obtain ⟨hkey, hpred, hready, hsucc, hzero⟩ := hok
    rw [go] at hs
    split at hs
    · rename_i hcas
      cases hs
      have hself : (s.setNext pred level succ).next pred level = succ := by
        rw [setNext_apply, if_pos ⟨rfl, rfl⟩]
      have hunlinked : InvAt γ k (s.setNext pred level succ) log time := by
        by_cases hlevel : level = 0
        · subst hlevel
          obtain ⟨hmarked, hbase, rfl⟩ := hzero rfl
          obtain rfl := h.shape.bottom.eq_last hpred fun m hm => by
            cases hcas.2.1.symm.trans hm
            exact Nat.lt_of_lt_of_le γ.last_lt hbase
          exact h.unlink hcas.2.1 hbase hmarked
        · exact h.setNext hlevel hsucc
      have hready' := hunlinked.at hpc
      exact hunlinked.arrive (hthread _ rfl) hkey hpred hready'.2.2.1 hsame hself
    · cases hs
      exact ⟨log, time, h.move (hthread _ rfl) rfl hsame ⟨hkey, Nat.zero_le _, hready⟩⟩
  | create c kd new => cases hs
  | publish c kd new =>
    obtain ⟨hkey, hready, hrest⟩ := hok
    simp only [go, hrest] at hs
    split at hs
    · rename_i hcas
      cases hs
      have hlast : s.preds t 0 = γ.last := h.shape.bottom.eq_last (h.shape.preds t 0) fun m hm => by
        obtain ⟨rfl, -⟩ := Gap.rest_eq_some.mp (hcas.1.symm.trans hm)
        exact Nat.lt_succ_self _
      rw [hlast] at hcas ⊢
      refine h.publish hpc hcas.1 ?_ ?_ fun w log time hdone hlinked => ?_
      · unfold linkNext
        split <;> rfl
      · unfold linkNext
        split <;> rfl
      · unfold linkNext
        split
        · exact ⟨hkey, hdone, hlinked, Nat.one_ne_zero⟩
        · exact hdone
    · cases kd with
      | insert v =>
        cases hs
        exact ⟨log, time, h.move (hthread _ rfl) rfl hsame ⟨hkey, Nat.zero_le _, hready⟩⟩
      | put v =>
        cases hs
        exact h.go (hthread _ rfl) rfl rfl ⟨hkey, Nat.zero_le _, hready.1, fun n hn => by cases hn⟩
  | linkLoad c kd new level =>
    obtain ⟨hkey, hdone, hnew, hlevel⟩ := hok
    simp only [go] at hs
    split at hs
    · cases kd with
      | insert v =>
        cases hs
        exact h.go (hthread _ rfl) rfl rfl hdone
      | put v =>
        cases hs
        exact h.linkNext (hthread _ rfl) hkey hdone hnew
    · cases hs
      exact h.go (hthread _ rfl) rfl rfl ⟨hkey, hdone, hnew, hlevel⟩
  | linkCas c kd new level =>
    obtain ⟨hkey, hdone, hnew, hlevel⟩ := hok
    rw [go] at hs
    split at hs
    · cases hs
      have hlink : InvAt γ k (s.setNext (s.preds t level) level (some new)) log time :=
        h.setNext hlevel fun m hm => Option.some.inj hm ▸ .inr hnew
      exact hlink.linkNext (hthread _ rfl) hkey hdone (hlink.at hpc).2.2.1
    · cases hs
      exact h.go (hthread _ rfl) rfl rfl ⟨hkey, Nat.zero_le _, hdone, hnew, hlevel⟩
  | linkStore c kd new level =>
    obtain ⟨hkey, hdone, hnew, hlevel⟩ := hok
    cases hs
    have hstore : InvAt γ k ((s.setNext new level (s.succs t level)).setMark new level false) log
        time := (h.setNext hlevel fun m hm => h.shape.succs t level m hm).setMark hlevel
    have hready' := hstore.at hpc
    exact hstore.go (hthread _ rfl) rfl rfl hready'
  | exchange c v victim =>
    cases hs
    exact h.exchange hpc
  | markLoad c victim level =>
    obtain ⟨hkey, hp, hvictim, hbefore⟩ := hok
    rw [go] at hs
    split at hs
    · rename_i hmarked
      cases hs
      exact h.markedBy (hthread _ rfl) hkey hp hvictim hbefore hmarked
    · cases hs
      exact h.go (hthread _ rfl) rfl rfl ⟨hkey, hp, hvictim, hbefore⟩
  | markCas c victim level next =>
    obtain ⟨hkey, hp, hvictim, hbefore⟩ := hok
    rw [go] at hs
    split at hs
    · rename_i hcas
      cases hs
      cases level with
      | zero => exact h.mark hpc hcas.2.2 (hclear c victim next hpc hcas.2)
      | succ level =>
        have hmark : InvAt γ k (s.setMark victim (level + 1) true) log time :=
          h.setMark (Nat.succ_ne_zero level)
        have hready' := hmark.at hpc
        exact hmark.go (hthread _ rfl) rfl rfl hready'
    · split at hs
      · rename_i hmarked
        cases hs
        exact h.markedBy (hthread _ rfl) hkey hp hvictim hbefore hmarked
      · cases hs
        exact h.go (hthread _ rfl) rfl rfl ⟨hkey, hp, hvictim, hbefore⟩
  | loadValue c victim =>
    obtain ⟨hkey, hdone, -⟩ := hok
    cases hs
    exact h.go (hthread _ rfl) rfl rfl ⟨hkey, Nat.zero_le _, hdone⟩
  | retire c victim v =>
    cases hs
    exact ⟨log, time, h.same rfl (hthread _ rfl) rfl rfl { h.shape with } (fun _ _ => rfl)
      h.tracked (Later.refl _ _ _ _) (fun i hi => (Option.some.inj hi).symm)
      (fun n hn => by cases hn) hok⟩
  | getLevel c level pred =>
    obtain ⟨hkey, hpred, hp⟩ := hok
    cases hs
    exact h.getLevel (hthread _ rfl) hkey hpred hp
  | getNext c level pred curr =>
    obtain ⟨hkey, hpred, hcurr, hgetting⟩ := hok
    rw [go] at hs
    split at hs
    · rename_i hmarked
      cases hs
      exact h.getSkip (hthread _ rfl) hkey hpred hgetting hmarked
    · rename_i hmarked
      have hcompare := h.getCompare (hthread _ rfl) hkey hpred hcurr hgetting
        (Bool.eq_false_iff.mpr hmarked)
      split_ifs at hs hcompare <;> cases hs <;> exact hcompare
  | getMark c level pred curr =>
    obtain ⟨hkey, hpred, hcurr, hp, hbefore⟩ := hok
    rw [go] at hs
    split at hs
    · rename_i hmarked
      cases hs
      by_cases hlevel : level = 0
      · subst hlevel
        exact h.answer (hthread _ rfl) (h.tracked.readGone hp (hbefore rfl) hmarked rfl)
      · exact h.getDown (hthread _ rfl) hkey hpred hlevel hp
    · rename_i hmarked
      cases hs
      exact h.go (hthread _ rfl) rfl rfl ⟨hcurr, hp, fun hmark => absurd hmark hmarked⟩
  | getValue c curr =>
    obtain ⟨hcurr, hp, hbefore⟩ := hok
    cases hs
    cases hmarked : (view γ s).marked curr with
    | true =>
      exact h.answer (hthread _ rfl) (h.tracked.readLast hp hbefore hmarked)
    | false =>
      have happly : apply (view γ s).entry .get
          = (.found (some (s.value curr)), (view γ s).entry) := by
        rw [hcurr.entry hmarked]
        rfl
      exact h.answer (hthread _ rfl) (h.tracked.readNow hp happly)
  | ret i res =>
    cases hs
    exact h.ret hpc

variable [DecidableEq V]

lemma inv_step {act : Act K V} (h : Inv γ k s) (hclear : Clear k s act)
    (hs : step s act = some s') : Inv γ k s' := by
  obtain ⟨log, time, h⟩ := h
  cases act with
  | call t key op =>
    rw [step] at hs
    split at hs
    · rename_i hidle
      cases hs
      obtain rfl : key = k := hclear
      exact h.call
    · cases hs
  | create t level =>
    rw [step] at hs
    split at hs
    · rename_i c kd new hpc
      split at hs
      · rename_i hlevel
        cases hs
        cases new with
        | none => exact h.create hpc hlevel.1
        | some new => exact h.reuse hpc
      · cases hs
    · cases hs
  | noMemory t =>
    rw [step] at hs
    split at hs
    · rename_i c kd hpc
      cases hs
      exact ⟨log, time, h.same rfl (show _ = some c.id by rw [hpc]; rfl) rfl rfl { h.shape with }
        (fun _ _ => rfl) h.tracked (Later.refl _ _ _ _) (fun i hi => by cases hi)
        (fun n hn => by cases hn) trivial⟩
    · cases hs
  | go t fail => exact inv_go h hclear hs

end Inv

/-! ## Every run -/

section Run

variable [LinearOrder K] {key : Nid → K} {topLevel : Nid → Nat} {value : Nid → V}

/-- The place of the key among the nodes. -/
lemma Layout.exists_gap (h : Layout k count key topLevel) :
    ∃ γ : Gap, γ.base = count ∧ Keys γ k key count := by
  let P : Nat → Prop := fun n => n = head ∨ key n < k
  let last := Nat.findGreatest P (count - 1)
  have hlast : P last := Nat.findGreatest_spec (Nat.zero_le _) (.inl rfl)
  have hpos : 0 < count := h.head_lt
  have hlt : last < count := Nat.lt_of_le_of_lt (Nat.findGreatest_le _) (by omega)
  refine ⟨⟨count, last, hlt⟩, rfl, Nat.le_refl _, fun n hhead hn => ?_, fun n hn hlt' => ?_,
    fun n hn hlt' => absurd hlt' (Nat.not_lt.mpr hn)⟩
  · have hkey : key last < k := hlast.resolve_left (ne_of_gt (Nat.lt_of_lt_of_le hhead hn))
    rcases Nat.lt_or_eq_of_le hn with hn | rfl
    · exact lt_trans (h.sorted n last hhead hn hlt) hkey
    · exact hkey
  · have hnot : ¬ P n := Nat.findGreatest_is_greatest hn (Nat.le_sub_one_of_lt hlt')
    have hhead : head < n := Nat.pos_of_ne_zero fun heq => hnot (.inl heq)
    exact lt_of_le_of_ne (not_lt.mp fun hkey => hnot (.inr hkey)) (h.absent n hhead hlt').symm

lemma Layout.next_zero (h : Layout k count key topLevel) (n : Nat) :
    (start count key topLevel value).next n 0 = if n + 1 < count then some (n + 1) else none := by
  split
  · rename_i hn
    refine List.find?_range_eq_some.mpr ⟨?_, List.mem_range.mpr hn, fun m hm => ?_⟩
    · simpa using Nat.lt_of_lt_of_le Nat.zero_lt_one (h.level _ hn).1
    · simp only [Bool.not_eq_true', decide_eq_false_iff_not]
      exact fun hbehind => absurd hbehind.1 (Nat.not_lt.mpr (Nat.le_of_lt_succ hm))
  · rename_i hn
    refine List.find?_eq_none.mpr fun m hm hfound => hn ?_
    simp only [decide_eq_true_eq] at hfound
    exact Nat.lt_of_le_of_lt hfound.1 (List.mem_range.mp hm)

lemma inv_start (h : Layout k count key topLevel) :
    ∃ γ, Inv γ k (start count key topLevel value) := by
  obtain ⟨γ, rfl, hkeys⟩ := h.exists_gap
  have hlast : (start γ.base key topLevel value).next γ.last 0 = γ.rest := h.next_zero γ.last
  have hthreads : Threads (phases γ k) (view γ (start γ.base key topLevel value))
      (threads (start γ.base key topLevel value)) 0 [] fun _ => 0 := by
    have hview : view γ (start γ.base key topLevel value)
        = ⟨none, fun _ => false, value, [], γ.base, fun n => n < γ.base⟩ := by
      rw [← cell_eq_none hlast]
      rfl
    exact hview ▸ threads_start _ _ _ (fun _ => rfl) (fun _ => rfl) fun _ _ _ _ => trivial
  refine ⟨γ, [], fun _ => 0, hthreads, hkeys, ⟨fun n hn => ?_, .inl hlast, fun n hn hlt => ?_⟩,
    fun n i m hm => .inl ?_, fun _ _ => Nat.zero_le _, fun _ _ _ hm => by cases hm⟩
  · exact (h.next_zero n).trans (if_pos (Nat.lt_of_le_of_lt hn γ.last_lt))
  · exact absurd hlt (Nat.not_lt.mpr hn)
  · have hfound := List.find?_some hm
    simp only [decide_eq_true_eq] at hfound
    exact ⟨Nat.lt_of_le_of_lt (Nat.zero_le n) hfound.1,
      List.mem_range.mp (List.mem_of_find?_eq_some hm)⟩

variable [DecidableEq V]

/-- **The operations on one key of the skip list are linearizable**, whatever
other keys are in it, in every run in which no remove marks level 0 of a node
that a put has found and is about to update; then no value is handed out
twice. -/
theorem lfSkipList_linearizable (h : (machine V k).ReachVia (Clear k) s) :
    Linearizable apply none s.hist ∧ (Distinct s.hist → HandedOutOnce s.hist) := by
  have hinv : ∃ γ, Inv γ k s := by
    refine h.invariant (fun s => ∃ γ, Inv γ k s) (fun s hs => ?_) fun s s' a hinv hok hs => ?_
    · obtain ⟨count, key, topLevel, value, hlayout, rfl⟩ := hs
      exact inv_start hlayout
    · exact hinv.imp fun γ hinv => inv_step hinv hok hs
  obtain ⟨γ, log, time, hinv⟩ := hinv
  have hlin := hinv.tracked.timed.linearizable
  exact ⟨hlin, handedOutOnce_of_linearizable hlin⟩

end Run

lemma idle_step [LinearOrder K] [DecidableEq V] {act : Act K V} (hs : step s act = some s')
    (hidle : s.pc u = .idle) (hcall : ∀ key op, act ≠ .call u key op) : s'.pc u = .idle := by
  have hdown : ∀ (s : State K V) t c g level pred curr, u ≠ t →
      (findDown s t c g level pred curr).pc u = s.pc u := by
    intro s t c g level pred curr hu
    cases level <;> exact update_of_ne hu ..
  have harrive : ∀ (s : State K V) t c g level pred p, u ≠ t →
      (findArrive s t c g level pred p).pc u = s.pc u := by
    intro s t c g level pred p hu
    cases p with
    | none => exact hdown s t c g level pred none hu
    | some curr => exact update_of_ne hu ..
  cases act with
  | call t key op =>
    have hu : u ≠ t := fun hut => hcall key op (hut ▸ rfl)
    rw [step] at hs
    split at hs <;> cases hs
    exact (update_of_ne hu ..).trans hidle
  | create t level =>
    rw [step] at hs
    split at hs
    · rename_i c kd new hpc
      have hu : u ≠ t := fun hut => by cases (hut ▸ hidle).symm.trans hpc
      split at hs <;> cases hs
      cases new <;> exact (update_of_ne hu ..).trans hidle
    · cases hs
  | noMemory t =>
    rw [step] at hs
    split at hs <;> cases hs
    rename_i hpc
    exact (update_of_ne (fun hut => by cases (hut ▸ hidle).symm.trans hpc) ..).trans hidle
  | go t fail =>
    have hu : u ≠ t := by
      rintro rfl
      rw [step, hidle] at hs
      cases hs
    rw [step] at hs
    rw [← hidle]
    generalize s.pc t = x at hs
    cases x with
    | idle | create => cases hs
    | _ =>
      simp only [go] at hs
      repeat' split at hs
      all_goals cases hs
      all_goals first
        | exact update_of_ne hu ..
        | exact harrive _ _ _ _ _ _ _ hu
        | exact hdown _ _ _ _ _ _ _ hu

/-- The keys 3 and 8, the second one at three levels. -/
lemma layout_two : Layout 5 3 (fun n => if n = 1 then 3 else 8)
    fun n => if n = 1 then 1 else if n = 2 then 3 else maxLevel :=
  ⟨by decide, by grind [head], by grind [maxLevel], by grind⟩

/-- A get that has found the node returns after a second put and a remove. -/
theorem lfSkipList_linearizable_removed :
    ∃ s : State Nat Nat, (machine Nat 5).ReachVia (Clear 5) s ∧
      s.hist = [.call 0 (.put 1), .ret 0 (.old none), .call 1 .get, .call 2 (.put 2),
        .ret 2 (.old (some 1)), .call 3 .remove, .ret 3 (.removed (some 2)),
        .ret 1 (.found (some 2)), .call 4 .get, .ret 4 (.found none)] ∧
      Linearizable apply none s.hist := by
  -- the three threads that call are the only ones that may be about to update
  let test : State Nat Nat → Act Nat Nat → Bool := fun s act => match act with
    | .call t key _ => t < 3 ∧ key = 5
    | .go t _ => match s.pc t with
      | .markCas _ _ _ _ => decide (∀ u : Nat, u < 3 → (s.pc u).updates = none)
      | _ => true
    | _ => true
  have hclear : ∀ s, (machine Nat 5).ReachVia (fun s act => test s act = true) s →
      (machine Nat 5).ReachVia (Clear 5) s := by
    intro s hs
    refine hs.weaken (fun s => ∀ u, 3 ≤ u → s.pc u = .idle) ?_ ?_ ?_
    · rintro _ ⟨_, _, _, _, -, rfl⟩ u -
      rfl
    · intro s s' act hidle htest hs u hu
      refine idle_step hs (hidle u hu) ?_
      rintro key op rfl
      exact absurd (of_decide_eq_true htest).1 (Nat.not_lt.mpr hu)
    · intro s act hidle htest
      cases act with
      | call t key op => exact (of_decide_eq_true htest).2
      | create t level | noMemory t => trivial
      | go t fail =>
        intro c victim next hpc hnext u
        simp only [test, hpc, decide_eq_true_eq] at htest
        rcases Nat.lt_or_ge u 3 with hu | hu
        · simp [htest u hu]
        · simp [hidle u hu, Pc.updates]
  have hstart : (machine Nat 5).ReachVia (fun s act => test s act = true)
      (start 3 _ _ fun _ => 0) := .init ⟨_, _, _, _, layout_two, rfl⟩
  refine (hstart.run_map (f := State.hist) test (fun _ _ htest => htest) (Machine.bursts
    [(1, .call 0 5 (.put 1)), (36, .go 0 false), (1, .create 0 2), (4, .go 0 false),
      (1, .call 1 5 .get), (34, .go 1 false), (1, .call 0 5 (.put 2)), (38, .go 0 false),
      (1, .call 2 5 .remove), (83, .go 2 false), (2, .go 1 false), (1, .call 0 5 .get),
      (37, .go 0 false)]) ?_).imp fun s hs =>
    ⟨hclear s hs.1, hs.2, (lfSkipList_linearizable (hclear s hs.1)).1⟩
  decide +kernel

/-- A put finds the node, a remove marks it and hands its value out, and then the
put exchanges the value: it hands out the same value again, and its own is lost. -/
theorem put_updates_removed :
    ∃ s : State Nat Nat, (machine Nat 5).ReachVia (fun _ act => OnKey 5 act) s ∧
      s.hist = [.call 0 (.insert 1), .ret 0 (.inserted true), .call 1 (.put 2), .call 2 .remove,
        .ret 2 (.removed (some 1)), .ret 1 (.old (some 1))] ∧
      Distinct s.hist ∧ ¬ HandedOutOnce s.hist ∧ ¬ Linearizable apply none s.hist := by
  have hstart : (machine Nat 5).ReachVia (fun _ act => OnKey 5 act)
      (start 3 _ _ fun _ => 0) := .init ⟨_, _, _, _, layout_two, rfl⟩
  refine hstart.exists_run (fun _ act => match act with
    | .call _ key _ => key = 5
    | _ => true) (fun s act hact => ?_) (Machine.bursts [(1, .call 0 5 (.insert 1)),
      (36, .go 0 false), (1, .create 0 1), (2, .go 0 false), (1, .call 1 5 (.put 2)),
      (1, .call 2 5 .remove), (36, .go 1 false), (79, .go 2 false), (2, .go 1 false)])
    (by decide +kernel) fun s _ hhist => ?_
  · cases act with
    | call t key op => exact (of_decide_eq_true hact : key = 5)
    | create t level => trivial
    | noMemory t => trivial
    | go t fail => trivial
  have hdistinct : Distinct s.hist := by
    intro i j op op' v hi hj hop hop'
    rw [hhist] at hi hj
    simp only [List.mem_cons, Event.call.injEq, reduceCtorEq, List.not_mem_nil, or_false,
      false_or] at hi hj
    rcases hi with ⟨rfl, rfl⟩ | ⟨rfl, rfl⟩ | ⟨rfl, rfl⟩ <;>
      rcases hj with ⟨rfl, rfl⟩ | ⟨rfl, rfl⟩ | ⟨rfl, rfl⟩ <;> first
      | rfl
      | (rw [← hop'] at hop; exact absurd hop (by decide))
  have htwice : ¬ HandedOutOnce s.hist := by
    intro honce
    rw [hhist] at honce
    have heq := honce 2 1 (.removed (some 1)) (.old (some 1)) 1 (by simp) (by simp) rfl rfl
    cases heq
  exact ⟨hdistinct, htwice, fun hlin => htwice (handedOutOnce_of_linearizable hlin hdistinct)⟩

end Cobalt.Container.LfSkipList
