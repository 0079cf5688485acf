/-
Cobalt.Container.MapEntry — one entry of a concurrent map.

The sequential object that the operations on one key are compared with is an
optional value (`apply`). The lock-free maps keep the entry in a list node:
a node is published, its value may be replaced, it is marked when the entry
is removed and unlinked later. `View` is what of this the entry depends on.
`Tracked` says that the history of the map has a log that ends in the current
entry, and that the log went through the last value of every marked node, and
through the empty entry, at the moment the node was marked. So an operation
that met a node before it was marked can still take effect at that moment.
There is one lemma for each way in which the entry changes or is read; each
of them leaves alone what is known about the other operations (`Later`).

`Threads` is the invariant of the threads of such a map, for any kind of
phases that say what is known in them (`Phases`); the steps that change the
entry are taken there once for all maps.
-/
import Cobalt.Lib.Linearizable

namespace Cobalt.Container.MapEntry

open Cobalt.Linear List

open Function (update update_self update_of_ne)

/-- The operations on one key. -/
inductive Op (V : Type) where
  | insert (v : V)
  | put (v : V)
  | get
  | remove
  deriving DecidableEq, Repr

/-- Their answers: whether the key was new, the value that was replaced, the
value that was found, the value that was removed. -/
inductive Res (V : Type) where
  | inserted (new : Bool)
  | old (v : Option V)
  | found (v : Option V)
  | removed (v : Option V)
  deriving DecidableEq, Repr

variable {V : Type}

/-- The sequential entry. -/
def apply : Option V → Op V → Res V × Option V
  | none, .insert v => (.inserted true, some v)
  | some w, .insert _ => (.inserted false, some w)
  | e, .put v => (.old e, some v)
  | e, .get => (.found e, e)
  | e, .remove => (.removed e, none)

/-- What the entry of the key depends on: the node of the key that is linked,
the marks and the values of the nodes, the history so far, the number of nodes,
and which of them are not nodes of the key. -/
structure View (V : Type) where
  cell : Option Nat
  marked : Nat → Bool
  value : Nat → V
  hist : List (Event (Op V) (Res V))
  count : Nat
  other : Nat → Bool

/-- The value of the linked node, unless it is marked. -/
def View.entry (w : View V) : Option V :=
  match w.cell with
  | some k => if w.marked k then none else some (w.value k)
  | none => none

/-- A log of operations with the moments at which they take effect. -/
abbrev Log (V : Type) := List (Stamped (Op V) (Res V))

variable {w w' : View V} {log log' : Log V} {time time' : Nat → Nat} {id k : Nat} {op : Op V}
  {res : Res V} {v : V}

/-- A node of the key that is or was in the list. -/
structure Linked (w : View V) (k : Nat) : Prop where
  key : w.other k = false
  lt : k < w.count
  now : w.cell = some k ∨ w.marked k = true

/-- A node of the key that its creator has not linked. -/
structure Own (w : View V) (n : Nat) (v : V) : Prop where
  key : w.other n = false
  lt : n < w.count
  unmarked : w.marked n = false
  apart : w.cell ≠ some n
  value : w.value n = v

lemma Linked.cell (h : Linked w k) (hmarked : w.marked k = false) : w.cell = some k :=
  h.now.resolve_right (by simp [hmarked])

lemma Linked.entry (h : Linked w k) (hmarked : w.marked k = false) :
    w.entry = some (w.value k) := by
  simp [View.entry, h.cell hmarked, hmarked]

lemma entry_none (h : ∀ k, w.cell = some k → w.marked k = true) : w.entry = none := by
  cases hcell : w.cell with
  | none => simp [View.entry, hcell]
  | some k => simp [View.entry, hcell, h k hcell]

lemma View.entry_congr (hcell : w'.cell = w.cell) (hmarked : w'.marked = w.marked)
    (hvalue : ∀ k, w.cell = some k → w'.value k = w.value k) : w'.entry = w.entry := by
  rw [View.entry, View.entry, hcell, hmarked]
  cases hk : w.cell with
  | none => rfl
  | some k => simp only [hvalue k hk]

/-- The log went through `e` at the moment `t`. -/
abbrev Through (log : Log V) (e : Option V) (t : Nat) : Prop := Passed apply none log e t

/-- The history has a log that ends in the entry, and went through the last
value of each marked node and through the empty entry when it was marked; the
linked node and the marked ones are nodes of the key. -/
structure Tracked (w : View V) (log : Log V) (time : Nat → Nat) : Prop where
  placed : ∀ k, w.cell = some k ∨ w.marked k = true → w.other k = false ∧ k < w.count
  timed : Timed apply none w.hist log w.entry
  gone : ∀ k, w.marked k = true → time k ≤ w.hist.length ∧
    Through log (some (w.value k)) (time k) ∧ Through log none (time k)

/-! ## What is known about an operation -/

/-- The operation has been called and has not taken effect. -/
def Pending (w : View V) (log : Log V) (id : Nat) (op : Op V) : Prop :=
  .call id op ∈ w.hist ∧ id ∉ log.map fun x => x.id

/-- The operation has taken effect, with this answer. -/
def Done (log : Log V) (id : Nat) (res : Res V) : Prop := ∃ x ∈ log, x.id = id ∧ x.res = res

/-- The operation was called before the node was marked. -/
def Before (w : View V) (time : Nat → Nat) (id : Nat) (op : Op V) (k : Nat) : Prop :=
  w.marked k = true → CalledBefore w.hist id op (time k)

/-- What every step leaves alone of the nodes. -/
structure Grows (w w' : View V) : Prop where
  count : w.count ≤ w'.count
  other : ∀ n < w.count, w'.other n = w.other n
  cell : ∀ k, w.cell = some k → w'.cell = some k ∨ w'.marked k = true
  marks : ∀ k, w.marked k = true → w'.marked k = true
  value : ∀ k, w.marked k = true → w'.value k = w.value k

/-- What a step of the operation `id` leaves alone. -/
structure Later (id : Nat) (w : View V) (log : Log V) (time : Nat → Nat) (w' : View V)
    (log' : Log V) (time' : Nat → Nat) : Prop extends Grows w w' where
  hist : w.hist <+: w'.hist
  kept : ∀ x ∈ log, x ∈ log'
  own : ∀ x ∈ log', x ∈ log ∨ x.id = id
  time : ∀ k, w.marked k = true → time' k = time k
  marked : ∀ k, w'.marked k = true → w.marked k = true ∨ time' k = w.hist.length

namespace Grows

lemma hist (hist : List (Event (Op V) (Res V))) : Grows w { w with hist } :=
  ⟨Nat.le_refl _, fun _ _ => rfl, fun _ hk => .inl hk, fun _ hk => hk, fun _ _ => rfl⟩

lemma link (hcell : w.cell = none) : Grows w { w with cell := some k } :=
  ⟨Nat.le_refl _, fun _ _ => rfl, by simp [hcell], fun _ hk => hk, fun _ _ => rfl⟩

lemma unlink (hcell : w.cell = some k) (hmarked : w.marked k = true) :
    Grows w { w with cell := none } := by
  refine ⟨Nat.le_refl _, fun _ _ => rfl, fun k' hk' => .inr ?_, fun _ hk => hk, fun _ _ => rfl⟩
  cases hcell.symm.trans hk'
  exact hmarked

lemma exchange (hunmarked : w.marked k = false) :
    Grows w { w with value := update w.value k v } := by
  refine ⟨Nat.le_refl _, fun _ _ => rfl, fun _ hk => .inl hk, fun _ hk => hk, fun n hn => ?_⟩
  refine update_of_ne ?_ ..
  rintro rfl
  cases hunmarked.symm.trans hn

lemma mark : Grows w { w with marked := update w.marked k true } := by
  refine ⟨Nat.le_refl _, fun _ _ => rfl, fun _ hk => .inl hk, fun n hn => ?_, fun _ _ => rfl⟩
  by_cases hnk : n = k <;> simp [hnk, hn]

end Grows

lemma Linked.later (h : Linked w k) (hg : Grows w w') : Linked w' k :=
  ⟨(hg.other k h.lt).trans h.key, h.lt.trans_le hg.count, h.now.elim (hg.cell k) fun hmarked =>
    .inr (hg.marks k hmarked)⟩

lemma Pending.later {i : Nat} (h : Pending w log i op)
    (hl : Later id w log time w' log' time') (hne : i ≠ id) : Pending w' log' i op := by
  refine ⟨hl.hist.subset h.1, fun hmem => ?_⟩
  obtain ⟨x, hx, rfl⟩ := mem_map.mp hmem
  rcases hl.own x hx with hx | hx
  · exact h.2 (mem_map_of_mem hx)
  · exact hne hx

lemma Done.later {i : Nat} (h : Done log i res) (hl : Later id w log time w' log' time') :
    Done log' i res := by
  obtain ⟨x, hx, hfacts⟩ := h
  exact ⟨x, hl.kept x hx, hfacts⟩

lemma calledBefore_length (h : .call id op ∈ w.hist) : CalledBefore w.hist id op w.hist.length := by
  obtain ⟨p, hp, hcall⟩ := getElem_of_mem h
  exact ⟨p, hp, by rw [getElem?_eq_getElem hp, hcall]⟩

lemma Before.later {i : Nat} (h : Before w time i op k) (hcall : .call i op ∈ w.hist)
    (hl : Later id w log time w' log' time') : Before w' time' i op k := by
  intro hmarked
  by_cases hwas : w.marked k = true
  · rw [hl.time k hwas]
    exact (h hwas).mono hl.hist (Nat.le_refl _)
  · rw [(hl.marked k hmarked).resolve_left hwas]
    exact (calledBefore_length hcall).mono hl.hist (Nat.le_refl _)

lemma Later.refl (id : Nat) (w : View V) (log : Log V) (time : Nat → Nat) :
    Later id w log time w log time :=
  ⟨.hist _, prefix_refl _, fun _ hx => hx, fun _ hx => .inl hx, fun _ _ => rfl, fun _ hk => .inl hk⟩

/-- The operation takes effect with this answer, in the step from `w` to `w'`. -/
def Effect (id : Nat) (w : View V) (log : Log V) (time : Nat → Nat) (w' : View V)
    (res : Res V) : Prop :=
  ∃ log' time', Tracked w' log' time' ∧ Done log' id res ∧ Later id w log time w' log' time'

/-- The operation has this answer, and nothing else changes. -/
def Answer (id : Nat) (w : View V) (log : Log V) (time : Nat → Nat) (res : Res V) : Prop :=
  ∃ log', Tracked w log' time ∧ Done log' id res ∧ Later id w log time w log' time

/-! ## The steps of an operation -/

namespace Tracked

variable (h : Tracked w log time)

include h

lemma ne_count (hk : w.cell = some k ∨ w.marked k = true) : k ≠ w.count :=
  Nat.ne_of_lt (h.placed k hk).2

lemma grows_create (v : V) :
    Grows w { w with count := w.count + 1, value := update w.value w.count v } :=
  ⟨Nat.le_succ _, fun _ _ => rfl, fun _ hk => .inl hk, fun _ hk => hk,
    fun _ hk => update_of_ne (h.ne_count (.inr hk)) ..⟩

/-- The operation of an entry of the log is in the history. -/
lemma call_mem (hid : id ∈ log.map fun x => x.id) : ∃ op, .call id op ∈ w.hist := by
  obtain ⟨x, hx, rfl⟩ := mem_map.mp hid
  obtain ⟨p, -, hp⟩ := h.timed.called x hx
  exact ⟨x.op, mem_of_getElem? hp⟩

/-- Something changes that the entry does not depend on. -/
lemma silent (hg : Grows w w') (hhist : w'.hist = w.hist) (hentry : w'.entry = w.entry)
    (hmarked : w'.marked = w.marked) (hcell : ∀ k, w'.cell = some k → w.cell = some k) :
    Tracked w' log time ∧ Later id w log time w' log time := by
  refine ⟨⟨fun k hk => ?_, ?_, fun k hk => ?_⟩, ?_⟩
  · rw [hmarked] at hk
    obtain ⟨hkey, hlt⟩ := h.placed k (hk.imp_left (hcell k))
    exact ⟨(hg.other k hlt).trans hkey, hlt.trans_le hg.count⟩
  · rw [hhist, hentry]
    exact h.timed
  · rw [hmarked] at hk
    rw [hhist, hg.value k hk]
    exact h.gone k hk
  · refine ⟨hg, hhist ▸ prefix_refl _, fun _ hx => hx, fun _ hx => .inl hx, fun _ _ => rfl,
      fun k hk => .inl ?_⟩
    rwa [hmarked] at hk

lemma call (hfresh : ∀ op', .call id op' ∉ w.hist)
    (hw' : w' = { w with hist := w.hist ++ [.call id op] }) :
    Tracked w' log time ∧ Pending w' log id op ∧ Later id w log time w' log time := by
  subst hw'
  refine ⟨⟨h.placed, h.timed.call hfresh, fun k hk => ?_⟩, ⟨by simp, fun hid => ?_⟩, ?_⟩
  · obtain ⟨hle, hpassed⟩ := h.gone k hk
    exact ⟨Nat.le_trans hle (by simp), hpassed⟩
  · obtain ⟨op', hop'⟩ := h.call_mem hid
    exact hfresh op' hop'
  · exact ⟨.hist _, prefix_append _ _, fun _ hx => hx, fun _ hx => .inl hx, fun _ _ => rfl,
      fun _ hk => .inl hk⟩

lemma ret (hdone : Done log id res) (hw' : w' = { w with hist := w.hist ++ [.ret id res] }) :
    Tracked w' log time ∧ Later id w log time w' log time := by
  subst hw'
  obtain ⟨x, hx, hid, hres⟩ := hdone
  refine ⟨⟨h.placed, h.timed.ret hx hid hres, fun k hk => ?_⟩, ?_⟩
  · obtain ⟨hle, hpassed⟩ := h.gone k hk
    exact ⟨Nat.le_trans hle (by simp), hpassed⟩
  · exact ⟨.hist _, prefix_append _ _, fun _ hx => hx, fun _ hx => .inl hx, fun _ _ => rfl,
      fun _ hk => .inl hk⟩

/-- The operation changes the entry: it takes effect now. A node that it marks
held the entry before, and the entry is empty after. -/
lemma commit (hp : Pending w log id op) (hg : Grows w w') (hhist : w'.hist = w.hist)
    (happly : apply w.entry op = (res, w'.entry))
    (hplaced : ∀ k, w'.cell = some k ∨ w'.marked k = true → w'.other k = false ∧ k < w'.count)
    (hnew : ∀ k, w'.marked k = true → w.marked k = true ∨
      w.entry = some (w'.value k) ∧ w'.entry = none) : Effect id w log time w' res := by
  let x : Stamped (Op V) (Res V) := ⟨⟨id, op, res⟩, w.hist.length⟩
  let time' : Nat → Nat := fun k => if w.marked k then time k else w.hist.length
  have htimed := h.timed.commit hp.1 hp.2 happly
  refine ⟨log ++ [x], time', ⟨hplaced, hhist ▸ htimed, fun k hk => ?_⟩, ⟨x, by simp, rfl, rfl⟩, ?_⟩
  · by_cases hwas : w.marked k = true
    · have htime : time' k = time k := if_pos hwas
      obtain ⟨hle, hvalue, hnone⟩ := h.gone k hwas
      rw [htime, hhist, hg.value k hwas]
      exact ⟨hle, hvalue.snoc hle, hnone.snoc hle⟩
    · have htime : time' k = w.hist.length := if_neg hwas
      obtain ⟨hentry, hentry'⟩ := (hnew k hk).resolve_left hwas
      rw [htime, hhist, ← hentry]
      refine ⟨Nat.le_refl _, h.timed.passed_now.snoc (Nat.le_refl _), ?_⟩
      have hnow := htimed.passed_now
      rwa [hentry'] at hnow
  · refine ⟨hg, hhist ▸ prefix_refl _, fun y hy => mem_append_left _ hy, fun y hy => ?_,
      fun k hk => if_pos hk, fun k hk => ?_⟩
    · rcases mem_append.mp hy with hy | hy
      · exact .inl hy
      · rw [mem_singleton.mp hy]
        exact .inr rfl
    · by_cases hwas : w.marked k = true
      · exact .inl hwas
      · exact .inr (if_neg hwas)

/-- The operation reads the entry as it was at a moment after its call. -/
lemma readAt {e : Option V} {t : Nat} (hp : Pending w log id op)
    (hthrough : Through log e t) (hcall : CalledBefore w.hist id op t) (ht : t ≤ w.hist.length)
    (happly : apply e op = (res, e)) : Answer id w log time res := by
  obtain ⟨log', htimed, hmem, hpassed⟩ := h.timed.read hthrough hcall ht hp.2 happly
  refine ⟨log', ⟨h.placed, htimed, fun k hk => ?_⟩, ⟨_, (hmem _).mpr (.inr rfl), rfl, rfl⟩, ?_⟩
  · obtain ⟨hle, hvalue, hnone⟩ := h.gone k hk
    exact ⟨hle, hpassed _ _ hvalue, hpassed _ _ hnone⟩
  · refine ⟨.hist _, prefix_refl _, fun y hy => (hmem y).mpr (.inl hy), fun y hy => ?_,
      fun _ _ => rfl, fun _ hk => .inl hk⟩
    rcases (hmem y).mp hy with hy | rfl
    · exact .inl hy
    · exact .inr rfl

lemma readNow (hp : Pending w log id op) (happly : apply w.entry op = (res, w.entry)) :
    Answer id w log time res :=
  h.readAt hp h.timed.passed_now (calledBefore_length hp.1) (Nat.le_refl _) happly

/-- The operation reads the last value of a node that has been marked since its call. -/
lemma readLast (hp : Pending w log id .get)
    (hbefore : Before w time id .get k) (hmarked : w.marked k = true) :
    Answer id w log time (.found (some (w.value k))) := by
  obtain ⟨hle, hvalue, -⟩ := h.gone k hmarked
  exact h.readAt hp hvalue (hbefore hmarked) hle rfl

/-- The operation finds that a node has been marked since its call. -/
lemma readGone (hp : Pending w log id op) (hbefore : Before w time id op k)
    (hmarked : w.marked k = true) (happly : apply none op = (res, none)) :
    Answer id w log time res := by
  obtain ⟨hle, -, hnone⟩ := h.gone k hmarked
  exact h.readAt hp hnone (hbefore hmarked) hle happly

end Tracked

/-! ## Old values -/

/-- The value that an operation stores. -/
def Op.value? : Op V → Option V
  | .insert v | .put v => some v
  | _ => none

/-- The value that an answer hands out as an old one. -/
def Res.old? : Res V → Option V
  | .old e | .removed e => e
  | _ => none

/-- No two calls store the same value. -/
def Distinct (hist : List (Event (Op V) (Res V))) : Prop :=
  ∀ i j op op' v, .call i op ∈ hist → .call j op' ∈ hist → op.value? = some v →
    op'.value? = some v → i = j

/-- No two answers hand out the same old value. -/
def HandedOutOnce (hist : List (Event (Op V) (Res V))) : Prop :=
  ∀ i j res res' v, .ret i res ∈ hist → .ret j res' ∈ hist → res.old? = some v →
    res'.old? = some v → i = j

open Classical in
/-- A sequential run hands a value out at most as often as it stores it. -/
lemma Legal.countP_old?_le {e e' : Option V} {es : List (Entry (Op V) (Res V))}
    (h : Legal apply e es e') (v : V) :
    es.countP (fun x => x.res.old? = some v) + (if e' = some v then 1 else 0)
      ≤ es.countP (fun x => x.op.value? = some v) + if e = some v then 1 else 0 := by
  induction es generalizing e with
  | nil => rw [show e = e' from h]; simp
  | cons x es ih =>
    obtain ⟨hres, hrest⟩ := h
    have hle := ih hrest
    rw [countP_cons, countP_cons, ← hres]
    cases hop : x.op <;> cases e <;> simp only [hop, apply, Op.value?, Res.old?] at hle ⊢ <;>
      simp at hle ⊢ <;> omega

/-- Entries with different numbers that are all the same one are one at most. -/
lemma filter_length_le_one {es : List (Entry (Op V) (Res V))} (hnodup : (es.map Entry.id).Nodup)
    (p : Entry (Op V) (Res V) → Bool)
    (h : ∀ x ∈ es, ∀ y ∈ es, p x = true → p y = true → x.id = y.id) : es.countP p ≤ 1 := by
  have hsub : ((es.filter p).map Entry.id).Nodup := hnodup.sublist (filter_sublist.map _)
  rw [countP_eq_length_filter]
  have hmem : ∀ x ∈ es.filter p, ∀ y ∈ es.filter p, x.id = y.id := fun x hx y hy =>
    h x (mem_filter.mp hx).1 y (mem_filter.mp hy).1 (mem_filter.mp hx).2
      (mem_filter.mp hy).2
  generalize es.filter p = fs at hsub hmem
  cases fs with
  | nil => simp
  | cons x fs =>
    cases fs with
    | nil => simp
    | cons y fs =>
      have heq := hmem x (by simp) y (by simp)
      simp [heq] at hsub

/-- Where no two calls store the same value, a linearizable history hands out no
value twice. -/
lemma handedOutOnce_of_linearizable {hist : List (Event (Op V) (Res V))}
    (h : Linearizable apply none hist) (hd : Distinct hist) : HandedOutOnce hist := by
  classical
  intro i j res res' v hi hj hres hres'
  obtain ⟨es, e', hlegal, hnodup, hcalled, hreturned, -⟩ := h
  have hstores : es.countP (fun x => decide (x.op.value? = some v)) ≤ 1 := by
    refine filter_length_le_one hnodup _ fun x hx y hy hpx hpy => ?_
    exact hd x.id y.id x.op y.op v (hcalled x hx) (hcalled y hy) (of_decide_eq_true hpx)
      (of_decide_eq_true hpy)
  have hold : es.countP (fun x => decide (x.res.old? = some v)) ≤ 1 := by
    have hle := Legal.countP_old?_le hlegal v
    simp only [reduceCtorEq, if_false] at hle
    omega
  obtain ⟨x, hx, rfl, rfl⟩ := hreturned i res hi
  obtain ⟨y, hy, rfl, rfl⟩ := hreturned j res' hj
  -- both entries are in a part of the run that has at most one
  rw [countP_eq_length_filter] at hold
  have hxf : x ∈ es.filter fun x => decide (x.res.old? = some v) :=
    mem_filter.mpr ⟨hx, decide_eq_true hres⟩
  have hyf : y ∈ es.filter fun x => decide (x.res.old? = some v) :=
    mem_filter.mpr ⟨hy, decide_eq_true hres'⟩
  match hfs : es.filter fun x => decide (x.res.old? = some v) with
  | [] => rw [hfs] at hxf; cases hxf
  | [z] =>
    rw [hfs, mem_singleton] at hxf hyf
    rw [hxf, hyf]
  | z :: z' :: zs => rw [hfs] at hold; simp at hold

/-! ## The threads -/

/-- The phases of a thread: the call it is in, the node that a put is about to
update, the node that it has created and not linked, and what is known. A step
of another call leaves that alone, if it marks no node that is about to be
updated and links no node but its own. -/
structure Phases (P V : Type) where
  id? : P → Option Nat
  updates : P → Option Nat
  new? : P → Option Nat
  Ok : View V → Log V → (Nat → Nat) → P → Prop
  new_lt : ∀ {w log time x n}, Ok w log time x → new? x = some n → n < w.count
  later : ∀ {id w log time w' log' time' x}, Later id w log time w' log' time' → id? x ≠ some id →
    (∀ k, updates x = some k → w'.marked k = true → w.marked k = true) →
    (∀ n v, new? x = some n → Own w n v → Own w' n v) → Ok w log time x → Ok w' log' time' x

variable {P : Type} {Φ : Phases P V} {pc : Nat → P} {calls t n : Nat} {x : P}

/-- The invariant. The calls that run are different ones, and so are the nodes
that their threads have created; calls are numbered in order. -/
structure Threads (Φ : Phases P V) (w : View V) (pc : Nat → P) (calls : Nat) (log : Log V)
    (time : Nat → Nat) : Prop where
  tracked : Tracked w log time
  apart : ∀ t u i, Φ.id? (pc t) = some i → Φ.id? (pc u) = some i → t = u
  call_lt : ∀ i op, .call i op ∈ w.hist → i < calls
  id_lt : ∀ t i, Φ.id? (pc t) = some i → i < calls
  nodes : ∀ t u n, Φ.new? (pc t) = some n → Φ.new? (pc u) = some n → t = u
  ok : ∀ t, Φ.Ok w log time (pc t)

lemma Pending.grow (h : Pending w log id op) (hhist : w.hist <+: w'.hist) : Pending w' log id op :=
  ⟨hhist.subset h.1, h.2⟩

lemma threads_start (value : Nat → V) (count : Nat) (other : Nat → Bool)
    (hid : ∀ t, Φ.id? (pc t) = none) (hnew : ∀ t, Φ.new? (pc t) = none)
    (hok : ∀ w log time t, Φ.Ok w log time (pc t)) :
    Threads Φ ⟨none, fun _ => false, value, [], count, other⟩ pc 0 [] fun _ => 0 :=
  ⟨⟨by simp, Timed.nil _ _, fun _ hk => by cases hk⟩, by simp [hid], by simp, by simp [hid],
    by simp [hnew], hok _ _ _⟩

namespace Threads

variable (h : Threads Φ w pc calls log time)

include h

lemma next (hthread : Φ.id? (pc t) = some id) (htracked : Tracked w' log' time')
    (hl : Later id w log time w' log' time')
    (hhist : ∀ i op, .call i op ∈ w'.hist → .call i op ∈ w.hist)
    (hclear : ∀ u k, Φ.updates (pc u) = some k → w'.marked k = true → w.marked k = true)
    (hown : ∀ u n v, u ≠ t → Φ.new? (pc u) = some n → Own w n v → Own w' n v)
    (hid : ∀ i, Φ.id? x = some i → i = id)
    (hnew : ∀ n, Φ.new? x = some n → Φ.new? (pc t) = some n ∨ w.count ≤ n)
    (hx : Φ.Ok w' log' time' x) : Threads Φ w' (update pc t x) calls log' time' := by
  have hids : ∀ u i, Φ.id? (update pc t x u) = some i → Φ.id? (pc u) = some i := by
    intro u i hu
    by_cases hut : u = t
    · subst hut
      rw [update_self] at hu
      rw [hthread, hid i hu]
    · rwa [update_of_ne hut] at hu
  have hnews : ∀ u n, Φ.new? (update pc t x u) = some n →
      Φ.new? (pc u) = some n ∨ u = t ∧ w.count ≤ n := by
    intro u n hu
    by_cases hut : u = t
    · subst hut
      rw [update_self] at hu
      exact (hnew n hu).imp_right fun hle => ⟨rfl, hle⟩
    · rw [update_of_ne hut] at hu
      exact .inl hu
  -- a node behind the count is not one that a thread has created before
  have hfresh : ∀ u n, Φ.new? (pc u) = some n → ¬ w.count ≤ n := fun u n hu hle =>
    absurd (Φ.new_lt (h.ok u) hu) (Nat.not_lt.mpr hle)
  refine ⟨htracked, fun u u' i hu hu' => h.apart u u' i (hids u i hu) (hids u' i hu'),
    fun i op hcall => h.call_lt i op (hhist i op hcall), fun u i hu => h.id_lt u i (hids u i hu),
    fun u u' n hu hu' => ?_, fun u => ?_⟩
  · rcases hnews u n hu with hwas | ⟨rfl, hle⟩ <;> rcases hnews u' n hu' with hwas' | ⟨rfl, hle'⟩
    · exact h.nodes u u' n hwas hwas'
    · exact absurd hle' (hfresh u n hwas)
    · exact absurd hle (hfresh u' n hwas')
    · rfl
  · by_cases hut : u = t
    · subst hut
      rwa [update_self]
    · rw [update_of_ne hut]
      exact Φ.later hl (fun hu => hut (h.apart u t id hu hthread)) (hclear u)
        (fun n v => hown u n v hut) (h.ok u)

/-- Something changes that no call does. -/
lemma silent (htracked : Tracked w' log time ∧ Later calls w log time w' log time)
    (hhist : w'.hist = w.hist) (hmarked : w'.marked = w.marked)
    (hown : ∀ n v, Own w n v → Own w' n v) : Threads Φ w' pc calls log time := by
  refine ⟨htracked.1, h.apart, hhist ▸ h.call_lt, h.id_lt, h.nodes, fun u => ?_⟩
  exact Φ.later htracked.2 (fun hu => Nat.lt_irrefl _ (h.id_lt u _ hu)) (fun k _ hk => hmarked ▸ hk)
    (fun n v _ => hown n v) (h.ok u)

lemma unlink (hcell : w.cell = some k) (hmarked : w.marked k = true) :
    Threads Φ { w with cell := none } pc calls log time := by
  have hentry : w.entry = none := entry_none (by simp [hcell, hmarked])
  refine h.silent (h.tracked.silent (.unlink hcell hmarked) rfl ?_ rfl fun _ hk => by cases hk) rfl
    rfl fun n v ho => { ho with apart := by simp }
  rw [hentry]
  rfl

lemma call (hid : Φ.id? x = some calls) (hnew : Φ.new? x = none)
    (hx : ∀ w', Later calls w log time w' log time → Pending w' log calls op → Φ.Ok w' log time x) :
    Threads Φ { w with hist := w.hist ++ [.call calls op] } (update pc t x) (calls + 1) log time := by
  let w' : View V := { w with hist := w.hist ++ [.call calls op] }
  obtain ⟨htracked, hp, hl⟩ :
      Tracked w' log time ∧ Pending w' log calls op ∧ Later calls w log time w' log time :=
    h.tracked.call (fun op' hcall => Nat.lt_irrefl _ (h.call_lt _ op' hcall)) rfl
  have hids : ∀ u i, Φ.id? (update pc t x u) = some i → u = t ∧ i = calls ∨
      Φ.id? (pc u) = some i := by
    intro u i hu
    by_cases hut : u = t
    · subst hut
      rw [update_self, hid] at hu
      exact .inl ⟨rfl, (Option.some.inj hu).symm⟩
    · rw [update_of_ne hut] at hu
      exact .inr hu
  have hnews : ∀ u n, Φ.new? (update pc t x u) = some n → Φ.new? (pc u) = some n := by
    intro u n hu
    by_cases hut : u = t
    · subst hut
      rw [update_self, hnew] at hu
      cases hu
    · rwa [update_of_ne hut] at hu
  refine ⟨htracked, fun u u' i hu hu' => ?_, fun i op' hcall => ?_, fun u i hu => ?_,
    fun u u' n hu hu' => h.nodes u u' n (hnews u n hu) (hnews u' n hu'), fun u => ?_⟩
  · rcases hids u i hu with ⟨hut, rfl⟩ | hwas <;> rcases hids u' _ hu' with ⟨hut', hi⟩ | hwas'
    · rw [hut, hut']
    · exact absurd (h.id_lt u' _ hwas') (Nat.lt_irrefl _)
    · exact absurd (h.id_lt u _ hwas) (by rw [hi]; exact Nat.lt_irrefl _)
    · exact h.apart u u' i hwas hwas'
  · rcases mem_append.mp hcall with hcall | hcall
    · exact Nat.lt_succ_of_lt (h.call_lt i op' hcall)
    · cases mem_singleton.mp hcall
      exact Nat.lt_succ_self _
  · rcases hids u i hu with ⟨-, rfl⟩ | hwas
    · exact Nat.lt_succ_self _
    · exact Nat.lt_succ_of_lt (h.id_lt u i hwas)
  · by_cases hut : u = t
    · subst hut
      rw [update_self]
      exact hx _ hl hp
    · rw [update_of_ne hut]
      exact Φ.later hl (fun hu => Nat.lt_irrefl _ (h.id_lt u _ hu)) (fun _ _ hk => hk)
        (fun n v _ ho => { ho with }) (h.ok u)

variable (hthread : Φ.id? (pc t) = some id)

include hthread

/-- A thread goes on and changes nothing but, maybe, what is known about its call. -/
lemma quiet (htracked : Tracked w log' time) (hl : Later id w log time w log' time)
    (hid : ∀ i, Φ.id? x = some i → i = id)
    (hnew : ∀ n, Φ.new? x = some n → Φ.new? (pc t) = some n) (hx : Φ.Ok w log' time x) :
    Threads Φ w (update pc t x) calls log' time :=
  h.next hthread htracked hl (fun _ _ hcall => hcall) (fun _ _ _ hk => hk) (fun _ _ _ _ _ ho => ho)
    hid (fun n hn => .inl (hnew n hn)) hx

lemma ret (hdone : Done log id res) (hid : Φ.id? x = none) (hnew : Φ.new? x = none)
    (hx : ∀ w, Φ.Ok w log time x) :
    Threads Φ { w with hist := w.hist ++ [.ret id res] } (update pc t x) calls log time := by
  obtain ⟨htracked, hl⟩ := h.tracked.ret hdone rfl
  refine h.next hthread htracked hl (fun i op hcall => ?_) (fun _ _ _ hk => hk)
    (fun _ _ _ _ _ ho => { ho with }) (by simp [hid]) (by simp [hnew]) (hx _)
  rcases mem_append.mp hcall with hcall | hcall
  · exact hcall
  · cases mem_singleton.mp hcall

lemma create (hkey : w.other w.count = false) (hid : Φ.id? x = some id)
    (hnew : Φ.new? x = some w.count)
    (hx : ∀ w', Later id w log time w' log time → Own w' w.count v → Φ.Ok w' log time x) :
    Threads Φ { w with count := w.count + 1, value := update w.value w.count v } (update pc t x)
      calls log time := by
  have hplaced := fun k => h.tracked.ne_count (k := k)
  have hvalue : ∀ k, k ≠ w.count → update w.value w.count v k = w.value k :=
    fun k hk => update_of_ne hk ..
  let w' : View V := { w with count := w.count + 1, value := update w.value w.count v }
  obtain ⟨htracked, hl⟩ : Tracked w' log time ∧ Later id w log time w' log time :=
    h.tracked.silent (h.tracked.grows_create v) rfl
      (View.entry_congr rfl rfl fun k hk => hvalue k (hplaced k (.inl hk))) rfl fun _ hk => hk
  refine h.next hthread htracked hl (fun _ _ hcall => hcall) (fun _ _ _ hk => hk)
    (fun u n v _ _ ho => ⟨ho.key, Nat.lt_succ_of_lt ho.lt, ho.unmarked, ho.apart,
      (hvalue n (Nat.ne_of_lt ho.lt)).trans ho.value⟩) (fun i hi => ?_) (fun n hn => ?_)
    (hx _ hl ⟨hkey, Nat.lt_succ_self _, ?_, fun hc => hplaced _ (.inl hc) rfl, update_self ..⟩)
  · rw [hid] at hi
    exact (Option.some.inj hi).symm
  · rw [hnew] at hn
    exact .inr (Nat.le_of_eq (Option.some.inj hn))
  · exact Bool.eq_false_iff.mpr fun hm => hplaced _ (.inr hm) rfl

variable (y : P) (hid : Φ.id? y = some id) (hnew : Φ.new? y = none)

include hid hnew

/-- The next phase of a call whose thread has no node of its own then. -/
lemma effect (hg : Effect id w log time w' res) (hhist : w'.hist = w.hist)
    (hclear : ∀ u k, Φ.updates (pc u) = some k → w'.marked k = true → w.marked k = true)
    (hown : ∀ u n v, u ≠ t → Φ.new? (pc u) = some n → Own w n v → Own w' n v)
    (hx : ∀ log' time', Later id w log time w' log' time' → Done log' id res →
      Φ.Ok w' log' time' y) : ∃ log' time', Threads Φ w' (update pc t y) calls log' time' := by
  obtain ⟨log', time', htracked, hdone, hl⟩ := hg
  refine ⟨log', time', h.next hthread htracked hl (fun i op hcall => hhist ▸ hcall) hclear hown
    (fun i hi => ?_) (by simp [hnew]) (hx _ _ hl hdone)⟩
  rw [hid] at hi
  exact (Option.some.inj hi).symm

/-- A thread links the node it has created: insert or put takes effect. -/
lemma link (hnode : Φ.new? (pc t) = some n) (hp : Pending w log id op) (ho : Own w n v)
    (hcell : w.cell = none) (happly : apply none op = (res, some v))
    (hx : ∀ w' log' time', Later id w log time w' log' time' → Done log' id res → Linked w' n →
      Φ.Ok w' log' time' y) :
    ∃ log' time', Threads Φ { w with cell := some n } (update pc t y) calls log' time' := by
  have hlinked : Linked { w with cell := some n } n := ⟨ho.key, ho.lt, .inl rfl⟩
  have heffect : Effect id w log time { w with cell := some n } res := by
    refine h.tracked.commit hp (.link hcell) rfl ?_ (fun k hk => ?_) fun _ hk => .inl hk
    · rw [entry_none (by simp [hcell]), hlinked.entry ho.unmarked, happly]
      exact congrArg _ (congrArg some ho.value.symm)
    · rcases hk with hk | hk
      · cases hk
        exact ⟨ho.key, ho.lt⟩
      · exact h.tracked.placed k (.inr hk)
  refine h.effect hthread y hid hnew heffect rfl (fun _ _ _ hk => hk) (fun u n' v' hu hn' ho' => ?_)
    fun log' time' hl hdone => hx _ _ _ hl hdone hlinked
  refine { ho' with apart := fun heq => hu ?_ }
  cases heq
  exact h.nodes u t n hn' hnode

/-- A put stores its value in a node that is not marked: it takes effect. -/
lemma exchange (hp : Pending w log id (.put v)) (hk : Linked w k) (hunmarked : w.marked k = false)
    (hx : ∀ w' log' time', Later id w log time w' log' time' →
      Done log' id (.old (some (w.value k))) → w'.marked k = false → Φ.Ok w' log' time' y) :
    ∃ log' time', Threads Φ { w with value := update w.value k v } (update pc t y) calls log'
      time' := by
  have hcell := hk.cell hunmarked
  have hg : Grows w { w with value := update w.value k v } := .exchange hunmarked
  have heffect : Effect id w log time { w with value := update w.value k v }
      (.old (some (w.value k))) := by
    refine h.tracked.commit hp hg rfl ?_ h.tracked.placed fun _ hk => .inl hk
    rw [hk.entry hunmarked, (hk.later hg).entry hunmarked]
    simp [apply]
  refine h.effect hthread y hid hnew heffect rfl (fun _ _ _ hk => hk) (fun u n v' _ _ ho => ?_)
    fun log' time' hl hdone => hx _ _ _ hl hdone hunmarked
  have hne : n ≠ k := fun heq => ho.apart (heq ▸ hcell)
  exact { ho with value := (update_of_ne hne ..).trans ho.value }

/-- A remove marks a node that no put is about to update: it takes effect. -/
lemma mark (hp : Pending w log id .remove) (hk : Linked w k) (hunmarked : w.marked k = false)
    (hclear : ∀ u, Φ.updates (pc u) ≠ some k)
    (hx : ∀ w' log' time', Later id w log time w' log' time' →
      Done log' id (.removed (some (w'.value k))) → w'.marked k = true → Φ.Ok w' log' time' y) :
    ∃ log' time', Threads Φ { w with marked := update w.marked k true } (update pc t y) calls log'
      time' := by
  have hcell := hk.cell hunmarked
  have hmarks : ∀ n, update w.marked k true n = true ↔ n = k ∨ w.marked n = true := by
    intro n
    by_cases hn : n = k <;> simp [hn]
  have hentry : View.entry { w with marked := update w.marked k true } = none := by
    refine entry_none fun n hn => (hmarks n).mpr (.inl ?_)
    exact Option.some.inj (hn.symm.trans hcell)
  have heffect : Effect id w log time { w with marked := update w.marked k true }
      (.removed (some (w.value k))) := by
    refine h.tracked.commit hp .mark rfl ?_ (fun n hn => ?_) fun n hn => ?_
    · rw [hk.entry hunmarked, hentry]
      rfl
    · rcases hn with hn | hn
      · exact h.tracked.placed n (.inl hn)
      · rcases (hmarks n).mp hn with rfl | hn
        · exact ⟨hk.key, hk.lt⟩
        · exact h.tracked.placed n (.inr hn)
    · rcases (hmarks n).mp hn with rfl | hn
      · exact .inr ⟨hk.entry hunmarked, hentry⟩
      · exact .inl hn
  refine h.effect hthread y hid hnew heffect rfl
    (fun u n hu hn => ((hmarks n).mp hn).resolve_left fun heq => hclear u (heq ▸ hu))
    (fun u n v' _ _ ho => ?_)
    fun log' time' hl hdone => hx _ _ _ hl hdone (update_self ..)
  have hne : n ≠ k := fun heq => ho.apart (heq ▸ hcell)
  exact { ho with unmarked := (update_of_ne hne ..).trans ho.unmarked }

end Threads

end Cobalt.Container.MapEntry
