/-
Cobalt.Container.LfSkipList — the lock-free skip list of lfskiplist.c.

A node has a key, a value and one next field for each of its levels; a next
field is a pointer with a mark in its low bit. A search walks down the levels
and leaves, for each level, the last node in front of the key and the node
behind it; it unlinks the marked nodes that it meets. insert and put link a
new node at level 0 and then, one by one, at the levels above; remove marks
the levels from the top down, searches once more to unlink the node, and
passes it to `cobalt_ebr_retire`.

One step is one atomic load, store, exchange or compare-and-swap. The weak
compare-and-swaps may fail for no reason (`fail`). Nodes are not freed. The
history of calls and returns and the list of retired nodes are there for the
statements; no step reads them. A call that gets no memory for its node
returns an error code, which is not an answer and not in the history.
-/
import Cobalt.Container.MapEntry
import Cobalt.Lib.Machine

namespace Cobalt.Container.LfSkipList

open Function (update)

open Cobalt.Linear MapEntry

variable {K V : Type}

abbrev Tid := Nat

abbrev Nid := Nat

/-- `COBALT_LFSKIPLIST_MAX_LEVEL`. -/
def maxLevel : Nat := 32

/-- `sl->head`. -/
def head : Nid := 0

/-- A call: its number in the history, and its key. -/
structure Call (K : Type) where
  id : Nat
  key : K
  deriving DecidableEq, Repr

/-- The operations that link a node, with the value it gets. -/
inductive Kind (V : Type) where
  | insert (v : V)
  | put (v : V)
  deriving DecidableEq, Repr

/-- What a search is for. -/
inductive Goal (V : Type) where
  /-- insert or put; insert may have a node from an earlier attempt -/
  | link (k : Kind V) (new : Option Nid)
  /-- the search after the compare-and-swap at a level above 0 failed -/
  | relink (k : Kind V) (new : Nid) (level : Nat)
  | remove
  /-- the second search of remove, with the value to hand out -/
  | unlink (victim : Nid) (v : V)
  deriving DecidableEq, Repr

/-- What a thread does next. -/
inductive Pc (K V : Type) where
  | idle
  /-- `find_preds_succs`: load `pred->next[level]` -/
  | findLevel (c : Call K) (g : Goal V) (level : Nat) (pred : Nid)
  /-- load `curr->next[level]` -/
  | findNext (c : Call K) (g : Goal V) (level : Nat) (pred curr : Nid)
  /-- compare-and-swap `pred->next[level]`, to unlink the marked `curr` -/
  | findUnlink (c : Call K) (g : Goal V) (level : Nat) (pred curr : Nid) (succ : Option Nid)
  /-- create the node, unless there is one, and set its next fields -/
  | create (c : Call K) (k : Kind V) (new : Option Nid)
  /-- compare-and-swap `preds[0]->next[0]` -/
  | publish (c : Call K) (k : Kind V) (new : Nid)
  /-- load `new_node->next[level]` -/
  | linkLoad (c : Call K) (k : Kind V) (new : Nid) (level : Nat)
  /-- compare-and-swap `preds[level]->next[level]` -/
  | linkCas (c : Call K) (k : Kind V) (new : Nid) (level : Nat)
  /-- store `new_node->next[level]` -/
  | linkStore (c : Call K) (k : Kind V) (new : Nid) (level : Nat)
  /-- put: exchange `victim->value` -/
  | exchange (c : Call K) (v : V) (victim : Nid)
  /-- remove: load `victim->next[level]` -/
  | markLoad (c : Call K) (victim : Nid) (level : Nat)
  /-- remove: compare-and-swap `victim->next[level]`, to mark it -/
  | markCas (c : Call K) (victim : Nid) (level : Nat) (next : Option Nid)
  /-- remove: load `victim->value` -/
  | loadValue (c : Call K) (victim : Nid)
  /-- remove: `cobalt_ebr_retire` -/
  | retire (c : Call K) (victim : Nid) (v : V)
  /-- get: load `pred->next[level]` -/
  | getLevel (c : Call K) (level : Nat) (pred : Nid)
  /-- get: load `curr->next[level]` -/
  | getNext (c : Call K) (level : Nat) (pred curr : Nid)
  /-- get: load `curr->next[0]` -/
  | getMark (c : Call K) (level : Nat) (pred curr : Nid)
  /-- get: load `curr->value` -/
  | getValue (c : Call K) (curr : Nid)
  | ret (id : Nat) (res : Res V)
  deriving DecidableEq, Repr

structure State (K V : Type) where
  key : Nid → K
  topLevel : Nid → Nat
  /-- the pointers of the next fields -/
  next : Nid → Nat → Option Nid
  /-- the marks of the next fields -/
  marked : Nid → Nat → Bool
  value : Nid → V
  nodeCount : Nat
  pc : Tid → Pc K V
  /-- the arrays `preds` and `succs` of each thread -/
  preds : Tid → Nat → Nid
  succs : Tid → Nat → Option Nid
  callCount : Nat
  hist : List (Event (Op V) (Res V))
  /-- the nodes passed to `cobalt_ebr_retire`, with the number of calls made by then -/
  retired : List (Nid × Nat)

inductive Act (K V : Type) where
  | call (t : Tid) (key : K) (op : Op V)
  /-- a thread creates a node, with the level that `random_level` gives -/
  | create (t : Tid) (level : Nat)
  /-- a thread gets no memory for a node, and returns -/
  | noMemory (t : Tid)
  /-- any other step of a thread; `fail` makes a weak compare-and-swap fail -/
  | go (t : Tid) (fail : Bool)

namespace State

abbrev move (s : State K V) (t : Tid) (x : Pc K V) : State K V := { s with pc := update s.pc t x }

abbrev setNext (s : State K V) (n : Nid) (level : Nat) (p : Option Nid) : State K V :=
  { s with next := update s.next n (update (s.next n) level p) }

abbrev setMark (s : State K V) (n : Nid) (level : Nat) (m : Bool) : State K V :=
  { s with marked := update s.marked n (update (s.marked n) level m) }

abbrev setValue (s : State K V) (n : Nid) (v : V) : State K V :=
  { s with value := update s.value n v }

/-- `preds[level] = pred; succs[level] = curr`. -/
abbrev setArrays (s : State K V) (t : Tid) (level : Nat) (pred : Nid) (curr : Option Nid) :
    State K V :=
  { s with
    preds := update s.preds t (update (s.preds t) level pred)
    succs := update s.succs t (update (s.succs t) level curr) }

/-- The word of the next field is the unmarked pointer `p`. -/
abbrev nextIs (s : State K V) (n : Nid) (level : Nat) (p : Option Nid) : Prop :=
  s.next n level = p ∧ s.marked n level = false

end State

/-- What insert and put answer when they have linked a new node. -/
def linked : Kind V → Res V
  | .insert _ => .inserted true
  | .put _ => .old none

def Kind.value : Kind V → V
  | .insert v | .put v => v

/-- The search starts over. -/
def find (c : Call K) (g : Goal V) : Pc K V := .findLevel c g (maxLevel - 1) head

/-- The next level at which a new node is linked. -/
def linkNext (s : State K V) (c : Call K) (k : Kind V) (new : Nid) (level : Nat) : Pc K V :=
  if level < s.topLevel new then .linkLoad c k new level else .ret c.id (linked k)

/-- remove has found level `level` marked by another thread. -/
def markedBy (c : Call K) (victim : Nid) : Nat → Pc K V
  | 0 => .ret c.id (.removed none)
  | level + 1 => .markLoad c victim level

/-- remove has marked level `level`. -/
def markNext (c : Call K) (victim : Nid) : Nat → Pc K V
  | 0 => .loadValue c victim
  | level + 1 => .markLoad c victim level

/-- get is through with a level. -/
def getDown (c : Call K) (pred : Nid) : Nat → Pc K V
  | 0 => .ret c.id (.found none)
  | level + 1 => .getLevel c level pred

/-- get goes on with the pointer it has loaded. -/
def getArrive (c : Call K) (level : Nat) (pred : Nid) : Option Nid → Pc K V
  | some curr => .getNext c level pred curr
  | none => getDown c pred level

variable [DecidableEq K]

/-- What the search found, once `preds` and `succs` are set. -/
def found (s : State K V) (t : Tid) (c : Call K) : Goal V → Pc K V
  | .link k new =>
    match s.succs t 0 with
    | some curr =>
      if s.key curr = c.key then
        match k with
        | .insert _ => .ret c.id (.inserted false)
        | .put v => .exchange c v curr
      else .create c k new
    | none => .create c k new
  | .relink k new level => .linkStore c k new level
  | .remove =>
    match s.succs t 0 with
    | some curr =>
      if s.key curr = c.key then .markLoad c curr (s.topLevel curr - 1)
      else .ret c.id (.removed none)
    | none => .ret c.id (.removed none)
  | .unlink victim v => .retire c victim v

/-- The search is through with a level. -/
def findDown (s : State K V) (t : Tid) (c : Call K) (g : Goal V) (level : Nat) (pred : Nid)
    (curr : Option Nid) : State K V :=
  let s' := s.setArrays t level pred curr
  match level with
  | 0 => s'.move t (found s' t c g)
  | level + 1 => s'.move t (.findLevel c g level pred)

/-- The search goes on with the pointer it has loaded. -/
def findArrive (s : State K V) (t : Tid) (c : Call K) (g : Goal V) (level : Nat) (pred : Nid) :
    Option Nid → State K V
  | some curr => s.move t (.findNext c g level pred curr)
  | none => findDown s t c g level pred none

variable [LT K] [DecidableLT K]

/-- One step of a thread. -/
def go (s : State K V) (t : Tid) (fail : Bool) : Pc K V → Option (State K V)
  | .idle => none
  | .findLevel c g level pred => some (findArrive s t c g level pred (s.next pred level))
  | .findNext c g level pred curr =>
    if s.marked curr level then
      some (s.move t (.findUnlink c g level pred curr (s.next curr level)))
    else if s.key curr < c.key then some (findArrive s t c g level curr (s.next curr level))
    else some (findDown s t c g level pred (some curr))
  | .findUnlink c g level pred curr succ =>
    if fail = false ∧ s.nextIs pred level (some curr) then
      some (findArrive (s.setNext pred level succ) t c g level pred succ)
    else some (s.move t (find c g))
  | .create _ _ _ => none
  | .publish c k new =>
    if s.nextIs (s.preds t 0) 0 (s.succs t 0) then
      some ((s.setNext (s.preds t 0) 0 (some new)).move t (linkNext s c k new 1))
    else match k with
      | .insert _ => some (s.move t (find c (.link k (some new))))
      | .put _ => some (s.move t (find c (.link k none)))
  | .linkLoad c k new level =>
    if s.marked new level then
      match k with
      | .insert _ => some (s.move t (.ret c.id (linked k)))
      | .put _ => some (s.move t (linkNext s c k new (level + 1)))
    else some (s.move t (.linkCas c k new level))
  | .linkCas c k new level =>
    if s.nextIs (s.preds t level) level (s.succs t level) then
      some ((s.setNext (s.preds t level) level (some new)).move t
        (linkNext s c k new (level + 1)))
    else some (s.move t (find c (.relink k new level)))
  | .linkStore c k new level =>
    some (((s.setNext new level (s.succs t level)).setMark new level false).move t
      (.linkLoad c k new level))
  | .exchange c v victim =>
    some ((s.setValue victim v).move t (.ret c.id (.old (some (s.value victim)))))
  | .markLoad c victim level =>
    if s.marked victim level then some (s.move t (markedBy c victim level))
    else some (s.move t (.markCas c victim level (s.next victim level)))
  | .markCas c victim level next =>
    -- the compare-and-swap is weak above level 0
    if (fail = false ∨ level = 0) ∧ s.nextIs victim level next then
      some ((s.setMark victim level true).move t (markNext c victim level))
    else if s.marked victim level then some (s.move t (markedBy c victim level))
    else some (s.move t (.markCas c victim level (s.next victim level)))
  | .loadValue c victim => some (s.move t (find c (.unlink victim (s.value victim))))
  | .retire c victim v =>
    some (({ s with retired := (victim, s.callCount) :: s.retired } : State K V).move t
      (.ret c.id (.removed (some v))))
  | .getLevel c level pred => some (s.move t (getArrive c level pred (s.next pred level)))
  | .getNext c level pred curr =>
    if s.marked curr level then some (s.move t (getArrive c level pred (s.next curr level)))
    else if s.key curr < c.key then
      some (s.move t (getArrive c level curr (s.next curr level)))
    else if s.key curr = c.key then some (s.move t (.getMark c level pred curr))
    else some (s.move t (getDown c pred level))
  | .getMark c level pred curr =>
    if s.marked curr 0 then some (s.move t (getDown c pred level))
    else some (s.move t (.getValue c curr))
  | .getValue c curr => some (s.move t (.ret c.id (.found (some (s.value curr)))))
  | .ret id res => some (({ s with hist := s.hist ++ [.ret id res] } : State K V).move t .idle)

/-- `node_create`, if there is no node yet, and the stores to its next fields. -/
def create (s : State K V) (t : Tid) (level : Nat) (c : Call K) (k : Kind V) :
    Option Nid → State K V
  | some new =>
    let next := fun i => if i < s.topLevel new then s.succs t i else s.next new i
    ({ s with next := update s.next new next } : State K V).move t (.publish c k new)
  | none =>
    let next := fun i => if i < level then s.succs t i else none
    ({ s with
      nodeCount := s.nodeCount + 1
      key := update s.key s.nodeCount c.key
      topLevel := update s.topLevel s.nodeCount level
      value := update s.value s.nodeCount k.value
      marked := update s.marked s.nodeCount fun _ => false
      next := update s.next s.nodeCount next } : State K V).move t
      (.publish c k s.nodeCount)

/-- The first step of a call. -/
def first (c : Call K) : Op V → Pc K V
  | .insert v => find c (.link (.insert v) none)
  | .put v => find c (.link (.put v) none)
  | .get => .getLevel c (maxLevel - 1) head
  | .remove => find c .remove

def step [DecidableEq V] (s : State K V) : Act K V → Option (State K V)
  | .call t key op =>
    if s.pc t = .idle then
      some (({ s with
        callCount := s.callCount + 1
        hist := s.hist ++ [.call s.callCount op] } : State K V).move t
          (first ⟨s.callCount, key⟩ op))
    else none
  | .create t level =>
    match s.pc t with
    | .create c k new =>
      if 1 ≤ level ∧ level ≤ maxLevel then some (create s t level c k new) else none
    | _ => none
  | .noMemory t =>
    match s.pc t with
    | .create _ _ none => some (s.move t .idle)
    | _ => none
  | .go t fail => go s t fail (s.pc t)

/-- The list at rest with the nodes below `count`: at each level a node leads
to the next one that has the level. -/
def start (count : Nat) (key : Nid → K) (topLevel : Nid → Nat) (value : Nid → V) : State K V where
  key := key
  topLevel := topLevel
  next n i := (List.range count).find? fun m => n < m ∧ i < topLevel m
  marked _ _ := false
  value := value
  nodeCount := count
  pc _ := .idle
  preds _ _ := head
  succs _ _ := none
  callCount := 0
  hist := []
  retired := []

/-- The head and nodes with any keys but `k`. A node has no address here, so
they are numbered in the order of their keys. -/
structure Layout (k : K) (count : Nat) (key : Nid → K) (topLevel : Nid → Nat) : Prop where
  head_lt : head < count
  sorted : ∀ n m, head < n → n < m → m < count → key n < key m
  level : ∀ n, n < count → 1 ≤ topLevel n ∧ topLevel n ≤ maxLevel
  absent : ∀ n, head < n → n < count → key n ≠ k

/-- The skip list under any number of threads, at first without the key `k`. -/
def machine (V : Type) [DecidableEq V] (k : K) : Machine (State K V) (Act K V) where
  init s := ∃ count key topLevel value, Layout k count key topLevel ∧
    s = start count key topLevel value
  step := step

end Cobalt.Container.LfSkipList
