/-
Cobalt.Container.LfHashMapEntry — lfhashmap.c, the operations on one key.

The nodes of a lock-free hash map form one list, sorted by split-order key.
For one key only three kinds of place in it matter: the nodes that a search
passes (sentinels, and nodes of other keys that sort before the key), the
nodes of the key itself, and the rest, which is `none`. A search starts at
any sentinel; buckets that are split add further ones (`Act.grow`). One step
is one atomic load, store or compare-and-swap; a compare-and-swap may fail
for a reason that is not visible here (`fail`): the weak ones spuriously, the
others because the rest of the list has changed. Reclamation is left out: no
node is freed while in use.
-/
import Cobalt.Container.MapEntry
import Cobalt.Lib.Machine

namespace Cobalt.Container.LfHashMapEntry

open Function (update)

open Cobalt.Linear MapEntry

variable {V : Type}

abbrev Tid := Nat

abbrev Nid := Nat

/-- A call: its number in the history, and the sentinel it searches from. -/
structure Job where
  id : Nat
  head : Nid
  deriving DecidableEq, Repr

/-- What a search is for; `unlink` is the second search of remove. -/
inductive Goal (V : Type) where
  | insert (v : V)
  | put (v : V)
  | remove
  | unlink (v : V)
  deriving DecidableEq, Repr

/-- What a thread does next. -/
inductive Pc (V : Type) where
  | idle
  /-- `find_pred_curr`: load the next field of the sentinel -/
  | findStart (j : Job) (g : Goal V)
  /-- load `curr->next` -/
  | findNext (j : Job) (g : Goal V) (pred curr : Nid)
  /-- compare-and-swap `pred->next`, to unlink the marked `curr` -/
  | findUnlink (j : Job) (g : Goal V) (pred curr : Nid) (succ : Option Nid)
  /-- compare-and-swap `pred->next`, to link the new node -/
  | publish (j : Job) (g : Goal V) (pred new : Nid)
  /-- put: load `curr->value` -/
  | putLoad (j : Job) (v : V) (curr : Nid)
  /-- put: compare-and-swap `curr->value` -/
  | putCas (j : Job) (v : V) (curr : Nid) (old : V)
  /-- put: load `curr->next` after the compare-and-swap failed -/
  | putRecheck (j : Job) (v : V) (curr : Nid) (old : V)
  /-- put: load `curr->next` after the loop -/
  | putCheck (j : Job) (v : V) (curr : Nid) (old : V)
  /-- remove: load `victim->next` -/
  | removeLoad (j : Job) (victim : Nid)
  /-- remove: compare-and-swap `victim->next`, to mark the node -/
  | removeCas (j : Job) (victim : Nid) (next : Option Nid)
  /-- remove: load `victim->value` -/
  | removeValue (j : Job) (victim : Nid)
  /-- get: load `curr->next` -/
  | getNext (j : Job) (curr : Nid)
  /-- get: load `curr->value` -/
  | getValue (j : Job) (curr : Nid)
  | ret (id : Nat) (res : Res V)
  deriving DecidableEq, Repr

structure State (V : Type) where
  /-- nodes that a search for the key passes -/
  passed : Nid → Bool
  /-- the pointer of the next field -/
  next : Nid → Option Nid
  /-- the mark of the next field -/
  marked : Nid → Bool
  value : Nid → V
  nodeCount : Nat
  pc : Tid → Pc V
  callCount : Nat
  hist : List (Event (Op V) (Res V))

inductive Act (V : Type) where
  /-- a thread calls an operation, on a sentinel -/
  | call (t : Tid) (op : Op V) (head : Nid)
  /-- a thread moves; `fail` makes its compare-and-swap fail -/
  | go (t : Tid) (fail : Bool)
  /-- a new sentinel is linked behind a passed node -/
  | grow (p : Nid)

namespace State

abbrev move (s : State V) (t : Tid) (x : Pc V) : State V := { s with pc := update s.pc t x }

abbrev setNext (s : State V) (n : Nid) (p : Option Nid) : State V :=
  { s with next := update s.next n p }

abbrev setMark (s : State V) (n : Nid) : State V := { s with marked := update s.marked n true }

abbrev setValue (s : State V) (n : Nid) (v : V) : State V := { s with value := update s.value n v }

/-- `node_create`: a node whose next field is the rest of the list. -/
abbrev create (s : State V) (v : V) : State V :=
  { s with
    nodeCount := s.nodeCount + 1
    value := update s.value s.nodeCount v
    next := update s.next s.nodeCount none }

/-- The word of the next field is the unmarked pointer `p`. -/
abbrev nextIs (s : State V) (n : Nid) (p : Option Nid) : Prop := s.next n = p ∧ s.marked n = false

end State

/-- The search has not found the key: `curr` is the rest of the list. -/
def miss (s : State V) (t : Tid) (j : Job) (pred : Nid) : Goal V → State V
  | .insert v => (s.create v).move t (.publish j (.insert v) pred s.nodeCount)
  | .put v => (s.create v).move t (.publish j (.put v) pred s.nodeCount)
  | .remove => s.move t (.ret j.id (.removed none))
  | .unlink v => s.move t (.ret j.id (.removed (some v)))

/-- The search has found the unmarked node `curr` of the key. -/
def hit (j : Job) (curr : Nid) : Goal V → Pc V
  | .insert _ => .ret j.id (.inserted false)
  | .put v => .putLoad j v curr
  | .remove => .removeLoad j curr
  | .unlink v => .ret j.id (.removed (some v))

/-- The search goes on behind `pred`. -/
def arrive (s : State V) (t : Tid) (j : Job) (g : Goal V) (pred : Nid) : Option Nid → State V
  | some curr => s.move t (.findNext j g pred curr)
  | none => miss s t j pred g

/-- What insert and put answer when they have linked a new node. -/
def linked : Goal V → Res V
  | .insert _ => .inserted true
  | _ => .old none

variable [DecidableEq V]

/-- One step of a thread. -/
def go (s : State V) (t : Tid) (fail : Bool) : Pc V → Option (State V)
  | .idle => none
  | .findStart j g => some (arrive s t j g j.head (s.next j.head))
  | .findNext j g pred curr =>
    if s.marked curr then some (s.move t (.findUnlink j g pred curr (s.next curr)))
    else if s.passed curr then some (arrive s t j g curr (s.next curr))
    else some (s.move t (hit j curr g))
  | .findUnlink j g pred curr succ =>
    if fail = false ∧ s.nextIs pred (some curr) then
      some (arrive (s.setNext pred succ) t j g pred succ)
    else some (s.move t (.findStart j g))
  | .publish j g pred new =>
    if fail = false ∧ s.nextIs pred none then
      some ((s.setNext pred (some new)).move t (.ret j.id (linked g)))
    else some (s.move t (.findStart j g))
  | .putLoad j v curr => some (s.move t (.putCas j v curr (s.value curr)))
  | .putCas j v curr old =>
    if fail = false ∧ s.value curr = old then
      some ((s.setValue curr v).move t (.putCheck j v curr old))
    else some (s.move t (.putRecheck j v curr (s.value curr)))
  | .putRecheck j v curr old =>
    if s.marked curr then some (s.move t (.putCheck j v curr old))
    else some (s.move t (.putCas j v curr old))
  | .putCheck j v curr old =>
    if s.marked curr then some (s.move t (.findStart j (.put v)))
    else some (s.move t (.ret j.id (.old (some old))))
  | .removeLoad j victim =>
    if s.marked victim then some (s.move t (.ret j.id (.removed none)))
    else some (s.move t (.removeCas j victim (s.next victim)))
  | .removeCas j victim next =>
    if fail = false ∧ s.nextIs victim next then
      some ((s.setMark victim).move t (.removeValue j victim))
    else if s.marked victim then some (s.move t (.ret j.id (.removed none)))
    else some (s.move t (.removeCas j victim (s.next victim)))
  | .removeValue j victim => some (s.move t (.findStart j (.unlink (s.value victim))))
  | .getNext j curr =>
    if s.marked curr = false ∧ s.passed curr = false then some (s.move t (.getValue j curr))
    else match s.next curr with
      | some next => some (s.move t (.getNext j next))
      | none => some (s.move t (.ret j.id (.found none)))
  | .getValue j curr => some (s.move t (.ret j.id (.found (some (s.value curr)))))
  | .ret id res => some (({ s with hist := s.hist ++ [.ret id res] } : State V).move t .idle)

/-- The first step of a call. -/
def first (j : Job) : Op V → Pc V
  | .insert v => .findStart j (.insert v)
  | .put v => .findStart j (.put v)
  | .get => .getNext j j.head
  | .remove => .findStart j .remove

def step (s : State V) : Act V → Option (State V)
  | .call t op head =>
    if s.pc t = .idle ∧ head < s.nodeCount ∧ s.passed head = true then
      some (({ s with
        callCount := s.callCount + 1
        hist := s.hist ++ [.call s.callCount op] } : State V).move t (first ⟨s.callCount, head⟩ op))
    else none
  | .go t fail => go s t fail (s.pc t)
  | .grow p =>
    if p < s.nodeCount ∧ s.passed p = true then
      some { s with
        nodeCount := s.nodeCount + 1
        passed := update s.passed s.nodeCount true
        next := update (update s.next s.nodeCount (s.next p)) p
          (some s.nodeCount) }
    else none

/-- One sentinel, and the key is absent. -/
def start (value : Nid → V) : State V where
  passed n := n = 0
  next _ := none
  marked _ := false
  value := value
  nodeCount := 1
  pc _ := .idle
  callCount := 0
  hist := []

/-- The map under any number of threads that use one key. -/
def machine (V : Type) [DecidableEq V] : Machine (State V) (Act V) where
  init s := ∃ value, s = start value
  step := step

end Cobalt.Container.LfHashMapEntry
