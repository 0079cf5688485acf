/-
Cobalt.Memory.Ebr — the epoch based reclamation of `ebr.c` as a machine.

A step is one access to a shared field or one section under `orphan_lock`.
A walk along the list of handles sees the list as it was when it loaded
`head_handle`: a handle's `next` is written before the handle is published
and never again. What a call does to a node it has not published yet goes
with the step next to it, and a compare-and-swap that fails spuriously is
the same as one not made yet.

The retired nodes are linked through their `next` fields, as in the source.
One call of retire makes one node, which stands for the pointer; nodes are
numbered and no number is used again. Handles are numbered likewise.

Three fields are history. `owner` is the thread that may use a handle: it
is set by register and given up when unregister clears `registered`.
`sections` counts the critical sections of a handle, and `guards` has, for
each node, the critical sections that were open when retire read the epoch.
`retired` and `freed` are the nodes pushed and the nodes freed, in order.
-/
import Cobalt.Lib.Chained
import Cobalt.Lib.Machine

namespace Cobalt.Memory.Ebr

open Function (update)

abbrev Tid := Nat

/-- A `cobalt_ebr_handle_t`. -/
abbrev Hid := Nat

/-- A `cobalt_ebr_node_t`. -/
abbrev Nid := Nat

/-- What follows `ebr_reclaim_node_list`. -/
inductive After where
  | done
  | retire (h : Hid)
  deriving DecidableEq, Repr

/-- Where a thread is; each phase but `idle` is named after the access it makes
next. -/
inductive Pc where
  | idle
  -- `cobalt_ebr_enter`, `cobalt_ebr_exit`
  | enterLoad (h : Hid)
  | enterStore (h : Hid) (g : Nat)
  | exitStore (h : Hid)
  | exitLoad (h : Hid)
  -- `cobalt_ebr_retire`
  | retireLoad (h : Hid) (n : Nid)
  | retireLink (h : Hid) (n : Nid) (g : Nat)
  | retirePush (h : Hid) (n : Nid) (g : Nat)
  | retireCount (h : Hid) (g : Nat)
  | retireStore (h : Hid) (g count : Nat)
  | retireCheck (h : Hid)
  | retireReset (h : Hid)
  -- `ebr_reclaim_node_list`
  | listTest (h : Hid) (slot : Nat) (k : After)
  | listRead (h : Hid) (slot : Nat) (k : After)
  | listClear (h : Hid) (slot : Nat) (curr : Option Nid) (k : After)
  | listNext (n : Nid) (k : After)
  | listFree (n : Nid) (next : Option Nid) (k : After)
  -- `cobalt_ebr_try_advance`
  | advanceLoad
  | advanceHead (g : Nat)
  | advanceRegistered (g : Nat) (h : Hid) (rest : List Hid)
  | advanceActive (g : Nat) (h : Hid) (rest : List Hid)
  | advanceCas (g : Nat)
  -- `ebr_reclaim_orphaned_slot`; `keep` has the head and the tail of what is kept
  | orphanTake (slot limit : Nat)
  | orphanNext (slot limit : Nat) (n : Nid) (keep : Option (Nid × Nid))
  | orphanEpoch (slot limit : Nat) (n : Nid) (next : Option Nid) (keep : Option (Nid × Nid))
  | orphanFree (slot limit : Nat) (n : Nid) (next : Option Nid) (keep : Option (Nid × Nid))
  | orphanKeep (slot limit : Nat) (n : Nid) (next : Option Nid) (keep : Nid × Nid)
  | orphanReturn (slot : Nat) (keep : Nid × Nid)
  -- `cobalt_ebr_register`
  | registerHead
  | registerTry (h : Hid) (rest : List Hid)
  | registerActive (h : Hid)
  | registerSplice (h : Hid)
  | registerNew
  | registerLoad (h : Hid)
  | registerCas (h : Hid) (old : List Hid)
  -- `cobalt_ebr_unregister`
  | unregisterActive (h : Hid)
  | unregisterFlag (h : Hid)
  | unregisterSplice (h : Hid)
  deriving DecidableEq, Repr

structure State where
  globalEpoch : Nat
  /-- The handles from `head_handle` on. -/
  handles : List Hid
  activeEpoch : Hid → Nat
  registered : Hid → Bool
  localRetired : Hid → Nat → Option Nid
  retiredCount : Hid → Nat
  orphanedRetired : Nat → Option Nid
  nodeNext : Nid → Option Nid
  nodeEpoch : Nid → Nat
  /-- How many handles and how many nodes have been allocated. -/
  handleCount : Nat
  nodeCount : Nat
  pc : Tid → Pc
  owner : Hid → Option Tid
  sections : Hid → Nat
  guards : Nid → Hid → Option Nat
  retired : List Nid
  freed : List Nid

inductive Act where
  | enter (h : Hid)
  | exit (h : Hid)
  | retire (h : Hid)
  | advance
  | register
  | unregister (h : Hid)
  /-- The next access of the call the thread is in. -/
  | go
  deriving DecidableEq, Repr

/-! ## Control flow -/

def After.pc : After → Pc
  | done => .idle
  | retire h => .retireCheck h

/-- The loop of `ebr_reclaim_node_list`. -/
def listLoop (k : After) : Option Nid → Pc
  | none => k.pc
  | some n => .listNext n k

/-- The loop of `cobalt_ebr_try_advance` over the handles. -/
def advanceLoop (g : Nat) : List Hid → Pc
  | [] => .advanceCas g
  | h :: rest => .advanceRegistered g h rest

/-- The loop of `ebr_reclaim_orphaned_slot`, and what follows it. -/
def orphanLoop (slot limit : Nat) (keep : Option (Nid × Nid)) : Option Nid → Pc
  | some n => .orphanNext slot limit n keep
  | none =>
      match keep with
      | some keep => .orphanReturn slot keep
      | none => .idle

/-- The loop of `cobalt_ebr_register` over the handles. -/
def registerLoop : List Hid → Pc
  | [] => .registerNew
  | h :: rest => .registerTry h rest

/-- What enter publishes: `(g << 1) | 1` as a `uint64_t`. -/
def publish (g : Nat) : Nat := (g <<< 1 ||| 1) % 2 ^ 64

lemma publish_eq (g : Nat) : publish g = (2 * g + 1) % 2 ^ 64 := by
  rw [publish, ← Nat.shiftLeft_add_eq_or_of_lt (by decide), Nat.shiftLeft_eq, Nat.pow_one,
    Nat.mul_comm]

lemma active_publish (g : Nat) : publish g &&& 1 ≠ 0 := by
  rw [publish_eq, Nat.and_one_is_mod]
  omega

/-- The slot that is reclaimed in epoch `g`: `(g + 1) % 3`, the sum as a
`uint64_t`. -/
def safeSlot (g : Nat) : Nat := (g + 1) % 2 ^ 64 % 3

/-- A critical section is open: `active_epoch` is odd. -/
def State.Active (s : State) (h : Hid) : Prop := s.activeEpoch h &&& 1 ≠ 0

instance (s : State) (h : Hid) : Decidable (s.Active h) := inferInstanceAs (Decidable (_ ≠ _))

namespace State

/-! ## Stores -/

abbrev move (s : State) (t : Tid) (pc : Pc) : State := { s with pc := update s.pc t pc }

abbrev setActive (s : State) (h : Hid) (a : Nat) : State :=
  { s with activeEpoch := update s.activeEpoch h a }

abbrev setCount (s : State) (h : Hid) (c : Nat) : State :=
  { s with retiredCount := update s.retiredCount h c }

abbrev setLocal (s : State) (h : Hid) (slot : Nat) (n : Option Nid) : State :=
  { s with
    localRetired := update s.localRetired h (update (s.localRetired h) slot n) }

abbrev setOrphaned (s : State) (slot : Nat) (n : Option Nid) : State :=
  { s with orphanedRetired := update s.orphanedRetired slot n }

abbrev setNext (s : State) (n : Nid) (next : Option Nid) : State :=
  { s with nodeNext := update s.nodeNext n next }

/-- A critical section begins. -/
abbrev beginSection (s : State) (h : Hid) : State :=
  { s with sections := update s.sections h (s.sections h + 1) }

/-- `node->epoch`, and the critical sections that are open. -/
abbrev stamp (s : State) (n : Nid) : State :=
  { s with
    nodeEpoch := update s.nodeEpoch n s.globalEpoch
    guards := update s.guards n fun h => if s.Active h then some (s.sections h) else none }

abbrev logRetired (s : State) (n : Nid) : State := { s with retired := s.retired ++ [n] }

abbrev logFreed (s : State) (n : Nid) : State := { s with freed := s.freed ++ [n] }

/-- `registered`, and with it the right to use the handle. -/
abbrev setOwner (s : State) (h : Hid) (t : Option Tid) : State :=
  { s with
    registered := update s.registered h t.isSome
    owner := update s.owner h t }

/-- One list of the handle goes to the orphans, at the front. -/
def spliceSlot (s : State) (h : Hid) (slot : Nat) : Option State :=
  match s.localRetired h slot with
  | none => some s
  | some n =>
      (lastOf s.nodeNext s.nodeCount n).map fun tail =>
        ((s.setNext tail (s.orphanedRetired slot)).setOrphaned slot (some n)).setLocal h slot none

/-- The section that register and unregister share. -/
def splice (s : State) (h : Hid) : Option State := do
  let s ← s.spliceSlot h 0
  let s ← s.spliceSlot h 1
  let s ← s.spliceSlot h 2
  some (s.setCount h 0)

end State

/-! ## Steps -/

/-- The next access of a thread inside a call. -/
def go (s : State) (t : Tid) : Option State :=
  match s.pc t with
  | .idle => none
  | .enterLoad h => some (s.move t (.enterStore h s.globalEpoch))
  | .enterStore h g =>
      some (((s.setActive h (publish g)).beginSection h).move t (.listTest h (safeSlot g) .done))
  | .exitStore h => some ((s.setActive h 0).move t (.exitLoad h))
  | .exitLoad h => some (s.move t (.listTest h (safeSlot s.globalEpoch) .done))
  | .retireLoad h n => some ((s.stamp n).move t (.retireLink h n s.globalEpoch))
  | .retireLink h n g =>
      some ((s.setNext n (s.localRetired h (g % 3))).move t (.retirePush h n g))
  | .retirePush h n g =>
      some (((s.setLocal h (g % 3) (some n)).logRetired n).move t (.retireCount h g))
  | .retireCount h g => some (s.move t (.retireStore h g (s.retiredCount h)))
  | .retireStore h g c =>
      some ((s.setCount h ((c + 1) % 2 ^ 64)).move t (.listTest h (safeSlot g) (.retire h)))
  | .retireCheck h =>
      some (s.move t (if s.retiredCount h ≥ 64 then .retireReset h else .idle))
  | .retireReset h => some ((s.setCount h 0).move t .advanceLoad)
  | .listTest h slot k =>
      some (s.move t (if s.localRetired h slot = none then k.pc else .listRead h slot k))
  | .listRead h slot k => some (s.move t (.listClear h slot (s.localRetired h slot) k))
  | .listClear h slot curr k => some ((s.setLocal h slot none).move t (listLoop k curr))
  | .listNext n k => some (s.move t (.listFree n (s.nodeNext n) k))
  | .listFree n next k => some ((s.logFreed n).move t (listLoop k next))
  | .advanceLoad => some (s.move t (.advanceHead s.globalEpoch))
  | .advanceHead g => some (s.move t (advanceLoop g s.handles))
  | .advanceRegistered g h rest =>
      some (s.move t (if s.registered h then .advanceActive g h rest else advanceLoop g rest))
  | .advanceActive g h rest =>
      some (s.move t (if s.Active h ∧ s.activeEpoch h >>> 1 < g then .idle else advanceLoop g rest))
  | .advanceCas g =>
      if s.globalEpoch = g then
        some (({ s with globalEpoch := (g + 1) % 2 ^ 64 } : State).move t
          (.orphanTake ((g + 2) % 2 ^ 64 % 3) (if g > 0 then g - 1 else 0)))
      else some (s.move t .idle)
  | .orphanTake slot limit =>
      some ((s.setOrphaned slot none).move t (orphanLoop slot limit none (s.orphanedRetired slot)))
  | .orphanNext slot limit n keep =>
      some (s.move t (.orphanEpoch slot limit n (s.nodeNext n) keep))
  | .orphanEpoch slot limit n next keep =>
      if s.nodeEpoch n > limit then
        match keep with
        | none => some (s.move t (orphanLoop slot limit (some (n, n)) next))
        | some keep => some (s.move t (.orphanKeep slot limit n next keep))
      else some (s.move t (.orphanFree slot limit n next keep))
  | .orphanKeep slot limit n next keep =>
      some ((s.setNext keep.2 (some n)).move t (orphanLoop slot limit (some (keep.1, n)) next))
  | .orphanFree slot limit n next keep =>
      some ((s.logFreed n).move t (orphanLoop slot limit keep next))
  | .orphanReturn slot keep =>
      some (((s.setNext keep.2 (s.orphanedRetired slot)).setOrphaned slot (some keep.1)).move t
        .idle)
  | .registerHead => some (s.move t (registerLoop s.handles))
  | .registerTry h rest =>
      if s.registered h then some (s.move t (registerLoop rest))
      else some ((s.setOwner h (some t)).move t (.registerActive h))
  | .registerActive h => some ((s.setActive h 0).move t (.registerSplice h))
  | .registerSplice h => (s.splice h).map (·.move t .idle)
  | .registerNew =>
      some ((({ s with handleCount := s.handleCount + 1 } : State).setOwner s.handleCount
        (some t)).move t (.registerLoad s.handleCount))
  | .registerLoad h => some (s.move t (.registerCas h s.handles))
  | .registerCas h old =>
      if s.handles = old then some (({ s with handles := h :: old } : State).move t .idle)
      else some (s.move t (.registerCas h s.handles))
  | .unregisterActive h => some ((s.setActive h 0).move t (.unregisterFlag h))
  | .unregisterFlag h => some ((s.setOwner h none).move t (.unregisterSplice h))
  | .unregisterSplice h => (s.splice h).map (·.move t .idle)

/-- A call with a handle is made by the thread that owns the handle. -/
def call (s : State) (t : Tid) (h : Hid) (s' : State) : Option State :=
  if s.pc t = .idle ∧ s.owner h = some t then some s' else none

def step (s : State) : Tid × Act → Option State
  | (t, .enter h) => call s t h (s.move t (.enterLoad h))
  | (t, .exit h) => call s t h (s.move t (.exitStore h))
  | (t, .retire h) =>
      call s t h (({ s with nodeCount := s.nodeCount + 1 } : State).move t
        (.retireLoad h s.nodeCount))
  | (t, .advance) => if s.pc t = .idle then some (s.move t .advanceLoad) else none
  | (t, .register) => if s.pc t = .idle then some (s.move t .registerHead) else none
  | (t, .unregister h) => call s t h (s.move t (.unregisterActive h))
  | (t, .go) => go s t

/-- `cobalt_ebr_create`. -/
def start : State where
  globalEpoch := 0
  handles := []
  activeEpoch _ := 0
  registered _ := false
  localRetired _ _ := none
  retiredCount _ := 0
  orphanedRetired _ := none
  nodeNext _ := none
  nodeEpoch _ := 0
  handleCount := 0
  nodeCount := 0
  pc _ := .idle
  owner _ := none
  sections _ := 0
  guards _ _ := none
  retired := []
  freed := []

def machine : Machine State (Tid × Act) := ⟨(· = start), step⟩

/-! ## Where a node is -/

/-- The node of a retire call that has not pushed it yet. -/
def Pc.hand : Pc → Option Nid
  | retireLoad _ n | retireLink _ n _ | retirePush _ n _ => some n
  | _ => none

/-- The head of the list a reclaim has detached. -/
def Pc.held : Pc → Option Nid
  | listNext n _ | listFree n _ _ => some n
  | orphanNext _ _ n _ | orphanEpoch _ _ n _ _ | orphanFree _ _ n _ _ | orphanKeep _ _ n _ _ => some n
  | _ => none

/-- The head and the tail of what a reclaim keeps. -/
def Pc.kept : Pc → Option (Nid × Nid)
  | orphanNext _ _ _ keep | orphanEpoch _ _ _ _ keep | orphanFree _ _ _ _ keep => keep
  | orphanKeep _ _ _ _ keep | orphanReturn _ keep => some keep
  | _ => none

inductive Place where
  | handle (h : Hid) (slot : Nat)
  | orphaned (slot : Nat)
  | held (t : Tid)
  | kept (t : Tid)
  | hand (t : Tid)
  | freed
  deriving DecidableEq, Repr

namespace State

variable (s : State)

def headAt : Place → Option Nid
  | .handle h slot => s.localRetired h slot
  | .orphaned slot => s.orphanedRetired slot
  | .held t => (s.pc t).held
  | .kept t => (s.pc t).kept.map Prod.fst
  | .hand t => (s.pc t).hand
  | .freed => none

/-- The links of a list; what is kept ends at its tail, whose own link is
stale, and a node in hand has no link yet. -/
def nextAt : Place → Nid → Option Nid
  | .kept t =>
      match (s.pc t).kept with
      | some keep => update s.nodeNext keep.2 none
      | none => s.nodeNext
  | .hand _ => fun _ => none
  | _ => s.nodeNext

/-- The nodes at a place. -/
def nodesAt : Place → List Nid
  | .freed => s.freed
  | p => walk (s.nextAt p) s.nodeCount (s.headAt p)

end State

end Cobalt.Memory.Ebr
