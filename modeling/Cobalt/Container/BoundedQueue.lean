/-
Cobalt.Container.BoundedQueue — the bounded queues of many threads.

`cobalt_shm_mpmc` (`shm_ring.c`) and `cobalt_lfqueue` (`lfqueue.c`) are one
algorithm over two kinds of slots. Each slot has a sequence number. A push
takes its ticket from the write cursor by a compare-and-swap, when the slot
of the ticket has the ticket as its sequence; it stores the item and hands
the slot over with the sequence `ticket + 1`. A pop takes its ticket from
the read cursor when the sequence is `ticket + 1`, reads the item, and hands
the slot to the push of the next lap with `ticket + capacity`.

One step is one load, compare-and-swap or store of a cursor or of a
sequence, or one access to the rest of a slot. Cursors and sequences are 64
bit words.
-/
import Cobalt.Lib.Machine

namespace Cobalt.Container.BoundedQueue

open List

abbrev Tid := Nat

/-! ## Slots -/

/-- What a queue stores in its slots: the messages `μ` that a push accepts,
the accesses by which it stores one in a slot `β`, and those by which a pop
with arguments `κ` reads the slot into its results `γ`. Reading a slot after
all the stores gives what `expected` says, whatever was in the slot. -/
structure Codec (μ β κ γ : Type) where
  accepts : μ → Bool
  store : μ → List (β → β)
  load : κ → List (β → γ → γ)
  blank : β
  unset : γ
  expected : κ → μ → γ
  load_store : ∀ k m (c : β), accepts m = true →
    (load k).foldl (fun g f => f ((store m).foldl (fun c f => f c) c) g) unset = expected k m

/-- The rest of a `cobalt_shm_mpmc_slot_t`. -/
structure ShmSlot where
  actualLen : Nat
  payload : List UInt8

/-- What `cobalt_shm_mpmc_pop` hands out: `*out_len`, and the bytes it has
copied into `buf`. -/
structure Popped where
  outLen : Nat
  buf : List UInt8
  deriving DecidableEq, Repr

/-- The slots of `cobalt_shm_mpmc`, with the `slot_size` of the ring. A pop
is called with the size of its buffer. The length is stored as a 32 bit
word; `cobalt_shm_mpmc_init` refuses a `slot_size` for which it could be
cut. -/
def shmMpmc (slotSize : Nat) (hsize : slotSize < 2 ^ 32) :
    Codec (List UInt8) ShmSlot Nat Popped where
  accepts data := decide (data.length ≤ slotSize)
  store data :=
    [fun slot => { slot with actualLen := data.length % 2 ^ 32 },
      fun slot => { slot with payload := data ++ slot.payload.drop data.length }]
  load bufSize :=
    [fun slot out => { out with outLen := slot.actualLen },
      fun slot out => { out with buf := slot.payload.take (min out.outLen bufSize) }]
  blank := ⟨0, List.replicate slotSize 0⟩
  unset := ⟨0, []⟩
  expected bufSize data := ⟨data.length, data.take bufSize⟩
  load_store := by
    intro bufSize data slot haccepts
    have hlen : data.length % 2 ^ 32 = data.length :=
      Nat.mod_eq_of_lt (by have := of_decide_eq_true haccepts; omega)
    simp only [foldl_cons, foldl_nil, hlen]
    congr 1
    rw [take_append_of_le_length (min_le_left _ _), Nat.min_comm, ← take_take, take_length]

/-- The cells of `cobalt_lfqueue`: a pointer. -/
def lfqueue : Codec Nat Nat Unit Nat where
  accepts _ := true
  store data := [fun _ => data]
  load _ := [fun cell _ => cell]
  blank := 0
  unset := 0
  expected _ data := data
  load_store _ _ _ _ := rfl

/-! ## The machine -/

/-- What a call has returned. -/
inductive Rc where
  | none
  | success
  | full
  | empty
  | invalidArgument
  deriving DecidableEq, Repr

/-- Where a thread is. Each phase but `idle` is named after its next access;
`pos` is the local variable of the source. -/
inductive Pc (μ β κ γ : Type) where
  | idle (rc : Rc)
  | pushCursor (m : μ)
  | pushSeq (m : μ) (pos : Nat)
  | pushCas (m : μ) (pos : Nat)
  /-- The ticket `pos` is taken; the stores that are left, and then the
  store of the sequence. -/
  | pushStore (m : μ) (pos : Nat) (rest : List (β → β))
  | popCursor (k : κ)
  | popSeq (k : κ) (pos : Nat)
  | popCas (k : κ) (pos : Nat)
  /-- The ticket `pos` is taken; the loads that are left, and then the store
  of the sequence. -/
  | popLoad (k : κ) (pos : Nat) (rest : List (β → γ → γ)) (out : γ)

/-- A pop that has returned: its arguments, its ticket and its results. -/
structure Result (κ γ : Type) where
  args : κ
  ticket : Nat
  value : γ

/-- How far the item of a ticket is. -/
inductive Stage where
  | unclaimed
  | storing
  | ready
  | loading
  | released
  deriving DecidableEq, Repr

structure State (μ β κ γ : Type) where
  writeCursor : Nat
  readCursor : Nat
  sequence : Nat → Nat
  slot : Nat → β
  pc : Tid → Pc μ β κ γ
  /-- History: the items by push ticket. -/
  pushes : List μ
  /-- History: the push tickets in the order in which pops have claimed
  them. -/
  claims : List Nat
  /-- History: the pops that have returned with an item. -/
  results : List (Result κ γ)
  /-- History: how far the item of each ticket is. -/
  stage : Nat → Stage

variable {μ β κ γ : Type} (q : Codec μ β κ γ) (capacity : Nat)

def start : State μ β κ γ :=
  ⟨0, 0, fun i => i, fun _ => q.blank, fun _ => .idle .none, [], [], [], fun _ => .unclaimed⟩

/-- What a thread does next: a call, the next access inside one, or, for
`fail`, a compare-and-swap that fails for no reason, as weak ones may. -/
inductive Act (μ κ : Type) where
  | push (m : μ)
  | pop (k : κ)
  | go
  | fail

/-- `pos & mask`. -/
def slotIndex (pos : Nat) : Nat := pos &&& (capacity - 1)

/-- A sum of 64 bit words. -/
def word (n : Nat) : Nat := n % 2 ^ 64

/-- `(int64_t)seq - (int64_t)pos`. -/
def diff (seq pos : Nat) : Int := ((seq : Int) - pos).bmod (2 ^ 64)

namespace State

variable {q capacity}

abbrev move (s : State μ β κ γ) (t : Tid) (pc : Pc μ β κ γ) : State μ β κ γ :=
  { s with pc := Function.update s.pc t pc }

/-- The compare-and-swap of the write cursor: on success the ticket is taken,
otherwise `pos` is the value found. -/
def casWrite (q : Codec μ β κ γ) (s : State μ β κ γ) (t : Tid) (m : μ) (pos : Nat) : State μ β κ γ :=
  if s.writeCursor = pos then
    { s.move t (.pushStore m pos (q.store m)) with
      writeCursor := word (pos + 1)
      pushes := s.pushes ++ [m]
      stage := Function.update s.stage pos .storing }
  else s.move t (.pushSeq m s.writeCursor)

/-- The compare-and-swap of the read cursor. -/
def casRead (q : Codec μ β κ γ) (s : State μ β κ γ) (t : Tid) (k : κ) (pos : Nat) : State μ β κ γ :=
  if s.readCursor = pos then
    { s.move t (.popLoad k pos (q.load k) q.unset) with
      readCursor := word (pos + 1)
      claims := s.claims ++ [pos]
      stage := Function.update s.stage pos .loading }
  else s.move t (.popSeq k s.readCursor)

/-- A push hands its slot to the pop of the same ticket. -/
abbrev publish (capacity : Nat) (s : State μ β κ γ) (t : Tid) (pos : Nat) : State μ β κ γ :=
  { s.move t (.idle .success) with
    sequence := Function.update s.sequence (slotIndex capacity pos) (word (pos + 1))
    stage := Function.update s.stage pos .ready }

/-- A pop hands its slot to the push of the next lap. -/
abbrev release (capacity : Nat) (s : State μ β κ γ) (t : Tid) (k : κ) (pos : Nat) (out : γ) :
    State μ β κ γ :=
  { s.move t (.idle .success) with
    sequence := Function.update s.sequence (slotIndex capacity pos) (word (pos + capacity))
    stage := Function.update s.stage pos .released
    results := s.results ++ [⟨k, pos, out⟩] }

end State

/-- One access of one thread. -/
def step (s : State μ β κ γ) : Tid × Act μ κ → Option (State μ β κ γ)
  | (t, a) =>
    match s.pc t, a with
    | .idle _, .push m =>
        some (s.move t (if q.accepts m then .pushCursor m else .idle .invalidArgument))
    | .idle _, .pop k => some (s.move t (.popCursor k))
    | .pushCursor m, .go => some (s.move t (.pushSeq m s.writeCursor))
    | .pushSeq m pos, .go =>
        let d := diff (s.sequence (slotIndex capacity pos)) pos
        some (s.move t
          (if d = 0 then .pushCas m pos else if d < 0 then .idle .full else .pushCursor m))
    | .pushCas m pos, .go => some (s.casWrite q t m pos)
    | .pushCas m _, .fail => some (s.move t (.pushSeq m s.writeCursor))
    | .pushStore m pos (f :: rest), .go =>
        let i := slotIndex capacity pos
        some { s.move t (.pushStore m pos rest) with
          slot := Function.update s.slot i (f (s.slot i)) }
    | .pushStore _ pos [], .go => some (s.publish capacity t pos)
    | .popCursor k, .go => some (s.move t (.popSeq k s.readCursor))
    | .popSeq k pos, .go =>
        let d := diff (s.sequence (slotIndex capacity pos)) (word (pos + 1))
        some (s.move t
          (if d = 0 then .popCas k pos else if d < 0 then .idle .empty else .popCursor k))
    | .popCas k pos, .go => some (s.casRead q t k pos)
    | .popCas k _, .fail => some (s.move t (.popSeq k s.readCursor))
    | .popLoad k pos (f :: rest) out, .go =>
        some (s.move t (.popLoad k pos rest (f (s.slot (slotIndex capacity pos)) out)))
    | .popLoad k pos [] out, .go => some (s.release capacity t k pos out)
    | _, _ => none

/-- The capacities of a queue: powers of two from 2 on that are 64 bit
words. -/
structure Capacity where
  log : Nat
  log_pos : 0 < log
  log_lt : log < 64

def Capacity.size (c : Capacity) : Nat := 2 ^ c.log

/-- The queue under any number of threads. -/
def machine (c : Capacity) : Machine (State μ β κ γ) (Tid × Act μ κ) :=
  ⟨(· = start q), step q c.size⟩

end Cobalt.Container.BoundedQueue
