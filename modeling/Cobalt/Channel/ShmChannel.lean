/-
Cobalt.Channel.ShmChannel — blocking sends and receives on a channel.

`cobalt_shm_channel_send` and `cobalt_shm_channel_recv` under the blocking
policy without a timeout (`shm_channel.c`). A party that cannot proceed
registers in the counter of its side, tries once more, and sleeps on the
notifier, which both sides share. A party whose ring operation succeeds
looks at the counter of the other side and notifies. A wait ends when a
notification is pending, and takes all that are.

One step is one operation of the ring, one access of a counter, or one
call of the notifier. The counters are numbers without bounds here.
-/
import Cobalt.Lib.Machine
import Cobalt.Container.BoundedQueue
import Cobalt.Container.SpscTheorems

namespace Cobalt.Channel

abbrev Tid := Nat

/-! ## Rings -/

/-- The outcome of an attempt: the ring after it, full or empty, or refused
for the arguments. -/
inductive Tried (ρ : Type) where
  | done (ring : ρ)
  | blocked
  | refused
  deriving DecidableEq, Repr

/-- A ring of messages as the channel sees it. A message that is refused is
refused in every state, and room for a message does not come from sending
another one. -/
structure Ring (ρ μ : Type) where
  empty : ρ
  send : ρ → μ → Tried ρ
  recv : ρ → Tried ρ
  send_refused : ∀ r r' m, send r m = .refused → send r' m = .refused
  send_blocked : ∀ r r' m m', send r m = .blocked → send r m' = .done r' → send r' m = .blocked

/-- `cobalt_shm_mpmc` as a queue of messages. -/
def mpmc (capacity slotSize : Nat) : Ring (List (List UInt8)) (List UInt8) where
  empty := []
  send queue data :=
    if data.length > slotSize then .refused
    else if queue.length < capacity then .done (queue ++ [data]) else .blocked
  recv
    | [] => .blocked
    | _ :: queue => .done queue
  send_refused r r' m := by
    split
    · exact fun _ => rfl
    · split <;> nofun
  send_blocked r r' m m' := by
    grind

/-- `cobalt_shm_spsc` as its cursors and the positions at which the messages
in it end. -/
structure SpscRing where
  readPos : Nat
  writePos : Nat
  ends : List Nat
  deriving DecidableEq, Repr

section Reserve

open Container.Spsc

variable (c : Container.Spsc.Capacity) {w r size size' pos : Nat}

/-- Where a frame would start. -/
def frameStart (n w size : Nat) : Nat := if n - w % n < size then w + (n - w % n) else w

lemma reserveAt_eq_none :
    reserveAt c.size w r size = none ↔ c.size < frameStart c.size w size - r + size := by
  unfold reserveAt tooLong frameStart
  simp only [c.offsetOf_eq, Bool.or_eq_true, decide_eq_true_eq]
  split <;> split <;> simp <;> omega

lemma reserveAt_eq_some {marked : Bool} (h : reserveAt c.size w r size = some (pos, marked)) :
    pos = frameStart c.size w size := by
  unfold reserveAt at h
  unfold frameStart
  simp only [c.offsetOf_eq] at h
  by_cases hwrap : c.size - w % c.size < size
  · rw [if_pos hwrap] at h ⊢
    split at h <;> cases h
    rfl
  · rw [if_neg hwrap] at h ⊢
    split at h <;> cases h
    rfl

lemma frameStart_le (w size size' : Nat) :
    frameStart c.size w size ≤ frameStart c.size (frameStart c.size w size' + size') size := by
  have hoff := Nat.mod_lt w c.size_pos
  unfold frameStart at *
  by_cases hwrap : c.size - w % c.size < size'
  · simp only [if_pos hwrap]
    split <;> split <;> omega
  · simp only [if_neg hwrap]
    rcases lt_or_ge (w % c.size + size') c.size with hin | hend
    · have hmod := add_mod_of_fits hin
      rw [hmod]
      split <;> split <;> omega
    · split <;> split <;> omega

lemma reserveAt_blocked {marked : Bool} (h : reserveAt c.size w r size = none)
    (h' : reserveAt c.size w r size' = some (pos, marked)) :
    reserveAt c.size (pos + size') r size = none := by
  obtain rfl := reserveAt_eq_some c h'
  rw [reserveAt_eq_none] at h ⊢
  have := frameStart_le c w size size'
  omega

end Reserve

/-- `cobalt_shm_spsc` as a ring: a frame is reserved and committed, or read
and consumed. -/
def spsc (c : Container.Spsc.Capacity) : Ring SpscRing (List UInt8) where
  empty := ⟨0, 0, []⟩
  send ring data :=
    if Container.Spsc.lengthOk c.size data.length then
      let size := Container.Spsc.frameSize data.length
      match Container.Spsc.reserveAt c.size ring.writePos ring.readPos size with
      | none => .blocked
      | some (pos, _) =>
          .done { ring with writePos := pos + size, ends := ring.ends ++ [pos + size] }
    else .refused
  recv ring :=
    match ring.ends with
    | [] => .blocked
    | pos :: ends => .done { ring with readPos := pos, ends := ends }
  send_refused r r' m h := by
    split at h
    · dsimp only at h
      split at h <;> cases h
    · rename_i hlen
      rw [if_neg hlen]
  send_blocked r r' m m' h h' := by
    split at h
    · rename_i hlen
      rw [if_pos hlen]
      dsimp only at h ⊢
      split at h
      · rename_i hnone
        split at h'
        · dsimp only at h'
          split at h'
          · cases h'
          · rename_i hsome
            cases h'
            rw [reserveAt_blocked c hnone hsome]
        · cases h'
      · cases h
    · cases h

/-! ## The machine -/

inductive Side where
  | reader
  | writer
  deriving DecidableEq, Repr

def Side.other : Side → Side
  | .reader => .writer
  | .writer => .reader

/-- The two calls. They follow the same course, each with its own ring
operation and its own counter. -/
inductive Op (μ : Type) where
  | send (m : μ)
  | recv
  deriving DecidableEq, Repr

def Op.side {μ : Type} : Op μ → Side
  | .send _ => .writer
  | .recv => .reader

/-- What a call has returned. -/
inductive Rc where
  | none
  | success
  | invalidArgument
  deriving DecidableEq, Repr

/-- Where a party is. Each phase but `idle` is named after its next access;
`registered` says that the party is counted as waiting. -/
inductive Pc (μ : Type) where
  | idle (rc : Rc)
  | first (op : Op μ)
  | register (op : Op μ)
  | recheck (op : Op μ)
  /-- In `cobalt_notifier_wait`. -/
  | parked (op : Op μ)
  | unregister (op : Op μ)
  | retry (op : Op μ)
  /-- The ring operation has succeeded; the counter of the other side is
  loaded next. -/
  | loadWaiting (op : Op μ) (registered : Bool)
  | notify (op : Op μ) (registered : Bool)
  | leave (op : Op μ) (rc : Rc)
  deriving DecidableEq, Repr

structure State (ρ μ : Type) where
  ring : ρ
  /-- Notifications that no wait has taken. -/
  notifications : Nat
  /-- `waiting_readers` and `waiting_writers`. -/
  waiting : Side → Nat
  pc : Tid → Pc μ

inductive Act (μ : Type) where
  | call (op : Op μ)
  | go
  deriving DecidableEq, Repr

variable {ρ μ : Type} (R : Ring ρ μ)

def start : State ρ μ := ⟨R.empty, 0, fun _ => 0, fun _ => .idle .none⟩

/-- `try_send` and `try_recv` up to the notification. -/
def attempt (ring : ρ) : Op μ → Tried ρ
  | .send m => R.send ring m
  | .recv => R.recv ring

namespace State

abbrev move (s : State ρ μ) (t : Tid) (pc : Pc μ) : State ρ μ :=
  { s with pc := Function.update s.pc t pc }

/-- An attempt, with the phases that follow its three outcomes. -/
def tried (s : State ρ μ) (t : Tid) (op : Op μ) (success blocked refused : Pc μ) : State ρ μ :=
  match attempt R s.ring op with
  | .done ring => { s.move t success with ring := ring }
  | .blocked => s.move t blocked
  | .refused => s.move t refused

abbrev count (s : State ρ μ) (t : Tid) (side : Side) (k : Nat) (pc : Pc μ) : State ρ μ :=
  { s.move t pc with waiting := Function.update s.waiting side k }

end State

/-- After the notification: a registered party takes itself off its counter. -/
def afterNotify (op : Op μ) (registered : Bool) : Pc μ :=
  if registered then .leave op .success else .idle .success

/-- One access of one party. -/
def step (s : State ρ μ) : Tid × Act μ → Option (State ρ μ)
  | (t, a) =>
    match s.pc t, a with
    | .idle _, .call op => some (s.move t (.first op))
    | .first op, .go =>
        some (s.tried R t op (.loadWaiting op false) (.register op) (.idle .invalidArgument))
    | .register op, .go => some (s.count t op.side (s.waiting op.side + 1) (.recheck op))
    | .recheck op, .go =>
        some (s.tried R t op (.loadWaiting op true) (.parked op) (.leave op .invalidArgument))
    | .parked op, .go =>
        if s.notifications > 0 then some { s.move t (.unregister op) with notifications := 0 }
        else none
    | .unregister op, .go => some (s.count t op.side (s.waiting op.side - 1) (.retry op))
    | .retry op, .go =>
        some (s.tried R t op (.loadWaiting op false) (.register op) (.idle .invalidArgument))
    | .loadWaiting op registered, .go =>
        if s.waiting op.side.other > 0 then some (s.move t (.notify op registered))
        else some (s.move t (afterNotify op registered))
    | .notify op registered, .go =>
        some { s.move t (afterNotify op registered) with notifications := s.notifications + 1 }
    | .leave op rc, .go => some (s.count t op.side (s.waiting op.side - 1) (.idle rc))
    | _, _ => none

/-- The channel under any number of parties. -/
def machine : Machine (State ρ μ) (Tid × Act μ) := ⟨(· = start R), step R⟩

end Cobalt.Channel
