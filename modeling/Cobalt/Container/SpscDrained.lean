/-
Cobalt.Container.SpscDrained — reserving in a ring that holds nothing.

A frame is not split over the end of the buffer: if it does not fit there,
it needs the tail as padding and then its own length from the beginning. In
an empty ring of `n` bytes with the write cursor at offset `o` this leaves
`n - o` bytes before the end or `o` bytes after it, although all `n` are
free. The length check admits every frame of up to `n - 8` bytes, so that

    reserve returns success ↔ frame ≤ o ∨ frame ≤ n - o

and a frame that is longer than both is refused with the queue full and
with nothing to drain.
-/
import Cobalt.Container.SpscTheorems

namespace Cobalt.Container.Spsc

variable {c : Capacity} {s s' : State} {len w : Nat}

/-- The steps beside a call of the producer: its own accesses, and whatever
the consumer does. -/
def Act.within : Act → Bool
  | .produce | .peek | .consume | .take => true
  | .reserve _ | .fill _ _ | .commit _ _ | .cancel => false

/-- The state after a list of actions. -/
abbrev after (c : Capacity) (s : State) (acts : List Act) : Option State :=
  (machine c).run (fun _ _ => true) s acts

/-- A call of `cobalt_shm_spsc_reserve` in state `s` returns `rc`: the producer
alone comes to the end of it, and however the consumer runs beside it, no
other code is returned. -/
structure ReserveReturns (c : Capacity) (s : State) (len : Nat) (rc : Rc) : Prop where
  ends : ∃ k s', after c s (.reserve len :: List.replicate k .produce) = some s' ∧
    s'.producer.pc = .idle rc
  only : ∀ acts s' rc', acts.all Act.within → after c s (.reserve len :: acts) = some s' →
    s'.producer.pc = .idle rc' → rc' = rc

lemma ReserveReturns.unique {rc rc' : Rc} (h : ReserveReturns c s len rc)
    (h' : ReserveReturns c s len rc') : rc' = rc := by
  obtain ⟨k, s', hrun, hpc⟩ := h'.ends
  exact h.only _ s' _ (by simp [Act.within]) hrun hpc

/-! ## The consumer of an empty ring -/

/-- The consumer has nothing to move on. -/
lemma Inv.drained {a : Act} (h : Inv c.size s) (hempty : s.readCursor = s.writeCursor)
    (ha : a = .peek ∨ a = .consume ∨ a = .take) (hs : step c.size s a = some s') :
    s'.producer = s.producer ∧ s'.readCursor = s.readCursor ∧ s'.writeCursor = s.writeCursor := by
  have hpending : s.pending = [] := by
    have hlayout := h.layout
    rw [hempty] at hlayout
    exact hlayout.eq_nil
  have hpc := h.consumer.pc
  have hpeeked := h.consumer.peeked
  rw [hpending] at hpc hpeeked
  have hnot : s.consumer.isPeeked ≠ true := by
    intro hp
    obtain ⟨m, ms, hnil, -⟩ := hpeeked hp
    cases hnil
  obtain rfl | rfl | rfl := ha
  · simp only [step] at hs
    split at hs
    · cases hs
      exact ⟨rfl, rfl, rfl⟩
    · cases hs
  · simp only [step] at hs
    split at hs
    · rw [Spsc.callConsumer, if_neg hnot] at hs
      cases hs
      exact ⟨rfl, rfl, rfl⟩
    · cases hs
  · simp only [step, Spsc.stepConsumer] at hs
    cases hcase : s.consumer.pc with
    | idle rc => simp [hcase] at hs
    | loadRead wraps =>
      simp only [hcase] at hs
      cases hs
      exact ⟨rfl, rfl, rfl⟩
    | loadWrite wraps readPos =>
      simp only [hcase] at hs
      split at hs
      · cases hs
        exact ⟨rfl, rfl, rfl⟩
      · split at hs
        · cases hs
          exact ⟨rfl, rfl, rfl⟩
        · cases hs
          exact ⟨rfl, rfl, rfl⟩
    | frame wraps readPos writePos =>
      simp only [hcase] at hpc
      obtain ⟨-, -, m, ms, ms', hnil, -⟩ := hpc
      cases hnil
    | skip wraps readPos =>
      simp only [hcase] at hpc
      obtain ⟨-, -, m, ms, hnil, -⟩ := hpc
      cases hnil
    | consumeLoad =>
      simp only [hcase] at hpc
      exact absurd hpc hnot
    | consumeStore readPos =>
      simp only [hcase] at hpc
      exact absurd hpc.1 hnot

/-! ## The call -/

/-- The code that a reserve returns with both cursors at `w`. -/
def drainedRc (n w len : Nat) : Rc :=
  match reserveAt n w w (frameSize len) with
  | none => .full
  | some _ => .success

/-- During the call: the cursors stay, and the producer is on its way. -/
structure Reserving (c : Capacity) (w len : Nat) (s : State) : Prop where
  inv : Inv c.size s
  read : s.readCursor = w
  write : s.writeCursor = w
  pc : s.producer.pc = .loadWrite len ∨ s.producer.pc = .loadRead len w ∨
    (∃ pos, s.producer.pc = .mark len w pos ∧
      reserveAt c.size w w (frameSize len) = some (pos, true)) ∨
    s.producer.pc = .idle (drainedRc c.size w len)

lemma Reserving.produce (h : Reserving c w len s) (hs : step c.size s .produce = some s') :
    Reserving c w len s' := by
  have hinv := inv_step h.inv hs
  obtain ⟨hi, hr, hw, hpc | hpc | ⟨pos, hpc, hres⟩ | hpc⟩ := h
  · simp only [step, stepProducer, hpc] at hs
    cases hs
    exact ⟨hinv, hr, hw, .inr (.inl (by rw [hw]))⟩
  · simp only [step, stepProducer, hpc, hr] at hs
    have hrc : drainedRc c.size w len = match reserveAt c.size w w (frameSize len) with
      | none => .full
      | some _ => .success := rfl
    split at hs
    · rename_i hnone
      rw [hnone] at hrc
      cases hs
      exact ⟨hinv, hr, hw, .inr (.inr (.inr (by rw [hrc])))⟩
    · rename_i pos hsome
      cases hs
      exact ⟨hinv, hr, hw, .inr (.inr (.inl ⟨pos, rfl, hsome⟩))⟩
    · rename_i pos hsome
      rw [hsome] at hrc
      cases hs
      exact ⟨hinv, hr, hw, .inr (.inr (.inr (by rw [hrc])))⟩
  · simp only [step, stepProducer, hpc] at hs
    cases hs
    refine ⟨hinv, hr, hw, .inr (.inr (.inr ?_))⟩
    rw [drainedRc, hres]
  · simp [step, stepProducer, hpc] at hs

lemma Reserving.step {a : Act} (h : Reserving c w len s) (ha : a.within)
    (hs : step c.size s a = some s') : Reserving c w len s' := by
  cases a with
  | produce => exact h.produce hs
  | peek | consume | take =>
    obtain ⟨hp, hr, hw⟩ := h.inv.drained (h.read.trans h.write.symm) (by simp) hs
    refine ⟨inv_step h.inv hs, hr.trans h.read, hw.trans h.write, ?_⟩
    rw [hp]
    exact h.pc
  | reserve | fill | commit | cancel => cases ha

lemma Reserving.run (h : Reserving c w len s) (acts : List Act) (hacts : acts.all Act.within)
    (hs : after c s acts = some s') : Reserving c w len s' := by
  induction acts generalizing s with
  | nil =>
    cases hs
    exact h
  | cons a acts ih =>
    rw [List.all_cons, Bool.and_eq_true] at hacts
    rw [after, Machine.run, if_pos rfl] at hs
    obtain ⟨s1, hs1, hrest⟩ := Option.bind_eq_some_iff.mp hs
    exact ih (h.step hacts.1 hs1) hacts.2 hrest

lemma Reserving.call (h : Inv c.size s) (hidle : ∃ rc, s.producer.pc = .idle rc)
    (hempty : s.readCursor = s.writeCursor) (hres : s.producer.isReserved = false)
    (hlen : lengthOk c.size len) :
    ∃ s1, Spsc.step c.size s (.reserve len) = some s1 ∧ Reserving c s.writeCursor len s1 ∧
      s1.producer.pc = .loadWrite len := by
  obtain ⟨rc, hrc⟩ := hidle
  have hs : Spsc.step c.size s (.reserve len) = some (s.producerAt (.loadWrite len)) := by
    simp only [Spsc.step, hrc, callProducer, hres, Bool.false_eq_true, if_false, hlen, if_true]
  exact ⟨_, hs, ⟨inv_step h hs, hempty, rfl, .inl rfl⟩, rfl⟩

/-- The producer alone comes to the end of the call. -/
def Ends (c : Capacity) (w len : Nat) (s : State) : Prop :=
  ∃ k s', after c s (List.replicate k .produce) = some s' ∧
    s'.producer.pc = .idle (drainedRc c.size w len)

lemma Ends.of_step (hs : step c.size s .produce = some s') (h : Ends c w len s') :
    Ends c w len s := by
  obtain ⟨k, s2, hrun, hpc⟩ := h
  refine ⟨k + 1, s2, ?_, hpc⟩
  rw [List.replicate_succ, after, Machine.run, if_pos rfl]
  exact Option.bind_eq_some_iff.mpr ⟨s', hs, hrun⟩

lemma Reserving.ends_mark {pos : Nat} (h : Reserving c w len s)
    (hpc : s.producer.pc = .mark len w pos) : Ends c w len s := by
  have hs : ∃ s', Spsc.step c.size s .produce = some s' ∧ s'.producer.pc = .idle .success := by
    simp [Spsc.step, stepProducer, hpc]
  obtain ⟨s', hs, hpc'⟩ := hs
  refine .of_step hs ⟨0, s', rfl, ?_⟩
  have h' := (h.produce hs).pc
  rw [hpc'] at h' ⊢
  simpa using h'

lemma Reserving.ends_loadRead (h : Reserving c w len s)
    (hpc : s.producer.pc = .loadRead len w) : Ends c w len s := by
  have hs : ∃ s', Spsc.step c.size s .produce = some s' ∧
      ((∃ rc, s'.producer.pc = .idle rc) ∨ ∃ pos, s'.producer.pc = .mark len w pos) := by
    simp only [Spsc.step, stepProducer, hpc]
    split <;> simp
  obtain ⟨s', hs, ⟨rc, hpc'⟩ | ⟨pos, hpc'⟩⟩ := hs
  · refine .of_step hs ⟨0, s', rfl, ?_⟩
    have h' := (h.produce hs).pc
    rw [hpc'] at h' ⊢
    simpa using h'
  · exact .of_step hs ((h.produce hs).ends_mark hpc')

lemma Reserving.ends (h : Reserving c w len s) (hpc : s.producer.pc = .loadWrite len) :
    Ends c w len s := by
  have hs : ∃ s', Spsc.step c.size s .produce = some s' ∧
      s'.producer.pc = .loadRead len s.writeCursor := by
    simp [Spsc.step, stepProducer, hpc]
  obtain ⟨s', hs, hpc'⟩ := hs
  rw [h.write] at hpc'
  exact .of_step hs ((h.produce hs).ends_loadRead hpc')

/-! ## When it succeeds -/

lemma drainedRc_eq_success (w len : Nat) : drainedRc c.size w len = .success ↔
    frameSize len ≤ offsetOf c.size w ∨ frameSize len ≤ c.size - offsetOf c.size w := by
  have hmod := Nat.mod_lt w c.size_pos
  unfold drainedRc reserveAt tooLong
  simp only [c.offsetOf_eq, Bool.or_eq_true, decide_eq_true_eq]
  split <;> rename_i heq <;> split at heq <;> split at heq <;> simp at heq ⊢ <;> omega

lemma after_cons (a : Act) (acts : List Act) :
    after c s (a :: acts) = (step c.size s a).bind fun s' => after c s' acts := rfl

lemma reserveReturns_drainedRc (h : Inv c.size s) (hidle : ∃ rc, s.producer.pc = .idle rc)
    (hempty : s.readCursor = s.writeCursor) (hres : s.producer.isReserved = false)
    (hlen : lengthOk c.size len) : ReserveReturns c s len (drainedRc c.size s.writeCursor len) := by
  obtain ⟨s1, hs1, hcall, hpc⟩ := Reserving.call h hidle hempty hres hlen
  constructor
  · obtain ⟨k, s', hrun, hend⟩ := hcall.ends hpc
    refine ⟨k, s', ?_, hend⟩
    rw [after_cons, hs1]
    exact hrun
  · intro acts s' rc' hacts hrun hrc'
    rw [after_cons, hs1] at hrun
    have hend := (hcall.run acts hacts hrun).pc
    rw [hrc'] at hend
    simpa using hend

/-- In every state of every run with an empty ring and no reservation, a length
that passes the checks is granted exactly if its frame fits before the end of
the buffer, or after it from the beginning up to the write cursor. -/
theorem reserve_drained_iff (c : Capacity) {s : State} (hreach : (machine c).Reach s)
    (hidle : ∃ rc, s.producer.pc = .idle rc) (hempty : s.readCursor = s.writeCursor)
    (hres : s.producer.isReserved = false) {len : Nat} (hlen : lengthOk c.size len) :
    ReserveReturns c s len .success ↔ frameSize len ≤ offsetOf c.size s.writeCursor ∨
        frameSize len ≤ c.size - offsetOf c.size s.writeCursor := by
  have hret := reserveReturns_drainedRc (inv_of_reach hreach) hidle hempty hres hlen
  rw [← drainedRc_eq_success]
  constructor
  · intro hsuccess
    exact hsuccess.unique hret
  · intro hrc
    rwa [hrc] at hret

/-- In a ring of 32 bytes a message of 8 bytes is sent and received. -/
lemma exists_drained : ∃ s, (machine ⟨5, by decide⟩).Reach s ∧ s.producer.pc = .idle .success ∧
    s.producer.isReserved = false ∧ s.readCursor = 16 ∧ s.writeCursor = 16 := by
  have h : (machine ⟨5, by decide⟩).Reach (start fun _ => 0) := .init ⟨_, rfl⟩
  exact ⟨_, h.run (fun _ _ => true) (by simp) [.reserve 8, .produce, .produce, .commit 7 8,
    .produce, .produce, .peek, .take, .take, .take, .consume, .take, .take] rfl, rfl, rfl, rfl, rfl⟩

/-- From offset 16 of the 32 bytes a second such message fits, and one of 9 bytes does not. -/
theorem reserve_drained_half : ∃ s, (machine ⟨5, by decide⟩).Reach s ∧
    s.readCursor = s.writeCursor ∧ offsetOf 32 s.writeCursor = 16 ∧
    ReserveReturns ⟨5, by decide⟩ s 8 .success ∧ ¬ ReserveReturns ⟨5, by decide⟩ s 9 .success := by
  obtain ⟨s, hreach, hpc, hres, hread, hwrite⟩ := exists_drained
  have hiff := fun len (hlen : lengthOk 32 len) =>
    reserve_drained_iff _ hreach ⟨_, hpc⟩ (hread.trans hwrite.symm) hres hlen
  refine ⟨s, hreach, hread.trans hwrite.symm, by rw [hwrite]; decide,
    (hiff 8 (by decide)).mpr ?_, fun hreturns => ?_⟩
  · rw [hwrite]
    decide
  · have hfits := (hiff 9 (by decide)).mp hreturns
    rw [hwrite] at hfits
    exact absurd hfits (by decide)

/-- A message of 9 bytes passes the checks and is then refused with nothing to drain. -/
theorem reserve_drained_stuck : ¬ ∀ (c : Capacity) (s : State) (len : Nat), 16 ≤ c.size →
    (machine c).Reach s → (∃ rc, s.producer.pc = .idle rc) → s.readCursor = s.writeCursor →
    s.producer.isReserved = false → lengthOk c.size len → ReserveReturns c s len .success := by
  intro hall
  obtain ⟨s, hreach, hpc, hres, hread, hwrite⟩ := exists_drained
  have hempty : s.readCursor = s.writeCursor := hread.trans hwrite.symm
  have hret := hall _ s 9 (by decide) hreach ⟨_, hpc⟩ hempty hres (by decide)
  have hfits := hret.unique (reserveReturns_drainedRc (inv_of_reach hreach) ⟨_, hpc⟩ hempty hres
    (by decide))
  rw [hwrite] at hfits
  exact absurd hfits (by decide)

end Cobalt.Container.Spsc
