/-
Cobalt.Memory.EbrTheorems — what epoch based reclamation guarantees.

Two results over all interleavings. Every retired node is in one list until
it is freed, as long as unregister does not move the lists of a handle
under its new owner. And no node is freed in a critical section that was
open when it was retired, as long as the global epoch stays below
`2 ^ 64 - 1`. Each condition comes with a run that violates it and the
guarantee with it.
-/
import Cobalt.Memory.EbrEpochs

namespace Cobalt.Memory.Ebr

variable {s s' : State} {t u : Tid} {h : Hid} {n : Nid}

/-! ## Every node is in one list -/

/-- As long as no list of a handle goes to the orphans while the new owner of
the handle is about to write back its head, every retired node is in one
list until it is freed, and it is freed once. -/
theorem retired_in_one_list (hr : machine.ReachVia Undisturbed s) : Contract s := by
  have hinv : Owned s ∧ ∃ L, Shape s L := by
    refine hr.invariant (fun s => Owned s ∧ ∃ L, Shape s L) ?_ ?_
    · rintro s rfl
      exact ⟨owned_start, _, shape_start⟩
    · rintro s s' ⟨t, a⟩ ⟨ho, L, hL⟩ hok hs
      obtain ⟨L', hL', -⟩ := shape_step hL ho hok hs
      exact ⟨ho.step hs, L', hL'⟩
  obtain ⟨-, L, hL⟩ := hinv
  exact hL.contract

/-- A handle has a new owner, and the old one has still to move its lists: the
new owner retires two nodes and frees them. -/
theorem retired_in_one_list_once : ∃ s, machine.ReachVia Undisturbed s ∧ s.freed = [1, 0] ∧
    Contract s := by
  have hr : machine.ReachVia Undisturbed start := .init rfl
  let acts : List (Tid × Act) := Machine.bursts [(1, 1, .register), (4, 1, .go),
    (1, 1, .unregister 0), (2, 1, .go), (1, 2, .register), (4, 2, .go), (1, 2, .retire 0),
    (7, 2, .go), (1, 2, .retire 0), (7, 2, .go), (1, 3, .advance), (6, 3, .go), (1, 3, .advance),
    (6, 3, .go), (1, 2, .enter 0), (9, 2, .go)]
  refine hr.exists_run (fun s e => match s.pc e.1 with
      | .unregisterSplice _ => false
      | _ => true) ?_ acts (by decide +kernel) fun s hs _ => retired_in_one_list hs
  rintro s ⟨t, a⟩ htest
  cases a <;> try trivial
  intro h hpc
  simp [hpc] at htest

/-- The old owner moves the list while the new owner is about to put a second
node before it: the first node is in two lists, and it is freed twice. -/
theorem retired_freed_twice : ∃ s, machine.Reach s ∧ s.freed = [0, 1, 0] ∧ ¬ Contract s := by
  have hr : machine.Reach start := .init rfl
  let acts : List (Tid × Act) := Machine.bursts [(1, 1, .register), (4, 1, .go),
    (1, 1, .unregister 0), (2, 1, .go), (1, 2, .register), (4, 2, .go), (1, 2, .retire 0),
    (7, 2, .go), (1, 2, .retire 0), (2, 2, .go), (1, 1, .go), (5, 2, .go), (1, 3, .advance),
    (6, 3, .go), (1, 3, .advance), (9, 3, .go), (1, 2, .enter 0), (9, 2, .go)]
  refine hr.exists_run (fun _ _ => true) (by simp) acts (by decide +kernel)
    fun s _ hfreed hc => absurd hc.once ?_
  rw [hfreed]
  decide

/-! ## Nothing is freed under a critical section -/

lemma Epochs.undisturbed {L : Place → List Nid} {base : Hid → Nat} (he : Epochs s L base)
    (e : Tid × Act) : Undisturbed s e := by
  obtain ⟨t, a⟩ := e
  cases a <;> try trivial
  intro h hpc
  have := he.phase t
  rw [hpc] at this
  exact absurd this id

lemma bounded_inv (hr : machine.ReachVia Bounded s) :
    Owned s ∧ ∃ L base, Shape s L ∧ Epochs s L base := by
  refine hr.invariant (fun s => Owned s ∧ ∃ L base, Shape s L ∧ Epochs s L base) ?_ ?_
  · rintro s rfl
    exact ⟨owned_start, _, _, shape_start, epochs_start⟩
  · rintro s s' ⟨t, a⟩ ⟨ho, L, base, hL, he⟩ hok hs
    obtain ⟨L', hL', hmoved⟩ := shape_step hL ho (he.undisturbed _) hs
    obtain ⟨base', he'⟩ := epochs_step he ho hL hmoved hok hs
    exact ⟨ho.step hs, L', base', hL', he'⟩

/-- As long as no handle is unregistered and the global epoch does not reach
`2 ^ 64 - 1`, a node is not freed before the critical sections end that were
open when it was retired, and it is freed once. -/
theorem retire_protects (hr : machine.ReachVia Bounded s) : Protected s ∧ s.freed.Nodup := by
  obtain ⟨-, L, base, hL, he⟩ := bounded_inv hr
  exact ⟨he.protected hL, hL.contract.once⟩

/-- A node is retired in a critical section of another handle; the section
ends, the epoch advances twice, and the node is freed. -/
theorem retire_protects_once : ∃ s, machine.ReachVia Bounded s ∧ s.freed = [0] ∧
    s.guards 0 1 = some 1 ∧ Protected s ∧ s.freed.Nodup := by
  have hr : machine.ReachVia Bounded start := .init rfl
  let acts : List (Tid × Act) := Machine.bursts [(1, 1, .register), (4, 1, .go), (1, 2, .register),
    (5, 2, .go), (1, 2, .enter 1), (3, 2, .go), (1, 1, .retire 0), (7, 1, .go), (1, 2, .exit 1),
    (3, 2, .go), (1, 3, .advance), (8, 3, .go), (1, 3, .advance), (8, 3, .go), (1, 1, .enter 0),
    (7, 1, .go)]
  obtain ⟨s, hreach, hout⟩ := hr.run_map (f := fun s => (s.freed, s.guards 0 1))
    (v := ([0], some 1)) (fun s e => match e with
      | (_, .unregister _) => false
      | (t, _) => match s.pc t with
        | .advanceCas g => decide (g + 2 < 2 ^ 64)
        | _ => true) (by
      rintro s ⟨t, a⟩ htest
      cases a <;> try trivial
      intro g hpc _
      simpa [hpc] using htest)
    acts (by decide +kernel)
  exact ⟨s, hreach, congrArg Prod.fst hout, congrArg Prod.snd hout, retire_protects hreach⟩

/-! ## The last epoch -/

/-- No handle is unregistered, and critical sections are not nested. -/
def Plain (s : State) : Tid × Act → Prop
  | (_, .unregister _) => False
  | (_, .enter h) => ¬ s.Active h
  | (_, .exit h) => s.Active h
  | _ => True

/-- No handle, no thread in a call, and some epoch. -/
def startAt (g : Nat) : State :=
  ⟨g, [], fun _ => 0, fun _ => false, fun _ _ => none, fun _ => 0, fun _ => none, fun _ => none,
    fun _ => 0, 0, 0, fun _ => .idle, fun _ => none, fun _ => 0, fun _ _ => none, [], []⟩

/-- Without handles the epoch can be advanced to any value. -/
lemma reach_startAt (n : Nat) (hn : n < 2 ^ 64) : machine.ReachVia Plain (startAt n) := by
  induction n with
  | zero => exact .init rfl
  | succ n ih =>
    have h := ih (Nat.lt_of_succ_lt hn)
    have hadvance := h.step (a := (0, Act.advance)) trivial rfl
    have hload := hadvance.step (a := (0, Act.go)) trivial rfl
    have hscan := hload.step (a := (0, Act.go)) trivial rfl
    have hcas := hscan.step (a := (0, Act.go)) trivial (if_pos rfl)
    have htake := hcas.step (a := (0, Act.go)) trivial rfl
    convert htake using 1
    simp [startAt, orphanLoop]
    omega

/-- In epoch `2 ^ 64 - 1` the slot of new nodes is the one that is safe to
reclaim: retire frees its own node, in a critical section of another handle. -/
theorem retire_frees_own : ∃ s, machine.ReachVia Plain s ∧ ¬ Protected s := by
  have hr := reach_startAt (2 ^ 64 - 1) (by decide)
  let acts : List (Tid × Act) := Machine.bursts [(1, 1, .register), (4, 1, .go), (1, 2, .register),
    (5, 2, .go), (1, 2, .enter 1), (3, 2, .go), (1, 1, .retire 0), (10, 1, .go)]
  obtain ⟨s, hreach, hout⟩ := hr.run_map
    (f := fun s => (s.freed, s.guards 0 1, s.activeEpoch 1 &&& 1, s.sections 1))
    (v := ([0], some 1, 1, 1)) (fun s e => match e with
      | (_, .unregister _) => false
      | (_, .enter h) => !decide (s.Active h)
      | (_, .exit h) => decide (s.Active h)
      | _ => true) (by
      rintro s ⟨t, a⟩ htest
      cases a <;> first | trivial | simpa [Plain] using htest)
    acts (by decide +kernel)
  simp only [Prod.mk.injEq] at hout
  obtain ⟨hfreed, hguard, hact, hsec⟩ := hout
  refine ⟨s, hreach, fun hp => hp 0 (by simp [hfreed]) 1 1 hguard ⟨?_, hsec⟩⟩
  rw [State.Active, hact]
  decide

end Cobalt.Memory.Ebr
