/-
Cobalt.EventLoop.Registrations — the backend and the list of entries.

A descriptor is registered in two places: with the backend first, and then in
the list of the loop. The two stay in step as long as there is memory for the
entry of every descriptor that the backend takes. Where there is none, the call
that adds the descriptor fails and leaves it with the backend.
-/
import Cobalt.EventLoop.DispatchTheorems

namespace Cobalt.EventLoop.Dispatch

inductive Call where
  | add (fd events : Int) (callback userData : Addr) (accepted allocated : Bool)
  | mod (fd events : Int) (callback userData : Addr) (accepted allocated : Bool)
  | del (fd : Int)
  deriving DecidableEq, Repr

def Call.exec (l : Loop) : Call → Except Fault (Int × Loop)
  | add fd events callback userData accepted allocated =>
    addFd l fd events callback userData accepted allocated
  | mod fd events callback userData accepted allocated =>
    modFd l fd events callback userData accepted allocated
  | del fd => delFd l fd

def Call.isAdd : Call → Bool
  | add .. => true
  | _ => false

/-- One call after the other on a new loop. -/
def calls : Machine Loop Call :=
  ⟨fun l => ∃ wakeupFd, l = (start wakeupFd).loop, fun l call => (call.exec l).toOption.map Prod.snd⟩

/-- The backend watches the descriptor for a client; the wakeup descriptor is the loop's own. -/
def Registered (l : Loop) (fd : Int) : Prop := ∃ data, l.interest fd = some data ∧ data ≠ .wakeup

/-- The list and its tail are in order, with one entry for each registered descriptor. -/
def InStep (l : Loop) : Prop := ∃ xs, Good l xs ∧ ∀ fd, Registered l fd ↔ Listed l fd

/-- The call returns and leaves the two in step; if it adds a descriptor and fails, it changes
neither. -/
def Kept (l : Loop) (call : Call) : Prop :=
  ∃ r l', call.exec l = .ok (r, l') ∧ InStep l' ∧ (call.isAdd → r = -1 →
    ∀ fd, (Registered l' fd ↔ Registered l fd) ∧ (Listed l' fd ↔ Listed l fd))

/-- There is memory for an entry, if the backend takes the descriptor. -/
def Granted (l : Loop) : Call → Prop
  | .add fd _ callback _ accepted allocated => Taken l fd callback accepted → allocated = true
  | .mod fd _ callback _ accepted allocated =>
    0 ≤ fd → callback ≠ 0 → accepted = true → allocated = true
  | .del _ => True

variable {l : Loop} {fd : Int} {callback : Addr} {accepted : Bool} {call : Call}

section AddFd

variable (events : Int) (userData : Addr)

lemma InStep.addFd (hi : InStep l) (allocated : Bool)
    (hok : Taken l fd callback accepted → allocated = true) :
    ∃ r l', addFd l fd events callback userData accepted allocated = .ok (r, l') ∧ InStep l' ∧
      (r = -1 → l' = l) := by
  obtain ⟨xs, hg, hreg⟩ := hi
  by_cases ht : Taken l fd callback accepted
  · rw [hg.addFd_of_taken events userData allocated ht, if_neg (by simp [hok ht])]
    obtain ⟨l', xs', happ, hg', hkeys, -, hint⟩ :=
      hg.append (e := ⟨fd, events, callback, userData, 0⟩) rfl (mt hg.listed_iff.mpr ht.2.2.1)
    refine ⟨0, l', happ, ⟨xs', hg', fun x => ?_⟩, by simp⟩
    rw [hg'.listed_iff, hkeys, List.map_append, List.mem_append, ← hg.listed_iff, ← hreg]
    by_cases hx : x = fd <;> simp [Registered, hint, hx]
  · exact ⟨-1, l, hg.addFd_of_not_taken events userData allocated ht, ⟨xs, hg, hreg⟩, fun _ => rfl⟩

/-- No entry is allocated, and the descriptor stays with the backend. -/
lemma InStep.addFd_leaks {r : Int} {l' : Loop} (hi : InStep l) (ht : Taken l fd callback accepted)
    (hadd : Dispatch.addFd l fd events callback userData accepted false = .ok (r, l')) :
    ¬ InStep l' := by
  obtain ⟨xs, hg, -⟩ := hi
  rw [hg.addFd_of_taken events userData false ht] at hadd
  cases hadd
  rintro ⟨xs', -, hreg⟩
  exact ht.2.2.1 ((hreg fd).mp ⟨.null, Function.update_self .., by simp⟩)

end AddFd

lemma InStep.delFd (hi : InStep l) (hpos : 0 ≤ fd) : ∃ r l', delFd l fd = .ok (r, l') ∧
    InStep l' ∧ ¬ Listed l' fd ∧ l'.interest fd = none := by
  obtain ⟨xs, hg, hreg⟩ := hi
  obtain ⟨r, l', xs', hdel, hg', hkeys, hint, -⟩ := hg.delFd_keys hpos
  have hlisted : ∀ x, Listed l' x ↔ Listed l x ∧ x ≠ fd := by
    intro x
    rw [hg'.listed_iff, hkeys, hg.listed_iff]
    simp
  refine ⟨r, l', hdel, ⟨xs', hg', fun x => ?_⟩, by simp [hlisted], by simp [hint]⟩
  rw [hlisted, ← hreg]
  by_cases hx : x = fd <;> simp [Registered, hint, hx]

/-- A call keeps the two in step just if there is memory for the entry it needs. -/
lemma InStep.kept_iff (hi : InStep l) : Kept l call ↔ Granted l call := by
  cases call with
  | add fd events callback userData accepted allocated =>
    constructor
    · rintro ⟨r, l', hexec, hi', -⟩ ht
      cases allocated with
      | true => rfl
      | false => exact absurd hi' (hi.addFd_leaks events userData ht hexec)
    · intro hok
      obtain ⟨r, l', hexec, hi', hsame⟩ := hi.addFd events userData allocated hok
      refine ⟨r, l', hexec, hi', fun _ hr fd => ?_⟩
      simp [hsame hr]
  | mod fd events callback userData accepted allocated =>
    by_cases hneg : fd < 0
    · have hno : ¬ 0 ≤ fd := by omega
      exact iff_of_true ⟨-1, l, if_pos hneg, hi, by rintro ⟨⟩⟩ fun hpos => absurd hpos hno
    have hpos : 0 ≤ fd := by omega
    obtain ⟨r1, l1, hdel, hi1, hgone, hunknown⟩ := hi.delFd hpos
    -- the descriptor is unknown when it is added again
    have htaken : Taken l1 fd callback accepted ↔ callback ≠ 0 ∧ accepted = true := by
      simp [Taken, hpos, hgone, hunknown]
    have hexec : Call.exec l (.mod fd events callback userData accepted allocated)
        = Dispatch.addFd l1 fd events callback userData accepted allocated := by
      rw [Call.exec, modFd, if_neg hneg, hdel, ok_bind]
    rw [Kept, hexec]
    constructor
    · rintro ⟨r, l', hadd, hi', -⟩ _ hcallback haccepted
      cases allocated with
      | true => rfl
      | false =>
        exact absurd hi' (hi1.addFd_leaks events userData (htaken.mpr ⟨hcallback, haccepted⟩) hadd)
    · intro hok
      obtain ⟨r, l', hadd, hi', -⟩ := hi1.addFd events userData allocated fun ht =>
        hok hpos (htaken.mp ht).1 (htaken.mp ht).2
      exact ⟨r, l', hadd, hi', by rintro ⟨⟩⟩
  | del fd =>
    refine iff_of_true ?_ trivial
    by_cases hneg : fd < 0
    · exact ⟨-1, l, if_pos hneg, hi, by rintro ⟨⟩⟩
    · obtain ⟨r, l', hdel, hi', -⟩ := hi.delFd (not_lt.mp hneg)
      exact ⟨r, l', hdel, hi', by rintro ⟨⟩⟩

lemma inStep_start (wakeupFd : Int) : InStep (start wakeupFd).loop := by
  obtain ⟨xs, hg⟩ := (inv_start wakeupFd).good
  refine ⟨xs, hg, fun fd => iff_of_false ?_ ?_⟩
  · rintro ⟨data, hdata, hne⟩
    simp only [start, Function.update_apply] at hdata
    split at hdata
    · exact hne (Option.some.inj hdata).symm
    · cases hdata
  · rintro ⟨a, e, he, -⟩
    cases he

/-- Along every run in which there is memory for the entries, the backend and the list are in step,
and from there a call keeps them so just if there is memory for its entry. -/
theorem kept_iff_granted (h : calls.ReachVia Granted l) :
    InStep l ∧ ∀ call, Kept l call ↔ Granted l call := by
  have hi : InStep l := by
    refine h.invariant InStep ?_ fun l l' call hi hok hs => ?_
    · rintro l ⟨wakeupFd, rfl⟩
      exact inStep_start wakeupFd
    · obtain ⟨r, l₁, hexec, hi₁, -⟩ := hi.kept_iff.mpr hok
      obtain rfl : l₁ = l' := by simpa [calls, hexec, Except.toOption] using hs
      exact hi₁
  exact ⟨hi, fun call => hi.kept_iff⟩

/-- Three descriptors are added, one of them twice, one is modified and the last one removed. -/
theorem kept_iff_granted_tail : ∃ l, calls.ReachVia Granted l ∧ l.fdTail = 4 ∧ InStep l ∧
    Kept l (.del 5) := by
  have hstart : calls.ReachVia Granted (start 3).loop := .init ⟨3, rfl⟩
  have htest : ∀ l call, (match call with
      | .add _ _ _ _ _ allocated => allocated
      | .mod _ _ _ _ _ allocated => allocated
      | .del _ => true) = true → Granted l call := by
    intro l call h
    cases call <;> simp_all [Granted]
  obtain ⟨l, hreach, htail⟩ := hstart.run_map (f := Loop.fdTail) (v := 4) _ htest
    [.add 4 1 9 0 true true, .add 5 1 9 0 true true, .add 4 1 9 0 true true,
      .add 6 1 9 0 true true, .mod 4 4 8 0 true true, .mod 5 1 9 0 false true, .del 6]
    (by decide +kernel)
  obtain ⟨hi, hiff⟩ := kept_iff_granted hreach
  exact ⟨l, hreach, htail, hi, (hiff (.del 5)).mpr trivial⟩

/-- The backend takes the descriptor, and the allocation of its entry fails. -/
theorem not_kept : ∃ l call, calls.Reach l ∧ ¬ Kept l call :=
  ⟨(start 3).loop, .add 4 1 9 0 true false, .init ⟨3, rfl⟩, fun hk => by
    have htaken : Taken (start 3).loop 4 9 true := by
      refine ⟨by simp, by simp, ?_, rfl, by decide⟩
      rintro ⟨a, e, he, -⟩
      cases he
    simpa using (inStep_start 3).kept_iff.mp hk htaken⟩

end Cobalt.EventLoop.Dispatch
