/-
Cobalt.Channel.ShmChannelTheorems — notifications taken by the wrong party.

Whoever makes room or adds a message announces it: it sees the parked party
of the other side in the counter and notifies. But the notification can be
taken by any party that waits, and one that cannot use it does not pass it
on. Where a wait never takes a notification that another parked party
needs, no party sleeps while it could proceed and nobody else is about to
act.
-/
import Cobalt.Channel.ShmChannel
import Cobalt.Lib.Count

namespace Cobalt.Channel

open Function (update update_of_ne update_self)

variable {ρ μ : Type} {R : Ring ρ μ} {s s' : State ρ μ} {t : Tid} {x : Pc μ} {op : Op μ}

/-! ## The phases of a party -/

namespace Pc

/-- Inside a call and not parked. -/
@[grind =]
def running : Pc μ → Bool
  | idle _ | parked _ => false
  | _ => true

/-- Counted as waiting on a side. -/
@[grind =]
def registered (side : Side) : Pc μ → Bool
  | recheck op | parked op | unregister op | leave op _ | loadWaiting op true | notify op true =>
      op.side == side
  | _ => false

/-- About to notify the parked parties of a side, if there are any. -/
@[grind =]
def announces (side : Side) : Pc μ → Bool
  | loadWaiting op _ | notify op _ => op.side.other == side
  | _ => false

end Pc

/-- The ring operation of a call would succeed. -/
def CanProceed (R : Ring ρ μ) (ring : ρ) (op : Op μ) : Prop := ∃ ring', attempt R ring op = .done ring'

/-- A parked party that could proceed has a notification to come. -/
def Announced (s : State ρ μ) (op : Op μ) : Prop := ∃ v, (s.pc v).announces op.side = true

/-! ## The rings -/

lemma canProceed_of_same {ring ring' : ρ} {op op' : Op μ} (hside : op.side = op'.side)
    (hdone : attempt R ring op = .done ring') (h : CanProceed R ring' op') :
    CanProceed R ring op' := by
  cases op with
  | recv =>
    cases op' with
    | recv => exact ⟨ring', hdone⟩
    | send => cases hside
  | send m =>
    cases op' with
    | recv => cases hside
    | send m' =>
      obtain ⟨ring'', h⟩ := h
      cases hbefore : R.send ring m' with
      | done r => exact ⟨r, hbefore⟩
      | blocked =>
        rw [attempt, R.send_blocked _ _ _ _ hbefore hdone] at h
        cases h
      | refused =>
        rw [attempt, R.send_refused _ ring' _ hbefore] at h
        cases h

/-! ## The invariant -/

structure Inv (R : Ring ρ μ) (s : State ρ μ) : Prop where
  counted : ∀ side, Counted (Pc.registered side) s.pc (s.waiting side)
  announced : ∀ t op, s.pc t = .parked op → CanProceed R s.ring op →
    0 < s.notifications ∨ Announced s op

lemma inv_start : Inv R (start R) where
  counted side := .zero fun _ => rfl
  announced t op h := by simp [start] at h

/-- A wait does not take a notification while another parked party could
proceed that nobody is about to notify, and no registration overflows the
`uint32_t` counter of its side. -/
structure WakeClear (R : Ring ρ μ) (s : State ρ μ) (e : Tid × Act μ) : Prop where
  wait : ∀ op, s.pc e.1 = .parked op → 0 < s.notifications → ∀ u op', u ≠ e.1 →
    s.pc u = .parked op' → CanProceed R s.ring op' → Announced s op'
  register : ∀ op, s.pc e.1 = .register op → s.waiting op.side + 1 < 2 ^ 32

/-! ## One step -/

lemma Announced.of_other (h : Announced s op) (ht : ∀ side, (s.pc t).announces side = false) :
    ∃ v, (update s.pc t x v).announces op.side = true := by
  obtain ⟨v, hv⟩ := h
  refine ⟨v, ?_⟩
  rw [update_of_ne]
  · exact hv
  · rintro rfl
    rw [ht] at hv
    cases hv

lemma parked_before {u : Tid} (hx : ∀ op, x ≠ .parked op)
    (hu : update s.pc t x u = .parked op) : u ≠ t ∧ s.pc u = .parked op := by
  by_cases hut : u = t
  · subst hut
    rw [update_self] at hu
    exact absurd hu (hx op)
  · rw [update_of_ne hut] at hu
    exact ⟨hut, hu⟩

namespace Inv

lemma counted_keep (h : Inv R s) (hx : ∀ side, x.registered side = (s.pc t).registered side) :
    ∀ side, Counted (Pc.registered side) (update s.pc t x) (s.waiting side) := fun side =>
  (h.counted side).keep (hx side).symm

/-- A party that announces nothing moves, and does not park. -/
lemma move (h : Inv R s) (hx : ∀ side, x.registered side = (s.pc t).registered side)
    (hpark : ∀ op, x ≠ .parked op) (ht : ∀ side, (s.pc t).announces side = false) :
    Inv R (s.move t x) where
  counted := h.counted_keep hx
  announced u op hu hcan := by
    obtain ⟨-, hu⟩ := parked_before hpark hu
    exact (h.announced u op hu hcan).imp_right fun ha => ha.of_other ht

lemma count (h : Inv R s) {side : Side} {k : Nat}
    (hk : Counted (Pc.registered side) (update s.pc t x) k)
    (hx : x.registered side.other = (s.pc t).registered side.other)
    (hpark : ∀ op, x ≠ .parked op) (ht : ∀ side, (s.pc t).announces side = false) :
    Inv R (s.count t side k x) where
  counted side' := by
    by_cases hside : side' = side
    · subst hside
      simpa using hk
    · have hother : side' = side.other := by
        cases side <;> cases side' <;> first | rfl | exact absurd rfl hside
      dsimp only
      rw [update_of_ne hside, hother]
      exact (h.counted side.other).keep hx.symm
  announced u op hu hcan := by
    obtain ⟨-, hu⟩ := parked_before hpark hu
    exact (h.announced u op hu hcan).imp_right fun ha => ha.of_other ht

lemma enter (h : Inv R s) (ht : ∀ side, (s.pc t).registered side = false)
    (hx : ∀ side, x.registered side = (op.side == side)) (hpark : ∀ op, x ≠ .parked op)
    (hann : ∀ side, (s.pc t).announces side = false) :
    Inv R (s.count t op.side (s.waiting op.side + 1) x) := by
  refine h.count ((h.counted op.side).enter (ht _) ?_) ?_ hpark hann
  · rw [hx, beq_self_eq_true]
  · rw [hx, ht]
    cases op <;> rfl

lemma leave (h : Inv R s) (ht : ∀ side, (s.pc t).registered side = (op.side == side))
    (hx : ∀ side, x.registered side = false) (hpark : ∀ op, x ≠ .parked op)
    (hann : ∀ side, (s.pc t).announces side = false) :
    Inv R (s.count t op.side (s.waiting op.side - 1) x) := by
  have hin : (s.pc t).registered op.side = true := by
    rw [ht, beq_self_eq_true]
  refine h.count ?_ ?_ hpark hann
  · have hcounted := h.counted op.side
    obtain ⟨k, hk⟩ := Nat.exists_eq_add_of_le' (hcounted.pos hin)
    rw [hk] at hcounted ⊢
    exact hcounted.leave hin (hx _)
  · rw [hx, ht]
    cases op <;> rfl

/-- An attempt that succeeds is announced to the other side, and the parties
of its own side are left as they were. -/
lemma tried (h : Inv R s) {success blocked refused : Pc μ}
    (hann : ∀ side, (s.pc t).announces side = false)
    (hsuccess : ∀ side, success.registered side = (s.pc t).registered side)
    (hblocked : ∀ side, blocked.registered side = (s.pc t).registered side)
    (hrefused : ∀ side, refused.registered side = (s.pc t).registered side)
    (htell : success.announces op.side.other = true) (hs : ∀ op, success ≠ .parked op)
    (hb : ∀ op', blocked = .parked op' → op' = op) (hr : ∀ op, refused ≠ .parked op) :
    Inv R (s.tried R t op success blocked refused) := by
  unfold State.tried
  cases hatt : attempt R s.ring op with
  | done ring =>
    refine ⟨h.counted_keep hsuccess, fun u op' hu hcan => ?_⟩
    obtain ⟨-, hu⟩ := parked_before hs hu
    by_cases hside : op'.side = op.side
    · have hcan' := canProceed_of_same hside.symm hatt hcan
      exact (h.announced u op' hu hcan').imp_right fun ha => ha.of_other hann
    · refine Or.inr ⟨t, ?_⟩
      have hother : op'.side = op.side.other := by
        cases op <;> cases op' <;> first | rfl | exact absurd rfl hside
      simp only [update_self, hother]
      exact htell
  | blocked =>
    refine ⟨h.counted_keep hblocked, fun u op' hu hcan => ?_⟩
    by_cases hut : u = t
    · subst hut
      simp only [update_self] at hu
      obtain ⟨ring, hdone⟩ := hcan
      rw [hb op' hu] at hdone
      rw [show attempt R s.ring op = .done ring from hdone] at hatt
      cases hatt
    · simp only [update_of_ne hut] at hu
      exact (h.announced u op' hu hcan).imp_right fun ha => ha.of_other hann
  | refused => exact h.move hrefused hr hann

end Inv

lemma afterNotify_registered (op : Op μ) (registered : Bool) (side : Side) :
    (afterNotify op registered).registered side
      = (Pc.loadWaiting op registered).registered side := by
  cases registered <;> rfl

namespace Inv

/-- The counter of the other side is zero: no party is parked there. -/
lemma nobody (h : Inv R s) {registered : Bool} (ht : s.pc t = .loadWaiting op registered)
    (h0 : s.waiting op.side.other = 0) : Inv R (s.move t (afterNotify op registered)) where
  counted := by
    refine h.counted_keep fun side => ?_
    rw [ht, afterNotify_registered]
  announced u op' hu hcan := by
    obtain ⟨-, hparked⟩ := parked_before (fun _ => by cases registered <;> nofun) hu
    refine (h.announced u op' hparked hcan).imp_right fun ⟨v, hv⟩ => ⟨v, ?_⟩
    dsimp only
    rw [update_of_ne]
    · exact hv
    · rintro rfl
      -- the announcement of `t` was for a side on which `u` is registered
      have hside : op.side.other = op'.side := by
        rw [ht] at hv
        exact beq_iff_eq.mp hv
      have hcounted := h.counted op.side.other
      rw [h0] at hcounted
      have hreg := hcounted.eq_zero u
      rw [hparked, hside] at hreg
      simp [Pc.registered] at hreg

lemma notified (h : Inv R s) {registered : Bool} (ht : s.pc t = .notify op registered) :
    Inv R { s.move t (afterNotify op registered) with notifications := s.notifications + 1 } where
  counted := by
    refine h.counted_keep fun side => ?_
    rw [ht, afterNotify_registered]
    cases registered <;> rfl
  announced _ _ _ _ := Or.inl (Nat.succ_pos _)

/-- The notifications are taken, and nobody else needs them. -/
lemma woken (h : Inv R s) (ht : s.pc t = .parked op)
    (hok : ∀ u op', u ≠ t → s.pc u = .parked op' → CanProceed R s.ring op' → Announced s op') :
    Inv R { s.move t (.unregister op) with notifications := 0 } where
  counted := by
    refine h.counted_keep fun side => ?_
    rw [ht]
    rfl
  announced u op' hu hcan := by
    obtain ⟨hut, hu⟩ := parked_before (x := .unregister op) nofun hu
    refine Or.inr ((hok u op' hut hu hcan).of_other fun side => ?_)
    rw [ht]
    rfl

end Inv

lemma inv_step {e : Tid × Act μ} (h : Inv R s) (hok : WakeClear R s e)
    (hstep : step R s e = some s') : Inv R s' := by
  obtain ⟨t, a⟩ := e
  cases ht : s.pc t <;> cases a <;> simp only [step, ht, reduceCtorEq, Option.some.injEq] at hstep
  case idle.call => exact hstep ▸ h.move (fun _ => by rw [ht]; rfl) nofun (fun _ => by rw [ht]; rfl)
  case first.go op | retry.go op =>
    subst hstep
    exact h.tried (fun _ => by rw [ht]; rfl) (fun _ => by rw [ht]; rfl) (fun _ => by rw [ht]; rfl)
      (fun _ => by rw [ht]; rfl) (beq_self_eq_true _) nofun nofun nofun
  case register.go op =>
    exact hstep ▸ h.enter (fun _ => by rw [ht]; rfl) (fun _ => rfl) nofun
      (fun _ => by rw [ht]; rfl)
  case recheck.go op =>
    subst hstep
    exact h.tried (fun _ => by rw [ht]; rfl) (fun _ => by rw [ht]; rfl) (fun _ => by rw [ht]; rfl)
      (fun _ => by rw [ht]; rfl) (beq_self_eq_true _) nofun (fun _ heq => (Pc.parked.inj heq).symm)
      nofun
  case parked.go op =>
    split at hstep <;> cases hstep
    exact h.woken ht (hok.wait op ht (by assumption))
  case unregister.go op | leave.go op _ =>
    exact hstep ▸ h.leave (fun _ => by rw [ht]; rfl) (fun _ => rfl) nofun
      (fun _ => by rw [ht]; rfl)
  case loadWaiting.go op registered =>
    split at hstep <;> cases hstep
    · -- it goes on to notify, and announces the same
      refine ⟨h.counted_keep fun side => by rw [ht]; cases registered <;> rfl, ?_⟩
      intro u op' hu hcan
      obtain ⟨-, hu⟩ := parked_before (x := .notify op registered) nofun hu
      refine (h.announced u op' hu hcan).imp_right fun ⟨v, hv⟩ => ⟨v, ?_⟩
      by_cases hvt : v = t
      · subst hvt
        rw [ht] at hv
        simp only [update_self]
        exact hv
      · simpa [update_of_ne hvt] using hv
    · exact h.nobody ht (by omega)
  case notify.go op registered => exact hstep ▸ h.notified ht

/-! ## Every run -/

/-- A parked party that could proceed has a notification pending, or another
party is running. -/
def Live (R : Ring ρ μ) (s : State ρ μ) : Prop :=
  ∀ t op, s.pc t = .parked op → CanProceed R s.ring op →
    0 < s.notifications ∨ ∃ u, u ≠ t ∧ (s.pc u).running = true

lemma Inv.live (h : Inv R s) : Live R s := by
  intro t op ht hcan
  refine (h.announced t op ht hcan).imp_right fun ⟨v, hv⟩ => ⟨v, ?_, ?_⟩
  · rintro rfl
    rw [ht] at hv
    cases hv
  · cases hpc : s.pc v <;> simp_all [Pc.announces, Pc.running]

/-- In every run in which a wait never takes a notification that another
parked party needs, every state is live. -/
theorem shmChannel_live (R : Ring ρ μ) {s : State ρ μ}
    (h : (machine R).ReachVia (WakeClear R) s) : Live R s := by
  refine (h.invariant (Inv R) ?_ fun _ _ _ hinv hok hs => inv_step hinv hok hs).live
  rintro s rfl
  exact inv_start

/-- A receiver is parked, and a sender has put a message into the ring and is
about to look at the counter. -/
theorem shmChannel_live_once : ∃ s, (machine (mpmc 2 1)).ReachVia (WakeClear (mpmc 2 1)) s ∧
    s.pc 1 = .parked .recv ∧ s.ring = [[5]] ∧ Live (mpmc 2 1) s := by
  have h : (machine (mpmc 2 1)).ReachVia (WakeClear (mpmc 2 1)) (start (mpmc 2 1)) := .init rfl
  have h₁ := h.run
    (fun s _ => s.notifications = 0 ∧ s.waiting .reader < 2 ∧ s.waiting .writer < 2)
    (by
      intro s e htest
      obtain ⟨hnone, hreaders, hwriters⟩ := of_decide_eq_true htest
      refine ⟨fun op _ hpos => by omega, fun op _ => ?_⟩
      cases op.side <;> omega)
    [(1, .call .recv), (1, .go), (1, .go), (1, .go), (0, .call (.send [5])), (0, .go)] rfl
  exact ⟨_, h₁, rfl, rfl, shmChannel_live _ h₁⟩

/-- Sender 0 fills a ring of two slots and parks with a third message.
Receiver 1 takes both messages and notifies twice. Before the sender wakes
it waits for more, takes the notifications itself, finds nothing and parks
again: the ring is empty, and both sleep. -/
theorem shmChannel_bothAsleep : ∃ s, (machine (mpmc 2 1)).Reach s ∧
    s.pc 0 = .parked (.send [3]) ∧ s.pc 1 = .parked .recv ∧ s.notifications = 0 ∧ s.ring = [] ∧
    ¬ Live (mpmc 2 1) s := by
  have h : (machine (mpmc 2 1)).Reach (start (mpmc 2 1)) := .init rfl
  have h₁ := h.run (fun _ _ => true) (by simp)
    [(0, .call (.send [1])), (0, .go), (0, .go), (0, .call (.send [2])), (0, .go), (0, .go),
      (0, .call (.send [3])), (0, .go), (0, .go), (0, .go),
      (1, .call .recv), (1, .go), (1, .go), (1, .go), (1, .call .recv), (1, .go), (1, .go), (1, .go),
      (1, .call .recv), (1, .go), (1, .go), (1, .go), (1, .go), (1, .go), (1, .go), (1, .go),
      (1, .go)] rfl
  refine ⟨_, h₁, rfl, rfl, rfl, rfl, fun hlive => ?_⟩
  rcases hlive 0 (.send [3]) rfl ⟨_, rfl⟩ with hn | ⟨u, -, hu⟩
  · exact absurd hn (lt_irrefl 0)
  · match u with
    | 0 => cases hu
    | 1 => cases hu
    | u + 2 => cases hu

end Cobalt.Channel
