/-
Cobalt.Container.BoundedQueueTheorems — items in ticket order, each once.

The invariant follows the ticket of each item through its stages. The
tickets that are not released lie in a window of `capacity` tickets below
the write cursor, so that each slot belongs to one of them, and the
sequence of the slot says in which stage it is.
-/
import Cobalt.Lib.Buffer
import Cobalt.Container.BoundedQueue

namespace Cobalt.Container.BoundedQueue

open List

open Function (update update_self update_of_ne)

variable {μ β κ γ : Type} {q : Codec μ β κ γ} {c : Capacity}

/-! ## Words -/

namespace Capacity

variable (c)

lemma two_le : 2 ≤ c.size := by
  have : 2 ^ 1 ≤ 2 ^ c.log := Nat.pow_le_pow_right (by omega) c.log_pos
  exact this

lemma slotIndex_eq (pos : Nat) : slotIndex c.size pos = pos % c.size :=
  Nat.and_two_pow_sub_one_eq_mod pos c.log

end Capacity

lemma word_eq {n : Nat} (h : n < 2 ^ 64) : word n = n := Nat.mod_eq_of_lt h

lemma word_succ_ne (n : Nat) : word (n + 1) ≠ n := by
  unfold word
  omega

lemma word_lt (n : Nat) : word n < 2 ^ 64 := Nat.mod_lt _ (by decide)

variable {pos : Nat}

lemma diff_eq_zero {seq : Nat} (hseq : seq < 2 ^ 64) (hpos : pos < 2 ^ 64) :
    diff seq pos = 0 ↔ seq = pos := by
  unfold diff
  rw [Int.bmod_def]
  split <;> omega

/-! ## Slots and tickets -/

variable {p p' : Nat}

/-- Two tickets of one window that share a slot are the same. -/
lemma ticket_unique {w : Nat} (hp : p < w) (hw : w ≤ p + c.size) (hp' : p' < w)
    (hw' : w ≤ p' + c.size) (h : slotIndex c.size p = slotIndex c.size p') : p = p' := by
  rw [c.slotIndex_eq, c.slotIndex_eq] at h
  rcases Nat.lt_trichotomy p p' with hlt | heq | hgt
  · exact absurd h (mod_ne_of_window hlt (by omega))
  · exact heq
  · exact absurd h.symm (mod_ne_of_window hgt (by omega))

lemma slotIndex_lap (p : Nat) : slotIndex c.size (p + c.size) = slotIndex c.size p := by
  rw [c.slotIndex_eq, c.slotIndex_eq, Nat.add_mod_right]

lemma slotIndex_of_lt (h : p < c.size) : slotIndex c.size p = p := by
  rw [c.slotIndex_eq, Nat.mod_eq_of_lt h]

/-! ## The invariant -/

/-- The slot after the stores of a push. -/
def Codec.filled (q : Codec μ β κ γ) (m : μ) (slot : β) : β :=
  (q.store m).foldl (fun slot f => f slot) slot

/-- What the loads of a pop read from a slot. -/
def Codec.read (q : Codec μ β κ γ) (k : κ) (slot : β) : γ :=
  (q.load k).foldl (fun out f => f slot out) q.unset

/-- The sequence of the slot of a ticket in each of its stages. -/
def Stage.sequence (size p : Nat) : Stage → Nat
  | .unclaimed | .storing => p
  | .ready | .loading => p + 1
  | .released => word (p + size)

/-- The ticket a thread works on. -/
def Pc.ticket : Pc μ β κ γ → Option Nat
  | .pushStore _ pos _ => some pos
  | .popLoad _ pos _ _ => some pos
  | _ => none

/-- What a thread relies on in each phase. -/
def Sound (q : Codec μ β κ γ) (size : Nat) (s : State μ β κ γ) : Pc μ β κ γ → Prop
  | .idle _ | .popCursor _ => True
  | .pushCursor m => q.accepts m = true
  | .pushSeq m pos => q.accepts m = true ∧ pos ≤ s.writeCursor
  | .pushCas m pos =>
      q.accepts m = true ∧ pos ≤ s.writeCursor ∧
        (pos = s.writeCursor → ∀ p, p + size = pos → s.stage p = .released)
  | .pushStore m pos rest =>
      s.stage pos = .storing ∧ s.pushes[pos]? = some m ∧ q.accepts m = true ∧
        ∃ slot, rest.foldl (fun slot f => f slot) (s.slot (slotIndex size pos)) = q.filled m slot
  | .popSeq _ pos => pos ≤ s.readCursor
  | .popCas _ pos => pos ≤ s.readCursor ∧ (pos = s.readCursor → s.stage pos = .ready)
  | .popLoad k pos rest out =>
      s.stage pos = .loading ∧ rest.foldl (fun out f => f (s.slot (slotIndex size pos)) out) out
          = q.read k (s.slot (slotIndex size pos))

/-- The item of a ticket is complete in its slot. -/
def Filled (q : Codec μ β κ γ) (size : Nat) (s : State μ β κ γ) (p : Nat) : Prop :=
  ∃ m, s.pushes[p]? = some m ∧ q.accepts m = true ∧
    ∃ slot, s.slot (slotIndex size p) = q.filled m slot

/-- The result of a pop is that of the item of its ticket. -/
def Correct (q : Codec μ β κ γ) (s : State μ β κ γ) (r : Result κ γ) : Prop :=
  ∃ m, s.pushes[r.ticket]? = some m ∧ r.value = q.expected r.args m

structure Inv (q : Codec μ β κ γ) (c : Capacity) (s : State μ β κ γ) : Prop where
  word : s.writeCursor < 2 ^ 64
  pushes : s.pushes.length = s.writeCursor
  claims : s.claims = List.range s.readCursor
  behind : s.readCursor ≤ s.writeCursor
  unclaimed : ∀ p, s.stage p = .unclaimed ↔ s.writeCursor ≤ p
  taken : ∀ p, s.stage p = .loading ∨ s.stage p = .released ↔ p < s.readCursor
  /-- A ticket is taken after the one of the lap before is released. -/
  lapped : ∀ p, p + c.size < s.writeCursor → s.stage p = .released
  sequence : ∀ p < s.writeCursor, s.writeCursor ≤ p + c.size →
    s.sequence (slotIndex c.size p) = (s.stage p).sequence c.size p
  /-- The slots that no ticket has reached. -/
  untouched : ∀ i < c.size, s.writeCursor ≤ i → s.sequence i = i
  filled : ∀ p, s.stage p = .ready ∨ s.stage p = .loading → Filled q c.size s p
  threads : ∀ t, Sound q c.size s (s.pc t)
  owner : ∀ t u p, (s.pc t).ticket = some p → (s.pc u).ticket = some p → t = u
  results : ∀ r ∈ s.results, s.stage r.ticket = .released ∧ Correct q s r
  once : (s.results.map (·.ticket)).Nodup

lemma inv_start : Inv q c (start q) where
  word := by simp [start]
  pushes := rfl
  claims := rfl
  behind := le_refl 0
  unclaimed p := by simp [start]
  taken p := by simp [start]
  lapped p h := by simp [start] at h
  sequence p h := by simp [start] at h
  untouched i _ _ := rfl
  filled p h := by simp [start] at h
  threads t := trivial
  owner t u p h := by simp [start, Pc.ticket] at h
  results r h := by simp [start] at h
  once := nodup_nil

variable {s s' : State μ β κ γ} {t : Tid} {x : Pc μ β κ γ}

/-- What a thread relies on looks at the cursors, the stages, the items and
the slots of tickets at work. -/
lemma Sound.mono {pc : Pc μ β κ γ} (h : Sound q c.size s pc)
    (hw : s.writeCursor ≤ s'.writeCursor) (hr : s.readCursor ≤ s'.readCursor)
    (hpush : ∀ (p : Nat) m, s.pushes[p]? = some m → s'.pushes[p]? = some m)
    (hreleased : ∀ p, s.stage p = .released → s'.stage p = .released)
    (hready : s'.readCursor = s.readCursor → s.stage s.readCursor = .ready →
      s'.stage s.readCursor = .ready)
    (hticket : ∀ p, pc.ticket = some p → s'.stage p = s.stage p ∧
      s'.slot (slotIndex c.size p) = s.slot (slotIndex c.size p)) : Sound q c.size s' pc := by
  cases pc with
  | idle | popCursor | pushCursor => exact h
  | pushSeq m pos => exact ⟨h.1, h.2.trans hw⟩
  | pushCas m pos =>
    refine ⟨h.1, h.2.1.trans hw, fun hpos p hp => hreleased p (h.2.2 ?_ p hp)⟩
    have := h.2.1
    omega
  | pushStore m pos rest =>
    obtain ⟨hstage, hslot⟩ := hticket pos rfl
    obtain ⟨h1, h2, h3, h4⟩ := h
    exact ⟨hstage.trans h1, hpush _ _ h2, h3, by rwa [hslot]⟩
  | popSeq k pos => exact le_trans h hr
  | popCas k pos =>
    refine ⟨h.1.trans hr, fun hpos => ?_⟩
    have hpos' : pos = s.readCursor := by have := h.1; omega
    rw [hpos']
    exact hready (by omega) (hpos' ▸ h.2 hpos')
  | popLoad k pos rest out =>
    obtain ⟨hstage, hslot⟩ := hticket pos rfl
    obtain ⟨h1, h2⟩ := h
    exact ⟨hstage.trans h1, by rwa [hslot]⟩

namespace Inv

variable (h : Inv q c s)

include h

lemma ticket_stage (ht : (s.pc t).ticket = some p) :
    s.stage p = .storing ∨ s.stage p = .loading := by
  have hs := h.threads t
  cases hpc : s.pc t <;> simp only [hpc, Pc.ticket, reduceCtorEq, Option.some.injEq] at ht hs
  case pushStore => exact Or.inl (ht ▸ hs.1)
  case popLoad => exact Or.inr (ht ▸ hs.1)

lemma ticket_busy (ht : (s.pc t).ticket = some p) :
    s.stage p ≠ .unclaimed ∧ s.stage p ≠ .released ∧ s.stage p ≠ .ready := by
  rcases h.ticket_stage ht with hp | hp <;> rw [hp] <;> decide

lemma window (hu : s.stage p ≠ .unclaimed) (hr : s.stage p ≠ .released) :
    p < s.writeCursor ∧ s.writeCursor ≤ p + c.size := by
  refine ⟨Nat.lt_of_not_le fun hle => hu ((h.unclaimed p).mpr hle), ?_⟩
  exact Nat.le_of_not_lt fun hlt => hr (h.lapped p hlt)

lemma slotIndex_ne (hu : s.stage p ≠ .unclaimed) (hr : s.stage p ≠ .released)
    (hp' : p' < s.writeCursor) (hw' : s.writeCursor ≤ p' + c.size) (hne : p' ≠ p) :
    slotIndex c.size p' ≠ slotIndex c.size p := fun heq =>
  hne (ticket_unique hp' hw' (h.window hu hr).1 (h.window hu hr).2 heq)

/-- The slot at the write cursor, once the lap before has left it. -/
lemma sequence_free (hfree : ∀ p, p + c.size = s.writeCursor → s.stage p = .released) :
    s.sequence (slotIndex c.size s.writeCursor) = s.writeCursor := by
  by_cases hw : s.writeCursor < c.size
  · rw [slotIndex_of_lt hw]
    exact h.untouched _ hw (le_refl _)
  · have hsize := c.two_le
    obtain ⟨p, hp⟩ := Nat.exists_eq_add_of_le' (Nat.le_of_not_lt hw)
    have hseq := h.sequence p (by omega) (by omega)
    rw [hfree p hp.symm] at hseq
    rw [hp, slotIndex_lap, hseq, Stage.sequence, ← hp, word_eq h.word]

/-! ## Steps that move one thread -/

lemma owner_keep (ht : x.ticket = (s.pc t).ticket) :
    ∀ u v p, (update s.pc t x u).ticket = some p → (update s.pc t x v).ticket = some p → u = v := by
  have hticket : ∀ u, (update s.pc t x u).ticket = (s.pc u).ticket := by
    intro u
    by_cases hu : u = t
    · subst hu
      rw [update_self, ht]
    · rw [update_of_ne hu]
  intro u v p hu hv
  rw [hticket] at hu hv
  exact h.owner u v p hu hv

/-- No thread has the ticket that `t` takes, if any. -/
lemma owner_update (hx : ∀ p, x.ticket = some p → ∀ u, (s.pc u).ticket ≠ some p) :
    ∀ u v p, (update s.pc t x u).ticket = some p → (update s.pc t x v).ticket = some p → u = v := by
  intro u v p hu hv
  by_cases hut : u = t <;> by_cases hvt : v = t
  · rw [hut, hvt]
  · subst hut
    rw [update_self] at hu
    rw [update_of_ne hvt] at hv
    exact absurd hv (hx p hu v)
  · subst hvt
    rw [update_self] at hv
    rw [update_of_ne hut] at hu
    exact absurd hu (hx p hv u)
  · rw [update_of_ne hut] at hu
    rw [update_of_ne hvt] at hv
    exact h.owner u v p hu hv

lemma move (hx : Sound q c.size s x) (ht : x.ticket = (s.pc t).ticket) : Inv q c (s.move t x) := by
  refine { h with threads := fun u => ?_, owner := h.owner_keep ht }
  by_cases hu : u = t
  · subst hu
    simp only [update_self]
    cases x <;> exact hx
  · simp only [update_of_ne hu]
    have := h.threads u
    cases hpc : s.pc u <;> rw [hpc] at this <;> exact this

/-! ## Steps of a push -/

/-- A ticket is taken at the write cursor, whose slot is free. -/
lemma claimPush {m : μ} (hm : q.accepts m = true)
    (hfree : ∀ p, p + c.size = s.writeCursor → s.stage p = .released)
    (hwrap : s.writeCursor + 1 < 2 ^ 64) :
    Inv q c { s.move t (.pushStore m s.writeCursor (q.store m)) with
      writeCursor := BoundedQueue.word (s.writeCursor + 1)
      pushes := s.pushes ++ [m]
      stage := update s.stage s.writeCursor .storing } := by
  have hnew : s.stage s.writeCursor = .unclaimed := (h.unclaimed _).mpr (le_refl _)
  have hother : ∀ p, s.stage p ≠ .unclaimed →
      update s.stage s.writeCursor .storing p = s.stage p := by
    intro p hp
    refine update_of_ne ?_ _ _
    rintro rfl
    exact hp hnew
  have hpushed : ∀ (p : Nat) m', s.pushes[p]? = some m' → (s.pushes ++ [m])[p]? = some m' := by
    intro p m' hp
    rw [List.getElem?_append_left (List.getElem?_eq_some_iff.mp hp).1, hp]
  have hsize := c.two_le
  have hbehind := h.behind
  rw [word_eq hwrap]
  refine { h with
    word := hwrap
    pushes := by simp [h.pushes]
    behind := hbehind.trans (Nat.le_succ _)
    unclaimed := fun p => ?_
    taken := fun p => ?_
    lapped := fun p hp => ?_
    sequence := fun p hp hw => ?_
    untouched := fun i hi hw => h.untouched i hi (Nat.le_of_succ_le hw)
    filled := fun p hp => ?_
    threads := fun u => ?_
    owner := h.owner_update fun p hp u hu => ?_
    results := fun r hr => ?_ }
  · have := h.unclaimed p
    grind
  · have := h.taken p
    grind
  · dsimp only at hp ⊢
    have hreleased : s.stage p = .released := by
      rcases lt_or_eq_of_le (Nat.le_of_lt_succ hp) with hlt | heq
      · exact h.lapped p hlt
      · exact hfree p heq
    rw [hother p (by rw [hreleased]; decide), hreleased]
  · dsimp only at hp hw ⊢
    by_cases hpw : p = s.writeCursor
    · subst hpw
      rw [update_self]
      exact h.sequence_free hfree
    · rw [update_of_ne hpw]
      exact h.sequence p (by omega) (by omega)
  · dsimp only at hp
    have hp' : s.stage p = .ready ∨ s.stage p = .loading := by grind
    obtain ⟨m', hm', hrest⟩ := h.filled p hp'
    exact ⟨m', hpushed p m' hm', hrest⟩
  · by_cases hu : u = t
    · subst hu
      simp only [update_self]
      refine ⟨update_self _ _ _, ?_, hm, s.slot _, rfl⟩
      simp [← h.pushes]
    · simp only [update_of_ne hu]
      refine (h.threads u).mono (Nat.le_succ _) (le_refl _) hpushed ?_ ?_ ?_
      · intro p hp
        exact (hother p (by rw [hp]; decide)).trans hp
      · intro _ hp
        exact (hother _ (by rw [hp]; decide)).trans hp
      · exact fun p hp => ⟨hother p (h.ticket_busy hp).1, rfl⟩
  · cases hp
    exact (h.ticket_busy hu).1 hnew
  · obtain ⟨hstage, m', hm', hvalue⟩ := h.results r hr
    exact ⟨(hother _ (by rw [hstage]; decide)).trans hstage, m', hpushed _ _ hm', hvalue⟩

lemma store {m : μ} {pos : Nat} {f : β → β} {rest : List (β → β)}
    (ht : s.pc t = .pushStore m pos (f :: rest)) :
    Inv q c { s.move t (.pushStore m pos rest) with
      slot := update s.slot (slotIndex c.size pos)
        (f (s.slot (slotIndex c.size pos))) } := by
  have hsound := h.threads t
  rw [ht] at hsound
  obtain ⟨hstage, hpush, hm, slot, hslot⟩ := hsound
  -- the slot of another ticket at work is another one
  have hframe : ∀ p, p ≠ pos → s.stage p ≠ .unclaimed → s.stage p ≠ .released →
      slotIndex c.size p ≠ slotIndex c.size pos := fun p hne hu hr =>
    h.slotIndex_ne (by rw [hstage]; decide) (by rw [hstage]; decide) (h.window hu hr).1
      (h.window hu hr).2 hne
  refine { h with
    filled := fun p hp => ?_
    threads := fun u => ?_
    owner := h.owner_keep (by rw [ht]; rfl) }
  · obtain ⟨m', hm', hacc, slot', hfilled⟩ := h.filled p hp
    refine ⟨m', hm', hacc, slot', ?_⟩
    dsimp only at hp ⊢
    rw [update_of_ne (hframe p ?_ ?_ ?_), hfilled]
    · rintro rfl
      rw [hstage] at hp
      simp at hp
    · rcases hp with hp | hp <;> rw [hp] <;> decide
    · rcases hp with hp | hp <;> rw [hp] <;> decide
  · by_cases hu : u = t
    · subst hu
      simp only [update_self]
      refine ⟨hstage, hpush, hm, slot, ?_⟩
      dsimp only
      rw [update_self]
      exact hslot
    · simp only [update_of_ne hu]
      refine (h.threads u).mono (le_refl _) (le_refl _) (fun _ _ hp => hp)
        (fun _ hp => hp) (fun _ hp => hp) fun p hp => ⟨rfl, ?_⟩
      obtain ⟨hclaimed, hkept, -⟩ := h.ticket_busy hp
      refine update_of_ne (hframe p ?_ hclaimed hkept) _ _
      rintro rfl
      exact hu (h.owner u t p hp (by rw [ht]; rfl))

/-! ## Steps of a pop -/

/-- A ticket is taken at the read cursor, whose item is ready. -/
lemma claimPop {k : κ} (hready : s.stage s.readCursor = .ready) :
    Inv q c { s.move t (.popLoad k s.readCursor (q.load k) q.unset) with
      readCursor := BoundedQueue.word (s.readCursor + 1)
      claims := s.claims ++ [s.readCursor]
      stage := update s.stage s.readCursor .loading } := by
  have hlt := (h.window (p := s.readCursor) (by rw [hready]; decide) (by rw [hready]; decide)).1
  rw [word_eq (by have := h.word; omega)]
  refine { h with
    claims := by rw [range_succ, h.claims]
    behind := hlt
    unclaimed := fun p => ?_
    taken := fun p => ?_
    lapped := fun p hp => ?_
    sequence := fun p hp hw => ?_
    filled := fun p hp => h.filled p (by grind)
    threads := fun u => ?_
    owner := h.owner_update fun p hp u hu => ?_
    results := fun r hr => ⟨?_, (h.results r hr).2⟩ }
  · have := h.unclaimed p
    grind
  · have := h.taken p
    grind
  · have := h.lapped p hp
    grind
  · have hseq := h.sequence p hp hw
    dsimp only
    by_cases hpos : p = s.readCursor
    · subst hpos
      rw [update_self, hseq, hready]
      rfl
    · rw [update_of_ne hpos, hseq]
  · by_cases hu : u = t
    · subst hu
      simp only [update_self]
      exact ⟨update_self _ _ _, rfl⟩
    · simp only [update_of_ne hu]
      refine (h.threads u).mono (le_refl _) (Nat.le_succ _) (fun _ _ hp => hp) ?_ ?_ ?_
      · intro p hp
        grind
      · intro heq _
        simp at heq
      · intro p hp
        refine ⟨update_of_ne ?_ _ _, rfl⟩
        rintro rfl
        exact (h.ticket_busy hp).2.2 hready
  · cases hp
    exact (h.ticket_busy hu).2.2 hready
  · have := (h.results r hr).1
    grind

/-! ## The end of the work on a slot -/

lemma handOver {b : Stage} (ht : (s.pc t).ticket = some pos)
    (hb : s.stage pos = .storing ∧ b = .ready ∧ Filled q c.size s pos ∨
      s.stage pos = .loading ∧ b = .released) :
    Inv q c { s.move t (.idle .success) with
      sequence := update s.sequence (slotIndex c.size pos) (b.sequence c.size pos)
      stage := update s.stage pos b } := by
  have hu : s.stage pos ≠ .unclaimed := by grind
  have hr : s.stage pos ≠ .released := by grind
  have hwindow := h.window hu hr
  refine { h with
    unclaimed := fun p => ?_
    taken := fun p => ?_
    lapped := fun p hp => ?_
    sequence := fun p hp hw => ?_
    untouched := fun i hi hw => ?_
    filled := fun p hp => ?_
    threads := fun u => ?_
    owner := h.owner_update nofun
    results := fun r hr => ⟨?_, (h.results r hr).2⟩ }
  · have := h.unclaimed p
    grind
  · have := h.taken p
    grind
  · have := h.lapped p hp
    grind
  · dsimp only at hp hw ⊢
    by_cases hpos : p = pos
    · subst hpos
      rw [update_self, update_self]
    · rw [update_of_ne hpos, update_of_ne (h.slotIndex_ne hu hr hp hw hpos)]
      exact h.sequence p hp hw
  · dsimp only at hw ⊢
    rw [update_of_ne, h.untouched i hi hw]
    rw [slotIndex_of_lt (by omega)]
    omega
  · by_cases hpos : p = pos
    · subst hpos
      rcases hb with ⟨-, -, hfilled⟩ | ⟨hstage, -⟩
      · exact hfilled
      · exact h.filled p (.inr hstage)
    · dsimp only at hp
      rw [update_of_ne hpos] at hp
      exact h.filled p hp
  · by_cases hut : u = t
    · subst hut
      simp only [update_self]
      trivial
    · simp only [update_of_ne hut]
      refine (h.threads u).mono (le_refl _) (le_refl _) (fun _ _ hp => hp) ?_ ?_ ?_
      · intro p hp
        grind
      · intro _ hp
        grind
      · intro p hp
        refine ⟨update_of_ne ?_ _ _, rfl⟩
        rintro rfl
        exact hut (h.owner u t p hp ht)
  · have := (h.results r hr).1
    grind

lemma publish {m : μ} (ht : s.pc t = .pushStore m pos []) : Inv q c (s.publish c.size t pos) := by
  have hsound := h.threads t
  rw [ht] at hsound
  obtain ⟨hstage, hpush, hm, slot, hslot⟩ := hsound
  have hwindow := h.window (p := pos) (by rw [hstage]; decide) (by rw [hstage]; decide)
  have hword := h.word
  unfold State.publish
  rw [word_eq (by omega)]
  exact h.handOver (by rw [ht]; rfl) (.inl ⟨hstage, rfl, m, hpush, hm, slot, hslot⟩)

lemma release {k : κ} {out : γ} (ht : s.pc t = .popLoad k pos [] out) :
    Inv q c (s.release c.size t k pos out) := by
  have hsound := h.threads t
  rw [ht] at hsound
  obtain ⟨hstage, hout⟩ := hsound
  have hover := h.handOver (t := t) (by rw [ht]; rfl) (.inr ⟨hstage, rfl⟩)
  refine { hover with
    threads := fun u => (hover.threads u).mono (le_refl _) (le_refl _) (fun _ _ hp => hp)
      (fun _ hp => hp) (fun _ hp => hp) fun _ _ => ⟨rfl, rfl⟩
    results := fun r hr => ?_
    once := ?_ }
  · rcases mem_append.mp hr with hr | hr
    · exact hover.results r hr
    · rw [mem_singleton.mp hr]
      obtain ⟨m, hm, hacc, slot, hslot⟩ := h.filled pos (Or.inr hstage)
      refine ⟨update_self _ _ _, m, hm, ?_⟩
      exact hout.trans ((congrArg (q.read _) hslot).trans (q.load_store _ m slot hacc))
  · dsimp only
    rw [map_append, nodup_append]
    refine ⟨h.once, by simp, ?_⟩
    intro p hp p' hp' heq
    obtain ⟨r, hr, rfl⟩ := mem_map.mp hp
    have hreleased := (h.results r hr).1
    rw [heq, mem_singleton.mp hp', hstage] at hreleased
    cases hreleased

/-! ## What a sequence tells -/

lemma free_of_sequence (hd : diff (s.sequence (slotIndex c.size s.writeCursor)) s.writeCursor = 0)
    (hp : p + c.size = s.writeCursor) : s.stage p = .released := by
  have hsize := c.two_le
  have hword := h.word
  have hseq := h.sequence p (by omega) (by omega)
  rw [← hp, slotIndex_lap, hseq, hp] at hd
  cases hstage : s.stage p with
  | unclaimed =>
    have := (h.unclaimed p).mp hstage
    omega
  | storing | ready | loading =>
    rw [hstage, Stage.sequence, diff_eq_zero (by omega) hword] at hd
    omega
  | released => rfl

lemma ready_of_sequence
    (hd : diff (s.sequence (slotIndex c.size s.readCursor)) (BoundedQueue.word (s.readCursor + 1))
      = 0) : s.stage s.readCursor = .ready := by
  have hsize := c.two_le
  have hword := h.word
  have hbehind := h.behind
  have hr64 := word_succ_ne s.readCursor
  have hlt64 := word_lt (s.readCursor + 1)
  have hnot : ¬ (s.stage s.readCursor = .loading ∨ s.stage s.readCursor = .released) := fun ht =>
    absurd ((h.taken _).mp ht) (lt_irrefl _)
  rcases lt_or_eq_of_le hbehind with hlt | heq
  · have hseq := h.sequence s.readCursor hlt
      (Nat.le_of_not_lt fun hl => hnot (Or.inr (h.lapped _ hl)))
    rw [hseq] at hd
    cases hstage : s.stage s.readCursor with
    | unclaimed =>
      have := (h.unclaimed _).mp hstage
      omega
    | storing =>
      rw [hstage, Stage.sequence, diff_eq_zero (by omega) hlt64] at hd
      omega
    | ready => rfl
    | loading => exact absurd (Or.inl hstage) hnot
    | released => exact absurd (Or.inr hstage) hnot
  · -- the queue is empty: the slot is at most ready for the next push
    exfalso
    by_cases hfirst : s.readCursor < c.size
    · rw [slotIndex_of_lt hfirst, h.untouched _ hfirst (by omega),
        diff_eq_zero (by omega) hlt64] at hd
      omega
    · obtain ⟨p, hp⟩ := Nat.exists_eq_add_of_le' (Nat.le_of_not_lt hfirst)
      have hseq := h.sequence p (by omega) (by omega)
      have hindex : slotIndex c.size s.readCursor = slotIndex c.size p := by
        rw [hp, slotIndex_lap]
      rw [hindex, hseq] at hd
      rcases (h.taken p).mpr (by omega) with hstage | hstage
      · rw [hstage, Stage.sequence, diff_eq_zero (by omega) hlt64] at hd
        unfold BoundedQueue.word at hd
        omega
      · rw [hstage, Stage.sequence, diff_eq_zero (word_lt _) hlt64, ← hp, word_eq (by omega)] at hd
        omega

end Inv

/-! ## Every run -/

/-- A cursor does not wrap. The read cursor stays behind the write cursor. -/
def NoWrap (s : State μ β κ γ) (e : Tid × Act μ κ) : Prop :=
  ∀ m pos, s.pc e.1 = .pushCas m pos → s.writeCursor + 1 < 2 ^ 64

lemma inv_step {e : Tid × Act μ κ} (h : Inv q c s) (hok : NoWrap s e)
    (hstep : step q c.size s e = some s') : Inv q c s' := by
  obtain ⟨t, a⟩ := e
  have hsound := h.threads t
  cases ht : s.pc t <;> rw [ht] at hsound <;> cases a <;>
    simp only [step, ht, reduceCtorEq, Option.some.injEq] at hstep
  case idle.push m =>
    subst hstep
    split
    · exact h.move (by assumption) (by rw [ht]; rfl)
    · exact h.move trivial (by rw [ht]; rfl)
  case idle.pop k => exact hstep ▸ h.move trivial (by rw [ht]; rfl)
  case pushCursor.go m => exact hstep ▸ h.move ⟨hsound, le_refl _⟩ (by rw [ht]; rfl)
  case pushSeq.go m pos =>
    subst hstep
    split
    · rename_i hd
      refine h.move ⟨hsound.1, hsound.2, fun hpos p hp => ?_⟩ (by rw [ht]; rfl)
      subst hpos
      exact h.free_of_sequence hd hp
    · split
      · exact h.move trivial (by rw [ht]; rfl)
      · exact h.move hsound.1 (by rw [ht]; rfl)
  case pushCas.go m pos =>
    obtain ⟨hm, hpos, hfree⟩ := hsound
    subst hstep
    unfold State.casWrite
    split
    · rename_i heq
      subst heq
      exact h.claimPush hm (hfree rfl) (hok m _ ht)
    · exact h.move ⟨hm, le_refl _⟩ (by rw [ht]; rfl)
  case pushCas.fail m pos => exact hstep ▸ h.move ⟨hsound.1, le_refl _⟩ (by rw [ht]; rfl)
  case pushStore.go m pos rest =>
    cases rest with
    | nil => exact Option.some.inj hstep ▸ h.publish ht
    | cons f rest => exact Option.some.inj hstep ▸ h.store ht
  case popCursor.go k => exact hstep ▸ h.move (le_refl s.readCursor) (by rw [ht]; rfl)
  case popSeq.go k pos =>
    subst hstep
    split
    · rename_i hd
      refine h.move ⟨hsound, fun hpos => ?_⟩ (by rw [ht]; rfl)
      subst hpos
      exact h.ready_of_sequence hd
    · split <;> exact h.move trivial (by rw [ht]; rfl)
  case popCas.go k pos =>
    subst hstep
    unfold State.casRead
    split
    · rename_i heq
      subst heq
      exact h.claimPop (hsound.2 rfl)
    · exact h.move (le_refl s.readCursor) (by rw [ht]; rfl)
  case popCas.fail k pos => exact hstep ▸ h.move (le_refl s.readCursor) (by rw [ht]; rfl)
  case popLoad.go k pos rest out =>
    cases rest with
    | nil => exact Option.some.inj hstep ▸ h.release ht
    | cons f rest => exact Option.some.inj hstep ▸ h.move ⟨hsound.1, hsound.2⟩ (by rw [ht]; rfl)

/-- What the users of a queue rely on. -/
structure Contract (q : Codec μ β κ γ) (c : Capacity) (s : State μ β κ γ) : Prop where
  /-- Every push ticket has its item, and pops claim the tickets in order. -/
  tickets : s.pushes.length = s.writeCursor
  order : s.claims = List.range s.readCursor
  /-- No item is popped twice. -/
  once : (s.results.map (·.ticket)).Nodup
  /-- A pop that has returned claimed a ticket and got the item of it. -/
  intact : ∀ r ∈ s.results, r.ticket ∈ s.claims ∧ Correct q s r
  /-- No slot is written while it is read. -/
  exclusive : ∀ t u m k p p' rest rest' out, s.pc t = .pushStore m p rest →
    s.pc u = .popLoad k p' rest' out → slotIndex c.size p ≠ slotIndex c.size p'
  /-- At most `capacity` items are outstanding. -/
  outstanding : s.readCursor ≤ s.writeCursor ∧ s.writeCursor ≤ s.readCursor + c.size

lemma Inv.contract (h : Inv q c s) : Contract q c s where
  tickets := h.pushes
  order := h.claims
  once := h.once
  intact r hr := by
    obtain ⟨hstage, hcorrect⟩ := h.results r hr
    refine ⟨?_, hcorrect⟩
    rw [h.claims, mem_range]
    exact (h.taken _).mp (Or.inr hstage)
  exclusive t u m k p p' rest rest' out ht hu := by
    have hst := h.threads t
    have hsu := h.threads u
    rw [ht] at hst
    rw [hu] at hsu
    have hwindow := h.window (p := p) (by rw [hst.1]; decide) (by rw [hst.1]; decide)
    refine h.slotIndex_ne (by rw [hsu.1]; decide) (by rw [hsu.1]; decide) hwindow.1 hwindow.2 ?_
    rintro rfl
    have := hst.1.symm.trans hsu.1
    cases this
  outstanding := by
    refine ⟨h.behind, Nat.le_of_not_lt fun hlt => ?_⟩
    exact absurd ((h.taken _).mp (Or.inr (h.lapped _ hlt))) (lt_irrefl _)

lemma inv_run (h : (machine q c).ReachVia NoWrap s) : Inv q c s := by
  refine h.invariant (Inv q c) ?_ fun _ _ _ hinv hok hstep => inv_step hinv hok hstep
  rintro s rfl
  exact inv_start

/-- In every state of every run, both queues keep the contract. -/
theorem boundedQueues_contract (c : Capacity) :
    (∀ slotSize hsize s, (machine (shmMpmc slotSize hsize) c).ReachVia NoWrap s →
        Contract (shmMpmc slotSize hsize) c s) ∧
      ∀ s, (machine lfqueue c).ReachVia NoWrap s → Contract lfqueue c s :=
  ⟨fun _ _ _ h => (inv_run h).contract, fun _ h => (inv_run h).contract⟩

/-- A message of two bytes is pushed by one thread into a ring of two slots
and popped by another, which has room for one byte. -/
theorem boundedQueues_contract_once : ∃ s : State (List UInt8) ShmSlot Nat Popped,
    (machine (shmMpmc 4 (by decide)) ⟨1, by decide, by decide⟩).ReachVia NoWrap s ∧
      s.results.map (·.value) = [⟨2, [8]⟩] ∧
      Contract (shmMpmc 4 (by decide)) ⟨1, by decide, by decide⟩ s := by
  have h : (machine (shmMpmc 4 (by decide)) ⟨1, by decide, by decide⟩).ReachVia NoWrap
      (start (shmMpmc 4 (by decide))) := .init rfl
  have h₁ := h.run (fun s _ => decide (s.writeCursor + 1 < 2 ^ 64))
    (fun s e htest _ _ _ => of_decide_eq_true htest)
    [(0, .push [8, 9]), (0, .go), (0, .go), (0, .go), (0, .go), (0, .go), (0, .go),
      (1, .pop 1), (1, .go), (1, .go), (1, .go), (1, .go), (1, .go), (1, .go)] rfl
  exact ⟨_, h₁, rfl, (boundedQueues_contract _).1 4 (by decide) _ h₁⟩

end Cobalt.Container.BoundedQueue
