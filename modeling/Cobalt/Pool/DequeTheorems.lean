/-
Cobalt.Pool.DequeTheorems — every task is handed out once.

The indices from `top` to `limit` are the tasks in the deque. `Inv` says
that their slots hold them, what each phase of the owner knows about `top`
and `bottom`, and that a thief whose index is still the top one has read
the slot of a task that is in the deque: an index is given up below `bottom`
only by moving `top`, which makes the compare-and-swap of such a thief fail.
-/
import Cobalt.Lib.Buffer
import Cobalt.Pool.Deque

namespace Cobalt.Pool.Deque

open List Option OwnerPc
open List (range' range)
open State (limit contents)

open Function (update update_of_ne update_self)

variable {k : Nat} {s s' : State}

/-! ## The contract -/

/-- What the pool relies on. -/
structure Contract (k : Nat) (s : State) : Prop where
  /-- Every ticket is popped, stolen or in the deque, and only once. -/
  once : (s.popped.map Prod.fst ++ (s.stolen.map Prod.fst ++ s.contents)).Perm
    (List.range s.tasks.length)
  /-- A task is handed out with its own function and argument. -/
  own : ∀ r ∈ s.popped ++ s.stolen, s.tasks[r.1]? = some r.2
  /-- Steals are in the order of the pushes. -/
  order : (s.stolen.map Prod.fst).Pairwise (· < ·)
  capacity : s.contents.length ≤ 2 ^ k

/-! ## The invariant -/

/-- What the owner knows. -/
def OwnerOk (k : Nat) (s : State) : Prop :=
  match s.owner with
  | .idle => True
  | .pushTop b _ => b = s.bottom
  | .pushFn b _ => b = s.bottom ∧ b < s.top + 2 ^ k
  | .pushArg b task =>
      b = s.bottom ∧ b < s.top + 2 ^ k ∧ (s.buffer (b % 2 ^ k)).fn = task.fn
  | .pushBottom b task => b = s.bottom ∧ b < s.top + 2 ^ k ∧ s.buffer (b % 2 ^ k) = task
  | .popLower b => b + 1 = s.bottom
  | .popTop b => b = s.bottom
  | .popFn b t => b = s.bottom ∧ t ≤ b ∧ t ≤ s.top ∧ (t < b → s.top ≤ b)
  | .popArg b t fn =>
      b = s.bottom ∧ t ≤ b ∧ t ≤ s.top ∧ (t < b → s.top ≤ b) ∧ fn = (s.buffer (b % 2 ^ k)).fn
  | .popCas b t task => b = s.bottom ∧ t = b ∧ t ≤ s.top ∧ task = s.buffer (b % 2 ^ k)
  | .popRaise b => b = s.bottom ∧ s.top = b + 1
  | .popReset t => t = s.bottom + 1 ∧ s.top = t

/-- The index a thief has, once it has found it below `bottom`. -/
def ThiefPc.index? : ThiefPc → Option Nat
  | stealFn t | stealArg t _ | stealCas t _ => some t
  | _ => none

/-- What a thief has read, if its index is still the top one. -/
def ThiefOk (k : Nat) (s : State) : ThiefPc → Prop
  | .idle | .stealFn _ => True
  | .stealBottom t => t ≤ s.top
  | .stealArg t fn => t = s.top → fn = (s.buffer (t % 2 ^ k)).fn
  | .stealCas t task => t = s.top → task = s.buffer (t % 2 ^ k)

/-- The index that the owner takes without a compare-and-swap. -/
def OwnerPc.taken? : OwnerPc → Option Nat
  | popFn b t | popArg b t _ => if t < b then some b else none
  | _ => none

structure Inv (k : Nat) (s : State) : Prop where
  le : s.top ≤ s.limit
  full : s.limit ≤ s.top + 2 ^ k
  once : (s.popped.map Prod.fst ++ (s.stolen.map Prod.fst ++ s.contents)).Perm
    (List.range s.tasks.length)
  own : ∀ r ∈ s.popped ++ s.stolen, s.tasks[r.1]? = some r.2
  order : (s.stolen.map Prod.fst ++ s.contents).Pairwise (· < ·)
  cells : ∀ i, s.top ≤ i → i < s.limit → s.tasks[s.ticket i]? = some (s.buffer (i % 2 ^ k))
  owner : OwnerOk k s
  thief : ∀ u, ThiefOk k s (s.thief u)
  index : ∀ u t, (s.thief u).index? = some t → t ≤ s.top ∧ (t = s.top → t < s.limit)
  apart : ∀ u t b, (s.thief u).index? = some t → s.owner.taken? = some b → t < b

lemma inv_start (h : Start s) : Inv k s := by
  obtain ⟨buffer, rfl⟩ := h
  constructor <;> simp [limit, contents, lowered, OwnerOk, ThiefOk,
    ThiefPc.index?, taken?]

lemma Inv.contract (h : Inv k s) : Contract k s where
  once := h.once
  own := h.own
  order := (pairwise_append.mp h.order).1
  capacity := by
    have := h.full
    simp [contents]
    omega

/-! ## Stretches of indices -/

section Stretch

variable (f : Nat → Nat) {lo hi b v : Nat}

lemma stretch_concat (h : lo ≤ hi) :
    (range' lo (hi + 1 - lo)).map f = (range' lo (hi - lo)).map f ++ [f hi] := by
  rw [Nat.succ_sub h, Nat.succ_eq_add_one, List.range'_concat, map_append, map_singleton,
    one_mul, Nat.add_sub_cancel' h]

lemma stretch_cons (h : lo < hi) :
    (range' lo (hi - lo)).map f = f lo :: (range' (lo + 1) (hi - (lo + 1))).map f := by
  rw [show hi - lo = hi - (lo + 1) + 1 by omega, List.range'_succ, map_cons]

lemma stretch_update (h : hi ≤ b) :
    (range' lo (hi - lo)).map (update f b v) = (range' lo (hi - lo)).map f := by
  refine map_congr_left fun i hi' => update_of_ne ?_ ..
  have := mem_range'_1.mp hi'
  omega

end Stretch

lemma contents_eq {b : Nat} (h : s.limit = b) :
    s.contents = (range' s.top (b - s.top)).map s.ticket := by
  rw [contents, h]

/-! ## Steps that hand out nothing -/

lemma slotOf_eq (k index : Nat) : slotOf k index = index % 2 ^ k :=
  Nat.and_two_pow_sub_one_eq_mod index k

lemma OwnerOk.taken {b : Nat} (h : OwnerOk k s) (hb : s.owner.taken? = some b) : b = s.bottom := by
  rw [OwnerOk] at h
  cases ho : s.owner <;> simp_all [taken?]

lemma ThiefOk.raise {pc : ThiefPc} (hok : ThiefOk k s pc)
    (hle : ∀ t, pc.index? = some t → t ≤ s.top) (htop : s'.top = s.top + 1) : ThiefOk k s' pc := by
  cases pc with
  | idle => trivial
  | stealFn t => trivial
  | stealBottom t =>
    change t ≤ s'.top
    exact htop ▸ Nat.le_succ_of_le hok
  | stealArg t fn | stealCas t task =>
    have := hle t rfl
    exact fun ht => absurd ht (by omega)

namespace Inv

variable {u : Tid} {t b : Nat}

lemma moveOwner (h : Inv k s) {x : OwnerPc} {bottom : Nat}
    (hlimit : ({ s with owner := x, bottom := bottom } : State).limit = s.limit)
    (hok : OwnerOk k { s with owner := x, bottom := bottom })
    (htaken : ∀ b, x.taken? = some b → ∀ u t, (s.thief u).index? = some t → t < b) :
    Inv k { s with owner := x, bottom := bottom } where
  le := hlimit ▸ h.le
  full := hlimit ▸ h.full
  once := by
    have hcontents : ({ s with owner := x, bottom := bottom } : State).contents = s.contents := by
      simp only [contents, hlimit]
    rw [hcontents]
    exact h.once
  own := h.own
  order := by
    have hcontents : ({ s with owner := x, bottom := bottom } : State).contents = s.contents := by
      simp only [contents, hlimit]
    rw [hcontents]
    exact h.order
  cells i hi hlt := h.cells i hi (hlimit ▸ hlt)
  owner := hok
  thief := h.thief
  index u t hu := by
    rw [hlimit]
    exact h.index u t hu
  apart u t b hu hb := htaken b hb u t hu

lemma moveOwner' (h : Inv k s) {x : OwnerPc} (hlow : x.lowered = s.owner.lowered)
    (hok : OwnerOk k { s with owner := x })
    (htaken : ∀ b, x.taken? = some b → ∀ u t, (s.thief u).index? = some t → t < b) :
    Inv k { s with owner := x } := by
  have hlimit : ({ s with owner := x, bottom := s.bottom } : State).limit = s.limit := by
    simp [limit, hlow]
  exact h.moveOwner hlimit hok htaken

lemma moveThief (h : Inv k s) {x : ThiefPc} (hok : ThiefOk k s x)
    (hindex : ∀ t, x.index? = some t → t ≤ s.top ∧ (t = s.top → t < s.limit))
    (hapart : ∀ t b, x.index? = some t → s.owner.taken? = some b → t < b) :
    Inv k (s.moveThief u x) := by
  have hcase : ∀ (P : ThiefPc → Prop), P x → (∀ v, P (s.thief v)) →
      ∀ v, P (update s.thief u x v) := by
    intro P hx hall v
    by_cases hv : v = u
    · subst hv
      rw [update_self]
      exact hx
    · rw [update_of_ne hv]
      exact hall v
  refine ⟨h.le, h.full, h.once, h.own, h.order, h.cells, h.owner, ?_, ?_, ?_⟩
  · exact hcase (ThiefOk k s) hok h.thief
  · intro v t hv
    exact hcase (fun pc => ∀ t, pc.index? = some t → t ≤ s.top ∧ (t = s.top → t < s.limit))
      hindex h.index v t hv
  · intro v t b hv hb
    exact hcase (fun pc => ∀ t b, pc.index? = some t → s.owner.taken? = some b → t < b)
      hapart (fun v t b => h.apart v t b) v t b hv hb

/-- The owner writes the slot of `bottom`, which no index in the deque shares. -/
lemma store (h : Inv k s) {x : OwnerPc} {task : Task} (hb : b = s.bottom)
    (hfree : b < s.top + 2 ^ k) (hlow : s.owner.lowered = false) (hx : x.lowered = false)
    (htaken : x.taken? = none)
    (hok : OwnerOk k { s with
      buffer := update s.buffer (b % 2 ^ k) task, owner := x }) :
    Inv k { s with buffer := update s.buffer (b % 2 ^ k) task, owner := x } := by
  have hlimit : s.limit = b := by simp [limit, hlow, hb]
  have hlimit' : ({ s with
      buffer := update s.buffer (b % 2 ^ k) task, owner := x } : State).limit = b := by
    simp [limit, hx, hb]
  have hcontents : ({ s with
      buffer := update s.buffer (b % 2 ^ k) task, owner := x } : State).contents
      = s.contents := by
    simp only [contents, hlimit, hlimit']
  have hslot : ∀ i, s.top ≤ i → i < b →
      update s.buffer (b % 2 ^ k) task (i % 2 ^ k) = s.buffer (i % 2 ^ k) := by
    intro i hi hlt
    rw [update_of_ne]
    exact mod_ne_of_window hlt (by omega)
  refine ⟨?_, ?_, ?_, h.own, ?_, ?_, hok, ?_, ?_, ?_⟩
  · simpa only [hlimit', hlimit] using h.le
  · simpa only [hlimit', hlimit] using h.full
  · rw [hcontents]; exact h.once
  · rw [hcontents]; exact h.order
  · intro i hi hlt
    rw [hlimit'] at hlt
    simp only [hslot i hi hlt]
    exact h.cells i hi (hlimit ▸ hlt)
  · -- a thief at the top has an index below `bottom`
    intro u
    have hu := h.thief u
    have hidx := h.index u
    cases hpc : s.thief u with
    | idle => trivial
    | stealFn t => trivial
    | stealBottom t =>
      rw [hpc] at hu
      exact hu
    | stealArg t fn | stealCas t task' =>
      intro ht
      rw [hpc] at hu hidx
      have hlt : t < b := hlimit ▸ (hidx t rfl).2 ht
      simp only [hslot t (le_of_eq ht.symm) hlt]
      exact hu ht
  · intro u t hu
    rw [hlimit', ← hlimit]
    exact h.index u t hu
  · intro u t c _ hc
    rw [show ({ s with
      buffer := update s.buffer (b % 2 ^ k) task, owner := x } : State).owner = x
      from rfl, htaken] at hc
    cases hc

/-! ## Steps that hand out a task, or take one in -/

lemma push (h : Inv k s) {task : Task} (ho : s.owner = .pushBottom b task) :
    Inv k { s with
      bottom := b + 1, owner := .idle, tasks := s.tasks ++ [task],
      ticket := update s.ticket b s.tasks.length } := by
  obtain ⟨hb, hfree, htask⟩ : b = s.bottom ∧ b < s.top + 2 ^ k ∧ s.buffer (b % 2 ^ k) = task := by
    have := h.owner
    rwa [OwnerOk, ho] at this
  have hlimit : s.limit = b := by simp [limit, ho, lowered, hb]
  have hle : s.top ≤ b := hlimit ▸ h.le
  have hcontents : ({ s with
      bottom := b + 1, owner := .idle, tasks := s.tasks ++ [task],
      ticket := update s.ticket b s.tasks.length } : State).contents
      = s.contents ++ [s.tasks.length] := by
    have hupdate := stretch_concat (update s.ticket b s.tasks.length) hle
    rw [stretch_update _ le_rfl, update_self] at hupdate
    rw [contents_eq hlimit, ← hupdate]
    rfl
  have hold : ∀ r ∈ s.contents, r < s.tasks.length := by
    intro r hr
    have : r ∈ range s.tasks.length := h.once.mem_iff.mp (by simp [hr])
    exact mem_range.mp this
  have hstolen : ∀ r ∈ s.stolen.map Prod.fst, r < s.tasks.length := by
    intro r hr
    have : r ∈ range s.tasks.length :=
      h.once.mem_iff.mp (mem_append_right _ (mem_append_left _ hr))
    exact mem_range.mp this
  refine ⟨?_, ?_, ?_, ?_, ?_, ?_, trivial, h.thief, ?_, ?_⟩
  · exact Nat.le_succ_of_le hle
  · exact hfree
  · rw [hcontents, ← append_assoc, ← append_assoc, append_assoc _ _ s.contents,
      length_append, length_singleton, range_succ]
    exact h.once.append_right _
  · intro r hr
    have := h.own r hr
    rw [getElem?_append_left]
    · exact this
    · exact (List.getElem?_eq_some_iff.mp this).1
  · rw [hcontents, ← append_assoc]
    refine pairwise_append.mpr ⟨h.order, pairwise_singleton .., ?_⟩
    intro r hr r' hr'
    rw [mem_singleton.mp hr']
    exact (mem_append.mp hr).elim (hstolen r) (hold r)
  · intro i hi hlt
    rcases lt_or_eq_of_le (Nat.lt_succ_iff.mp hlt) with hlt | rfl
    · have := h.cells i hi (hlimit ▸ hlt)
      simp only [update_of_ne (ne_of_lt hlt)]
      rw [getElem?_append_left]
      · exact this
      · exact (List.getElem?_eq_some_iff.mp this).1
    · simp [htask]
  · intro u t hu
    obtain ⟨htop, hlt⟩ := h.index u t hu
    exact ⟨htop, fun ht => Nat.lt_succ_of_lt (hlimit ▸ hlt ht)⟩
  · intro u t c _ hc
    cases hc

/-- The last ticket of the deque goes to the owner. -/
lemma once_pop {p q c n : List Nat} {x : Nat} (h : (p ++ (q ++ (c ++ [x]))).Perm n) :
    (p ++ [x] ++ (q ++ c)).Perm n := by
  refine List.Perm.trans ?_ h
  rw [append_assoc p, ← append_assoc q]
  exact perm_append_comm.append_left p

lemma own_pop (h : Inv k s) {i : Nat} (hle : s.top ≤ i) (hlt : i < s.limit) :
    ∀ r ∈ (s.popped ++ [(s.ticket i, s.buffer (i % 2 ^ k))]) ++ s.stolen,
      s.tasks[r.1]? = some r.2 := by
  intro r hr
  rcases mem_append.mp hr with hr | hr
  · rcases mem_append.mp hr with hr | hr
    · exact h.own r (mem_append_left _ hr)
    · rw [mem_singleton.mp hr]
      exact h.cells i hle hlt
  · exact h.own r (mem_append_right _ hr)

/-- The owner takes the task at the bottom, with others above it. -/
lemma pop (h : Inv k s) {fn : Nat} (ho : s.owner = .popArg b t fn) (hne : t ≠ b) :
    Inv k { s with
      owner := .idle,
      popped := s.popped ++ [(s.ticket b, ⟨fn, (s.buffer (b % 2 ^ k)).arg⟩)] } := by
  obtain ⟨hb, htb, -, htop, rfl⟩ : b = s.bottom ∧ t ≤ b ∧ t ≤ s.top ∧ (t < b → s.top ≤ b) ∧
      fn = (s.buffer (b % 2 ^ k)).fn := by
    have := h.owner
    rwa [OwnerOk, ho] at this
  have hlt : t < b := lt_of_le_of_ne htb hne
  have hle : s.top ≤ b := htop hlt
  have hlimit : s.limit = b + 1 := by simp [limit, ho, lowered, hb]
  have hcontents : s.contents = ({ s with
      owner := .idle,
      popped := s.popped ++ [(s.ticket b, s.buffer (b % 2 ^ k))] } : State).contents
      ++ [s.ticket b] := by
    rw [contents_eq hlimit, stretch_concat _ hle, hb]
    rfl
  have honce := h.once
  have horder := h.order
  rw [hcontents] at honce horder
  refine ⟨?_, ?_, ?_, h.own_pop hle (by omega), ?_, ?_, trivial, h.thief, ?_, ?_⟩
  · exact hb ▸ hle
  · have := hlimit ▸ h.full
    exact hb ▸ Nat.le_of_succ_le this
  · rw [map_append]
    exact once_pop honce
  · rw [← append_assoc] at horder
    exact (pairwise_append.mp horder).1
  · intro i hi hlt
    exact h.cells i hi (by rw [hlimit, hb]; exact Nat.lt_succ_of_lt hlt)
  · -- the thieves are above the index the owner takes
    intro u t' hu
    refine ⟨(h.index u t' hu).1, fun _ => hb ▸ h.apart u t' b hu ?_⟩
    rw [ho]
    exact if_pos hlt
  · intro u t c _ hc
    cases hc

lemma popLast (h : Inv k s) {task : Task} (ho : s.owner = .popCas b t task) (htop : s.top = t) :
    Inv k { s with
      top := t + 1, owner := .popRaise b, popped := s.popped ++ [(s.ticket b, task)] } := by
  obtain ⟨hb, rfl, -, rfl⟩ : b = s.bottom ∧ t = b ∧ t ≤ s.top ∧ task = s.buffer (b % 2 ^ k) := by
    have := h.owner
    rwa [OwnerOk, ho] at this
  have hlimit : s.limit = t + 1 := by simp [limit, ho, lowered, hb]
  have hcontents : s.contents = [] ++ [s.ticket t] := by
    rw [contents_eq hlimit, htop, stretch_concat _ le_rfl, Nat.sub_self]
    rfl
  have hcontents' : ({ s with
      top := t + 1, owner := .popRaise t,
      popped := s.popped ++ [(s.ticket t, s.buffer (t % 2 ^ k))] } : State).contents = [] := by
    simp [contents, limit, lowered, hb]
  have honce := h.once
  have horder := h.order
  rw [hcontents] at honce horder
  refine ⟨?_, ?_, ?_, h.own_pop htop.le (by omega), ?_, ?_, ?_, ?_, ?_, ?_⟩
  · simp [limit, lowered, hb]
  · simp [limit, lowered, hb]
  · rw [map_append, hcontents']
    exact once_pop honce
  · rw [hcontents', append_nil]
    exact (pairwise_append.mp horder).1
  · intro i hi hlt
    have hi' : t + 1 ≤ i := hi
    simp only [limit, lowered, if_true] at hlt
    omega
  · exact ⟨hb, rfl⟩
  · exact fun u => (h.thief u).raise (fun t ht => (h.index u t ht).1) (by simp [htop])
  · intro u t' hu
    have hle : t' < t + 1 := Nat.lt_succ_of_le (htop ▸ (h.index u t' hu).1)
    exact ⟨hle.le, fun heq => absurd heq hle.ne⟩
  · intro u t c _ hc
    cases hc

/-- The task at the top goes to a thief. -/
lemma raise (h : Inv k s) (hlt : s.top < s.limit)
    (hapart : ∀ b, s.owner.taken? = some b → s.top < b) :
    Inv k { s with
      top := s.top + 1, stolen := s.stolen ++ [(s.ticket s.top, s.buffer (s.top % 2 ^ k))] } := by
  have hcontents : s.contents = s.ticket s.top :: ({ s with
      top := s.top + 1,
      stolen := s.stolen ++ [(s.ticket s.top, s.buffer (s.top % 2 ^ k))] } : State).contents := by
    rw [contents, stretch_cons _ hlt]
    rfl
  have honce := h.once
  have horder := h.order
  rw [hcontents, append_cons] at honce horder
  have hindex : ∀ u t, (s.thief u).index? = some t → t < s.top + 1 :=
    fun u t hu => Nat.lt_succ_of_le (h.index u t hu).1
  refine ⟨hlt, ?_, ?_, ?_, ?_, ?_, ?_, ?_, ?_, h.apart⟩
  · have := h.full
    exact le_trans this (by simp only; omega)
  · rw [map_append]
    exact honce
  · intro r hr
    refine h.own_pop le_rfl hlt r ?_
    simp only [mem_append] at hr ⊢
    tauto
  · rw [map_append]
    exact horder
  · intro i hi hlt
    exact h.cells i (Nat.le_of_succ_le hi) hlt
  · have hok := h.owner
    rw [OwnerOk] at hok ⊢
    rw [limit] at hlt
    cases ho : s.owner with
    | idle => trivial
    | pushTop b task => simpa only [ho] using hok
    | pushFn b task =>
      simp only [ho] at hok ⊢
      omega
    | pushArg b task | pushBottom b task =>
      simp only [ho] at hok ⊢
      exact ⟨hok.1, by omega, hok.2.2⟩
    | popLower b | popTop b => simpa only [ho] using hok
    | popFn b t =>
      simp only [ho] at hok ⊢
      refine ⟨hok.1, hok.2.1, Nat.le_succ_of_le hok.2.2.1, fun htb => hapart b ?_⟩
      rw [ho]
      exact if_pos htb
    | popArg b t fn =>
      simp only [ho] at hok ⊢
      refine ⟨hok.1, hok.2.1, Nat.le_succ_of_le hok.2.2.1, fun htb => hapart b ?_, hok.2.2.2.2⟩
      rw [ho]
      exact if_pos htb
    | popCas b t task =>
      simp only [ho] at hok ⊢
      exact ⟨hok.1, hok.2.1, Nat.le_succ_of_le hok.2.2.1, hok.2.2.2⟩
    | popRaise b | popReset t =>
      simp only [ho, lowered, if_true] at hok hlt
      omega
  · exact fun u => (h.thief u).raise (fun t ht => (h.index u t ht).1) rfl
  · intro u t hu
    exact ⟨(hindex u t hu).le, fun heq => absurd heq (hindex u t hu).ne⟩

end Inv

/-! ## Every step keeps the invariant -/

lemma inv_thief {u : Tid} (h : Inv k s) (hs : thiefStep k s u = some s') : Inv k s' := by
  have hok := h.thief u
  have hindex := h.index u
  have hapart := h.apart u
  rw [thiefStep] at hs
  cases hpc : s.thief u with
  | idle => simp [hpc] at hs
  | stealBottom t =>
    simp only [hpc, Option.some.injEq] at hs hok
    subst hs
    have ht : t ≤ s.top := hok
    split
    · rename_i hlt
      refine h.moveThief trivial ?_ ?_
      · rintro t' ⟨⟩
        refine ⟨ht, fun _ => ?_⟩
        rw [limit]
        split <;> omega
      · -- what the owner takes is at `bottom` already
        rintro t' b ⟨⟩ hb
        rwa [h.owner.taken hb]
    · exact h.moveThief trivial (by rintro _ ⟨⟩) (by rintro _ _ ⟨⟩)
  | stealFn t =>
    simp only [hpc, Option.some.injEq] at hs hindex hapart
    subst hs
    exact h.moveThief (fun _ => by rw [slotOf_eq]) hindex hapart
  | stealArg t fn =>
    simp only [hpc, Option.some.injEq] at hs hok hindex hapart
    subst hs
    refine h.moveThief (fun ht => ?_) hindex hapart
    rw [slotOf_eq, hok ht]
  | stealCas t task =>
    simp only [hpc] at hs hok hindex hapart
    have hidle : Inv k (s.moveThief u .idle) :=
      h.moveThief trivial (by rintro _ ⟨⟩) (by rintro _ _ ⟨⟩)
    split at hs
    · rename_i htop
      cases hs
      subst htop
      rw [hok rfl]
      exact hidle.raise ((hindex _ rfl).2 rfl) (fun b hb => hapart _ b rfl hb)
    · cases hs
      exact hidle

lemma inv_owner (h : Inv k s) (hs : ownerStep k s = some s') : Inv k s' := by
  have hok := h.owner
  have hle := h.le
  have hfull := h.full
  rw [OwnerOk] at hok
  rw [ownerStep] at hs
  cases ho : s.owner with
  | idle => simp [ho] at hs
  | pushTop b task =>
    simp only [ho] at hs hok
    split at hs <;> cases hs
    · exact h.moveOwner' (by rw [ho]; rfl) trivial (by rintro _ ⟨⟩)
    · refine h.moveOwner' (by rw [ho]; rfl) ⟨hok, ?_⟩ (by rintro _ ⟨⟩)
      change b < s.top + 2 ^ k
      omega
  | pushFn b task =>
    simp only [ho, Option.some.injEq] at hs hok
    subst hs
    rw [slotOf_eq]
    refine h.store hok.1 hok.2 (by rw [ho]; rfl) rfl rfl ⟨hok.1, hok.2, ?_⟩
    simp
  | pushArg b task =>
    simp only [ho, Option.some.injEq] at hs hok
    subst hs
    rw [slotOf_eq]
    refine h.store hok.1 hok.2.1 (by rw [ho]; rfl) rfl rfl ⟨hok.1, hok.2.1, ?_⟩
    simp [hok.2.2]
  | pushBottom b task =>
    simp only [ho, Option.some.injEq] at hs
    subst hs
    exact h.push ho
  | popLower b =>
    simp only [ho, Option.some.injEq] at hs hok
    subst hs
    refine h.moveOwner ?_ rfl (by rintro _ ⟨⟩)
    simp [limit, lowered, ho, hok]
  | popTop b =>
    simp only [ho] at hs hok
    have hlimit : s.limit = b + 1 := by simp [limit, lowered, ho, hok]
    split at hs <;> cases hs
    · rename_i htop
      refine h.moveOwner' (by rw [ho]; rfl) ⟨hok, htop, le_rfl, fun _ => htop⟩ ?_
      intro c hc u t hu
      have ht := (h.index u t hu).1
      simp only [taken?, ite_none_right_eq_some, Option.some.injEq] at hc
      omega
    · rename_i htop
      refine h.moveOwner' (by rw [ho]; rfl) ⟨?_, rfl⟩ (by rintro _ ⟨⟩)
      change s.top = s.bottom + 1
      omega
  | popFn b t =>
    simp only [ho, Option.some.injEq] at hs hok
    subst hs
    refine h.moveOwner' (by rw [ho]; rfl)
      ⟨hok.1, hok.2.1, hok.2.2.1, hok.2.2.2, by rw [slotOf_eq]⟩ ?_
    intro c hc u t' hu
    exact h.apart u t' c hu (by rw [ho]; exact hc)
  | popArg b t fn =>
    simp only [ho] at hs hok
    rw [slotOf_eq] at hs
    split at hs <;> cases hs
    · rename_i htb
      refine h.moveOwner' (by rw [ho]; rfl) ⟨hok.1, htb, hok.2.2.1, ?_⟩ (by rintro _ ⟨⟩)
      rw [hok.2.2.2.2]
    · rename_i htb
      exact h.pop ho htb
  | popCas b t task =>
    simp only [ho] at hs hok
    split at hs <;> cases hs
    · rename_i htop
      exact h.popLast ho htop
    · rename_i htop
      refine h.moveOwner' (by rw [ho]; rfl) ⟨hok.1, ?_⟩ (by rintro _ ⟨⟩)
      have hlimit : s.limit = b + 1 := by simp [limit, lowered, ho, hok.1]
      change s.top = b + 1
      omega
  | popRaise b | popReset t =>
    simp only [ho, Option.some.injEq] at hs hok
    subst hs
    refine h.moveOwner ?_ trivial (by rintro _ ⟨⟩)
    simp [limit, lowered, ho, hok.1]

lemma inv_step {a : Act} (h : Inv k s) (hs : step k s a = some s') : Inv k s' := by
  cases a with
  | push task =>
    simp only [step, ite_none_right_eq_some, Option.some.injEq] at hs
    obtain ⟨ho, rfl⟩ := hs
    exact h.moveOwner' (by rw [ho]; rfl) rfl (by rintro _ ⟨⟩)
  | pop =>
    simp only [step, ite_none_right_eq_some] at hs
    obtain ⟨ho, hs⟩ := hs
    split at hs <;> cases hs
    · exact h
    · rename_i hb
      refine h.moveOwner' (by rw [ho]; rfl) ?_ (by rintro _ ⟨⟩)
      exact Nat.sub_add_cancel (Nat.pos_of_ne_zero hb)
  | owner => exact inv_owner h hs
  | steal u =>
    simp only [step, ite_none_right_eq_some, Option.some.injEq] at hs
    obtain ⟨-, rfl⟩ := hs
    exact h.moveThief (le_refl s.top) (by rintro _ ⟨⟩) (by rintro _ _ ⟨⟩)
  | thief u => exact inv_thief h hs
  | fail u =>
    simp only [step] at hs
    split at hs <;> cases hs
    exact h.moveThief trivial (by rintro _ ⟨⟩) (by rintro _ _ ⟨⟩)

/-! ## Every run -/

/-- In every interleaving of the owner's pushes and pops with any number of
steals, every task that was pushed is handed out at most once, as it was
pushed; what has not been handed out is in the deque; and the steals are in
the order of the pushes. -/
theorem deque_contract (h : (machine k).Reach s) : Contract k s := by
  have hinv : Inv k s :=
    h.invariant (Inv k) (fun _ => inv_start) fun _ _ _ hinv _ hs => inv_step hinv hs
  exact hinv.contract

/-- In a deque for two tasks, a third push is refused while a thief takes the
first task and the owner the second. -/
theorem deque_contract_once : ∃ s, (machine 1).Reach s ∧ s.stolen = [(0, ⟨7, 70⟩)] ∧
    s.popped = [(1, ⟨8, 80⟩)] ∧ Contract 1 s := by
  have h : (machine 1).Reach ⟨0, 0, fun _ => ⟨0, 0⟩, .idle, fun _ => .idle, [], fun _ => 0, [], []⟩ :=
    .init ⟨_, rfl⟩
  have h₁ := h.run (fun _ _ => true) (by simp) [.push ⟨7, 70⟩, .owner, .owner, .owner, .owner,
    .push ⟨8, 80⟩, .owner, .owner, .owner, .owner, .steal 3, .thief 3, .thief 3, .push ⟨9, 90⟩,
    .owner, .pop, .owner, .thief 3, .owner, .owner, .owner, .thief 3] rfl
  exact ⟨_, h₁, rfl, rfl, deque_contract h₁⟩

end Cobalt.Pool.Deque
