/-
Cobalt.Memory.EbrLists — the lists of retired nodes share no node.

`Shape s L` says that each place of a state holds the list `L` has for it
and that the lists are a partition of the nodes. Every step keeps this but
one: the section in which unregister moves the lists of a handle. The handle
can have a new owner by then, and if that owner is between reading the head
of a list and writing it back, it writes back nodes that are orphans now.
`Undisturbed` excludes this.
-/
import Cobalt.Memory.EbrOwners

namespace Cobalt.Memory.Ebr

open List Option
open Chained (some_iff none_iff walk_eq)

open Function (update update_self update_of_ne)

variable {s s' : State} {t u : Tid} {n : Nid}

/-! ## Stores to a list head -/

section SetLocal

variable {r r' : Hid} {slot slot' : Nat} {v : Option Nid}

lemma setLocal_self : (s.setLocal r slot v).localRetired r slot = v := by
  simp

lemma setLocal_of_ne (hne : Place.handle r' slot' ≠ .handle r slot) :
    (s.setLocal r slot v).localRetired r' slot' = s.localRetired r' slot' := by
  by_cases hr : r' = r
  · subst hr
    have hslot : slot' ≠ slot := fun heq => hne (by rw [heq])
    simp only [update_self, update_of_ne hslot]
  · simp only [update_of_ne hr]

lemma setLocal_of_handle_ne (hne : r' ≠ r) :
    (s.setLocal r slot v).localRetired r' slot' = s.localRetired r' slot' :=
  setLocal_of_ne fun heq => hne (Place.handle.inj heq).1

end SetLocal

/-! ## What a thread knows -/

/-- A node in hand and the link that has been read from it. -/
def Pc.read? : Pc → Option (Nid × Option Nid)
  | listFree n next _ | orphanEpoch _ _ n next _ | orphanFree _ _ n next _ => some (n, next)
  | orphanKeep _ _ n next _ => some (n, next)
  | _ => none

/-- What the owner of a handle has read of its lists. -/
def LocalOk (s : State) : Pc → Prop
  | .retirePush h n g => s.nodeNext n = s.localRetired h (g % 3)
  | .listClear h slot curr _ => curr = s.localRetired h slot
  | _ => True

lemma localOk_of_window {pc : Pc} (hw : pc.window? = none) : LocalOk s pc := by
  cases pc <;> trivial

/-- A list that ends at a tail whose own link does not count. -/
def Kept (next : Nid → Option Nid) : Option (Nid × Nid) → List Nid → Prop
  | none, xs => xs = []
  | some keep, xs =>
      Chained (update next keep.2 none) (some keep.1) xs ∧ xs.getLast? = some keep.2

@[simp] lemma kept_none {next : Nid → Option Nid} {xs : List Nid} :
    Kept next none xs ↔ xs = [] := Iff.rfl

/-- The lists of a thread. -/
structure ThreadOk (next : Nid → Option Nid) (pc : Pc) (L : Place → List Nid) (t : Tid) : Prop where
  held : Chained next pc.held (L (.held t))
  kept : Kept next pc.kept (L (.kept t))
  hand : L (.hand t) = pc.hand.toList
  read : ∀ n p, pc.read? = some (n, p) → next n = p

/-- Phases without a list. -/
structure Pc.Bare (pc : Pc) : Prop where
  held : pc.held = none
  kept : pc.kept = none
  hand : pc.hand = none
  read : pc.read? = none

/-! ## Loops -/

section Loops

variable (k : After) (slot limit g : Nat) (keep : Option (Nid × Nid)) (curr : Option Nid)
  (rest : List Hid)

@[simp] lemma held_listLoop : (listLoop k curr).held = curr := by
  cases curr <;> cases k <;> rfl

@[simp] lemma kept_listLoop : (listLoop k curr).kept = none := by
  cases curr <;> cases k <;> rfl

@[simp] lemma hand_listLoop : (listLoop k curr).hand = none := by
  cases curr <;> cases k <;> rfl

@[simp] lemma read_listLoop : (listLoop k curr).read? = none := by
  cases curr <;> cases k <;> rfl

lemma localOk_listLoop : LocalOk s (listLoop k curr) := by
  cases curr <;> cases k <;> trivial

@[simp] lemma held_orphanLoop : (orphanLoop slot limit keep curr).held = curr := by
  cases curr <;> cases keep <;> rfl

@[simp] lemma kept_orphanLoop : (orphanLoop slot limit keep curr).kept = keep := by
  cases curr <;> cases keep <;> rfl

@[simp] lemma hand_orphanLoop : (orphanLoop slot limit keep curr).hand = none := by
  cases curr <;> cases keep <;> rfl

@[simp] lemma read_orphanLoop : (orphanLoop slot limit keep curr).read? = none := by
  cases curr <;> cases keep <;> rfl

lemma localOk_orphanLoop : LocalOk s (orphanLoop slot limit keep curr) := by
  cases curr <;> cases keep <;> trivial

lemma bare_after : k.pc.Bare := by
  cases k <;> exact ⟨rfl, rfl, rfl, rfl⟩

lemma bare_advanceLoop : (advanceLoop g rest).Bare := by
  cases rest <;> exact ⟨rfl, rfl, rfl, rfl⟩

lemma bare_registerLoop : (registerLoop rest).Bare := by
  cases rest <;> exact ⟨rfl, rfl, rfl, rfl⟩

lemma localOk_after : LocalOk s k.pc := by
  cases k <;> trivial

lemma localOk_advanceLoop : LocalOk s (advanceLoop g rest) := by
  cases rest <;> trivial

lemma localOk_registerLoop : LocalOk s (registerLoop rest) := by
  cases rest <;> trivial

end Loops

/-! ## The invariant -/

structure Shape (s : State) (L : Place → List Nid) : Prop where
  part : Partition L (· < s.nodeCount)
  handle : ∀ h slot, Chained s.nodeNext (s.localRetired h slot) (L (.handle h slot))
  orphaned : ∀ slot, Chained s.nodeNext (s.orphanedRetired slot) (L (.orphaned slot))
  thread : ∀ t, ThreadOk s.nodeNext (s.pc t) L t
  freed : L .freed = s.freed
  retired : ∀ n ∈ s.retired, n < s.nodeCount ∧ ∀ t, n ∉ L (.hand t)
  links : ∀ t, LocalOk s (s.pc t)

lemma shape_start : Shape start fun _ => [] where
  part := ⟨fun _ => nodup_nil, fun _ _ _ h => absurd h not_mem_nil, by simp [start]⟩
  handle _ _ := rfl
  orphaned _ := rfl
  thread _ := ⟨rfl, rfl, rfl, by rintro _ _ ⟨⟩⟩
  freed := rfl
  retired := by simp [start]
  links _ := trivial

/-! ## Where nodes can go -/

/-- Nodes have gone from `p` to `q` and nowhere else. -/
def Flow (L L' : Place → List Nid) (p q : Place) : Prop :=
  ∀ r n, n ∈ L' r → n ∈ L r ∨ (r = q ∧ n ∈ L p)

/-- The places between which the next step of thread `t` moves nodes. -/
def Edge (s : State) (t : Tid) (p q : Place) : Prop :=
  match s.pc t with
  | .retirePush h _ g => p = .hand t ∧ q = .handle h (g % 3)
  | .listClear h slot _ _ => p = .handle h slot ∧ q = .held t
  | .listFree _ _ _ | .orphanFree _ _ _ _ _ => p = .held t ∧ q = .freed
  | .orphanTake slot _ => p = .orphaned slot ∧ q = .held t
  | .orphanEpoch _ _ _ _ _ | .orphanKeep _ _ _ _ _ => p = .held t ∧ q = .kept t
  | .orphanReturn slot _ => p = .kept t ∧ q = .orphaned slot
  | .registerSplice h | .unregisterSplice h => ∃ slot, p = .handle h slot ∧ q = .orphaned slot
  | _ => False

/-- Nodes have gone only where the next step of thread `t` moves them. -/
def Moves (s : State) (t : Tid) (L L' : Place → List Nid) : Prop :=
  ∀ q n, n ∈ L' q → n ∈ L q ∨ ∃ p, Edge s t p q ∧ n ∈ L p

lemma Flow.moves {L L' : Place → List Nid} {p q : Place} (hf : Flow L L' p q)
    (he : Edge s t p q) : Moves s t L L' := by
  intro r n hn
  rcases hf r n hn with hn | ⟨rfl, hn⟩
  · exact .inl hn
  · exact .inr ⟨p, he, hn⟩

lemma moves_refl (L : Place → List Nid) : Moves s t L L := fun _ _ => .inl

/-! ## Threads that do not move -/

/-- The thread whose list it is. -/
def Place.thread? : Place → Option Tid
  | held t | kept t | hand t => some t
  | _ => none

/-- What thread `u` works with is the same in both states. -/
structure Frame (s s' : State) (L L' : Place → List Nid) (u : Tid) : Prop where
  lists : ∀ p, p.thread? = some u → L' p = L p
  next : ∀ p n, p.thread? = some u → n ∈ L p → s'.nodeNext n = s.nodeNext n
  window : ∀ h slot, (s.pc u).window? = some (h, slot) →
    s'.localRetired h slot = s.localRetired h slot

variable {L L' : Place → List Nid} {x : Pc}

variable {p : Option Nid}

lemma ThreadOk.read_held {next : Nid → Option Nid} {pc : Pc} (h : ThreadOk next pc L t)
    (hread : pc.read? = some (n, p)) : n ∈ L (.held t) := by
  have hn : pc.held = some n := by
    cases pc <;> simp_all [Pc.read?, Pc.held]
  have hheld := h.held
  rw [hn] at hheld
  obtain ⟨rest, hrest, -⟩ := some_iff.mp hheld
  simp [hrest]

lemma Frame.threadOk (hf : Frame s s' L L' u) (h : ThreadOk s.nodeNext (s.pc u) L u) :
    ThreadOk s'.nodeNext (s.pc u) L' u where
  held := by
    rw [hf.lists _ rfl]
    exact h.held.congr fun n hn => hf.next _ n rfl hn
  kept := by
    have hk := h.kept
    rw [hf.lists _ rfl]
    cases hpc : (s.pc u).kept with
    | none =>
      rw [hpc] at hk
      exact hk
    | some keep =>
      rw [hpc] at hk
      refine ⟨hk.1.congr fun n hn => ?_, hk.2⟩
      by_cases heq : n = keep.2
      · rw [heq, update_self, update_self]
      · rw [update_of_ne heq, update_of_ne heq]
        exact hf.next _ n rfl hn
  hand := by
    rw [hf.lists _ rfl]
    exact h.hand
  read n p hread := by
    rw [hf.next _ n rfl (h.read_held hread), h.read n p hread]

lemma Frame.localOk (hf : Frame s s' L L' u) (h : ThreadOk s.nodeNext (s.pc u) L u)
    (hl : LocalOk s (s.pc u)) : LocalOk s' (s.pc u) := by
  have hlocal := hf.window
  have hnext : ∀ n, (s.pc u).hand = some n → s'.nodeNext n = s.nodeNext n := by
    intro n hn
    refine hf.next (.hand u) n rfl ?_
    simp [h.hand, hn]
  cases hpc : s.pc u <;> rw [hpc] at hl hlocal hnext <;> try trivial
  · rw [LocalOk, hnext _ rfl, hlocal _ _ rfl]
    exact hl
  · rw [LocalOk, hlocal _ _ rfl]
    exact hl

/-- What the lists of retired nodes are made of. -/
def State.lists (s : State) :=
  (s.nodeCount, s.localRetired, s.orphanedRetired, s.nodeNext, s.retired, s.freed)

namespace Shape

variable (h : Shape s L)

include h

/-- A step of thread `t` that moves nodes. -/
lemma relink (hpc : s'.pc = update s.pc t x)
    (hframe : ∀ u, u ≠ t → Frame s s' L L' u) (hpart : Partition L' (· < s'.nodeCount))
    (hhandle : ∀ h slot, Chained s'.nodeNext (s'.localRetired h slot) (L' (.handle h slot)))
    (horphaned : ∀ slot, Chained s'.nodeNext (s'.orphanedRetired slot) (L' (.orphaned slot)))
    (hthread : ThreadOk s'.nodeNext x L' t) (hfreed : L' .freed = s'.freed)
    (hretired : ∀ n ∈ s'.retired, n < s'.nodeCount ∧ ∀ u, n ∉ L' (.hand u))
    (hlinks : LocalOk s' x) : Shape s' L' where
  part := hpart
  handle := hhandle
  orphaned := horphaned
  thread u := by
    rw [hpc]
    by_cases hu : u = t
    · subst hu
      rw [update_self]
      exact hthread
    · rw [update_of_ne hu]
      exact (hframe u hu).threadOk (h.thread u)
  freed := hfreed
  retired := hretired
  links u := by
    rw [hpc]
    by_cases hu : u = t
    · subst hu
      rw [update_self]
      exact hlinks
    · rw [update_of_ne hu]
      exact (hframe u hu).localOk (h.thread u) (h.links u)

/-- A step of thread `t` that moves no node: its lists stay as they are. -/
lemma quiet (hpc : s'.pc = update s.pc t x) (hsame : s'.lists = s.lists)
    (hheld : x.held = (s.pc t).held) (hkept : x.kept = (s.pc t).kept)
    (hhand : x.hand = (s.pc t).hand) (hread : ∀ n p, x.read? = some (n, p) → s.nodeNext n = p)
    (hok : LocalOk s' x) : Shape s' L := by
  simp only [State.lists, Prod.mk.injEq] at hsame
  obtain ⟨hcount, hlocal, horphaned, hnext, hretired, hfreed⟩ := hsame
  have hthread := h.thread t
  refine h.relink hpc (fun u _ => ⟨fun _ _ => rfl, fun _ _ _ _ => by rw [hnext], fun _ _ _ => by
    rw [hlocal]⟩) (hcount ▸ h.part) ?_ ?_ ?_ (hfreed ▸ h.freed) ?_ hok
  · rw [hnext, hlocal]
    exact h.handle
  · rw [hnext, horphaned]
    exact h.orphaned
  · rw [hnext]
    exact ⟨hheld ▸ hthread.held, hkept ▸ hthread.kept, hhand ▸ hthread.hand, hread⟩
  · rw [hretired, hcount]
    exact h.retired

/-- A step between phases that have no list. -/
lemma bare (hpc : s'.pc = update s.pc t x) (hsame : s'.lists = s.lists) (hold : (s.pc t).Bare)
    (hx : x.Bare) (hok : LocalOk s' x) : Shape s' L :=
  h.quiet hpc hsame (hx.held.trans hold.held.symm) (hx.kept.trans hold.kept.symm)
    (hx.hand.trans hold.hand.symm) (by simp [hx.read]) hok

lemma alloc {r : Hid} (hpc : s.pc t = .idle) :
    Shape (({ s with nodeCount := s.nodeCount + 1 } : State).move t (.retireLoad r s.nodeCount))
      (update L (.hand t) [s.nodeCount]) := by
  obtain ⟨hheld, hkept, hhand, -⟩ := hpc ▸ h.thread t
  have hne : ∀ p, p ≠ .hand t → update L (.hand t) [s.nodeCount] p = L p :=
    fun p hp => update_of_ne hp ..
  refine h.relink (t := t) rfl (fun u hu => ?_) ?_ ?_ ?_ ?_ ?_ ?_ trivial
  · refine ⟨fun p hp => hne p ?_, fun _ _ _ _ => rfl, fun _ _ _ => rfl⟩
    rintro rfl
    exact hu (Option.some.inj hp).symm
  · exact h.part.add hhand (lt_irrefl _) fun y => Nat.lt_succ_iff_lt_or_eq
  · exact fun r slot => by rw [hne _ (by simp)]; exact h.handle r slot
  · exact fun slot => by rw [hne _ (by simp)]; exact h.orphaned slot
  · refine ⟨?_, ?_, update_self .., by rintro _ _ ⟨⟩⟩
    · rw [hne _ (by simp)]
      exact hheld
    · rw [hne _ (by simp)]
      exact hkept
  · rw [hne _ (by simp)]
    exact h.freed
  · intro n hn
    obtain ⟨hlt, hhand⟩ := h.retired n hn
    refine ⟨Nat.lt_succ_of_lt hlt, fun u => ?_⟩
    by_cases hu : u = t
    · subst hu
      simp only [update_self, mem_singleton]
      exact hlt.ne
    · rw [hne _ (by simpa using hu)]
      exact hhand u

/-- Nodes move between two lists, each of which is the thread's own or shared. -/
lemma transfer {p q : Place} {v w : List Nid} (hpc : s'.pc = update s.pc t x) (hne : p ≠ q)
    (hsub : v ⊆ L p) (hperm : (v ++ w).Perm (L p ++ L q)) (hcount : s'.nodeCount = s.nodeCount)
    (hp : p.thread? = none ∨ p.thread? = some t) (hq : q.thread? = none ∨ q.thread? = some t)
    (hnext : ∀ P n, P ≠ p → P ≠ q → n ∈ L P → s'.nodeNext n = s.nodeNext n)
    (hlocal : ∀ r slot, .handle r slot ≠ p → .handle r slot ≠ q →
      s'.localRetired r slot = s.localRetired r slot)
    (horphaned : ∀ slot, .orphaned slot ≠ p → .orphaned slot ≠ q →
      s'.orphanedRetired slot = s.orphanedRetired slot)
    (hxs : p.thread? = none → p ≠ .freed → Chained s'.nodeNext (s'.headAt p) v)
    (hys : q.thread? = none → q ≠ .freed → Chained s'.nodeNext (s'.headAt q) w)
    (hwindow : ∀ u, u ≠ t → ∀ r slot, (s.pc u).window? = some (r, slot) →
      s'.localRetired r slot = s.localRetired r slot)
    (hthread : ThreadOk s'.nodeNext x (update (update L p v) q w) t)
    (hfreed : update (update L p v) q w .freed = s'.freed)
    (hretired : ∀ n ∈ s'.retired, n < s.nodeCount ∧ ∀ u, n ∉ update (update L p v) q w (.hand u))
    (hlinks : LocalOk s' x) :
    Shape s' (update (update L p v) q w) ∧ Flow L (update (update L p v) q w) p q := by
  have hat : ∀ P, P ≠ p → P ≠ q → update (update L p v) q w P = L P := by
    intro P hp hq
    rw [update_of_ne hq, update_of_ne hp]
  have hhead : ∀ P, P.thread? = none → P ≠ .freed → P ≠ p → P ≠ q → s'.headAt P = s.headAt P := by
    intro P hP hf
    cases P with
    | handle r slot => exact hlocal r slot
    | orphaned slot => exact horphaned slot
    | freed => exact absurd rfl hf
    | _ => cases hP
  -- the lists that are in nobody's hands
  have hshared : ∀ P, P.thread? = none → P ≠ .freed → Chained s.nodeNext (s.headAt P) (L P) →
      Chained s'.nodeNext (s'.headAt P) (update (update L p v) q w P) := by
    intro P hP hf hold
    by_cases hPq : P = q
    · subst hPq
      rw [update_self]
      exact hys hP hf
    · by_cases hPp : P = p
      · subst hPp
        rw [update_of_ne hPq, update_self]
        exact hxs hP hf
      · rw [hat P hPp hPq, hhead P hP hf hPp hPq]
        exact hold.congr fun n hn => hnext P n hPp hPq hn
  have hother : ∀ u, u ≠ t → ∀ P, P.thread? = some u → P ≠ p ∧ P ≠ q := by
    intro u hu P hP
    constructor
    · rintro rfl
      rcases hp with hp | hp <;> rw [hP] at hp <;> cases hp
      exact hu rfl
    · rintro rfl
      rcases hq with hq | hq <;> rw [hP] at hq <;> cases hq
      exact hu rfl
  refine ⟨h.relink hpc (fun u hu => ⟨?_, ?_, hwindow u hu⟩) ?_ ?_ ?_ hthread hfreed ?_ hlinks,
    fun r n hn => ?_⟩
  · exact fun P hP => hat P (hother u hu P hP).1 (hother u hu P hP).2
  · exact fun P n hP hn => hnext P n (hother u hu P hP).1 (hother u hu P hP).2 hn
  · rw [hcount]
    exact h.part.move hne hperm
  · exact fun r slot => hshared (.handle r slot) rfl (by simp) (h.handle r slot)
  · exact fun slot => hshared (.orphaned slot) rfl (by simp) (h.orphaned slot)
  · rw [hcount]
    exact hretired
  · by_cases hrq : r = q
    · subst hrq
      rw [update_self] at hn
      have hfrom := mem_append.mp (hperm.mem_iff.mp (mem_append_right v hn))
      exact hfrom.symm.imp_right fun hn => ⟨rfl, hn⟩
    · by_cases hrp : r = p
      · subst hrp
        rw [update_of_ne hrq, update_self] at hn
        exact .inl (hsub hn)
      · exact .inl (hat r hrp hrq ▸ hn)

lemma push (ho : Owned s) {r : Hid} {g : Nat} (hpc : s.pc t = .retirePush r n g) :
    ∃ L', Shape (((s.setLocal r (g % 3) (some n)).logRetired n).move t (.retireCount r g)) L' ∧
      Flow L L' (.hand t) (.handle r (g % 3)) := by
  obtain ⟨hheld, hkept, hhand, -⟩ := hpc ▸ h.thread t
  have hlink : s.nodeNext n = s.localRetired r (g % 3) := by
    have := h.links t
    rwa [hpc] at this
  have howner : s.owner r = some t := ho.owner t r (by rw [hpc]; rfl)
  have hlt : n < s.nodeCount := (h.part.mem_iff n).mp ⟨.hand t, by rw [hhand]; simp [Pc.hand]⟩
  refine ⟨_, h.transfer (t := t) (v := []) (w := n :: L (.handle r (g % 3))) rfl (by simp)
    (by simp) ?_ rfl (.inr rfl) (.inl rfl) (fun _ _ _ _ _ => rfl) (fun _ _ _ => setLocal_of_ne)
    (fun _ _ _ => rfl) (by rintro ⟨⟩) ?_ ?_ ?_ ?_ ?_ trivial⟩
  · rw [hhand]
    exact List.Perm.refl _
  · intro _ _
    refine ⟨setLocal_self, ?_⟩
    rw [hlink]
    exact h.handle r (g % 3)
  · exact fun u hu r' slot hw => setLocal_of_handle_ne (ho.window_ne howner hu hw)
  · refine ⟨?_, ?_, ?_, by rintro _ _ ⟨⟩⟩
    · simpa [Pc.held] using hheld
    · simpa [Pc.kept] using hkept
    · simp [Pc.hand]
  · simpa using h.freed
  · intro m hm
    rcases mem_append.mp hm with hm | hm
    · obtain ⟨hlt, hno⟩ := h.retired m hm
      refine ⟨hlt, fun u => ?_⟩
      by_cases hu : u = t
      · simp [hu]
      · simpa [hu] using hno u
    · obtain rfl := mem_singleton.mp hm
      refine ⟨hlt, fun u => ?_⟩
      by_cases hu : u = t
      · simp [hu]
      · have hm : m ∈ L (.hand t) := by rw [hhand]; simp [Pc.hand]
        simpa [hu] using h.part.not_mem (q := .hand u) hm (by simpa using hu)

lemma link {r : Hid} {g : Nat} (hpc : s.pc t = .retireLink r n g) :
    Shape ((s.setNext n (s.localRetired r (g % 3))).move t (.retirePush r n g)) L := by
  obtain ⟨hheld, hkept, hhand, -⟩ := hpc ▸ h.thread t
  replace hheld : L (.held t) = [] := none_iff.mp hheld
  have hn : n ∈ L (.hand t) := by rw [hhand]; simp [Pc.hand]
  have hnext : ∀ P m, P ≠ .hand t → m ∈ L P →
      update s.nodeNext n (s.localRetired r (g % 3)) m = s.nodeNext m := by
    intro P m hP hm
    exact update_of_ne (ne_of_mem_of_not_mem hm (h.part.not_mem hn hP)) ..
  refine h.relink (t := t) rfl (fun u hu => ⟨fun _ _ => rfl, ?_, fun _ _ _ => rfl⟩) h.part ?_ ?_ ?_
    h.freed h.retired ?_
  · intro P m hP hm
    refine hnext P m ?_ hm
    rintro rfl
    exact hu (Option.some.inj hP).symm
  · exact fun r slot => (h.handle r slot).congr fun m hm => hnext _ m (by simp) hm
  · exact fun slot => (h.orphaned slot).congr fun m hm => hnext _ m (by simp) hm
  · exact ⟨hheld ▸ rfl, hkept, hhand, by rintro _ _ ⟨⟩⟩
  · exact update_self ..

lemma clear (ho : Owned s) {r : Hid} {slot : Nat} {curr : Option Nid} {k : After}
    (hpc : s.pc t = .listClear r slot curr k) :
    ∃ L', Shape ((s.setLocal r slot none).move t (listLoop k curr)) L' ∧
      Flow L L' (.handle r slot) (.held t) := by
  obtain ⟨hheld, hkept, hhand, -⟩ := hpc ▸ h.thread t
  have hcurr : curr = s.localRetired r slot := by
    have := h.links t
    rwa [hpc] at this
  have howner : s.owner r = some t := ho.owner t r (by rw [hpc]; rfl)
  replace hheld : L (.held t) = [] := none_iff.mp hheld
  replace hkept : L (.kept t) = [] := hkept
  replace hhand : L (.hand t) = [] := hhand
  refine ⟨_, h.transfer (t := t) (v := []) (w := L (.handle r slot)) rfl (by simp) (by simp) ?_ rfl
    (.inl rfl) (.inr rfl) (fun _ _ _ _ _ => rfl) (fun _ _ hne _ => setLocal_of_ne hne)
    (fun _ _ _ => rfl) ?_ (by rintro ⟨⟩) ?_ ?_ ?_ ?_ (localOk_listLoop ..)⟩
  · rw [hheld, append_nil, nil_append]
  · exact fun _ _ => setLocal_self
  · exact fun u hu r' slot hw => setLocal_of_handle_ne (ho.window_ne howner hu hw)
  · refine ⟨?_, ?_, ?_, by simp⟩
    · simpa [hcurr] using h.handle r slot
    · simpa using hkept
    · simpa using hhand
  · simpa using h.freed
  · simpa using h.retired

lemma free (hheld : (s.pc t).held = some n) (hread : (s.pc t).read? = some (n, p))
    (hx : x.held = p) (hkept : x.kept = (s.pc t).kept) (hhand : x.hand = (s.pc t).hand)
    (hread' : x.read? = none) (hlocal : ∀ s, LocalOk s x) :
    ∃ L', Shape ((s.logFreed n).move t x) L' ∧ Flow L L' (.held t) .freed := by
  have hok := h.thread t
  obtain ⟨rest, hlist, hrest⟩ := some_iff.mp (hheld ▸ hok.held)
  rw [hok.read n p hread] at hrest
  refine ⟨_, h.transfer (t := t) (v := rest) (w := L .freed ++ [n]) rfl (by simp) (by simp [hlist])
    ?_ rfl (.inr rfl) (.inl rfl) (fun _ _ _ _ _ => rfl) (fun _ _ _ _ => rfl) (fun _ _ _ => rfl)
    (by rintro ⟨⟩) (fun _ hne => absurd rfl hne) (fun _ _ _ _ _ => rfl) ?_ ?_ ?_ (hlocal _)⟩
  · rw [hlist, ← append_assoc]
    exact perm_append_singleton .. |>.trans (by simp)
  · refine ⟨?_, ?_, ?_, by simp [hread']⟩
    · simpa [hx] using hrest
    · simpa [hkept] using hok.kept
    · simpa [hhand] using hok.hand
  · simp [h.freed]
  · simpa using h.retired

lemma take {slot limit : Nat} (hpc : s.pc t = .orphanTake slot limit) :
    ∃ L', Shape ((s.setOrphaned slot none).move t
      (orphanLoop slot limit none (s.orphanedRetired slot))) L' ∧
      Flow L L' (.orphaned slot) (.held t) := by
  obtain ⟨hheld, hkept, hhand, -⟩ := hpc ▸ h.thread t
  replace hheld : L (.held t) = [] := none_iff.mp hheld
  replace hkept : L (.kept t) = [] := hkept
  replace hhand : L (.hand t) = [] := hhand
  refine ⟨_, h.transfer (t := t) (v := []) (w := L (.orphaned slot)) rfl (by simp) (by simp) ?_ rfl
    (.inl rfl) (.inr rfl) (fun _ _ _ _ _ => rfl) (fun _ _ _ _ => rfl)
    (fun _ hne _ => update_of_ne (fun heq => hne (by rw [heq])) ..) ?_ (by rintro ⟨⟩)
    (fun _ _ _ _ _ => rfl) ?_ ?_ ?_ (localOk_orphanLoop ..)⟩
  · rw [hheld, append_nil, nil_append]
  · exact fun _ _ => update_self ..
  · refine ⟨?_, ?_, ?_, by simp⟩
    · simpa using h.orphaned slot
    · simpa using hkept
    · simpa using hhand
  · simpa using h.freed
  · simpa using h.retired

lemma keepFirst {slot limit : Nat} (hpc : s.pc t = .orphanEpoch slot limit n p none) :
    ∃ L', Shape (s.move t (orphanLoop slot limit (some (n, n)) p)) L' ∧
      Flow L L' (.held t) (.kept t) := by
  obtain ⟨hheld, hkept, hhand, hread⟩ := hpc ▸ h.thread t
  obtain ⟨rest, hlist, hrest⟩ := some_iff.mp hheld
  rw [hread n p rfl] at hrest
  replace hkept : L (.kept t) = [] := hkept
  replace hhand : L (.hand t) = [] := hhand
  refine ⟨_, h.transfer (t := t) (v := rest) (w := [n]) rfl (by simp) (by simp [hlist]) ?_ rfl
    (.inr rfl) (.inr rfl) (fun _ _ _ _ _ => rfl) (fun _ _ _ _ => rfl) (fun _ _ _ => rfl)
    (by rintro ⟨⟩) (by rintro ⟨⟩) (fun _ _ _ _ _ => rfl) ?_ ?_ ?_ (localOk_orphanLoop ..)⟩
  · rw [hlist, hkept, append_nil]
    exact perm_append_singleton ..
  · refine ⟨?_, ?_, ?_, by simp⟩
    · simpa using hrest
    · simp [Kept]
    · simpa using hhand
  · simpa using h.freed
  · simpa using h.retired

/-- A further node is linked to the tail of what is kept. -/
lemma keepNext {slot limit : Nat} {keep : Nid × Nid}
    (hpc : s.pc t = .orphanKeep slot limit n p keep) :
    ∃ L', Shape ((s.setNext keep.2 (some n)).move t
      (orphanLoop slot limit (some (keep.1, n)) p)) L' ∧ Flow L L' (.held t) (.kept t) := by
  obtain ⟨hheld, ⟨hchain, hlast⟩, hhand, hread⟩ := hpc ▸ h.thread t
  obtain ⟨rest, hlist, hrest⟩ := some_iff.mp hheld
  rw [hread n p rfl] at hrest
  replace hhand : L (.hand t) = [] := hhand
  have htail : keep.2 ∈ L (.kept t) := mem_of_getLast? hlast
  have hn : n ∈ L (.held t) := by simp [hlist]
  have hnkept : n ∉ L (.kept t) := h.part.not_mem hn (by simp)
  have hne : n ≠ keep.2 := (ne_of_mem_of_not_mem htail hnkept).symm
  have hnext : ∀ P m, P ≠ .kept t → m ∈ L P →
      update s.nodeNext keep.2 (some n) m = s.nodeNext m := by
    intro P m hP hm
    exact update_of_ne (ne_of_mem_of_not_mem hm (h.part.not_mem htail hP)) ..
  refine ⟨_, h.transfer (t := t) (v := rest) (w := L (.kept t) ++ [n]) rfl (by simp)
    (by simp [hlist]) ?_ rfl (.inr rfl) (.inr rfl) (fun P m _ hP hm => hnext P m hP hm)
    (fun _ _ _ _ => rfl) (fun _ _ _ => rfl) (by rintro ⟨⟩) (by rintro ⟨⟩) (fun _ _ _ _ _ => rfl)
    ?_ ?_ ?_ (localOk_orphanLoop ..)⟩
  · rw [hlist, ← append_assoc]
    exact perm_append_singleton ..
  · refine ⟨?_, ?_, ?_, by simp⟩
    · simp only [held_orphanLoop, ne_eq, reduceCtorEq, not_false_eq_true, update_of_ne, update_self]
      exact hrest.congr fun m hm => hnext (.held t) m (by simp) (by simp [hlist, hm])
    · -- the old tail is linked to the node, whose own link does not count
      have heq : update (update s.nodeNext keep.2 (some n)) n none
          = update (update (update s.nodeNext keep.2 none) n none)
            keep.2 (some n) := by
        rw [Function.update_comm hne, Function.update_idem]
      rw [kept_orphanLoop, update_self]
      refine ⟨?_, by simp⟩
      simp only [heq]
      refine (hchain.write hnkept).append (h.part.nodup _) hlast ⟨rfl, ?_⟩
      rw [update_of_ne hne, update_self]
      rfl
    · simpa using hhand
  · simpa using h.freed
  · simpa using h.retired

lemma giveBack {slot : Nat} {keep : Nid × Nid} (hpc : s.pc t = .orphanReturn slot keep) :
    ∃ L', Shape (((s.setNext keep.2 (s.orphanedRetired slot)).setOrphaned slot
      (some keep.1)).move t .idle) L' ∧ Flow L L' (.kept t) (.orphaned slot) := by
  obtain ⟨hheld, ⟨hchain, hlast⟩, hhand, -⟩ := hpc ▸ h.thread t
  replace hheld : L (.held t) = [] := none_iff.mp hheld
  have htail : keep.2 ∈ L (.kept t) := mem_of_getLast? hlast
  have hnext : ∀ P m, P ≠ .kept t → m ∈ L P →
      update s.nodeNext keep.2 (s.orphanedRetired slot) m = s.nodeNext m := by
    intro P m hP hm
    exact update_of_ne (ne_of_mem_of_not_mem hm (h.part.not_mem htail hP)) ..
  refine ⟨_, h.transfer (t := t) (v := []) rfl (by simp) (by simp) (List.Perm.refl _) rfl (.inr rfl)
    (.inl rfl) (fun P m hP _ hm => hnext P m hP hm) (fun _ _ _ _ => rfl)
    (fun _ _ hne => update_of_ne (fun heq => hne (by rw [heq])) ..)
    (by rintro ⟨⟩) ?_ (fun _ _ _ _ _ => rfl) ?_ ?_ ?_ trivial⟩
  · intro _ _
    have hidem : update (update s.nodeNext keep.2 none) keep.2
        (s.orphanedRetired slot) = update s.nodeNext keep.2 (s.orphanedRetired slot) :=
      Function.update_idem ..
    have hrest : Chained (update s.nodeNext keep.2 (s.orphanedRetired slot))
        (s.orphanedRetired slot) (L (.orphaned slot)) :=
      (h.orphaned slot).congr fun m hm => hnext _ m (by simp) hm
    have happ := hchain.append (h.part.nodup _) hlast (hidem ▸ hrest)
    rw [hidem] at happ
    have hhead : (((s.setNext keep.2 (s.orphanedRetired slot)).setOrphaned slot
        (some keep.1)).move t .idle).headAt (.orphaned slot) = some keep.1 := update_self ..
    rw [hhead]
    exact happ
  · refine ⟨?_, ?_, ?_, by rintro _ _ ⟨⟩⟩
    · simp [Pc.held, hheld]
    · simp [Pc.kept]
    · simpa [Pc.hand] using hhand
  · simpa using h.freed
  · simpa using h.retired

lemma length_le (p : Place) : (L p).length ≤ s.nodeCount := by
  have hsub : L p ⊆ List.range s.nodeCount := by
    intro n hn
    exact mem_range.mpr ((h.part.mem_iff n).mp ⟨p, hn⟩)
  have := (subperm_of_subset (h.part.nodup p) hsub).length_le
  rwa [length_range] at this

/-- A list of a handle goes to the orphans, while nobody is in its window. -/
lemma spliceSlot {r : Hid} (slot : Nat) (hpc : (s.pc t).window? = none)
    (hclear : ∀ u, u ≠ t → (s.pc u).window? = some (r, slot) → s.localRetired r slot = none) :
    ∃ s' L', s.spliceSlot r slot = some s' ∧ Shape s' L' ∧
      Flow L L' (.handle r slot) (.orphaned slot) ∧
      ∀ slot', slot' ≠ slot → s'.localRetired r slot' = s.localRetired r slot' := by
  have hhandle := h.handle r slot
  cases hlocal : s.localRetired r slot with
  | none =>
    exact ⟨s, L, by simp [State.spliceSlot, hlocal], h, fun _ _ => .inl, fun _ _ => rfl⟩
  | some n =>
    rw [hlocal] at hhandle
    obtain ⟨rest, hlist, -⟩ := some_iff.mp hhandle
    obtain ⟨tail, htail⟩ : ∃ tail, (L (.handle r slot)).getLast? = some tail :=
      isSome_iff_exists.mp (by simp [hlist])
    have hlast : lastOf s.nodeNext s.nodeCount n = some tail := by
      rw [hhandle.lastOf_eq (h.length_le _), htail]
    have hmem : tail ∈ L (.handle r slot) := mem_of_getLast? htail
    have hnext : ∀ P m, P ≠ .handle r slot → m ∈ L P →
        update s.nodeNext tail (s.orphanedRetired slot) m = s.nodeNext m := by
      intro P m hP hm
      exact update_of_ne (ne_of_mem_of_not_mem hm (h.part.not_mem hmem hP)) ..
    refine ⟨((s.setNext tail (s.orphanedRetired slot)).setOrphaned slot (some n)).setLocal r slot
        none, _, by simp [State.spliceSlot, hlocal, hlast], and_assoc.mp ⟨
      h.transfer (t := t) (x := s.pc t) (p := .handle r slot) (q := .orphaned slot) (v := [])
        (Function.update_eq_self ..).symm (by simp) (by simp) (List.Perm.refl _) rfl (.inl rfl)
        (.inl rfl) (fun P m hP _ hm => hnext P m hP hm) (fun _ _ hne _ => setLocal_of_ne hne)
        (fun _ _ hne => update_of_ne (fun heq => hne (by rw [heq])) ..)
        ?_ ?_ ?_ ?_ ?_ ?_ ?_, ?_⟩⟩
    · exact fun _ _ => setLocal_self
    · intro _ _
      have hhead : (((s.setNext tail (s.orphanedRetired slot)).setOrphaned slot (some n)).setLocal r
          slot none).headAt (.orphaned slot) = some n := update_self ..
      rw [hhead]
      exact hhandle.append (h.part.nodup _) htail
        ((h.orphaned slot).congr fun m hm => hnext _ m (by simp) hm)
    · intro u hu r' slot' hw
      by_cases heq : Place.handle r' slot' = .handle r slot
      · cases heq
        rw [hclear u hu hw] at hlocal
        cases hlocal
      · exact setLocal_of_ne heq
    · refine Frame.threadOk (s := s) (L := L) ⟨?_, ?_, ?_⟩ (h.thread t)
      · intro P hP
        rw [update_of_ne, update_of_ne] <;> rintro rfl <;> cases hP
      · intro P m hP hm
        refine hnext P m ?_ hm
        rintro rfl
        cases hP
      · intro r' slot' hw
        rw [hpc] at hw
        cases hw
    · simpa using h.freed
    · simpa using h.retired
    · exact localOk_of_window hpc
    · exact fun slot' hne => setLocal_of_ne (by simpa using hne)

/-- The section of register and unregister. -/
lemma splice {r : Hid} (hpc : (s.pc t).window? = none)
    (hclear : ∀ u slot, u ≠ t → (s.pc u).window? = some (r, slot) → s.localRetired r slot = none)
    (hs : s.splice r = some s') :
    ∃ L', Shape s' L' ∧ ∀ q n, n ∈ L' q →
      n ∈ L q ∨ ∃ slot, q = .orphaned slot ∧ n ∈ L (.handle r slot) := by
  obtain ⟨s1, L1, hs1, h1, hf1, hl1⟩ := h.spliceSlot 0 hpc fun u => hclear u 0
  have hpc1 := (sameHandles_spliceSlot hs1).pc
  obtain ⟨s2, L2, hs2, h2, hf2, hl2⟩ := h1.spliceSlot (t := t) (r := r) 1
    (by rwa [hpc1]) (by
      intro u hu hw
      rw [hpc1] at hw
      rw [hl1 1 (by decide)]
      exact hclear u 1 hu hw)
  have hpc2 := (sameHandles_spliceSlot hs2).pc
  obtain ⟨s3, L3, hs3, h3, hf3, -⟩ := h2.spliceSlot (t := t) (r := r) 2
    (by rwa [hpc2, hpc1]) (by
      intro u hu hw
      rw [hpc2, hpc1] at hw
      rw [hl2 2 (by decide), hl1 2 (by decide)]
      exact hclear u 2 hu hw)
  simp only [State.splice, hs1, hs2, hs3, bind_eq_bind, bind_some, Option.some.injEq] at hs
  subst hs
  -- no list of a handle has got a node
  have hback1 : ∀ slot n, n ∈ L1 (.handle r slot) → n ∈ L (.handle r slot) := by
    intro slot n hn
    exact (hf1 _ n hn).elim id (by rintro ⟨⟨⟩, -⟩)
  have hback2 : ∀ slot n, n ∈ L2 (.handle r slot) → n ∈ L (.handle r slot) := by
    intro slot n hn
    exact (hf2 _ n hn).elim (hback1 slot n) (by rintro ⟨⟨⟩, -⟩)
  refine ⟨L3, { h3 with }, fun q n hn => ?_⟩
  rcases hf3 q n hn with hn2 | ⟨hq, hn2⟩
  · rcases hf2 q n hn2 with hn1 | ⟨hq, hn1⟩
    · rcases hf1 q n hn1 with hn0 | ⟨hq, hn0⟩
      · exact .inl hn0
      · exact .inr ⟨0, hq, hn0⟩
    · exact .inr ⟨1, hq, hback1 1 n hn1⟩
  · exact .inr ⟨2, hq, hback2 2 n hn2⟩

end Shape

/-! ## Every step keeps the lists apart -/

/-- The lists of a handle do not go to the orphans while its new owner is
between reading the head of a list that is not empty and writing it. -/
def Undisturbed (s : State) : Tid × Act → Prop
  | (t, .go) => ∀ h, s.pc t = .unregisterSplice h →
      ∀ u slot, (s.pc u).window? = some (h, slot) → s.localRetired h slot = none
  | _ => True

lemma shape_go (h : Shape s L) (ho : Owned s) (hok : Undisturbed s (t, .go))
    (hs : go s t = some s') : ∃ L', Shape s' L' ∧ Moves s t L L' := by
  rw [Ebr.go] at hs
  cases hpc : s.pc t <;> simp only [hpc, Option.some.injEq, reduceCtorEq] at hs
  case retireLink r n g => exact ⟨L, hs ▸ h.link hpc, moves_refl L⟩
  case retirePush r n g =>
    obtain ⟨L', hL, hf⟩ := h.push ho hpc
    exact ⟨L', hs ▸ hL, hf.moves (by simp [Edge, hpc])⟩
  case listClear r slot curr k =>
    obtain ⟨L', hL, hf⟩ := h.clear ho hpc
    exact ⟨L', hs ▸ hL, hf.moves (by simp [Edge, hpc])⟩
  case listFree n p k =>
    subst hs
    obtain ⟨L', hL, hf⟩ := h.free (by rw [hpc]; rfl) (by rw [hpc]; rfl) (held_listLoop ..)
      (by rw [hpc]; exact kept_listLoop ..) (by rw [hpc]; exact hand_listLoop ..)
      (read_listLoop k p) fun _ => localOk_listLoop ..
    exact ⟨L', hL, hf.moves (by simp [Edge, hpc])⟩
  case orphanTake slot limit =>
    obtain ⟨L', hL, hf⟩ := h.take hpc
    exact ⟨L', hs ▸ hL, hf.moves (by simp [Edge, hpc])⟩
  case orphanFree slot limit n p keep =>
    subst hs
    obtain ⟨L', hL, hf⟩ := h.free (by rw [hpc]; rfl) (by rw [hpc]; rfl) (held_orphanLoop ..)
      (by rw [hpc]; exact kept_orphanLoop ..) (by rw [hpc]; exact hand_orphanLoop ..)
      (read_orphanLoop slot limit keep p) fun _ => localOk_orphanLoop ..
    exact ⟨L', hL, hf.moves (by simp [Edge, hpc])⟩
  case orphanEpoch slot limit n p keep =>
    have hread := (h.thread t).read n p (by rw [hpc]; rfl)
    split at hs
    · cases keep with
      | none =>
        cases hs
        obtain ⟨L', hL, hf⟩ := h.keepFirst hpc
        exact ⟨L', hL, hf.moves (by simp [Edge, hpc])⟩
      | some keep =>
        cases hs
        exact ⟨L, h.quiet rfl rfl (by rw [hpc]; rfl) (by rw [hpc]; rfl)
          (by rw [hpc]; rfl) (by rintro _ _ ⟨⟩; exact hread) trivial, moves_refl L⟩
    · cases hs
      exact ⟨L, h.quiet rfl rfl (by rw [hpc]; rfl) (by rw [hpc]; rfl)
        (by rw [hpc]; rfl) (by rintro _ _ ⟨⟩; exact hread) trivial, moves_refl L⟩
  case orphanKeep slot limit n p keep =>
    obtain ⟨L', hL, hf⟩ := h.keepNext hpc
    exact ⟨L', hs ▸ hL, hf.moves (by simp [Edge, hpc])⟩
  case orphanReturn slot keep =>
    obtain ⟨L', hL, hf⟩ := h.giveBack hpc
    exact ⟨L', hs ▸ hL, hf.moves (by simp [Edge, hpc])⟩
  case registerSplice r | unregisterSplice r =>
    obtain ⟨s1, h1, rfl⟩ := map_eq_some_iff.mp hs
    have hpc1 := (sameHandles_splice h1).pc
    obtain ⟨L1, hL1, hf⟩ := h.splice (by rw [hpc]; rfl) (fun u slot hu hw => by
      first
      | exact hok r hpc u slot hw
      | exact absurd rfl (ho.window_ne (ho.owner t r (by rw [hpc]; rfl)) hu hw)) h1
    refine ⟨L1, hL1.bare rfl rfl (by rw [hpc1, hpc]; exact ⟨rfl, rfl, rfl, rfl⟩)
      ⟨rfl, rfl, rfl, rfl⟩ trivial, fun q n hn => (hf q n hn).imp_right ?_⟩
    rintro ⟨slot, hq, hn⟩
    exact ⟨_, by rw [Edge, hpc]; exact ⟨slot, rfl, hq⟩, hn⟩
  case retireLoad | listNext | orphanNext =>
    subst hs
    exact ⟨L, h.quiet rfl rfl (by rw [hpc]; rfl) (by rw [hpc]; rfl)
      (by rw [hpc]; rfl) (by rintro _ _ ⟨⟩; try rfl) trivial, moves_refl L⟩
  -- the phases that are left have no list, and neither have those that follow
  all_goals have hbare : (s.pc t).Bare := by rw [hpc]; exact ⟨rfl, rfl, rfl, rfl⟩
  case listTest r slot k =>
    subst hs
    refine ⟨L, h.bare rfl rfl hbare ?_ ?_, moves_refl L⟩
    · split
      · exact bare_after k
      · exact ⟨rfl, rfl, rfl, rfl⟩
    · split
      · exact localOk_after k
      · trivial
  case advanceRegistered g r rest | advanceActive g r rest =>
    subst hs
    refine ⟨L, h.bare rfl rfl hbare ?_ ?_, moves_refl L⟩
    · split <;> first | exact ⟨rfl, rfl, rfl, rfl⟩ | exact bare_advanceLoop g rest
    · split <;> first | trivial | exact localOk_advanceLoop g rest
  case retireCheck r =>
    subst hs
    refine ⟨L, h.bare rfl rfl hbare ?_ ?_, moves_refl L⟩
    · split <;> exact ⟨rfl, rfl, rfl, rfl⟩
    · split <;> trivial
  case advanceCas | registerCas =>
    split at hs <;> cases hs <;>
      exact ⟨L, h.bare rfl rfl hbare ⟨rfl, rfl, rfl, rfl⟩ trivial, moves_refl L⟩
  case registerTry r rest =>
    split at hs <;> cases hs
    · exact ⟨L, h.bare rfl rfl hbare (bare_registerLoop rest)
        (localOk_registerLoop rest), moves_refl L⟩
    · exact ⟨L, h.bare rfl rfl hbare ⟨rfl, rfl, rfl, rfl⟩ trivial, moves_refl L⟩
  all_goals subst hs
  case advanceHead g =>
    exact ⟨L, h.bare rfl rfl hbare (bare_advanceLoop g _)
      (localOk_advanceLoop g _), moves_refl L⟩
  case registerHead =>
    exact ⟨L, h.bare rfl rfl hbare (bare_registerLoop _)
      (localOk_registerLoop _), moves_refl L⟩
  case listRead =>
    exact ⟨L, h.bare rfl rfl hbare ⟨rfl, rfl, rfl, rfl⟩ rfl, moves_refl L⟩
  all_goals
    exact ⟨L, h.bare rfl rfl hbare ⟨rfl, rfl, rfl, rfl⟩ trivial, moves_refl L⟩

/-- Nodes have gone only where the action moves them; a call can get a node. -/
def Moved (s : State) (L L' : Place → List Nid) : Tid × Act → Prop
  | (t, .go) => Moves s t L L'
  | (t, _) => ∀ q, ∀ n ∈ L' q, n ∈ L q ∨ q = .hand t

lemma shape_step (h : Shape s L) (ho : Owned s) {a : Act} (hok : Undisturbed s (t, a))
    (hs : step s (t, a) = some s') : ∃ L', Shape s' L' ∧ Moved s L L' (t, a) := by
  cases a with
  | go => exact shape_go h ho hok hs
  | retire r =>
    obtain ⟨hpc, -, rfl⟩ := step_call (by simp) hs
    refine ⟨_, h.alloc hpc, fun q n hn => ?_⟩
    by_cases hq : q = .hand t
    · exact .inr hq
    · rw [update_of_ne hq] at hn
      exact .inl hn
  | _ =>
    obtain ⟨hpc, -, rfl⟩ := step_call (by simp) hs
    exact ⟨L, h.bare rfl rfl (by rw [hpc]; exact ⟨rfl, rfl, rfl, rfl⟩)
      ⟨rfl, rfl, rfl, rfl⟩ trivial, fun _ _ => .inl⟩

/-! ## The lists of a state -/

/-- The lists are those that a walk finds. -/
lemma Shape.nodesAt_eq (h : Shape s L) (p : Place) : s.nodesAt p = L p := by
  have hlen := h.length_le p
  have hthread := h.thread
  cases p with
  | handle r slot => exact (h.handle r slot).walk_eq hlen
  | orphaned slot => exact (h.orphaned slot).walk_eq hlen
  | held t => exact (hthread t).held.walk_eq hlen
  | freed => exact h.freed.symm
  | kept t =>
    have hkept := (hthread t).kept
    change walk (s.nextAt (.kept t)) s.nodeCount (s.headAt (.kept t)) = _
    rw [State.nextAt, State.headAt]
    cases hpc : (s.pc t).kept with
    | none =>
      rw [hpc, kept_none] at hkept
      rw [hkept]
      exact walk_eq (Chained.nil_iff.mpr rfl) (Nat.zero_le _)
    | some keep =>
      rw [hpc] at hkept
      exact hkept.1.walk_eq hlen
  | hand t =>
    have hhand := (hthread t).hand
    refine walk_eq ?_ hlen
    rw [hhand, State.headAt]
    cases (s.pc t).hand with
    | none => rfl
    | some n => exact ⟨rfl, rfl⟩

/-- A node that has been retired is in one list, until it is freed, and it is
freed once. -/
structure Contract (s : State) : Prop where
  place : ∀ n ∈ s.retired, ∃! p, (∀ t, p ≠ .hand t) ∧ n ∈ s.nodesAt p
  once : s.freed.Nodup

lemma Shape.contract (h : Shape s L) : Contract s where
  place n hn := by
    obtain ⟨hlt, hhand⟩ := h.retired n hn
    obtain ⟨p, hp, huniq⟩ := h.part.existsUnique hlt
    refine ⟨p, ⟨?_, ?_⟩, ?_⟩
    · rintro t rfl
      exact hhand t hp
    · rw [h.nodesAt_eq]
      exact hp
    · rintro q ⟨-, hq⟩
      rw [h.nodesAt_eq] at hq
      exact huniq q hq
  once := h.freed ▸ h.part.nodup .freed

end Cobalt.Memory.Ebr
