/-
Cobalt.EventLoop.DispatchTheorems — which callbacks may remove descriptors.

The list of entries is in order after every call, whatever the client does, so
the calls themselves never touch a freed entry. The batch is another matter: it
holds pointers to entries, and a callback that removes or modifies a descriptor
with an event later in the batch frees an entry that the loop will read. Where
no callback does that, every event that is left has a live entry of a descriptor
that was not removed; where one does, the loop runs into the freed entry.
-/
import Cobalt.EventLoop.Dispatch
import Cobalt.Lib.Linked

namespace Cobalt.EventLoop.Dispatch

open List
open Machine (run)
open Function (update update_apply)
open Prod (fst snd)

variable {l l' : Loop} {h : Heap FdEntry} {xs ys mid post : List (Addr × FdEntry)} {fd fd' : Int}
  {a last z : Addr} {e : FdEntry} {fuel : Nat}

/-! ## The list of entries -/

/-- Each entry points to the next one, the last one to `z`. -/
def Linked : List (Addr × FdEntry) → Addr → Prop
  | [], _ => True
  | (_, e) :: xs, z => e.next = headOr xs z ∧ Linked xs z

lemma linked_append : Linked (xs ++ ys) z ↔ Linked xs (headOr ys z) ∧ Linked ys z := by
  induction xs with
  | nil => simp [Linked]
  | cons x xs ih => rw [cons_append, Linked, Linked, headOr_append, ih, and_assoc]

/-- The addresses and descriptors of the entries. -/
def keys (xs : List (Addr × FdEntry)) : List (Addr × Int) := xs.map fun x => (x.1, x.2.fd)

lemma keys_cons : keys ((a, e) :: xs) = (a, e.fd) :: keys xs := rfl

lemma keys_append : keys (xs ++ ys) = keys xs ++ keys ys := map_append

/-- The list of the loop is `xs`, and what the kernel points to is in it. -/
structure Good (l : Loop) (xs : List (Addr × FdEntry)) : Prop where
  holds : l.heap.Holds (xs : Multiset (Addr × FdEntry))
  linked : Linked xs 0
  head : l.fdHead = headOr xs 0
  tail : l.fdTail = lastOr xs 0
  fds : ((keys xs).map Prod.snd).Nodup
  interest : ∀ fd a, l.interest fd = some (.entry a) → (a, fd) ∈ keys xs

/-- There is an entry of this descriptor at this address. -/
def Alive (l : Loop) (a : Addr) (fd : Int) : Prop := ∃ e, l.heap.cell a = some e ∧ e.fd = fd

lemma Good.load (hg : Good l xs) (hmem : (a, e) ∈ xs) : l.heap.load a = .ok e :=
  hg.holds.load (Multiset.mem_coe.mpr hmem)

lemma Good.mem_iff (hg : Good l xs) : l.heap.cell a = some e ↔ (a, e) ∈ xs :=
  (hg.holds.mem a e).trans Multiset.mem_coe

lemma mem_keys : (a, fd) ∈ keys xs ↔ ∃ e, (a, e) ∈ xs ∧ e.fd = fd := by
  simp [keys]

lemma Good.alive_iff (hg : Good l xs) : Alive l a fd ↔ (a, fd) ∈ keys xs := by
  simp only [Alive, hg.mem_iff, mem_keys]

lemma Good.ne_zero (hg : Good l xs) (hmem : (a, e) ∈ xs) : a ≠ 0 :=
  (hg.holds.pos a e (Multiset.mem_coe.mpr hmem)).ne'

lemma Good.headOr_ne_zero (hg : Good l xs) (hne : xs ≠ []) : headOr xs 0 ≠ 0 := by
  cases xs with
  | nil => exact absurd rfl hne
  | cons x xs => exact hg.ne_zero (mem_cons_self ..)

lemma Good.holds_add (hg : Good l xs) : l.heap.Holds (↑xs + 0) :=
  (Multiset.add_zero (xs : Multiset (Addr × FdEntry))).symm ▸ hg.holds

lemma Good.nodup_addrs (hg : Good l xs) : ((keys xs).map fst).Nodup := by
  rw [keys, map_map]
  exact hg.holds_add.nodup_coe

lemma Good.length_lt_fuel (hg : Good l xs) : xs.length < l.fuel :=
  Nat.lt_succ_of_lt hg.holds_add.length_lt

lemma Good.setInterest (hg : Good l xs) {x : Option Data}
    (hx : ∀ a, x = some (.entry a) → (a, fd) ∈ keys xs) : Good (l.setInterest fd x) xs := by
  refine ⟨hg.holds, hg.linked, hg.head, hg.tail, hg.fds, fun fd' a ha => ?_⟩
  change update l.interest fd x fd' = _ at ha
  rw [update_apply] at ha
  split at ha
  · next heq => exact heq ▸ hx a ha
  · exact hg.interest fd' a ha

/-! ## Adding -/

lemma watched_eq (hload : ∀ x ∈ xs, h.load x.1 = .ok x.2) (hpos : ∀ x ∈ xs, x.1 ≠ 0)
    (hlinked : Linked xs 0) (hfuel : xs.length < fuel) :
    watched h fd fuel (headOr xs 0) = .ok (decide (fd ∈ (keys xs).map snd)) := by
  induction xs generalizing fuel with
  | nil =>
    cases fuel with
    | zero => simp at hfuel
    | succ fuel => simp [watched, headOr, keys]
  | cons x xs ih =>
    obtain ⟨a, e⟩ := x
    cases fuel with
    | zero => simp at hfuel
    | succ fuel =>
      have hne : a ≠ 0 := hpos (a, e) (by simp)
      have hrest := ih (fun y hy => hload y (by simp [hy])) (fun y hy => hpos y (by simp [hy]))
        hlinked.2 (Nat.lt_of_succ_lt_succ hfuel)
      have he : h.load a = .ok e := hload (a, e) (by simp)
      change watched h fd (fuel + 1) a = _
      rw [watched, if_neg hne, he, ok_bind]
      by_cases hfd : e.fd = fd
      · simp [hfd, keys]
      · have hmem : fd ∈ (keys ((a, e) :: xs)).map snd ↔ fd ∈ (keys xs).map snd := by
          rw [keys_cons, map_cons, mem_cons, or_iff_right (Ne.symm hfd)]
        rw [if_neg hfd, hlinked.1, hrest, decide_eq_decide.mpr hmem]

lemma Good.watched (hg : Good l xs) :
    watched l.heap fd l.fuel l.fdHead = .ok (decide (fd ∈ (keys xs).map snd)) := by
  rw [hg.head]
  exact watched_eq (fun x hx => hg.load hx) (fun x hx => hg.ne_zero hx) hg.linked hg.length_lt_fuel

lemma exists_last (hne : xs ≠ []) : ∃ init b p, xs = init ++ [(b, p)] ∧ ∀ z, lastOr xs z = b := by
  refine ⟨xs.dropLast, (xs.getLast hne).1, (xs.getLast hne).2, ?_, fun z => ?_⟩
  · exact (dropLast_append_getLast hne).symm
  · conv_lhs => rw [← dropLast_append_getLast hne, lastOr_append]
    rfl

lemma Holds.modify_mid {init : List (Addr × FdEntry)} {b : Addr} {p : FdEntry}
    (ho : h.Holds (↑(init ++ (b, p) :: ys) : Multiset (Addr × FdEntry))) (f : FdEntry → FdEntry) :
    Returns (h.modify b f) fun h' =>
      h'.Holds (↑(init ++ (b, f p) :: ys) : Multiset (Addr × FdEntry)) := by
  rw [Heap.Holds.coe_append_cons] at ho ⊢
  exact ho.modify f

lemma append_first (hhead : l.fdHead = 0) : append l a = .ok (0, (l.setHead a).setTail a) :=
  if_pos hhead

variable {h' : Heap FdEntry}

lemma append_behind (hhead : l.fdHead ≠ 0)
    (hmod : (l.heap.modify l.fdTail fun e => e.setNext a) = .ok h') :
    append l a = .ok (0, (l.setHeap h').setTail a) := by
  rw [append, if_neg hhead, hmod]
  rfl

lemma Good.append (hg : Good l xs) (hnext : e.next = 0) (hfresh : e.fd ∉ (keys xs).map snd) :
    ∃ l' xs', append ((l.setHeap (l.heap.alloc e).2).setInterest e.fd (some (.entry l.heap.next)))
      l.heap.next = .ok (0, l') ∧ Good l' xs' ∧ keys xs' = keys xs ++ [(l.heap.next, e.fd)] ∧
      l'.removed = l.removed ∧
      l'.interest = update l.interest e.fd (some (.entry l.heap.next)) := by
  have halloc : (l.heap.alloc e).2.Holds (↑(xs ++ [(l.heap.next, e)]) : Multiset _) := by
    have hcells := hg.holds.alloc e
    rwa [Multiset.singleton_add, Multiset.cons_coe,
      ← Multiset.coe_eq_coe.mpr (perm_append_singleton (l.heap.next, e) xs)] at hcells
  -- what does not depend on how the entry is linked in
  have hrest : ∀ xs', keys xs' = keys xs ++ [(l.heap.next, e.fd)] →
      ((keys xs').map snd).Nodup ∧ ∀ fd a,
        update l.interest e.fd (some (.entry l.heap.next)) fd = some (.entry a) →
          (a, fd) ∈ keys xs' := by
    intro xs' hkeys
    rw [hkeys, map_append]
    refine ⟨nodup_append'.mpr ⟨hg.fds, nodup_singleton _, ?_⟩, fun fd a ha => ?_⟩
    · simpa using hfresh
    · rw [update_apply] at ha
      split at ha
      · next hfd =>
        cases ha
        simp [hfd]
      · exact mem_append_left _ (hg.interest fd a ha)
  by_cases hnil : xs = []
  · subst hnil
    have hkeys : keys [(l.heap.next, e)] = keys [] ++ [(l.heap.next, e.fd)] := rfl
    obtain ⟨hfds, hint⟩ := hrest _ hkeys
    have hhead : l.fdHead = 0 := hg.head
    exact ⟨_, [(l.heap.next, e)], append_first hhead,
      ⟨halloc, ⟨hnext, trivial⟩, rfl, rfl, hfds, hint⟩, hkeys, rfl, rfl⟩
  · obtain ⟨init, b, p, rfl, hlast⟩ := exists_last hnil
    have hhead : l.fdHead ≠ 0 := by
      rw [hg.head]
      exact hg.headOr_ne_zero hnil
    have htail : l.fdTail = b := hg.tail.trans (hlast 0)
    rw [append_assoc, singleton_append] at halloc
    obtain ⟨h', hmod, hholds⟩ := Holds.modify_mid halloc fun p => p.setNext l.heap.next
    rw [← htail] at hmod
    have hkeys : keys (init ++ [(b, p.setNext l.heap.next), (l.heap.next, e)])
        = keys (init ++ [(b, p)]) ++ [(l.heap.next, e.fd)] := by
      simp [keys, FdEntry.setNext]
    obtain ⟨hfds, hint⟩ := hrest _ hkeys
    refine ⟨_, init ++ [(b, p.setNext l.heap.next), (l.heap.next, e)], append_behind hhead hmod,
      ⟨hholds, ?_, ?_, ?_, hfds, hint⟩, hkeys, rfl, rfl⟩
    · have hl := linked_append.mp hg.linked
      exact linked_append.mpr ⟨hl.1, rfl, hnext, trivial⟩
    · change l.fdHead = _
      rw [hg.head, headOr_append, headOr_append]
      rfl
    · rw [lastOr_append]
      rfl

/-- What a call that may add an entry does. -/
structure Grown (l l' : Loop) : Prop where
  alive : ∀ a fd, Alive l a fd → Alive l' a fd
  dead : ∀ a < l.heap.next, l.heap.cell a = none → l'.heap.cell a = none
  removed : l'.removed = l.removed

lemma Grown.of_heap (hheap : l'.heap = l.heap) (hremoved : l'.removed = l.removed) :
    Grown l l' := by
  refine ⟨fun a fd ⟨e, he, hfd⟩ => ⟨e, hheap ▸ he, hfd⟩, fun a _ ha => hheap ▸ ha, hremoved⟩

lemma Good.cell_eq_none_iff (hg : Good l xs) : l.heap.cell a = none ↔ ∀ fd, (a, fd) ∉ keys xs := by
  rw [Option.eq_none_iff_forall_ne_some]
  constructor
  · intro hnone fd hmem
    obtain ⟨e, he, -⟩ := hg.alive_iff.mpr hmem
    exact hnone e he
  · intro hnot e he
    exact hnot e.fd (hg.alive_iff.mp ⟨e, he, rfl⟩)

/-- The list has an entry of this descriptor. -/
def Listed (l : Loop) (fd : Int) : Prop := ∃ a, Alive l a fd

lemma Good.listed_iff (hg : Good l xs) : Listed l fd ↔ fd ∈ (keys xs).map snd := by
  simp [Listed, hg.alive_iff]

/-- The kernel takes the descriptor, and an entry is to be allocated. -/
def Taken (l : Loop) (fd : Int) (callback : Addr) (accepted : Bool) : Prop :=
  0 ≤ fd ∧ callback ≠ 0 ∧ ¬ Listed l fd ∧ accepted = true ∧ l.interest fd = none

section AddFd

variable (events : Int) {callback : Addr} (userData : Addr) {accepted : Bool} (allocated : Bool)

lemma Good.addFd_of_not_taken (hg : Good l xs) (ht : ¬ Taken l fd callback accepted) :
    addFd l fd events callback userData accepted allocated = .ok (-1, l) := by
  rw [Taken, hg.listed_iff] at ht
  rw [Dispatch.addFd, hg.watched, ok_bind]
  by_cases hargs : fd < 0 ∨ callback = 0
  · exact if_pos hargs
  by_cases hmem : fd ∈ (keys xs).map snd
  · simp [hargs, hmem]
  · have hrefused : accepted = false ∨ l.interest fd ≠ none := by grind
    simp [hargs, hmem, hrefused]

lemma Good.addFd_of_taken (hg : Good l xs) (ht : Taken l fd callback accepted) :
    addFd l fd events callback userData accepted allocated =
      if allocated = false then .ok (-1, l.setInterest fd (some .null))
      else Dispatch.append ((l.setHeap (l.heap.alloc ⟨fd, events, callback, userData, 0⟩).2).setInterest fd
        (some (.entry l.heap.next))) l.heap.next := by
  obtain ⟨hpos, hcallback, hfresh, haccepted, hunknown⟩ := ht
  rw [hg.listed_iff] at hfresh
  rw [Dispatch.addFd, hg.watched, ok_bind, if_neg (by simp [hpos, hcallback])]
  simp [hfresh, haccepted, hunknown, Heap.alloc]

lemma Good.addFd (hg : Good l xs) (fd : Int) (callback : Addr) (accepted : Bool) : ∃ r l' xs',
    addFd l fd events callback userData accepted allocated = .ok (r, l') ∧ Good l' xs' ∧
      Grown l l' := by
  by_cases ht : Taken l fd callback accepted
  · rw [hg.addFd_of_taken events userData allocated ht]
    split
    · exact ⟨-1, _, xs, rfl, hg.setInterest (by simp), .of_heap rfl rfl⟩
    · obtain ⟨l', xs', happ, hg', hkeys, hremoved, -⟩ :=
        hg.append (e := ⟨fd, events, callback, userData, 0⟩) rfl (mt hg.listed_iff.mpr ht.2.2.1)
      refine ⟨0, l', xs', happ, hg', fun a fd' ha => ?_, fun a hlt hnone => ?_, hremoved⟩
      · rw [hg'.alive_iff, hkeys]
        exact mem_append_left _ (hg.alive_iff.mp ha)
      · rw [hg.cell_eq_none_iff] at hnone
        rw [hg'.cell_eq_none_iff, hkeys]
        intro fd' hmem
        rcases mem_append.mp hmem with hmem | hmem
        · exact hnone fd' hmem
        · exact ne_of_lt hlt (Prod.mk.inj (mem_singleton.mp hmem)).1
  · exact ⟨-1, l, xs, hg.addFd_of_not_taken events userData allocated ht, hg, .of_heap rfl rfl⟩

end AddFd

/-! ## Removing -/

lemma unlink_skip (fuel : Nat) (last : Addr) (hload : ∀ x ∈ mid, l.heap.load x.1 = .ok x.2)
    (hpos : ∀ x ∈ mid, x.1 ≠ 0) (hlinked : Linked (mid ++ ys) 0)
    (hfd : fd ∉ (keys mid).map snd) :
    unlink fd (mid.length + fuel) l last (headOr (mid ++ ys) 0)
      = unlink fd fuel l (lastOr mid last) (headOr ys 0) := by
  induction mid generalizing last with
  | nil => simp [lastOr]
  | cons x mid ih =>
    obtain ⟨a, e⟩ := x
    have hne : a ≠ 0 := hpos (a, e) (by simp)
    have he : l.heap.load a = .ok e := hload (a, e) (by simp)
    have hfds := hfd
    rw [keys_cons, map_cons, mem_cons, not_or] at hfds
    have hrest := ih a (fun y hy => hload y (by simp [hy]))
      (fun y hy => hpos y (by simp [hy])) hlinked.2 hfds.2
    have hnext : e.next = headOr (mid ++ ys) 0 := hlinked.1
    rw [length_cons, Nat.add_right_comm]
    change unlink fd (mid.length + fuel + 1) l last a = _
    rw [unlink, if_neg hne, he, ok_bind, if_neg (Ne.symm hfds.1), hnext, hrest]
    rfl

lemma setTail_ite (l : Loop) : (if l.fdTail = a then l.setTail z else l)
    = l.setTail (if l.fdTail = a then z else l.fdTail) := by
  split <;> rfl

lemma unlink_found {l1 : Loop} (hne : a ≠ 0) (hload : l.heap.load a = .ok e) (hfd : e.fd = fd)
    (hprev : setPrev l last e.next = .ok l1) (hfree : l1.heap.free a = .ok h') :
    unlink fd (fuel + 1) l last a = .ok (0, ((l1.setTail
      (if l1.fdTail = a then last else l1.fdTail)).setHeap h').remove fd) := by
  rw [unlink, if_neg hne, hload, ok_bind, if_pos hfd, hprev, ok_bind]
  dsimp only
  rw [setTail_ite]
  change (l1.heap.free a >>= _) = _
  rw [hfree, ok_bind]

lemma lastOr_without (hnodup : ((mid ++ (a, e) :: post).map fst).Nodup) :
    (if lastOr (mid ++ (a, e) :: post) 0 = a then lastOr mid 0
      else lastOr (mid ++ (a, e) :: post) 0) = lastOr (mid ++ post) 0 := by
  rw [lastOr_append, lastOr_append]
  change (if lastOr post a = a then _ else lastOr post a) = _
  by_cases hnil : post = []
  · subst hnil
    exact if_pos rfl
  · obtain ⟨init, b, p, rfl, hlast⟩ := exists_last hnil
    rw [hlast, hlast, if_neg]
    rintro rfl
    simp [nodup_append'] at hnodup

/-- What is left of the list when the entry of a descriptor is gone. -/
lemma Good.without {mid' : List (Addr × FdEntry)} (hg : Good l (mid ++ (a, e) :: post))
    (l1 : Loop) (hint : l.interest e.fd = none) (hkeys : keys mid' = keys mid)
    (hlast : lastOr mid' 0 = lastOr mid 0) (hlinked : Linked mid' (headOr post 0))
    (hholds : h'.Holds (↑(mid' ++ post) : Multiset _)) (hhead : l1.fdHead = headOr (mid' ++ post) 0)
    (htail : l1.fdTail = l.fdTail) (hsame : l1.interest = l.interest) :
    Good (((l1.setTail (if l1.fdTail = a then lastOr mid 0 else l1.fdTail)).setHeap h').remove e.fd)
      (mid' ++ post) := by
  have hkeys' : keys (mid' ++ post) = keys mid ++ keys post := by rw [keys_append, hkeys]
  have hold : keys (mid ++ (a, e) :: post) = keys mid ++ (a, e.fd) :: keys post := keys_append
  have hnodup : ((mid ++ (a, e) :: post).map fst).Nodup := by
    have haddrs := hg.nodup_addrs
    rwa [keys, map_map] at haddrs
  refine ⟨hholds, ?_, hhead, ?_, ?_, fun fd a' ha => ?_⟩
  · exact linked_append.mpr ⟨hlinked, (linked_append.mp hg.linked).2.2⟩
  · change (if l1.fdTail = a then lastOr mid 0 else l1.fdTail) = _
    rw [htail, hg.tail, lastOr_without hnodup, lastOr_append, lastOr_append, hlast]
  · have hfds := hg.fds
    rw [hold, map_append, map_cons] at hfds
    rw [hkeys', map_append]
    exact hfds.sublist (List.Sublist.append_left (sublist_cons_self _ _) _)
  · have ha' : l.interest fd = some (.entry a') := hsame ▸ ha
    have hmem := hg.interest fd a' ha'
    rw [hold, mem_append, mem_cons] at hmem
    rw [hkeys', mem_append]
    rcases hmem with hmem | heq | hmem
    · exact .inl hmem
    · rw [(Prod.mk.inj heq).2, hint] at ha'
      cases ha'
    · exact .inr hmem

lemma next_of_modify {h : Heap FdEntry} {f : FdEntry → FdEntry} (hmod : h.modify a f = .ok h') :
    h'.next = h.next := by
  unfold Heap.modify at hmod
  cases hload : h.load a with
  | error err => rw [hload] at hmod; cases hmod
  | ok e =>
    rw [hload] at hmod
    cases hmod
    rfl

lemma free_of_mid {h : Heap FdEntry} (ho : h.Holds (↑(xs ++ (a, e) :: ys) : Multiset _)) :
    Returns (h.free a) fun h' => h'.Holds (↑(xs ++ ys) : Multiset _) ∧ h'.next = h.next := by
  rw [Heap.Holds.coe_append_cons] at ho
  obtain ⟨h', hfree, hholds⟩ := ho.free
  refine ⟨h', hfree, hholds, ?_⟩
  rw [Heap.free, ho.load_head] at hfree
  cases hfree
  rfl

/-- The entry that is found is taken out and freed. -/
lemma Good.unlink_hit (fuel : Nat) (hg : Good l (mid ++ (a, e) :: post))
    (hint : l.interest e.fd = none) :
    ∃ l' xs', unlink e.fd (fuel + 1) l (lastOr mid 0) a = .ok (0, l') ∧ Good l' xs' ∧
      keys xs' = keys mid ++ keys post ∧ l'.interest = l.interest ∧
      l'.removed = e.fd :: l.removed ∧ l'.heap.next = l.heap.next := by
  have hmem : (a, e) ∈ mid ++ (a, e) :: post := by simp
  have hlink := linked_append.mp hg.linked
  have hnext : e.next = headOr post 0 := hlink.2.1
  by_cases hnil : mid = []
  · subst hnil
    obtain ⟨h', hfree, hholds, hsame⟩ := free_of_mid hg.holds
    exact ⟨_, [] ++ post, unlink_found (hg.ne_zero hmem) (hg.load hmem) rfl (if_pos rfl) hfree,
      hg.without _ hint rfl rfl trivial hholds hnext rfl rfl, rfl, rfl, rfl, hsame⟩
  · obtain ⟨init, b, p, rfl, hlast⟩ := exists_last hnil
    rw [hlast 0]
    have hb : b ≠ 0 := hg.ne_zero (e := p) (by simp)
    have hholds := hg.holds
    rw [append_assoc, singleton_append] at hholds
    obtain ⟨h1, hmod, hholds1⟩ := Holds.modify_mid hholds fun p => p.setNext e.next
    have hsplit : init ++ (b, p.setNext e.next) :: (a, e) :: post
        = (init ++ [(b, p.setNext e.next)]) ++ (a, e) :: post := by simp
    rw [hsplit] at hholds1
    obtain ⟨h', hfree, hholds', hsame⟩ := free_of_mid hholds1
    have hprev : setPrev l b e.next = .ok (l.setHeap h1) := by
      rw [setPrev, if_neg hb, hmod]
      rfl
    have hkeys : keys (init ++ [(b, p.setNext e.next)]) = keys (init ++ [(b, p)]) := by
      simp [keys, FdEntry.setNext]
    have hlast' : lastOr (init ++ [(b, p.setNext e.next)]) 0 = lastOr (init ++ [(b, p)]) 0 := by
      rw [lastOr_append, lastOr_append]
      rfl
    have hlinked : Linked (init ++ [(b, p.setNext e.next)]) (headOr post 0) :=
      linked_append.mpr ⟨(linked_append.mp hlink.1).1, hnext, trivial⟩
    have hhead : l.fdHead = headOr (init ++ [(b, p.setNext e.next)] ++ post) 0 := by
      rw [hg.head, headOr_append, headOr_append, headOr_append, headOr_append]
      rfl
    have hgood := hg.without (l.setHeap h1) hint hkeys hlast' hlinked hholds' hhead rfl rfl
    rw [hlast 0] at hgood
    refine ⟨_, _, unlink_found (hg.ne_zero hmem) (hg.load hmem) rfl hprev hfree, hgood, ?_, rfl,
      rfl, hsame.trans (next_of_modify hmod)⟩
    rw [keys_append, hkeys]

lemma filter_others {ks : List (Addr × Int)} (hfd : fd ∉ ks.map snd) :
    ks.filter (fun k => k.2 ≠ fd) = ks := by
  refine filter_eq_self.mpr fun k hk => decide_eq_true ?_
  rintro rfl
  exact hfd (mem_map_of_mem hk)

/-- What a call that removes the entry of a descriptor does. -/
structure Shrunk (l l' : Loop) (fd : Int) : Prop where
  alive : ∀ a fd', Alive l a fd' → (0 ≤ fd → fd' ≠ fd) → Alive l' a fd'
  removed : ∀ x ∈ l'.removed, x ∈ l.removed ∨ (0 ≤ fd ∧ x = fd)
  dead : ∀ a, Alive l a fd → 0 ≤ fd → l'.heap.cell a = none

/-- `cobalt_eventloop_del_fd` takes the entry of the descriptor out of the list. -/
lemma Good.delFd_keys (hg : Good l xs) (hpos : 0 ≤ fd) : ∃ r l' xs', Dispatch.delFd l fd = .ok (r, l') ∧
    Good l' xs' ∧ keys xs' = (keys xs).filter (fun k => k.2 ≠ fd) ∧
    l'.interest = update l.interest fd none ∧
    (∀ x ∈ l'.removed, x ∈ l.removed ∨ x = fd) ∧ l'.heap.next = l.heap.next := by
  unfold Dispatch.delFd
  rw [if_neg (by omega)]
  have hg0 : Good (l.setInterest fd none) xs := hg.setInterest (by simp)
  have hfuel : xs.length < (l.setInterest fd none).fuel := hg0.length_lt_fuel
  by_cases hmem : fd ∈ (keys xs).map snd
  · obtain ⟨⟨a, fd0⟩, hkey, hfd0⟩ := mem_map.mp hmem
    obtain ⟨e, he, hfd⟩ := mem_keys.mp hkey
    obtain rfl : e.fd = fd := hfd.trans hfd0
    obtain ⟨mid, post, rfl⟩ := append_of_mem he
    have hold : keys (mid ++ (a, e) :: post) = keys mid ++ (a, e.fd) :: keys post := keys_append
    -- the descriptor has one entry only
    have hfds := hg.fds
    rw [hold, map_append, map_cons, nodup_append', nodup_cons] at hfds
    obtain ⟨-, ⟨hnpost, -⟩, hdisj⟩ := hfds
    have hnmid : e.fd ∉ (keys mid).map snd := fun h => hdisj h (by simp)
    obtain ⟨fuel, hsplit⟩ : ∃ fuel, (l.setInterest e.fd none).fuel = mid.length + (fuel + 1) := by
      rw [length_append, length_cons] at hfuel
      exact ⟨(l.setInterest e.fd none).fuel - mid.length - 1, by omega⟩
    have hskip := unlink_skip (fuel + 1) 0 (fun x hx => hg0.load (mem_append_left _ hx))
      (fun x hx => hg0.ne_zero (mem_append_left _ hx)) hg0.linked hnmid
    obtain ⟨l', xs', hhit, hg', hkeys, hint, hremoved, hnext⟩ :=
      Good.unlink_hit fuel hg0 (Function.update_self ..)
    refine ⟨0, l', xs', ?_, hg', ?_, hint, fun x hx => ?_, hnext⟩
    · dsimp only
      rw [hsplit, hg0.head, hskip]
      exact hhit
    · rw [hkeys, hold, filter_append, filter_cons_of_neg (by simp), filter_others hnmid,
        filter_others hnpost]
    · rw [hremoved, mem_cons] at hx
      exact hx.symm
  · -- no entry is found, and only the kernel has been told
    obtain ⟨fuel, hsplit⟩ : ∃ fuel, (l.setInterest fd none).fuel = xs.length + (fuel + 1) :=
      ⟨(l.setInterest fd none).fuel - xs.length - 1, by omega⟩
    have hlinked : Linked (xs ++ []) 0 := by
      rw [append_nil]
      exact hg0.linked
    have hskip := unlink_skip (fuel + 1) 0 (fun x hx => hg0.load hx)
      (fun x hx => hg0.ne_zero hx) hlinked hmem
    rw [append_nil] at hskip
    refine ⟨-1, _, xs, ?_, hg0, (filter_others hmem).symm, rfl, fun x hx => .inl hx, rfl⟩
    dsimp only
    rw [hsplit, hg0.head, hskip]
    exact if_pos rfl

lemma Good.delFd (hg : Good l xs) (fd : Int) : ∃ r l' xs', delFd l fd = .ok (r, l') ∧
    Good l' xs' ∧ Shrunk l l' fd ∧ l'.heap.next = l.heap.next := by
  by_cases hneg : fd < 0
  · have hno : ¬ 0 ≤ fd := by omega
    refine ⟨-1, l, xs, if_pos hneg, hg, ⟨fun a fd' ha _ => ha, fun x hx => .inl hx, ?_⟩, rfl⟩
    exact fun a _ hpos => absurd hpos hno
  have hpos : 0 ≤ fd := by omega
  obtain ⟨r, l', xs', hdel, hg', hkeys, -, hremoved, hnext⟩ := hg.delFd_keys hpos
  refine ⟨r, l', xs', hdel, hg', ⟨fun a fd' ha hne => ?_, fun x hx => ?_, fun a ha _ => ?_⟩, hnext⟩
  · rw [hg'.alive_iff, hkeys]
    simpa using ⟨hg.alive_iff.mp ha, hne hpos⟩
  · exact (hremoved x hx).imp id fun h => ⟨hpos, h⟩
  · rw [hg'.cell_eq_none_iff, hkeys]
    intro fd' hmem
    obtain ⟨hmem, hne⟩ := mem_filter.mp hmem
    have heq := inj_on_of_nodup_map hg.nodup_addrs hmem (hg.alive_iff.mp ha) rfl
    simp [(Prod.mk.inj heq).2] at hne

lemma Good.modFd (hg : Good l xs) (fd events : Int) (callback userData : Addr)
    (accepted allocated : Bool) : ∃ r l' xs',
      modFd l fd events callback userData accepted allocated = .ok (r, l') ∧ Good l' xs' ∧
        Shrunk l l' fd := by
  unfold Dispatch.modFd
  by_cases hneg : fd < 0
  · have hno : ¬ 0 ≤ fd := by omega
    refine ⟨-1, l, xs, if_pos hneg, hg, fun a fd' ha _ => ha, fun x hx => .inl hx, ?_⟩
    exact fun a _ hpos => absurd hpos hno
  · obtain ⟨r1, l1, xs1, hdel, hg1, hshrunk, hnext⟩ := hg.delFd fd
    obtain ⟨r, l', xs', hadd, hg', hgrown⟩ :=
      hg1.addFd events userData allocated fd callback accepted
    rw [if_neg hneg, hdel, ok_bind]
    refine ⟨r, l', xs', hadd, hg', fun a fd' ha hne => ?_, fun x hx => ?_, fun a ha hpos => ?_⟩
    · exact hgrown.alive a fd' (hshrunk.alive a fd' ha hne)
    · rw [hgrown.removed] at hx
      exact hshrunk.removed x hx
    · refine hgrown.dead a ?_ (hshrunk.dead a ha hpos)
      obtain ⟨e, he, -⟩ := mem_keys.mp (hg.alive_iff.mp ha)
      rw [hnext]
      exact hg.holds.bound a e (Multiset.mem_coe.mpr he)

/-! ## The batch -/

/-- No freed entry was read, and no callback of a removed descriptor was invoked. -/
def Safe (s : State) : Prop := s.fault = none ∧ s.stray = false

/-- The descriptor has an event that is still to be dispatched. -/
def Pending (s : State) (fd : Int) : Prop :=
  ∃ ev ∈ s.phase.rest, ∃ a, ev.data = .entry a ∧ Alive s.loop a fd

/-- The action does not remove or modify a descriptor with an event that is still to be
dispatched. -/
def Spares (s : State) : Act → Prop
  | .del fd => 0 ≤ fd → ¬ Pending s fd
  | .mod fd _ _ _ _ _ => 0 ≤ fd → ¬ Pending s fd
  | _ => True

structure Inv (s : State) : Prop where
  safe : Safe s
  good : ∃ xs, Good s.loop xs
  rest : ∀ ev ∈ s.phase.rest, ∀ a, ev.data = .entry a →
    ∃ fd, Alive s.loop a fd ∧ fd ∉ s.loop.removed

variable {s s' : State} {act : Act}

lemma inv_start (wakeupFd : Int) : Inv (start wakeupFd) := by
  refine ⟨⟨rfl, rfl⟩, ⟨[], ?_⟩, fun ev hev => by simp [start, Phase.rest] at hev⟩
  refine ⟨Heap.Holds.empty, trivial, rfl, rfl, nodup_nil, fun fd a ha => ?_⟩
  simp only [start, update_apply] at ha
  split at ha <;> simp at ha

variable {res : Except Fault (Int × Loop)}

lemma Inv.call {r : Int} (hi : Inv s) (hres : res = .ok (r, l')) (hgood : Good l' xs)
    (hrest : ∀ ev ∈ s.phase.rest, ∀ a, ev.data = .entry a → ∀ fd, Alive s.loop a fd →
      fd ∉ s.loop.removed → Alive l' a fd ∧ fd ∉ l'.removed) : Inv (s.call res) := by
  subst hres
  refine ⟨hi.safe, ⟨xs, hgood⟩, fun ev hev a ha => ?_⟩
  obtain ⟨fd, halive, hnot⟩ := hi.rest ev hev a ha
  exact ⟨fd, hrest ev hev a ha fd halive hnot⟩

/-- A call that removes or modifies a descriptor. -/
lemma Inv.shrink {r : Int} (hi : Inv s) (hres : res = .ok (r, l')) (hgood : Good l' xs)
    (hshrunk : Shrunk s.loop l' fd) (hspares : 0 ≤ fd → ¬ Pending s fd) : Inv (s.call res) := by
  refine hi.call hres hgood fun ev hev a ha fd' halive hnot => ?_
  have hne : 0 ≤ fd → fd' ≠ fd := by
    rintro hpos rfl
    exact hspares hpos ⟨ev, hev, a, ha, halive⟩
  refine ⟨hshrunk.alive a fd' halive hne, fun hmem => ?_⟩
  rcases hshrunk.removed fd' hmem with hold | ⟨hpos, heq⟩
  · exact hnot hold
  · exact hne hpos heq

lemma data_of_batchOf {ready : List (Int × Int)} {evs : List Event}
    (hb : batchOf l ready = some evs) : ∀ ev ∈ evs, ∃ fd, l.interest fd = some ev.data := by
  induction ready generalizing evs with
  | nil =>
    cases hb
    simp
  | cons r ready ih =>
    obtain ⟨fd, events⟩ := r
    obtain ⟨data, hdata, hbind⟩ := Option.bind_eq_some_iff.mp hb
    obtain ⟨rest, hrest, hevs⟩ := Option.bind_eq_some_iff.mp hbind
    cases hevs
    intro ev hev
    rcases mem_cons.mp hev with rfl | hev
    · exact ⟨fd, hdata⟩
    · exact ih hrest ev hev

lemma Inv.dispatch {ev : Event} {rest : List Event} (hi : Inv s)
    (hphase : s.phase = .batch (ev :: rest)) : Inv (dispatch s ev rest) := by
  have htail : ∀ x ∈ rest, ∀ a, x.data = .entry a →
      ∃ fd, Alive s.loop a fd ∧ fd ∉ s.loop.removed := by
    intro x hx
    exact hi.rest x (by rw [hphase]; exact mem_cons_of_mem _ hx)
  unfold Dispatch.dispatch
  split
  · exact ⟨hi.safe, hi.good, htail⟩
  · exact ⟨hi.safe, hi.good, htail⟩
  · next a hdata =>
    obtain ⟨fd, ⟨e, hcell, rfl⟩, hnot⟩ := hi.rest ev (by rw [hphase]; simp [Phase.rest]) a hdata
    obtain ⟨xs, hgood⟩ := hi.good
    rw [hgood.load (hgood.mem_iff.mp hcell)]
    dsimp only
    split
    · exact ⟨hi.safe, ⟨xs, hgood⟩, htail⟩
    · refine ⟨⟨hi.safe.1, ?_⟩, ⟨xs, hgood⟩, htail⟩
      simp [hi.safe.2, hnot]

lemma Inv.step (hi : Inv s) (hok : Spares s act) (hs : step s act = some s') : Inv s' := by
  obtain ⟨xs, hgood⟩ := hi.good
  unfold Dispatch.step at hs
  rw [if_neg (by simp [hi.safe.1])] at hs
  cases act with
  | add fd events callback userData accepted allocated =>
    obtain ⟨r, l', xs', hadd, hgood', hgrown⟩ :=
      hgood.addFd events userData allocated fd callback accepted
    dsimp only at hs
    split at hs <;> cases hs
    refine hi.call hadd hgood' fun ev _ a _ fd' halive hnot => ?_
    exact ⟨hgrown.alive a fd' halive, hgrown.removed ▸ hnot⟩
  | mod fd events callback userData accepted allocated =>
    obtain ⟨r, l', xs', hmod, hgood', hshrunk⟩ :=
      hgood.modFd fd events callback userData accepted allocated
    dsimp only at hs
    split at hs <;> cases hs
    exact hi.shrink hmod hgood' hshrunk hok
  | del fd =>
    obtain ⟨r, l', xs', hdel, hgood', hshrunk, -⟩ := hgood.delFd fd
    dsimp only at hs
    split at hs <;> cases hs
    exact hi.shrink hdel hgood' hshrunk hok
  | close fd =>
    dsimp only at hs
    split at hs <;> cases hs
    exact ⟨hi.safe, ⟨xs, hgood.setInterest (by simp)⟩, hi.rest⟩
  | wait ready =>
    dsimp only at hs
    split at hs
    · obtain ⟨evs, hb, rfl⟩ := Option.map_eq_some_iff.mp hs
      refine ⟨hi.safe, ⟨xs, ⟨hgood.holds, hgood.linked, hgood.head, hgood.tail, hgood.fds,
        hgood.interest⟩⟩, fun ev hev a ha => ?_⟩
      obtain ⟨fd, hfd⟩ := data_of_batchOf hb ev hev
      rw [ha] at hfd
      exact ⟨fd, hgood.alive_iff.mpr (hgood.interest fd a hfd), by simp⟩
    · cases hs
  | next =>
    dsimp only at hs
    split at hs
    · cases hs
      exact ⟨hi.safe, ⟨xs, hgood⟩, fun ev hev => by simp [Phase.rest] at hev⟩
    · next hphase =>
      cases hs
      exact hi.dispatch hphase
    · cases hs
  | ret =>
    dsimp only at hs
    split at hs
    · next hphase =>
      cases hs
      have hrest := hi.rest
      rw [hphase] at hrest
      exact ⟨hi.safe, ⟨xs, hgood⟩, hrest⟩
    · cases hs

lemma inv_of_reachVia (hr : machine.ReachVia Spares s) : Inv s := by
  refine hr.invariant Inv ?_ fun _ _ _ hi hok hs => hi.step hok hs
  rintro s ⟨wakeupFd, rfl⟩
  exact inv_start wakeupFd

/-! ## An event whose entry is gone -/

/-- The loop comes to the event of the freed entry, if the callbacks before it just return. -/
lemma exists_unsafe_of_batch (rest : List Event) (hphase : s.phase = .batch rest)
    (hfault : s.fault = none)
    (hdead : ∃ ev ∈ rest, ∃ a, ev.data = .entry a ∧ s.loop.heap.cell a = none) :
    ∃ acts s', machine.run (fun _ _ => true) s acts = some s' ∧ ¬ Safe s' := by
  induction rest generalizing s with
  | nil => simp at hdead
  | cons ev rest ih =>
    have hnext : machine.step s .next = some (dispatch s ev rest) := by
      change step s .next = _
      simp [step, hfault, hphase]
    by_cases hfault' : (dispatch s ev rest).fault = none
    · -- the entry of this event is there, and the freed one comes later
      have hloop : (dispatch s ev rest).loop = s.loop ∧ ((dispatch s ev rest).phase = .batch rest ∨
            (dispatch s ev rest).phase = .callback rest) := by
        unfold dispatch
        split
        · exact ⟨rfl, .inl rfl⟩
        · exact ⟨rfl, .inr rfl⟩
        · split
          · exact ⟨rfl, .inl rfl⟩
          · split
            · exact ⟨rfl, .inl rfl⟩
            · exact ⟨rfl, .inr rfl⟩
      have hdead' : ∃ x ∈ rest, ∃ a, x.data = .entry a ∧ s.loop.heap.cell a = none := by
        obtain ⟨x, hx, a, hdata, hcell⟩ := hdead
        rcases mem_cons.mp hx with rfl | hx
        · exfalso
          unfold dispatch at hfault'
          rw [hdata] at hfault'
          by_cases ha : a = 0 <;> simp [Heap.load, ha, hcell] at hfault'
        · exact ⟨x, hx, a, hdata, hcell⟩
      rcases hloop with ⟨hloop, hbatch | hcallback⟩
      · obtain ⟨acts, s', hrun, hunsafe⟩ := ih hbatch hfault' (hloop ▸ hdead')
        refine ⟨.next :: acts, s', ?_, hunsafe⟩
        rw [run, if_pos rfl, hnext]
        exact hrun
      · have hret : machine.step (dispatch s ev rest) .ret
            = some ⟨(dispatch s ev rest).loop, .batch rest, (dispatch s ev rest).stray,
              (dispatch s ev rest).fault⟩ := by
          change step (dispatch s ev rest) .ret = _
          simp [step, hfault', hcallback]
        obtain ⟨acts, s', hrun, hunsafe⟩ := ih (s := ⟨(dispatch s ev rest).loop, .batch rest,
          (dispatch s ev rest).stray, (dispatch s ev rest).fault⟩) rfl hfault' (hloop ▸ hdead')
        refine ⟨.next :: .ret :: acts, s', ?_, hunsafe⟩
        rw [run, if_pos rfl, hnext, Option.bind_some, run, if_pos rfl, hret]
        exact hrun
    · refine ⟨[.next], dispatch s ev rest, ?_, fun hsafe => hfault' hsafe.1⟩
      rw [run, if_pos rfl, hnext]
      rfl

/-- In a callback that frees the entry of an event. -/
lemma exists_unsafe_of_shrunk {r : Int} (hfault : s.fault = none)
    (hclient : s.phase.client = true) (hres : res = .ok (r, l')) (hshrunk : Shrunk s.loop l' fd)
    (hpos : 0 ≤ fd) (hpending : Pending s fd) :
    ∃ acts s', machine.run (fun _ _ => true) (s.call res) acts = some s' ∧ ¬ Safe s' := by
  subst hres
  obtain ⟨ev, hev, a, hdata, halive⟩ := hpending
  cases hphase : s.phase with
  | outside => simp [hphase, Phase.rest] at hev
  | batch rest => simp [hphase, Phase.client] at hclient
  | callback rest =>
    rw [hphase] at hev
    have hret : machine.step (s.call (.ok (r, l'))) .ret
        = some ⟨l', .batch rest, s.stray, s.fault⟩ := by
      change step (s.call (.ok (r, l'))) .ret = _
      simp [step, State.call, hfault, hphase]
    obtain ⟨acts, s', hrun, hunsafe⟩ := exists_unsafe_of_batch (s := ⟨l', .batch rest, s.stray,
      s.fault⟩) rest rfl hfault ⟨ev, hev, a, hdata, hshrunk.dead a halive hpos⟩
    refine ⟨.ret :: acts, s', ?_, hunsafe⟩
    rw [run, if_pos rfl, hret]
    exact hrun

/-- In the runs in which no callback removes or modifies a descriptor with an event later in the
batch, no freed entry is read and no callback of a removed descriptor is invoked. From any state of
such a run, a callback that does so can make the loop read a freed entry. -/
theorem dispatch_safe_of_spares (h : machine.ReachVia Spares s) :
    Safe s ∧ ∀ act s₁, machine.step s act = some s₁ → ¬ Spares s act →
      ∃ acts s', machine.run (fun _ _ => true) s₁ acts = some s' ∧ ¬ Safe s' := by
  have hi := inv_of_reachVia h
  refine ⟨hi.safe, fun act s₁ hs hnot => ?_⟩
  obtain ⟨xs, hgood⟩ := hi.good
  change step s act = some s₁ at hs
  unfold step at hs
  rw [if_neg (by simp [hi.safe.1])] at hs
  cases act with
  | mod fd events callback userData accepted allocated =>
    obtain ⟨r, l', xs', hmod, -, hshrunk⟩ :=
      hgood.modFd fd events callback userData accepted allocated
    obtain ⟨hpos, hpending⟩ : 0 ≤ fd ∧ Pending s fd := by simpa [Spares] using hnot
    dsimp only at hs
    split at hs
    · next hclient =>
      cases hs
      exact exists_unsafe_of_shrunk hi.safe.1 hclient hmod hshrunk hpos hpending
    · cases hs
  | del fd =>
    obtain ⟨r, l', xs', hdel, -, hshrunk, -⟩ := hgood.delFd fd
    obtain ⟨hpos, hpending⟩ : 0 ≤ fd ∧ Pending s fd := by simpa [Spares] using hnot
    dsimp only at hs
    split at hs
    · next hclient =>
      cases hs
      exact exists_unsafe_of_shrunk hi.safe.1 hclient hdel hshrunk hpos hpending
    · cases hs
  | _ => exact absurd trivial hnot

/-- Two descriptors are ready; the callback of the first one removes itself, a third descriptor and
then adds another. -/
theorem dispatch_safe_self : ∃ s, machine.ReachVia Spares s ∧ s.phase = .outside ∧
    Safe s := by
  let acts : List Act := [.add 4 1 9 0 true true, .add 5 1 9 0 true true, .add 6 1 9 0 true true,
    .wait [(4, 1), (3, 1), (5, 1)], .next, .del 4, .mod 6 1 8 0 true true, .add 7 1 9 0 true true,
    .ret, .next, .ret, .next, .ret, .next]
  let spared : State → Int → Bool := fun s fd => s.phase.rest.all fun ev => match ev.data with
    | .entry a => (s.loop.heap.cell a).all fun e => decide (e.fd ≠ fd)
    | _ => true
  let test : State → Act → Bool := fun s a => match a with
    | .del fd => spared s fd
    | .mod fd _ _ _ _ _ => spared s fd
    | _ => true
  have hpending : ∀ s fd, spared s fd = true → ¬ Pending s fd := by
    rintro s fd hall ⟨ev, hev, a, hdata, e, hcell, rfl⟩
    have := all_eq_true.mp hall ev hev
    simp [hdata, hcell] at this
  have htest : ∀ s a, test s a = true → Spares s a := by
    intro s a ha
    cases a with
    | del fd | mod fd events callback userData accepted allocated => exact fun _ => hpending s fd ha
    | _ => trivial
  have hstart : machine.ReachVia Spares (start 3) := .init ⟨3, rfl⟩
  obtain ⟨s, hreach, hphase⟩ := hstart.run_map (f := State.phase) (v := .outside) test htest acts
    (by decide +kernel)
  exact ⟨s, hreach, hphase, (dispatch_safe_of_spares hreach).1⟩

/-- The callback of the first of two ready descriptors removes the second one. -/
theorem dispatch_reads_freed : ∃ s, machine.Reach s ∧ s.fault = some .freed ∧ ¬ Safe s := by
  have hstart : machine.Reach (start 3) := .init ⟨3, rfl⟩
  refine hstart.exists_run (fun _ _ => true) (fun _ _ _ => trivial)
    [.add 4 1 9 0 true true, .add 5 1 9 0 true true, .wait [(4, 1), (5, 1)], .next, .del 5, .ret,
      .next] (by decide +kernel) fun s _ hfault hsafe => ?_
  simp [Safe, hfault] at hsafe

end Cobalt.EventLoop.Dispatch
