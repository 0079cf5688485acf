/-
Cobalt.Container.HashMapTable — the loops of the hash map on its slots.

`Table` is what holds of the slot array between and inside the operations:
entries stand where their distance says, and distances grow by at most one
from slot to slot. `contents` forgets where the entries stand. An insertion
adds one entry to the contents and the backward shift takes one away; both
keep `Table` at every turn of their loops.
-/
import Cobalt.Lib.Probe
import Cobalt.Container.HashMap

namespace Cobalt.Container.HashMap

open Multiset Finset UInt32
open Nat (mod_eq_of_lt mod_lt ModEq)

open Function (update update_self update_of_ne)

variable {K : Type} {n : Nat} {slots : Nat → Slot K}

/-! ## Slots -/

/-- Zero for an empty slot, and one more than the probe length for a full
one. -/
def Slot.dist (s : Slot K) : Nat := if s.psl = emptyPsl then 0 else s.psl.toNat + 1

/-- The entry of a full slot: its key, its value and its hash. -/
def Slot.content (s : Slot K) : Multiset (K × Ptr × UInt32) :=
  if s.psl = emptyPsl then 0
  else match s.key with
    | some key => {(key, s.value, s.hash)}
    | none => 0

lemma content_init : (Slot.init : Slot K).content = 0 := rfl

variable {s curr : Slot K}

lemma dist_of_full (h : s.psl ≠ emptyPsl) : s.dist = s.psl.toNat + 1 := if_neg h


lemma dist_of_empty (h : s.psl = emptyPsl) : s.dist = 0 := if_pos h


lemma dist_ne_zero : s.dist ≠ 0 ↔ s.psl ≠ emptyPsl := by
  unfold Slot.dist
  split <;> simp_all

lemma content_of_full {key : K} (h : s.psl ≠ emptyPsl) (hk : s.key = some key) :
    s.content = {(key, s.value, s.hash)} := by
  rw [Slot.content, if_neg h, hk]

/-- The entries of an array of `n` slots. -/
def contents (n : Nat) (slots : Nat → Slot K) : Multiset (K × Ptr × UInt32) :=
  ∑ i ∈ Finset.range n, (slots i).content

variable {i : Nat}

lemma contents_update (slots : Nat → Slot K) (hi : i < n) (s : Slot K) :
    contents n (update slots i s) + (slots i).content = contents n slots + s.content := by
  unfold contents
  rw [← add_sum_erase _ _ (mem_range.mpr hi),
    ← add_sum_erase _ (fun j => (slots j).content) (mem_range.mpr hi), update_self]
  have hrest : ∀ j ∈ (Finset.range n).erase i,
      (update slots i s j).content = (slots j).content := fun j hj => by
    rw [update_of_ne (ne_of_mem_erase hj)]
  rw [sum_congr rfl hrest, add_comm, add_comm s.content, add_assoc]

/-- The entry of one slot and the others. -/
lemma contents_split (slots : Nat → Slot K) (hi : i < n) :
    contents n slots = contents n (update slots i .init) + (slots i).content := by
  rw [contents_update slots hi, content_init, add_zero]

/-! ## The invariant -/

/-- The slot array of a map. -/
structure Table (n : Nat) (slots : Nat → Slot K) : Prop where
  linked : Linked n fun i => (slots i).dist
  home : ∀ i < n, (slots i).psl ≠ emptyPsl →
    ((slots i).hash.toNat % n + (slots i).psl.toNat) % n = i
  keyed : ∀ i < n, (slots i).psl ≠ emptyPsl → ∃ key, (slots i).key = some key

variable {p k : Nat}

namespace Table

lemma init (n : Nat) : Table n fun _ => (Slot.init : Slot K) where
  linked := .zero n
  home _ _ h := absurd rfl h
  keyed _ _ h := absurd rfl h

lemma dist_update (i : Nat) (s : Slot K) :
    (fun j => (update slots i s j).dist)
      = update (fun j => (slots j).dist) i s.dist := by
  funext j
  by_cases hj : j = i
  · subst hj
    simp
  · simp [update_of_ne hj]

lemma card_content (h : Table n slots) (hi : i < n) :
    (slots i).content.card = if (slots i).psl = emptyPsl then 0 else 1 := by
  split
  · rename_i he
    rw [Slot.content, if_pos he]
    rfl
  · rename_i he
    obtain ⟨key, hk⟩ := h.keyed i hi he
    rw [content_of_full he hk]
    rfl

lemma card_contents (h : Table n slots) :
    (contents n slots).card = ((Finset.range n).filter fun i => (slots i).psl ≠ emptyPsl).card := by
  unfold contents
  rw [card_sum, card_filter]
  refine sum_congr rfl fun i hi => ?_
  rw [h.card_content (Finset.mem_range.mp hi)]
  split <;> simp_all

lemma exists_empty (h : Table n slots) (hlt : (contents n slots).card < n) :
    ∃ e < n, (slots e).psl = emptyPsl := by
  by_contra hall
  push Not at hall
  rw [h.card_contents, filter_true_of_mem fun i hi => hall i (mem_range.mp hi),
    Finset.card_range] at hlt
  exact lt_irrefl n hlt

/-- No entry is further from its home than there are entries. -/
lemma dist_le (h : Table n slots) (hlt : (contents n slots).card < n) (hi : i < n) :
    (slots i).dist ≤ (contents n slots).card := by
  obtain ⟨e, he, hempty⟩ := h.exists_empty hlt
  have hn : 0 < n := by omega
  obtain ⟨j, hj, rfl⟩ := exists_add_mod (p := e) hn hi
  have hzero : (slots (e % n)).dist = 0 := by
    rw [mod_eq_of_lt he]
    exact dist_of_empty hempty
  refine (h.linked.le_count hzero j).trans ?_
  rw [Nat.count_eq_card_filter_range, h.card_contents]
  -- the slots passed are different ones, and full
  refine card_le_card_of_injOn (fun k => (e + 1 + k) % n) ?_ ?_
  · intro k hk
    have hk' := mem_filter.mp hk
    exact mem_filter.mpr ⟨mem_range.mpr (mod_lt _ hn), dist_ne_zero.mp hk'.2⟩
  · intro k hk k' hk' heq
    have h1 := Finset.mem_range.mp (Finset.mem_filter.mp hk).1
    have h2 := Finset.mem_range.mp (Finset.mem_filter.mp hk').1
    rcases Nat.lt_trichotomy k k' with hlt | heq' | hgt
    · exact absurd heq (mod_ne_of_window (by omega) (by omega))
    · exact heq'
    · exact absurd heq.symm (mod_ne_of_window (by omega) (by omega))

/-- A slot takes an entry that stands there at its distance, one more at most
than the slot before, and no less than the entry that was there. -/
lemma write (h : Table n slots) (hn : 1 < n) (hprev : s.dist ≤ (slots (p % n)).dist + 1)
    (hnext : (slots ((p + 2) % n)).dist ≤ s.dist + 1)
    (hhome : s.psl ≠ emptyPsl → (s.hash.toNat % n + s.psl.toNat) % n = (p + 1) % n)
    (hkey : s.psl ≠ emptyPsl → ∃ key, s.key = some key) :
    Table n (update slots ((p + 1) % n) s) where
  linked := by
    rw [dist_update]
    exact h.linked.update hn hprev hnext
  home i hi := by
    by_cases hp : i = (p + 1) % n
    · subst hp
      rw [update_self]
      exact hhome
    · rw [update_of_ne hp]
      exact h.home i hi
  keyed i hi := by
    by_cases hp : i = (p + 1) % n
    · subst hp
      rw [update_self]
      exact hkey
    · rw [update_of_ne hp]
      exact h.keyed i hi

lemma setValue (h : Table n slots) (i : Nat) (value : Ptr) :
    Table n (update slots i { slots i with value := value }) where
  linked := by
    rw [dist_update]
    exact (Function.update_eq_self i fun j => (slots j).dist).symm ▸ h.linked
  home j hj := by
    by_cases hji : j = i
    · subst hji
      rw [update_self]
      exact h.home j hj
    · rw [update_of_ne hji]
      exact h.home j hj
  keyed j hj := by
    by_cases hji : j = i
    · subst hji
      rw [update_self]
      exact h.keyed j hj
    · rw [update_of_ne hji]
      exact h.keyed j hj

end Table

/-! ## Masks and words -/

lemma and_mask (x : Nat) : x &&& (2 ^ k - 1) = x % 2 ^ k := Nat.and_two_pow_sub_one_eq_mod x k

variable {x hash : UInt32}

lemma toNat_succ (h : x.toNat + 1 < 2 ^ 32) : (x + 1).toNat = x.toNat + 1 := by
  rw [UInt32.toNat_add, UInt32.toNat_one, mod_eq_of_lt h]

lemma toNat_pred (h : 0 < x.toNat) : (x - 1).toNat = x.toNat - 1 := by
  have hle : 1 ≤ x := by
    rw [le_iff_toNat_le, toNat_one]
    omega
  rw [UInt32.toNat_sub_of_le _ _ hle, UInt32.toNat_one]

lemma ne_emptyPsl : x ≠ emptyPsl ↔ x.toNat < 2 ^ 32 - 1 := by
  have hx := x.toNat_lt
  rw [Ne, ← UInt32.toNat_inj]
  have : emptyPsl.toNat = 2 ^ 32 - 1 := rfl
  omega

lemma pred_ne_emptyPsl (h : 0 < x.toNat) : x - 1 ≠ emptyPsl := by
  have := x.toNat_lt
  rw [ne_emptyPsl, toNat_pred h]
  omega

/-! ## Inserting -/

/-- The entry an insertion carries, at the slot after position `p`. -/
structure Carried (n : Nat) (slots : Nat → Slot K) (p : Nat) (curr : Slot K) : Prop where
  full : curr.psl ≠ emptyPsl
  reach : curr.psl.toNat ≤ (slots (p % n)).dist
  home : (curr.hash.toNat % n + curr.psl.toNat) % n = (p + 1) % n
  keyed : ∃ key, curr.key = some key

lemma next_mod (home psl p n : Nat) (h : (home + psl) % n = (p + 1) % n) :
    (home + (psl + 1)) % n = (p + 2) % n := ModEq.add_right 1 h

/-- The slot is full and further from home than the carried entry, or as
far: the entry is carried past it. -/
lemma Carried.pass (h : Carried n slots p curr) (hfull : (slots ((p + 1) % n)).psl ≠ emptyPsl)
    (hle : curr.psl.toNat ≤ (slots ((p + 1) % n)).psl.toNat)
    (hsmall : (slots ((p + 1) % n)).dist < 2 ^ 32 - 1) :
    Carried n slots (p + 1) { curr with psl := curr.psl + 1 } := by
  rw [dist_of_full hfull] at hsmall
  have hsucc := toNat_succ (x := curr.psl) (by omega)
  refine ⟨?_, ?_, ?_, h.keyed⟩
  · rw [ne_emptyPsl, hsucc]
    omega
  · rw [dist_of_full hfull, hsucc]
    omega
  · rw [hsucc]
    exact next_mod _ _ _ _ h.home

lemma Carried.swap (h : Table n slots) (hn : 0 < n) (hc : Carried n slots p curr)
    (hfull : (slots ((p + 1) % n)).psl ≠ emptyPsl)
    (hlt : (slots ((p + 1) % n)).psl.toNat < curr.psl.toNat) :
    Carried n (update slots ((p + 1) % n) curr) (p + 1)
      { slots ((p + 1) % n) with psl := (slots ((p + 1) % n)).psl + 1 } := by
  have hcurr := ne_emptyPsl.mp hc.full
  have hsucc := toNat_succ (x := (slots ((p + 1) % n)).psl) (by omega)
  refine ⟨?_, ?_, ?_, h.keyed _ (mod_lt _ hn) hfull⟩
  · rw [ne_emptyPsl, hsucc]
    omega
  · rw [update_self, dist_of_full hc.full, hsucc]
    omega
  · rw [hsucc]
    refine next_mod _ _ _ _ ?_
    rw [h.home _ (mod_lt _ hn) hfull]

lemma content_psl {psl : UInt32} (h : s.psl ≠ emptyPsl) (h' : psl ≠ emptyPsl) :
    { s with psl := psl }.content = s.content := by
  simp [Slot.content, h, h']

lemma index_succ (q : Nat) : (q % 2 ^ k + 1) &&& (2 ^ k - 1) = (q + 1) % 2 ^ k := by
  rw [and_mask, Nat.mod_add_mod]

lemma Table.place (h : Table n slots) (hn : 1 < n) (hc : Carried n slots p curr)
    (hle : (slots ((p + 1) % n)).dist ≤ curr.dist) : Table n (update slots ((p + 1) % n) curr) := by
  refine h.write hn ?_ ?_ (fun _ => hc.home) (fun _ => hc.keyed)
  · have := hc.reach
    rw [dist_of_full hc.full]
    omega
  · have hnext : (slots ((p + 2) % n)).dist ≤ (slots ((p + 1) % n)).dist + 1 := h.linked (p + 1)
    omega

/-- The loop comes to an empty slot, with the carried entry added to the
contents. -/
lemma insertLoop_spec (hk : 0 < k) (m fuel : Nat) (h : Table (2 ^ k) slots)
    (hc : Carried (2 ^ k) slots p curr) (hcard : (contents (2 ^ k) slots).card < 2 ^ k)
    (hsmall : (contents (2 ^ k) slots).card < 2 ^ 32 - 1)
    (hempty : (slots ((p + 1 + m) % 2 ^ k)).psl = emptyPsl) (hfuel : m < fuel) :
    ∃ slots', insertLoop (2 ^ k - 1) fuel slots ((p + 1) % 2 ^ k) curr = some slots' ∧
      Table (2 ^ k) slots' ∧ contents (2 ^ k) slots' = contents (2 ^ k) slots + curr.content := by
  have hn : 1 < 2 ^ k := Nat.one_lt_two_pow (by omega)
  induction fuel generalizing m slots p curr with
  | zero => omega
  | succ fuel ih =>
    have hidx : (p + 1) % 2 ^ k < 2 ^ k := mod_lt _ (by omega)
    have hupdate := contents_update slots hidx curr
    rw [insertLoop, index_succ]
    by_cases he : (slots ((p + 1) % 2 ^ k)).psl = emptyPsl
    · rw [if_pos he]
      refine ⟨_, rfl, h.place hn hc (by rw [dist_of_empty he]; omega), ?_⟩
      rwa [Slot.content, if_pos he, add_zero] at hupdate
    · rw [if_neg he]
      -- the empty slot is one of those to come
      obtain ⟨m, rfl⟩ : ∃ m', m = m' + 1 := Nat.exists_eq_add_one_of_ne_zero fun h0 => by
        rw [h0] at hempty
        exact he hempty
      have hnext : p + 1 + (m + 1) = p + 1 + 1 + m := by omega
      rw [hnext] at hempty
      by_cases hlt : (slots ((p + 1) % 2 ^ k)).psl < curr.psl
      · rw [if_pos hlt]
        have hlt' := lt_iff_toNat_lt.mp hlt
        have hswap := hc.swap h (by omega) he hlt'
        have htable := h.place hn hc (by rw [dist_of_full he, dist_of_full hc.full]; omega)
        have hcontent := content_psl he hswap.full
        have hcards : (contents (2 ^ k) (update slots ((p + 1) % 2 ^ k) curr)).card
            = (contents (2 ^ k) slots).card := by
          obtain ⟨key, hkey⟩ := h.keyed _ hidx he
          obtain ⟨key', hkey'⟩ := hc.keyed
          have := congrArg Multiset.card hupdate
          rw [card_add, card_add, content_of_full he hkey, content_of_full hc.full hkey'] at this
          simpa using this
        have hempty' : (update slots ((p + 1) % 2 ^ k) curr
            ((p + 1 + 1 + m) % 2 ^ k)).psl = emptyPsl := by
          rw [update_of_ne]
          · exact hempty
          · intro heq
            rw [heq] at hempty
            exact he hempty
        obtain ⟨slots', hloop, htable', hadd⟩ := ih m htable hswap (by rwa [hcards])
          (by rwa [hcards]) hempty' (by omega)
        exact ⟨slots', hloop, htable', by rw [hadd, hcontent, hupdate]⟩
      · rw [if_neg hlt]
        have hle : curr.psl.toNat ≤ (slots ((p + 1) % 2 ^ k)).psl.toNat :=
          Nat.le_of_not_lt fun hlt' => hlt (lt_iff_toNat_lt.mpr hlt')
        have hpass := hc.pass he hle ((h.dist_le hcard hidx).trans_lt hsmall)
        obtain ⟨slots', hloop, htable', hadd⟩ := ih m h hpass hcard hsmall hempty (by omega)
        exact ⟨slots', hloop, htable', by rw [hadd, content_psl hc.full hpass.full]⟩

lemma robinHoodInsertEntry_spec {key : K} (entry : Slot K) (hk : 0 < k) (h : Table (2 ^ k) slots)
    (hcard : (contents (2 ^ k) slots).card < 2 ^ k)
    (hsmall : (contents (2 ^ k) slots).card < 2 ^ 32 - 1) (hkey : entry.key = some key) :
    ∃ slots', robinHoodInsertEntry (2 ^ k) slots (2 ^ k - 1) entry = some slots' ∧
      Table (2 ^ k) slots' ∧
      contents (2 ^ k) slots' = contents (2 ^ k) slots + {(key, entry.value, entry.hash)} := by
  have hn : 1 < 2 ^ k := Nat.one_lt_two_pow (by omega)
  have hpos : entry.hash.toNat % 2 ^ k = (entry.hash.toNat + 2 ^ k - 1 + 1) % 2 ^ k := by
    rw [Nat.sub_add_cancel (by omega), Nat.add_mod_right]
  obtain ⟨e, he, hempty⟩ := h.exists_empty hcard
  obtain ⟨m, hm, rfl⟩ := exists_add_mod (p := entry.hash.toNat + 2 ^ k - 1 + 1) (by omega) he
  have hcarried : Carried (2 ^ k) slots (entry.hash.toNat + 2 ^ k - 1) { entry with psl := 0 } :=
    ⟨show (0 : UInt32) ≠ emptyPsl by decide, Nat.zero_le _, by simpa using hpos, key, hkey⟩
  obtain ⟨slots', hloop, htable, hadd⟩ := insertLoop_spec hk m _ h hcarried hcard hsmall hempty hm
  refine ⟨slots', ?_, htable, ?_⟩
  · rw [robinHoodInsertEntry, and_mask, hpos]
    exact hloop
  · rw [hadd, content_of_full hcarried.full hkey]

/-! ## Shifting back -/

lemma dist_pred (h : 0 < s.psl.toNat) : { s with psl := s.psl - 1 }.dist = s.psl.toNat := by
  rw [dist_of_full (pred_ne_emptyPsl h), toNat_pred h, Nat.sub_add_cancel h]

lemma Table.shift (h : Table n slots) (hn : 1 < n) (hfull : (slots ((p + 2) % n)).psl ≠ emptyPsl)
    (hpos : 0 < (slots ((p + 2) % n)).psl.toNat) :
    Table n (update slots ((p + 1) % n)
      { slots ((p + 2) % n) with psl := (slots ((p + 2) % n)).psl - 1 }) := by
  have hidx : (p + 2) % n < n := mod_lt _ (by omega)
  have hpred := toNat_pred hpos
  have h1 : (slots ((p + 1) % n)).dist ≤ (slots (p % n)).dist + 1 := h.linked p
  have h2 : (slots ((p + 2) % n)).dist ≤ (slots ((p + 1) % n)).dist + 1 := h.linked (p + 1)
  have hdist := dist_of_full hfull
  refine h.write hn ?_ ?_ (fun _ => ?_) (fun _ => h.keyed _ hidx hfull)
  · rw [dist_pred hpos]
    omega
  · rw [dist_pred hpos]
    omega
  · have hhome := h.home _ hidx hfull
    rw [hpred]
    refine ModEq.add_right_cancel' 1 ?_
    rw [ModEq, add_assoc, Nat.sub_add_cancel hpos, hhome]

lemma shiftLoop_spec (hk : 0 < k) (m fuel : Nat) {rest : Multiset (K × Ptr × UInt32)}
    (h : Table (2 ^ k) slots) (hfull : (slots ((p + 1) % 2 ^ k)).psl ≠ emptyPsl)
    (hrest : contents (2 ^ k) slots = rest + (slots ((p + 1) % 2 ^ k)).content)
    (hempty : (slots ((p + 2 + m) % 2 ^ k)).psl = emptyPsl) (hfuel : m < fuel) :
    ∃ slots', shiftLoop (2 ^ k - 1) fuel slots ((p + 1) % 2 ^ k) = some slots' ∧
      Table (2 ^ k) slots' ∧ contents (2 ^ k) slots' = rest := by
  have hn : 1 < 2 ^ k := Nat.one_lt_two_pow (by omega)
  induction fuel generalizing m slots p with
  | zero => omega
  | succ fuel ih =>
    have hidx : (p + 1) % 2 ^ k < 2 ^ k := mod_lt _ (by omega)
    rw [shiftLoop, index_succ]
    dsimp only
    rw [show p + 1 + 1 = p + 2 from rfl]
    by_cases hstop : (slots ((p + 2) % 2 ^ k)).psl = emptyPsl ∨ (slots ((p + 2) % 2 ^ k)).psl = 0
    · rw [if_pos hstop]
      have hupdate := contents_update slots hidx (Slot.init : Slot K)
      rw [content_init, add_zero, hrest] at hupdate
      refine ⟨_, rfl, ?_, Multiset.add_left_inj.mp hupdate⟩
      refine h.write hn (Nat.zero_le _) ?_ (fun hne => absurd rfl hne) (fun hne => absurd rfl hne)
      rcases hstop with he | hz
      · rw [dist_of_empty he]
        omega
      · rw [Slot.dist, hz]
        exact le_refl 1
    · rw [if_neg hstop]
      rw [not_or] at hstop
      obtain ⟨hfull', hne⟩ := hstop
      have hpos : 0 < (slots ((p + 2) % 2 ^ k)).psl.toNat :=
        pos_of_ne_zero fun h0 => hne (UInt32.toNat_inj.mp h0)
      obtain ⟨m, rfl⟩ : ∃ m', m = m' + 1 := Nat.exists_eq_add_one_of_ne_zero fun h0 => by
        rw [h0] at hempty
        exact hfull' hempty
      have hindex : (p + 2) % 2 ^ k ≠ (p + 1) % 2 ^ k :=
        (mod_ne_of_window (Nat.lt_succ_self (p + 1)) (by omega)).symm
      have hupdate := contents_update slots hidx
        { slots ((p + 2) % 2 ^ k) with psl := (slots ((p + 2) % 2 ^ k)).psl - 1 }
      have hmoved := h.shift hn hfull' hpos
      rw [content_psl hfull' (pred_ne_emptyPsl hpos), hrest, add_right_comm] at hupdate
      refine ih m hmoved (p := p + 1) ?_ ?_ ?_ (by omega)
      · rw [update_of_ne hindex]
        exact hfull'
      · rw [update_of_ne hindex]
        exact Multiset.add_left_inj.mp hupdate
      · rw [show p + 1 + 2 + m = p + 2 + (m + 1) by omega, update_of_ne]
        · exact hempty
        · intro heq
          rw [heq] at hempty
          exact hfull hempty

/-! ## Finding -/

section Find

variable [DecidableEq K]

lemma findLoop_miss {key : K} (m fuel : Nat) {curPsl : UInt32}
    (habsent : ∀ i < 2 ^ k, (slots i).psl ≠ emptyPsl → (slots i).key ≠ some key)
    (hempty : (slots ((p + m) % 2 ^ k)).psl = emptyPsl) (hfuel : m < fuel) :
    findLoop slots (2 ^ k - 1) key hash fuel (p % 2 ^ k) curPsl = some none := by
  induction fuel generalizing m p curPsl with
  | zero => omega
  | succ fuel ih =>
    rw [findLoop, index_succ]
    by_cases he : (slots (p % 2 ^ k)).psl = emptyPsl
    · rw [if_pos he]
    · rw [if_neg he]
      split
      · rfl
      · have hne := habsent _ (mod_lt p (Nat.two_pow_pos k)) he
        rw [if_neg fun hand => hne hand.2]
        obtain ⟨m, rfl⟩ : ∃ m', m = m' + 1 := Nat.exists_eq_add_one_of_ne_zero fun h0 => by
          rw [h0] at hempty
          exact he hempty
        exact ih m (by rwa [show p + 1 + m = p + (m + 1) by omega]) (by omega)

/-- The key of a slot is found there: no slot before it lets the loop stop. -/
lemma findLoop_hit {key : K} {j r fuel : Nat} (h : Table (2 ^ k) slots) (hi : i < 2 ^ k)
    (hfull : (slots i).psl ≠ emptyPsl) (hkey : (slots i).key = some key)
    (hhash : (slots i).hash = hash)
    (hunique : ∀ i' < 2 ^ k, (slots i').psl ≠ emptyPsl → (slots i').key = some key → i' = i)
    (hlt : (slots i).psl.toNat < 2 ^ k) (hr : j + r = (slots i).psl.toNat) (hfuel : r < fuel) :
    findLoop slots (2 ^ k - 1) key hash fuel ((hash.toNat + j) % 2 ^ k) (UInt32.ofNat j)
      = some (some i) := by
  have hword := (slots i).psl.toNat_lt
  have hhome := h.home i hi hfull
  rw [hhash, Nat.mod_add_mod] at hhome
  induction fuel generalizing j r with
  | zero => omega
  | succ fuel ih =>
    -- the slot is at least as far from its home as the loop has come
    have hback : (slots i).dist ≤ (slots ((hash.toNat + j) % 2 ^ k)).dist + r := by
      have := h.linked.le_add (hash.toNat + j) r
      rwa [add_assoc, hr, hhome] at this
    rw [dist_of_full hfull] at hback
    have hfull' : (slots ((hash.toNat + j) % 2 ^ k)).psl ≠ emptyPsl := dist_ne_zero.mp (by omega)
    rw [dist_of_full hfull'] at hback
    have hj : (UInt32.ofNat j).toNat = j := by
      rw [toNat_ofNat', mod_eq_of_lt (by omega)]
    rw [findLoop, index_succ, if_neg hfull', if_neg]
    · cases r with
      | zero =>
        have heq : (hash.toNat + j) % 2 ^ k = i := by
          rwa [← hr, add_zero] at hhome
        rw [heq, if_pos ⟨hhash, hkey⟩]
      | succ r =>
        rw [if_neg]
        · have hnext := ih (j := j + 1) (r := r) (by omega) (by omega)
          rw [← hnext]
          congr 1
          apply UInt32.toNat_inj.mp
          rw [toNat_succ (by omega), hj, UInt32.toNat_ofNat', mod_eq_of_lt (by omega)]
        · rintro ⟨-, hkey'⟩
          have heq := hunique _ (mod_lt _ (Nat.two_pow_pos k)) hfull' hkey'
          exact mod_ne_of_window (by omega) (by omega) (heq.trans hhome.symm)
    · rw [lt_iff_toNat_lt, hj]
      omega

end Find

end Cobalt.Container.HashMap
