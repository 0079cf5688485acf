/-
Cobalt.Container.HashMapTheorems — the hash map is a finite map.

`Maps` says which map a collection of entries stands for; each operation
changes the collection as the map changes. The probe lengths are 32 bit
words and the largest one marks an empty slot, so that a map may hold at
most 2 ^ 32 - 1 keys: with one more key of the same hash the last entry is
written with the mark of an empty slot, and is lost.
-/
import Cobalt.Container.HashMapTable

namespace Cobalt.Container.HashMap

open List UInt32 HashMap
open UInt32 (ofNat toNat lt_irrefl)
open Option (bind_eq_bind bind_some map_some)
open Nat (log2 pow_lt_pow_right mod_eq_of_lt clog one_lt_two two_pow_pos zero_le)

open Function (update update_apply Injective)

variable {K : Type}

/-! ## Capacities -/

lemma nextPow2_eq (v : Nat) :
    nextPow2 v = (let y := (smear 6 ((v + 2 ^ 64 - 1) % 2 ^ 64) + 1) % 2 ^ 64
      if y < 2 then 2 else y) := rfl

lemma nextPow2_pow (v : Nat) : ∃ k, 0 < k ∧ k < 64 ∧ nextPow2 v = 2 ^ k := by
  rw [nextPow2_eq]
  have hx : (v + 2 ^ 64 - 1) % 2 ^ 64 < 2 ^ 64 := Nat.mod_lt _ (by decide)
  generalize (v + 2 ^ 64 - 1) % 2 ^ 64 = x at hx
  dsimp only
  by_cases h0 : x = 0
  · subst h0
    exact ⟨1, by omega, by omega, rfl⟩
  · have hlog : log2 x < 64 := (Nat.log2_lt h0).mpr hx
    rw [smear_eq h0 hx, Nat.sub_add_cancel (Nat.one_le_two_pow)]
    by_cases htop : log2 x + 1 = 64
    · rw [htop]
      exact ⟨1, by omega, by omega, rfl⟩
    · have hlt : 2 ^ (log2 x + 1) < 2 ^ 64 := pow_lt_pow_right (by omega) (by omega)
      have hge : 2 ≤ 2 ^ (log2 x + 1) := Nat.le_self_pow (by omega) 2
      rw [mod_eq_of_lt hlt, if_neg (by omega)]
      exact ⟨_, by omega, by omega, rfl⟩

lemma nextPow2_eq_clog {v : Nat} (hv : 1 < v) (hword : v < 2 ^ 64) :
    nextPow2 v = if clog 2 v < 64 then 2 ^ clog 2 v else 2 := by
  have hx : (v + 2 ^ 64 - 1) % 2 ^ 64 = v - 1 := by omega
  have hclog : Nat.log2 (v - 1) + 1 = Nat.clog 2 v := by
    apply le_antisymm
    · rw [Nat.succ_le_iff, Nat.lt_clog_iff_pow_lt Nat.one_lt_two]
      have := Nat.log2_self_le (n := v - 1) (by omega)
      omega
    · rw [Nat.clog_le_iff_le_pow Nat.one_lt_two]
      have := Nat.lt_log2_self (n := v - 1)
      omega
  rw [nextPow2_eq, hx, smear_eq (by omega) (by omega), hclog, Nat.sub_add_cancel Nat.one_le_two_pow]
  dsimp only
  by_cases hlt : clog 2 v < 64
  · have hpos : 2 ≤ 2 ^ clog 2 v := hclog ▸ Nat.le_self_pow (by omega) 2
    rw [if_pos hlt, mod_eq_of_lt (pow_lt_pow_right (by omega) hlt), if_neg (by omega)]
  · have htop : clog 2 v = 64 :=
      le_antisymm (Nat.clog_le_of_le_pow (by omega)) (Nat.le_of_not_lt hlt)
    rw [htop]
    rfl

variable {k j i : Nat}

lemma nextPow2_of_pow (hk : 0 < k) (hlt : k < 64) : nextPow2 (2 ^ k) = 2 ^ k := by
  have hpos : 1 < 2 ^ k := Nat.one_lt_two_pow (by omega)
  have hword : 2 ^ k < 2 ^ 64 := Nat.pow_lt_pow_right (by omega) hlt
  rw [nextPow2_eq_clog hpos hword, Nat.clog_pow 2 k Nat.one_lt_two, if_pos hlt]

lemma loadOf_lt : loadOf (2 ^ k) < 2 ^ k := by
  have hpos := two_pow_pos k
  have := Nat.mod_le (2 ^ k * 3) (2 ^ 64)
  unfold loadOf
  omega

lemma loadOf_eq (hk : k < 63) : loadOf (2 ^ k) = 2 ^ k * 3 / 4 := by
  have : 2 ^ k ≤ 2 ^ 62 := Nat.pow_le_pow_right (by omega) (by omega)
  unfold loadOf
  rw [mod_eq_of_lt (by omega)]

/-! ## Collections of entries as maps -/

/-- The entries are those of a map, each with the hash of its key. -/
structure Maps (hash : K → UInt32) (entries : Multiset (K × Ptr × UInt32)) (m : K → Option Ptr) :
    Prop where
  mem : ∀ key value h, (key, value, h) ∈ entries ↔ m key = some value ∧ h = hash key
  nodup : (entries.map Prod.fst).Nodup

namespace Maps

variable {hash : K → UInt32} {C : Multiset (K × Ptr × UInt32)} {m : K → Option Ptr} {key : K}
  {value : Ptr} {h : UInt32}

lemma empty (hash : K → UInt32) : Maps hash 0 fun _ => none :=
  ⟨by simp, by simp⟩

lemma eq_none (hC : Maps hash C m) (habsent : ∀ value h, (key, value, h) ∉ C) : m key = none := by
  cases hm : m key with
  | none => rfl
  | some value => exact absurd ((hC.mem key value (hash key)).mpr ⟨hm, rfl⟩) (habsent _ _)

lemma insert [DecidableEq K] (hC : Maps hash C m) (value : Ptr) (hnew : m key = none) :
    Maps hash (C + {(key, value, hash key)}) (update m key (some value)) where
  mem key' value' h' := by
    rw [Multiset.mem_add, Multiset.mem_singleton, hC.mem]
    by_cases hk : key' = key
    · subst hk
      simp [hnew, eq_comm]
    · simp [hk]
  nodup := by
    rw [Multiset.map_add, Multiset.map_singleton, Multiset.nodup_add]
    refine ⟨hC.nodup, Multiset.nodup_singleton _, ?_⟩
    rw [Multiset.disjoint_singleton]
    intro hmem
    obtain ⟨⟨k, v, h⟩, hin, rfl⟩ := Multiset.mem_map.mp hmem
    rw [hC.mem, hnew] at hin
    cases hin.1

lemma erase [DecidableEq K] (hC : Maps hash (C + {(key, value, h)}) m) :
    Maps hash C (update m key none) where
  mem key' value' h' := by
    have hnodup := hC.nodup
    rw [Multiset.map_add, Multiset.map_singleton, Multiset.nodup_add,
      Multiset.disjoint_singleton] at hnodup
    by_cases hk : key' = key
    · subst hk
      refine iff_of_false (fun hmem => hnodup.2.2 ?_) (by simp)
      exact Multiset.mem_map.mpr ⟨_, hmem, rfl⟩
    · rw [Function.update_of_ne hk, ← hC.mem, Multiset.mem_add, Multiset.mem_singleton]
      simp [hk]
  nodup := by
    have hnodup := hC.nodup
    rw [Multiset.map_add, Multiset.nodup_add] at hnodup
    exact hnodup.1

lemma ncard [DecidableEq K] (hC : Maps hash C m) : {key | m key ≠ none}.ncard = C.card := by
  have hset : {key | m key ≠ none} = ((C.map Prod.fst).toFinset : Set K) := by
    ext key
    simp only [Set.mem_ofPred_eq, Finset.mem_coe, Multiset.mem_toFinset, Multiset.mem_map,
      Prod.exists, exists_and_right, exists_eq_right]
    constructor
    · intro hm
      obtain ⟨value, hv⟩ := Option.ne_none_iff_exists'.mp hm
      exact ⟨value, hash key, (hC.mem _ _ _).mpr ⟨hv, rfl⟩⟩
    · rintro ⟨value, h, hmem⟩
      rw [((hC.mem _ _ _).mp hmem).1]
      nofun
  rw [hset, Set.ncard_coe_finset, Multiset.toFinset_card_of_nodup hC.nodup, Multiset.card_map]

end Maps

/-! ## The representation -/

/-- A slot array in use. -/
structure Allocated (impl : Impl K) (k : Nat) : Prop where
  pos : 0 < k
  lt : k < 64
  capacity : impl.capacity = 2 ^ k
  mask : impl.mask = 2 ^ k - 1
  maxLoad : impl.maxLoad = loadOf (2 ^ k)
  load : impl.size ≤ impl.maxLoad
  table : Table (2 ^ k) impl.slots

/-- The state of a map stands for `m`. -/
structure Represents (hash : K → UInt32) (impl : Impl K) (m : K → Option Ptr) : Prop where
  maps : Maps hash (contents impl.capacity impl.slots) m
  size : impl.size = (contents impl.capacity impl.slots).card
  bounded : impl.size < 2 ^ 32
  array : impl.capacity = 0 ∨ ∃ k, Allocated impl k

lemma contents_init (n : Nat) : contents n (fun _ => (Slot.init : Slot K)) = 0 :=
  Finset.sum_const_zero

lemma create_capacity_le {initialBuckets : UInt64} (h : initialBuckets ≤ 2 ^ 58) :
    (create initialBuckets : Impl K).capacity ≤ 2 ^ 58 := by
  have hle : initialBuckets.toNat ≤ 2 ^ 58 := UInt64.le_iff_toNat_le.mp h
  unfold HashMap.create
  split
  · rename_i hpos
    have hpos : 0 < initialBuckets.toNat := UInt64.lt_iff_toNat_lt.mp hpos
    dsimp only
    rcases Nat.lt_or_ge 1 initialBuckets.toNat with hone | hone
    · have hlog := (Nat.clog_le_iff_le_pow Nat.one_lt_two).mpr hle
      rw [nextPow2_eq_clog hone (by omega), if_pos (by omega)]
      exact Nat.pow_le_pow_right (by omega) hlog
    · rw [show initialBuckets.toNat = 1 by omega]
      decide
  · exact Nat.zero_le _

lemma Represents.create (hash : K → UInt32) (initialBuckets : UInt64) :
    Represents hash (create initialBuckets : Impl K) fun _ => none := by
  unfold HashMap.create
  split
  · obtain ⟨k, hk, hlt, hcap⟩ := nextPow2_pow initialBuckets.toNat
    refine ⟨?_, ?_, by dsimp only; omega, Or.inr ⟨k, hk, hlt, hcap, ?_, ?_, zero_le _, .init _⟩⟩
    · rw [contents_init]
      exact .empty hash
    · rw [contents_init]
      rfl
    · dsimp only
      rw [hcap]
    · dsimp only
      rw [hcap]
  · refine ⟨?_, ?_, by dsimp only; omega, Or.inl rfl⟩
    · rw [contents_init]
      exact .empty hash
    · rw [contents_init]
      rfl

variable {hash : K → UInt32} {impl impl' : Impl K} {m : K → Option Ptr} {key : K} {value : Ptr}

variable {slots : Nat → Slot K}

lemma mem_contents {n : Nat} {e : K × Ptr × UInt32} :
    e ∈ contents n slots ↔ ∃ i < n, (slots i).psl ≠ emptyPsl ∧ (slots i).key = some e.1 ∧
      (slots i).value = e.2.1 ∧ (slots i).hash = e.2.2 := by
  unfold contents
  rw [Multiset.mem_sum]
  simp only [Finset.mem_range]
  refine exists_congr fun i => and_congr_right fun _ => ?_
  unfold Slot.content
  obtain ⟨key, value, h⟩ := e
  split
  · simp_all
  · cases (slots i).key <;> simp_all [eq_comm]

lemma slot_unique {n : Nat} (hmaps : Maps hash (contents n slots) m) (hi : i < n) (hj : j < n)
    (hfi : (slots i).psl ≠ emptyPsl) (hfj : (slots j).psl ≠ emptyPsl)
    (hki : (slots i).key = some key) (hkj : (slots j).key = some key) : j = i := by
  by_contra hne
  have hmem : j ∈ (Finset.range n).erase i := Finset.mem_erase.mpr ⟨hne, Finset.mem_range.mpr hj⟩
  have hnodup := hmaps.nodup
  unfold contents at hnodup
  rw [← Finset.add_sum_erase _ _ (Finset.mem_range.mpr hi), ← Finset.add_sum_erase _ _ hmem,
    content_of_full hfi hki, content_of_full hfj hkj, Multiset.map_add, Multiset.map_singleton,
    Multiset.nodup_add] at hnodup
  have hdisjoint := Multiset.disjoint_left.mp hnodup.2.2 (Multiset.mem_singleton_self key)
  exact hdisjoint (by simp)

/-! ## Growing -/

lemma rehash_spec {n : Nat} (hk : 0 < k) (hi : i ≤ n) (h : Table n slots)
    (hcard : (contents n slots).card < 2 ^ k) (hsmall : (contents n slots).card < 2 ^ 32 - 1) :
    ∃ slots', rehash (2 ^ k) (2 ^ k - 1) slots i = some slots' ∧ Table (2 ^ k) slots' ∧
      contents (2 ^ k) slots' = contents i slots := by
  induction i with
  | zero => exact ⟨_, rfl, .init _, contents_init _⟩
  | succ i ih =>
    obtain ⟨slots', hrec, htable, hcontents⟩ := ih (by omega)
    have hle : (contents i slots).card ≤ (contents n slots).card :=
      Multiset.card_le_card (Finset.sum_le_sum_of_subset (Finset.range_mono (by omega)))
    rw [rehash, hrec, contents, Finset.sum_range_succ, ← contents, bind_eq_bind, bind_some]
    by_cases hfull : (slots i).psl = emptyPsl
    · rw [if_neg (by simp [hfull])]
      refine ⟨slots', rfl, htable, ?_⟩
      rw [hcontents, Slot.content, if_pos hfull, add_zero]
    · rw [if_pos hfull]
      obtain ⟨key, hkey⟩ := h.keyed i (by omega) hfull
      rw [content_of_full hfull hkey, ← hcontents]
      exact robinHoodInsertEntry_spec _ hk htable (by rw [hcontents]; omega)
        (by rw [hcontents]; omega) hkey

/-- The map has a slot array with room for one more entry, and the entries it
had before. -/
structure Roomy (impl impl' : Impl K) (k : Nat) : Prop where
  allocated : Allocated impl' k
  size : impl'.size = impl.size
  room : impl'.size < impl'.maxLoad
  contents : contents impl'.capacity impl'.slots = contents impl.capacity impl.slots
  grown : impl'.capacity ≤ max impl.capacity (2 ^ 34)

lemma ensureCapacity_first (h : Represents hash impl m) (h0 : impl.capacity = 0) :
    ∃ impl', ensureCapacity impl defaultBuckets = some impl' ∧ Roomy impl impl' 4 := by
  have hsize := h.size
  have hcap : nextPow2 defaultBuckets = 2 ^ 4 := by
    rw [show defaultBuckets = 2 ^ 4 by decide]
    exact nextPow2_of_pow (by omega) (by omega)
  have hnone : contents 0 impl.slots = 0 := rfl
  rw [h0, hnone, Multiset.card_zero] at hsize
  refine ⟨⟨fun _ => .init, 2 ^ 4, 2 ^ 4 - 1, impl.size, loadOf (2 ^ 4)⟩, ?_,
    ⟨by omega, by omega, rfl, rfl, rfl, ?_, .init _⟩, rfl, ?_, ?_, le_max_of_le_right ?_⟩
  · simp [ensureCapacity, newSlots, h0, hcap]
  · dsimp only
    rw [hsize]
    exact zero_le _
  · dsimp only
    rw [hsize]
    decide
  · rw [contents_init, h0, hnone]
  · exact show 2 ^ 4 ≤ 2 ^ 34 by decide

lemma Allocated.small (ha : Allocated impl k) (hfull : impl.size ≥ impl.maxLoad)
    (hsmall : impl.size < 2 ^ 32 - 1) : k < 34 := by
  by_contra hge
  rw [ha.maxLoad] at hfull
  have hbig : 2 ^ 34 ≤ 2 ^ k := Nat.pow_le_pow_right (by omega) (by omega)
  rcases lt_or_ge k 63 with hlt63 | hge63
  · rw [loadOf_eq hlt63] at hfull
    omega
  · have htop : k = 63 := by have := ha.lt; omega
    subst htop
    have : loadOf (2 ^ 63) = 2 ^ 61 := by decide
    omega

lemma minCapacity_eq (k : Nat) :
    (if 2 ^ (k + 1) < defaultBuckets then defaultBuckets else 2 ^ (k + 1)) = 2 ^ max 4 (k + 1) := by
  rw [show defaultBuckets = 2 ^ 4 by decide]
  rcases lt_or_ge (k + 1) 4 with h4 | h4
  · rw [max_eq_left (by omega), if_pos (pow_lt_pow_right (by omega) h4)]
  · rw [max_eq_right h4, if_neg (Nat.not_lt.mpr (Nat.pow_le_pow_right (by omega) h4))]

lemma Allocated.newSlots (ha : Allocated impl k) (hj : 0 < j)
    (hsize : impl.size = (contents (2 ^ k) impl.slots).card) (hroom : impl.size < 2 ^ j)
    (hsmall : impl.size < 2 ^ 32 - 1) :
    ∃ slots, newSlots impl (2 ^ j) (2 ^ j - 1) = some slots ∧ Table (2 ^ j) slots ∧
      contents (2 ^ j) slots = contents (2 ^ k) impl.slots := by
  have hpos := two_pow_pos k
  unfold HashMap.newSlots
  rw [ha.capacity]
  by_cases h0 : impl.size > 0
  · rw [if_pos ⟨by omega, h0⟩]
    exact rehash_spec hj (le_refl _) ha.table (by omega) (by omega)
  · rw [if_neg fun hand => h0 hand.2]
    refine ⟨_, rfl, .init _, ?_⟩
    have hnone : (contents (2 ^ k) impl.slots).card = 0 := by omega
    rw [contents_init, Multiset.card_eq_zero.mp hnone]

/-- An array at its load is replaced by one of at least twice the size. -/
lemma ensureCapacity_double (h : Represents hash impl m) (ha : Allocated impl k)
    (hfull : impl.size ≥ impl.maxLoad) (hsmall : impl.size < 2 ^ 32 - 1) :
    ∃ impl', ensureCapacity impl (impl.capacity <<< 1 % 2 ^ 64) = some impl' ∧
      Roomy impl impl' (max 4 (k + 1)) := by
  have hk := ha.small hfull hsmall
  have hload := ha.load
  have hlt := loadOf_lt (k := k)
  have hpos := two_pow_pos k
  rw [ha.maxLoad] at hload
  have hdouble : impl.capacity <<< 1 % 2 ^ 64 = 2 ^ (k + 1) := by
    have : 2 ^ (k + 1) < 2 ^ 64 := pow_lt_pow_right (by omega) (by omega)
    rw [ha.capacity, Nat.shiftLeft_eq, Nat.pow_one, ← pow_succ, mod_eq_of_lt this]
  have hgrow : 2 ^ k * 2 ≤ 2 ^ max 4 (k + 1) := by
    rw [← pow_succ]
    exact Nat.pow_le_pow_right (by omega) (by omega)
  have hroom : impl.size < loadOf (2 ^ max 4 (k + 1)) := by
    rw [loadOf_eq (by omega)]
    omega
  obtain ⟨slots, hslots, htable, hcontents⟩ := ha.newSlots (j := max 4 (k + 1)) (by omega)
    (ha.capacity ▸ h.size) (by omega) hsmall
  refine ⟨⟨slots, 2 ^ max 4 (k + 1), 2 ^ max 4 (k + 1) - 1, impl.size,
    loadOf (2 ^ max 4 (k + 1))⟩, ?_, ⟨by omega, by omega, rfl, rfl, rfl, hroom.le, htable⟩, rfl,
    hroom, ?_, le_max_of_le_right (Nat.pow_le_pow_right (by omega) (by omega))⟩
  · unfold ensureCapacity
    dsimp only
    rw [hdouble, minCapacity_eq, nextPow2_of_pow (by omega) (by omega), hslots, if_neg]
    · rfl
    · rw [ha.capacity]
      omega
  · dsimp only
    rw [hcontents, ha.capacity]

/-- A put of a new key makes room for it. -/
lemma resizeIfFull_spec (h : Represents hash impl m) (hsmall : impl.size < 2 ^ 32 - 1) :
    ∃ impl' k, resizeIfFull impl = some impl' ∧ Roomy impl impl' k := by
  unfold resizeIfFull
  by_cases h0 : impl.capacity = 0
  · rw [if_pos (Or.inl h0), if_pos h0]
    obtain ⟨impl', hens, hroomy⟩ := ensureCapacity_first h h0
    exact ⟨impl', 4, hens, hroomy⟩
  · obtain ⟨k, ha⟩ := h.array.resolve_left h0
    by_cases hfull : impl.size ≥ impl.maxLoad
    · rw [if_pos (Or.inr hfull), if_neg h0]
      obtain ⟨impl', hens, hroomy⟩ := ensureCapacity_double h ha hfull hsmall
      exact ⟨impl', _, hens, hroomy⟩
    · rw [if_neg (not_or.mpr ⟨h0, hfull⟩)]
      exact ⟨impl, k, rfl, ha, rfl, Nat.lt_of_not_le hfull, rfl, le_max_left _ _⟩

section Operations

variable [DecidableEq K]

namespace Represents

section

variable (h : Represents hash impl m)

include h

lemma findSlot (key : K) : findSlot impl key (hash key) = some none ∧ m key = none ∨
      ∃ i < impl.capacity, findSlot impl key (hash key) = some (some i) ∧
        (impl.slots i).psl ≠ emptyPsl ∧ (impl.slots i).key = some key ∧
        (impl.slots i).hash = hash key ∧ m key = some (impl.slots i).value := by
  have hsize := h.size
  unfold HashMap.findSlot
  by_cases h0 : impl.capacity = 0 ∨ impl.size = 0
  · rw [if_pos h0]
    refine Or.inl ⟨rfl, h.maps.eq_none fun value hsh hmem => ?_⟩
    rcases h0 with h0 | h0
    · obtain ⟨i, hi, -⟩ := mem_contents.mp hmem
      omega
    · rw [h0] at hsize
      rw [Multiset.card_eq_zero.mp hsize.symm] at hmem
      exact absurd hmem (Multiset.notMem_zero _)
  · rw [if_neg h0, not_or] at *
    obtain ⟨k, ha⟩ := h.array.resolve_left h0.1
    have hmaps := h.maps
    have hload := ha.load
    have hlt := loadOf_lt (k := k)
    rw [ha.maxLoad] at hload
    rw [ha.capacity] at hmaps hsize ⊢
    rw [ha.mask, and_mask]
    cases hm : m key with
    | none =>
      obtain ⟨e, he, hempty⟩ := ha.table.exists_empty (by omega)
      obtain ⟨d, hd, rfl⟩ := exists_add_mod (p := (hash key).toNat) (two_pow_pos k) he
      refine Or.inl ⟨findLoop_miss d _ (fun i hi hfull hkey => ?_) hempty hd, rfl⟩
      have hmem : (key, (impl.slots i).value, (impl.slots i).hash) ∈ contents (2 ^ k) impl.slots :=
        mem_contents.mpr ⟨i, hi, hfull, hkey, rfl, rfl⟩
      rw [hmaps.mem, hm] at hmem
      cases hmem.1
    | some value =>
      obtain ⟨i, hi, hfull, hkey, hvalue, hhash⟩ :=
        mem_contents.mp ((hmaps.mem key value (hash key)).mpr ⟨hm, rfl⟩)
      have hdist := ha.table.dist_le (by omega) hi
      rw [dist_of_full hfull] at hdist
      have hhit := findLoop_hit (j := 0) ha.table hi hfull hkey hhash
        (fun i' hi' hf hk' => slot_unique hmaps hi hi' hfull hf hkey hk') (by omega)
        (zero_add _) (show _ < 2 ^ k by omega)
      exact Or.inr ⟨i, hi, hhit, hfull, hkey, hhash, congrArg some hvalue.symm⟩

lemma put_old (hold : m key ≠ none) : ∃ impl', put hash impl key value = some (impl', 0) ∧
      Represents hash impl' (update m key (some value)) ∧ impl'.capacity = impl.capacity := by
  rcases h.findSlot key with ⟨-, hnone⟩ | ⟨i, hi, hfind, hfull, hkey, hhash, hm⟩
  · exact absurd hnone hold
  have hsplit := contents_split impl.slots hi
  have hupdate := contents_update impl.slots hi { impl.slots i with value := value }
  rw [content_of_full hfull hkey, hhash] at hsplit
  rw [content_of_full (s := { impl.slots i with value := value }) hfull hkey, hsplit,
    content_of_full hfull hkey, hhash, add_right_comm, Multiset.add_left_inj] at hupdate
  have hmaps := h.maps
  rw [hsplit] at hmaps
  have hcard : (contents impl.capacity (update impl.slots i
      { impl.slots i with value := value })).card = (contents impl.capacity impl.slots).card := by
    rw [hupdate, hsplit, Multiset.card_add, Multiset.card_add]
    rfl
  refine ⟨{ impl with slots := update impl.slots i { impl.slots i with value := value } },
    by simp only [put, hfind, bind_eq_bind, bind_some], ⟨?_, ?_, h.bounded, ?_⟩, rfl⟩
  · dsimp only
    rw [hupdate]
    have hboth := (hmaps.erase).insert value (Function.update_self key none m)
    rwa [Function.update_idem] at hboth
  · dsimp only
    rw [hcard, h.size]
  · obtain ⟨k, ha⟩ := h.array.resolve_left (by omega)
    exact Or.inr ⟨k, ha.pos, ha.lt, ha.capacity, ha.mask, ha.maxLoad, ha.load,
      ha.table.setValue i value⟩

lemma put_new (key : K) (value : Ptr) (hnew : m key = none) (hsmall : impl.size < 2 ^ 32 - 1) :
    ∃ impl', put hash impl key value = some (impl', 0) ∧
      Represents hash impl' (update m key (some value)) ∧
      impl'.capacity ≤ max impl.capacity (2 ^ 34) := by
  rcases h.findSlot key with ⟨hfind, -⟩ | ⟨_, _, _, _, _, _, hm⟩
  swap
  · rw [hnew] at hm
    cases hm
  obtain ⟨impl', k, hresize, hroomy⟩ := resizeIfFull_spec h hsmall
  have ha := hroomy.allocated
  have hroom := hroomy.room
  have hlt := loadOf_lt (k := k)
  have hcontents := hroomy.contents
  rw [ha.maxLoad] at hroom
  rw [ha.capacity] at hcontents
  have hcard : (contents (2 ^ k) impl'.slots).card = impl'.size := by
    rw [hcontents, hroomy.size, h.size]
  obtain ⟨slots, hinsert, htable, hadd⟩ := robinHoodInsertEntry_spec
    ⟨some key, value, hash key, 0⟩ ha.pos ha.table (by omega)
    (by rw [hcard, hroomy.size]; exact hsmall) rfl
  have hsucc : (impl'.size + 1) % 2 ^ 64 = impl'.size + 1 := by
    rw [hroomy.size]
    omega
  refine ⟨{ impl' with slots := slots, size := (impl'.size + 1) % 2 ^ 64 }, ?_, ⟨?_, ?_, ?_,
    Or.inr ⟨k, ha.pos, ha.lt, ha.capacity, ha.mask, ha.maxLoad, ?_, htable⟩⟩, hroomy.grown⟩
  · simp only [put, hfind, hresize, ha.capacity, ha.mask, hinsert, bind_eq_bind,
      bind_some]
  · dsimp only
    rw [ha.capacity, hadd, hcontents]
    exact h.maps.insert value hnew
  · dsimp only
    rw [ha.capacity, hadd, Multiset.card_add, Multiset.card_singleton, hcard, hsucc]
  · dsimp only
    rw [hsucc, hroomy.size]
    omega
  · dsimp only
    rw [hsucc]
    exact hroomy.room

lemma remove (key : K) :
    ∃ impl', remove hash impl key = some (impl', if m key = none then -1 else 0) ∧
      Represents hash impl' (update m key none) ∧ impl'.capacity = impl.capacity := by
  rcases h.findSlot key with ⟨hfind, hm⟩ | ⟨i, hi, hfind, hfull, hkey, hhash, hm⟩
  · refine ⟨impl, ?_, ?_, rfl⟩
    · simp only [HashMap.remove, hfind, hm, bind_eq_bind, bind_some, if_true]
    · rwa [← hm, Function.update_eq_self]
  · obtain ⟨k, ha⟩ := h.array.resolve_left (by omega)
    have hload := ha.load
    have hlt := loadOf_lt (k := k)
    have hsize := h.size
    have hbounded := h.bounded
    have hmaps := h.maps
    have hpos := two_pow_pos k
    rw [ha.maxLoad] at hload
    rw [ha.capacity] at hi hsize hmaps
    have hsplit := contents_split impl.slots hi
    -- the slot as the one after a position
    have hp : (i + 2 ^ k - 1 + 1) % 2 ^ k = i := by
      rw [Nat.sub_add_cancel (by omega), Nat.add_mod_right, mod_eq_of_lt hi]
    obtain ⟨e, he, hempty⟩ := ha.table.exists_empty (by omega)
    obtain ⟨d, hd, rfl⟩ := exists_add_mod (p := i + 2 ^ k - 1 + 2) hpos he
    obtain ⟨slots, hshift, htable, hrest⟩ := shiftLoop_spec ha.pos d (2 ^ k) (p := i + 2 ^ k - 1)
      ha.table (by rwa [hp]) (by rwa [hp]) hempty hd
    rw [hp] at hshift
    rw [content_of_full hfull hkey] at hsplit
    have hcard : (contents (2 ^ k) slots).card + 1 = impl.size := by
      rw [hsize, hsplit, hrest, Multiset.card_add]
      rfl
    have hpred : (impl.size + 2 ^ 64 - 1) % 2 ^ 64 = impl.size - 1 := by omega
    refine ⟨{ impl with slots := slots, size := (impl.size + 2 ^ 64 - 1) % 2 ^ 64 }, ?_, ⟨?_, ?_, ?_,
      Or.inr ⟨k, ha.pos, ha.lt, ha.capacity, ha.mask, ha.maxLoad, ?_, htable⟩⟩, rfl⟩
    · simp only [HashMap.remove, hfind, hm, ha.mask, ha.capacity, hshift, bind_eq_bind,
        bind_some, reduceCtorEq, if_false]
    · dsimp only
      rw [ha.capacity, hrest]
      rw [hsplit] at hmaps
      exact hmaps.erase
    · dsimp only
      rw [ha.capacity, hpred]
      omega
    · dsimp only
      rw [hpred]
      omega
    · dsimp only
      rw [hpred, ha.maxLoad]
      omega

lemma get : HashMap.get hash impl key = some ((m key).getD null) := by
  rcases h.findSlot key with ⟨hfind, hm⟩ | ⟨i, -, hfind, -, -, -, hm⟩
  · simp only [HashMap.get, hfind, hm, bind_eq_bind, bind_some, Option.getD_none]
  · simp only [HashMap.get, hfind, hm, bind_eq_bind, bind_some, Option.getD_some]

end

omit [DecidableEq K] in
lemma clear (h : Represents hash impl m) : Represents hash (clear impl) fun _ => none := by
  unfold HashMap.clear
  split
  · rename_i h0
    obtain ⟨k, ha⟩ := h.array.resolve_left h0
    refine ⟨?_, ?_, two_pow_pos 32, Or.inr ⟨k, ha.pos, ha.lt, ha.capacity, ha.mask, ha.maxLoad,
      zero_le _, .init _⟩⟩
    · rw [contents_init]
      exact .empty hash
    · rw [contents_init]
      rfl
  · -- without an array the map is empty
    rename_i h0
    have hcap : impl.capacity = 0 := not_not.mp h0
    have hmaps := h.maps
    rw [hcap] at hmaps
    have hnone : m = fun _ => none := funext fun key => hmaps.eq_none fun value hsh hmem => by
      obtain ⟨i, hi, -⟩ := mem_contents.mp hmem
      omega
    rw [← hnone]
    exact h

end Represents

/-! ## Histories -/

/-- A call. -/
inductive Op (K : Type) where
  | put (key : K) (value : Ptr)
  | get (key : K)
  | remove (key : K)
  | clear
  | size

/-- What a call returns. -/
inductive Out where
  | code (rc : Int)
  | value (ptr : Ptr)
  | count (n : Nat)
  | nothing
  deriving DecidableEq, Repr

def call (hash : K → UInt32) (impl : Impl K) : Op K → Option (Impl K × Out)
  | .put key value => (put hash impl key value).map fun (impl, rc) => (impl, .code rc)
  | .get key => (get hash impl key).map fun ptr => (impl, .value ptr)
  | .remove key => (remove hash impl key).map fun (impl, rc) => (impl, .code rc)
  | .clear => some (clear impl, .nothing)
  | .size => some (impl, .count impl.size)

/-- The state after a history of calls and what they return. -/
def run (hash : K → UInt32) : Impl K → List (Op K) → Option (Impl K × List Out)
  | impl, [] => some (impl, [])
  | impl, op :: ops => do
      let (impl, out) ← call hash impl op
      let (impl, outs) ← run hash impl ops
      some (impl, out :: outs)

/-- A finite map after a call. -/
def mapNext (m : K → Option Ptr) : Op K → K → Option Ptr
  | .put key value => update m key (some value)
  | .remove key => update m key none
  | .clear => fun _ => none
  | .get _ | .size => m

/-- What a finite map answers. -/
noncomputable def mapOut (m : K → Option Ptr) : Op K → Out
  | .put _ _ => .code 0
  | .get key => .value ((m key).getD null)
  | .remove key => .code (if m key = none then -1 else 0)
  | .clear => .nothing
  | .size => .count {key | m key ≠ none}.ncard

/-- The answers of a finite map to a history. -/
noncomputable def mapRun (m : K → Option Ptr) : List (Op K) → List Out
  | [] => []
  | op :: ops => mapOut m op :: mapRun (mapNext m op) ops

/-- A new key is only put into a map of less than 2 ^ 32 - 1 keys. -/
def Small (m : K → Option Ptr) : List (Op K) → Prop
  | [] => True
  | op :: ops =>
      (∀ key value, op = .put key value → m key = none → {key | m key ≠ none}.ncard < 2 ^ 32 - 1) ∧
        Small (mapNext m op) ops

/-- Every entry stands its probe length after its home, and the slots between
are full and no nearer to their homes. -/
def RobinHood (impl : Impl K) : Prop :=
  ∀ i < impl.capacity, (impl.slots i).psl ≠ emptyPsl →
    (((impl.slots i).hash.toNat &&& impl.mask) + (impl.slots i).psl.toNat) % impl.capacity = i ∧
      ∀ j < (impl.slots i).psl.toNat,
        let slot := impl.slots ((((impl.slots i).hash.toNat &&& impl.mask) + j) % impl.capacity)
        slot.psl ≠ emptyPsl ∧ j ≤ slot.psl.toNat

omit [DecidableEq K] in
lemma Represents.robinHood (h : Represents hash impl m) : RobinHood impl := by
  intro i hi hfull
  obtain ⟨k, ha⟩ := h.array.resolve_left (by omega)
  rw [ha.capacity] at hi ⊢
  rw [ha.mask, and_mask]
  have hhome := ha.table.home i hi hfull
  refine ⟨hhome, fun j hj => ?_⟩
  have hback := ha.table.linked.le_add ((impl.slots i).hash.toNat % 2 ^ k + j)
    ((impl.slots i).psl.toNat - j)
  rw [add_assoc, Nat.add_sub_cancel' hj.le, hhome, dist_of_full hfull] at hback
  have hfull' : (impl.slots (((impl.slots i).hash.toNat % 2 ^ k + j) % 2 ^ k)).psl ≠ emptyPsl :=
    dist_ne_zero.mp (by omega)
  rw [dist_of_full hfull'] at hback
  exact ⟨hfull', by omega⟩

lemma Represents.call (h : Represents hash impl m) (op : Op K)
    (hsmall : ∀ key value, op = .put key value → m key = none →
      {key | m key ≠ none}.ncard < 2 ^ 32 - 1) :
    ∃ impl', call hash impl op = some (impl', mapOut m op) ∧
      Represents hash impl' (mapNext m op) ∧ impl'.capacity ≤ max impl.capacity (2 ^ 34) := by
  have hcard : {key | m key ≠ none}.ncard = impl.size := by rw [h.maps.ncard, h.size]
  cases op with
  | put key value =>
    have hput : ∃ impl', put hash impl key value = some (impl', 0) ∧
        Represents hash impl' (update m key (some value)) ∧
        impl'.capacity ≤ max impl.capacity (2 ^ 34) := by
      by_cases hm : m key = none
      · exact h.put_new key value hm (hcard ▸ hsmall key value rfl hm)
      · obtain ⟨impl', hput, hrep, hcap⟩ := h.put_old hm
        exact ⟨impl', hput, hrep, hcap ▸ le_max_left _ _⟩
    obtain ⟨impl', hput, hrep⟩ := hput
    exact ⟨impl', by rw [HashMap.call, hput]; rfl, hrep⟩
  | get key => exact ⟨impl, by rw [HashMap.call, h.get]; rfl, h, le_max_left _ _⟩
  | remove key =>
    obtain ⟨impl', hremove, hrep, hcap⟩ := h.remove key
    exact ⟨impl', by rw [HashMap.call, hremove]; rfl, hrep, hcap ▸ le_max_left _ _⟩
  | clear =>
    refine ⟨_, rfl, h.clear, ?_⟩
    unfold HashMap.clear
    split <;> exact le_max_left _ _
  | size => exact ⟨impl, by rw [mapOut, hcard]; rfl, h, le_max_left _ _⟩

lemma Represents.run (h : Represents hash impl m) (hcap : impl.capacity ≤ 2 ^ 58)
    (ops : List (Op K)) (hsmall : Small m ops) :
    ∃ impl' m', run hash impl ops = some (impl', mapRun m ops) ∧ Represents hash impl' m' ∧
      impl'.capacity ≤ 2 ^ 58 := by
  induction ops generalizing impl m with
  | nil => exact ⟨impl, m, rfl, h, hcap⟩
  | cons op ops ih =>
    obtain ⟨impl1, hcall, h1, hcap1⟩ := h.call op hsmall.1
    obtain ⟨impl2, m2, hrun, h2⟩ := ih h1 (hcap1.trans (max_le hcap (by decide))) hsmall.2
    refine ⟨impl2, m2, ?_, h2⟩
    simp only [run, hcall, hrun, mapRun, bind_eq_bind, bind_some]

/-- From every initial bucket count up to 2 ^ 58 and for every hash function, a
history that never puts a new key into a map of 2 ^ 32 - 1 keys is answered as
by a finite map, and leaves a Robin Hood table. A slot has 40 bytes: the size
of the array does not wrap up to 2 ^ 58 slots. -/
theorem hashmap_finiteMap (hash : K → UInt32) (initialBuckets : UInt64)
    (hbuckets : initialBuckets ≤ 2 ^ 58) (ops : List (Op K)) (hsmall : Small (fun _ => none) ops) :
    ∃ impl, run hash (create initialBuckets) ops = some (impl, mapRun (fun _ => none) ops) ∧
      RobinHood impl ∧ impl.capacity ≤ 2 ^ 58 := by
  obtain ⟨impl, m, hrun, h, hcap⟩ :=
    (Represents.create hash initialBuckets).run (create_capacity_le hbuckets) ops hsmall
  exact ⟨impl, hrun, h.robinHood, hcap⟩

/-- Two keys with the same home in four buckets. -/
theorem hashmap_finiteMap_once :
    ∃ impl, run (fun key : Nat => UInt32.ofNat (key * key)) (create 3)
      [.put 1 7, .put 17 8, .get 1, .put 1 9, .remove 17, .get 17, .size] =
        some (impl, mapRun (fun _ => none)
          [.put 1 7, .put 17 8, .get 1, .put 1 9, .remove 17, .get 17, .size]) ∧
      RobinHood impl ∧ impl.capacity ≤ 2 ^ 58 := by
  refine hashmap_finiteMap _ _ (by decide) _ ?_
  have hcard : ∀ m : Nat → Option Ptr, (∀ key, 20 ≤ key → m key = none) →
      {key | m key ≠ none}.ncard < 2 ^ 32 - 1 := by
    intro m hm
    calc {key | m key ≠ none}.ncard ≤ (Finset.range 20 : Set Nat).ncard := by
          refine Set.ncard_le_ncard (fun key hkey => ?_) (Finset.finite_toSet _)
          by_contra hout
          exact hkey (hm key (by simpa using hout))
      _ < 2 ^ 32 - 1 := by rw [Set.ncard_coe_finset, Finset.card_range]; decide
  refine ⟨fun _ _ _ _ => hcard _ fun _ _ => rfl, fun _ _ _ _ => hcard _ ?_, nofun,
    fun _ _ _ _ => hcard _ ?_, nofun, nofun, nofun, trivial⟩
  all_goals
    intro key hkey
    simp only [mapNext, update_apply]
    grind

/-! ## Too many keys of one hash -/

lemma run_append (ops more : List (Op K)) :
    run hash impl (ops ++ more) = (run hash impl ops).bind fun (impl, outs) =>
      (run hash impl more).map fun (impl, outs') => (impl, outs ++ outs') := by
  induction ops generalizing impl with
  | nil => cases h : run hash impl more <;> simp [run, h]
  | cons op ops ih =>
    simp only [cons_append, run, ih]
    cases call hash impl op with
    | none => rfl
    | some r =>
      simp only [bind_eq_bind, bind_some]
      cases run hash r.1 ops with
      | none => rfl
      | some r' => cases h : run hash r'.1 more <;> simp [h]

lemma mapRun_append (ops more : List (Op K)) :
    mapRun m (ops ++ more) = mapRun m ops ++ mapRun (ops.foldl mapNext m) more := by
  induction ops generalizing m with
  | nil => rfl
  | cons op ops ih => simp only [cons_append, mapRun, ih, foldl_cons]

/-- The table of 2 ^ 33 slots after `n` keys of hash 0: each stands as far
from the first slot as keys were put before it. -/
def chain (key : Nat → K) (n : Nat) : Impl K where
  slots := fun i => if i < n then ⟨some (key i), 1, 0, UInt32.ofNat i⟩ else .init
  capacity := 2 ^ 33
  mask := 2 ^ 33 - 1
  size := n
  maxLoad := loadOf (2 ^ 33)

omit [DecidableEq K] in
lemma create_chain (key : Nat → K) : create (2 ^ 33) = chain key 0 := by
  have hpow : nextPow2 (UInt64.toNat (2 ^ 33)) = 2 ^ 33 := by decide
  rw [create, if_pos (by decide), hpow]
  rfl

section Chain

variable {keys : Nat → K} {n goal : Nat}

lemma ofNat_ne_emptyPsl (hj : j < 2 ^ 32 - 1) : ofNat j ≠ emptyPsl := by
  intro h
  have hval := congrArg toNat h
  rw [toNat_ofNat_of_lt' (by change j < 2 ^ 32; omega)] at hval
  have : emptyPsl.toNat = 2 ^ 32 - 1 := rfl
  omega

lemma ofNat_succ (j : Nat) : ofNat j + 1 = ofNat (j + 1) := by
  rw [ofNat_add]
  rfl

omit [DecidableEq K] in
lemma chain_slot (keys : Nat → K) (hj : j < n) :
    (chain keys n).slots j = ⟨some (keys j), 1, 0, ofNat j⟩ := if_pos hj

lemma next_slot (hj : j < 2 ^ 32) : (j + 1) &&& (2 ^ 33 - 1) = j + 1 := by
  rw [Nat.and_two_pow_sub_one_eq_mod, mod_eq_of_lt (by omega)]

/-- A search passes all keys of the chain before slot `goal`, and ends there
if it is marked empty. -/
lemma findLoop_chain (hinj : Injective keys) (hgoal : goal < 2 ^ 32) (hn : goal ≤ n)
    (hempty : ((chain keys n).slots goal).psl = emptyPsl) {j fuel : Nat} (hj : j ≤ goal)
    (hfuel : goal - j < fuel) :
    findLoop (chain keys n).slots (2 ^ 33 - 1) (keys goal) 0 fuel j (ofNat j) =
      some none := by
  obtain ⟨fuel, rfl⟩ : ∃ f, fuel = f + 1 := ⟨fuel - 1, by omega⟩
  rw [findLoop]
  by_cases hend : j = goal
  · rw [hend, if_pos hempty]
  · have hlt : j < goal := by omega
    have hne : keys j ≠ keys goal := fun h => hend (hinj h)
    have hslot := chain_slot keys (hlt.trans_le hn)
    simp only [hslot, if_neg (ofNat_ne_emptyPsl (show j < 2 ^ 32 - 1 by omega)),
      if_neg (lt_irrefl _), if_false, Option.some.injEq, hne, and_false]
    rw [next_slot (by omega), ofNat_succ]
    exact findLoop_chain hinj hgoal hn hempty (by omega) (by omega)
termination_by goal - j

omit [DecidableEq K] in
lemma insertLoop_chain (hn : n < 2 ^ 32) {j fuel : Nat} (hj : j ≤ n) (hfuel : n - j < fuel) :
    insertLoop (2 ^ 33 - 1) fuel (chain keys n).slots j
      ⟨some (keys n), 1, 0, ofNat j⟩ = some (chain keys (n + 1)).slots := by
  obtain ⟨fuel, rfl⟩ : ∃ f, fuel = f + 1 := ⟨fuel - 1, by omega⟩
  rw [insertLoop]
  by_cases hend : j = n
  · subst hend
    have hfree : (chain keys j).slots j = .init := if_neg (by omega)
    rw [hfree]
    simp only [Slot.init, if_true, Option.some.injEq]
    funext i
    simp only [chain, update_apply]
    grind
  · have hslot := chain_slot keys (show j < n by omega)
    simp only [hslot, if_neg (ofNat_ne_emptyPsl (show j < 2 ^ 32 - 1 by omega)),
      if_neg (lt_irrefl _)]
    rw [next_slot (by omega), ofNat_succ]
    exact insertLoop_chain hn (by omega) (by omega)
termination_by n - j

omit [DecidableEq K] in
lemma home_chain : toNat 0 &&& (chain keys n).mask = 0 := Nat.zero_and _

lemma put_chain (hinj : Injective keys) (hn : n < 2 ^ 32) :
    put (fun _ => 0) (chain keys n) (keys n) 1 = some (chain keys (n + 1), 0) := by
  have hfind : findSlot (chain keys n) (keys n) 0 = some none := by
    by_cases h0 : n = 0
    · subst h0
      rfl
    · rw [findSlot, if_neg (by simp [chain, h0]), home_chain]
      exact findLoop_chain hinj hn le_rfl (by simp [chain, Slot.init]) (zero_le n)
        (show n - 0 < 2 ^ 33 by omega)
  have hroom : resizeIfFull (chain keys n) = some (chain keys n) := by
    refine if_neg ?_
    have hload : loadOf (2 ^ 33) = 2 ^ 33 * 3 / 4 := loadOf_eq (by decide)
    simp only [chain, hload]
    omega
  have hinsert : robinHoodInsertEntry (2 ^ 33) (chain keys n).slots (2 ^ 33 - 1)
      ⟨some (keys n), 1, 0, 0⟩ = some (chain keys (n + 1)).slots := by
    rw [robinHoodInsertEntry, UInt32.toNat_zero, Nat.zero_and]
    exact insertLoop_chain hn (zero_le n) (show n - 0 < 2 ^ 33 by omega)
  have hsize : (n + 1) % 2 ^ 64 = n + 1 := mod_eq_of_lt (by omega)
  rw [put, hfind, bind_eq_bind, bind_some]
  dsimp only
  rw [hroom, bind_eq_bind, bind_some]
  dsimp only [chain]
  dsimp only [chain] at hinsert
  rw [hinsert, hsize]
  rfl

/-- The calls that put the first `n` keys. -/
def puts (keys : Nat → K) (n : Nat) : List (Op K) := (List.range n).map fun i => .put (keys i) 1

lemma run_puts (hinj : Injective keys) (hn : n ≤ 2 ^ 32) :
    ∃ outs, run (fun _ => 0) (chain keys 0) (puts keys n) = some (chain keys n, outs) := by
  induction n with
  | zero => exact ⟨[], rfl⟩
  | succ n ih =>
    obtain ⟨outs, hrun⟩ := ih (by omega)
    refine ⟨outs ++ [.code 0], ?_⟩
    rw [puts, range_succ, map_append, ← puts, run_append, hrun]
    simp only [map_cons, map_nil, run, call, put_chain hinj (show n < 2 ^ 32 by omega),
      map_some, bind_eq_bind, bind_some]

lemma foldl_puts (keys : Nat → K) (m : K → Option Ptr) (hlt : goal < n) :
    (puts keys n).foldl mapNext m (keys goal) = some 1 := by
  induction n with
  | zero => omega
  | succ n ih =>
    rw [puts, range_succ, map_append, ← puts, foldl_append]
    simp only [map_cons, map_nil, foldl_cons, foldl_nil, mapNext, update_apply]
    by_cases heq : keys goal = keys n
    · rw [if_pos heq]
    · rw [if_neg heq]
      exact ih (by have : goal ≠ n := fun h => heq (h ▸ rfl); omega)

/-- The last of 2 ^ 32 keys is lost. -/
lemma get_chain (hinj : Injective keys) (hn : n = 2 ^ 32) :
    get (fun _ => 0) (chain keys n) (keys (n - 1)) = some null := by
  have hempty : ((chain keys n).slots (n - 1)).psl = emptyPsl := by
    rw [chain_slot keys (by omega), hn]
    rfl
  have hfind : findSlot (chain keys n) (keys (n - 1)) 0 = some none := by
    rw [findSlot, if_neg (by simp [chain, hn]), home_chain]
    exact findLoop_chain hinj (by omega) (by omega) hempty (zero_le _)
      (show n - 1 - 0 < 2 ^ 33 by omega)
  rw [get, hfind]
  rfl

/-- A history with a wrong answer at its end. -/
lemma exists_lost (hinj : Injective keys) :
    ∃ (ops : List (Op K)) (key : K) (impl : Impl K) (outs : List Out),
      run (fun _ => 0) (create (2 ^ 33)) (ops ++ [.get key]) = some (impl, outs ++ [.value null]) ∧
        ops.foldl mapNext (fun _ => none) key = some 1 := by
  obtain ⟨n, hn⟩ : ∃ n, n = 2 ^ 32 := ⟨_, rfl⟩
  obtain ⟨outs, hputs⟩ := run_puts hinj (show n ≤ 2 ^ 32 by omega)
  refine ⟨puts keys n, keys (n - 1), chain keys n, outs, ?_, foldl_puts keys _ (by omega)⟩
  rw [create_chain keys, run_append, hputs]
  simp only [bind_some, run, call, get_chain hinj hn, map_some, bind_eq_bind]

end Chain

/-- Byte strings without a zero byte, one for each number. -/
def numeral (n : Nat) : List UInt8 := (Nat.digits 255 n).map fun d => UInt8.ofNat (d + 1)

lemma numeral_injective : Injective numeral := by
  have hback : ∀ n, (numeral n).map (fun b => b.toNat - 1) = Nat.digits 255 n := by
    intro n
    rw [numeral, map_map]
    refine (map_congr_left fun d hd => ?_).trans (map_id _)
    have hlt : d < 255 := Nat.digits_lt_base (by decide) hd
    change (UInt8.ofNat (d + 1)).toNat - 1 = d
    rw [UInt8.toNat_ofNat_of_lt' (by change d + 1 < 2 ^ 8; omega)]
    omega
  intro a b h
  rw [← Nat.digits_inj_iff (b := 255), ← hback a, ← hback b, h]

/-- With all keys of hash 0, the last of 2 ^ 32 keys put into 2 ^ 33 buckets
gets the probe length that marks an empty slot, and is not found again. -/
theorem hashmap_loses_key :
    ¬ ∀ (hash : List UInt8 → UInt32) (initialBuckets : UInt64) (ops : List (Op (List UInt8))),
      ∃ impl, run hash (create initialBuckets) ops = some (impl, mapRun (fun _ => none) ops) ∧
        RobinHood impl := by
  intro hall
  obtain ⟨ops, key, impl, outs, hrun, hlost⟩ := exists_lost numeral_injective
  obtain ⟨impl', hrun', -⟩ := hall (fun _ => 0) (2 ^ 33) (ops ++ [.get key])
  rw [hrun, mapRun_append] at hrun'
  have hlast := (append_inj' (Prod.mk.inj (Option.some.inj hrun')).2 rfl).2
  rw [mapRun, mapOut, hlost] at hlast
  cases hlast

end Operations

end Cobalt.Container.HashMap
