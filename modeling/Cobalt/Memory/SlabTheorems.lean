/-
Cobalt.Memory.SlabTheorems — pools and slabs hand out every block at most once.

The classes of a slab have regions that are apart. A call changes one class and
the memory of its region only, so what holds of the free list of each class is
left alone in all the others. A pointer is a block of one class at most, and the
loop over the classes finds that one.
-/
import Cobalt.Memory.Slab
import Cobalt.Memory.PoolTheorems

namespace Cobalt.Memory

open List Blocks
open Blocks (Alike)
open List (Forall₂)
open Region (Apart)

namespace Blocks

variable {c c' : Blocks} {m : ByteMem} {x ptr : Nat}

/-! ## Several regions -/

lemma not_inside_of_apart (h : Apart c.region c'.region) (hx : c.Inside x) : ¬ c'.Inside x := by
  rintro ⟨hlo, hhi⟩
  have hlo' := hx.1
  have hhi' := hx.2
  rcases h with hle | hle
  · have : c.region.stop ≤ c'.memory := hle
    omega
  · have : c'.region.stop ≤ c.memory := hle
    omega

/-- Handing out a block changes the region only. -/
lemma clear_frame (hmem : ptr ∈ c.addrs) (hx : ¬ c.Inside x) : m.clear ptr c.blockSize x = m x := by
  refine if_neg fun h => hx (inside_of_mem hmem h.1 h.2)

/-- Taking a block back changes the region only. -/
lemma storePtr_frame (h : Placed c) (hmem : ptr ∈ c.addrs) (hx : ¬ c.Inside x) (p : Nat) :
    m.storePtr ptr p x = m x := by
  have hsize := h.size
  unfold ptrSize at hsize
  refine if_neg fun hin => hx (inside_of_mem hmem hin.1 ?_)
  omega

lemma link_frame (h : Placed c) (hx : ¬ c.Inside x) : c.link m x = m x := by
  have hmem : ∀ i < c.blockCount, c.addr i ∈ c.addrs := fun i hi => mem_addrs.mpr ⟨i, hi, rfl⟩
  have hcount := h.count
  have hloop : ∀ n < c.blockCount,
      (List.range n).foldl (fun m i => m.storePtr (c.addr i) (c.addr (i + 1))) m x = m x := by
    intro n hn
    induction n with
    | zero => rfl
    | succ n ih =>
      rw [range_succ, foldl_append, foldl_cons, foldl_nil, storePtr_frame h (hmem n (by omega)) hx]
      exact ih (by omega)
  unfold link
  rw [storePtr_frame h (hmem _ (by omega)) hx]
  exact hloop _ (by omega)

end Blocks

namespace Slab

variable {s : State} {c c' : Blocks} {l r : List Blocks} {m m' : ByteMem} {ptr size idx : Nat}

/-- The free list of every class is in order, and the regions are apart. -/
structure Good (s : State) : Prop where
  kept : ∀ c ∈ s.classes, c.Kept s.mem
  apart : (s.classes.map region).Pairwise Region.Apart

/-- What holds of a slab at any time. -/
structure Sound (s : State) : Prop where
  classes : ∀ c ∈ s.classes, c.Sound
  apart : (s.classes.map region).Pairwise Region.Apart
  distinct : (s.classes.flatMap live).Nodup

namespace Good

lemma apart_of_mem (h : Good ⟨m, l ++ c :: r⟩) (hc' : c' ∈ l ++ r) : Apart c'.region c.region := by
  have hpair := h.apart
  rw [map_append, map_cons, pairwise_append, pairwise_cons] at hpair
  obtain ⟨-, ⟨hr, -⟩, hl⟩ := hpair
  rcases mem_append.mp hc' with hmem | hmem
  · exact hl _ (mem_map_of_mem hmem) _ (by simp)
  · exact (hr _ (mem_map_of_mem hmem)).symm

lemma kept_mid (h : Good ⟨m, l ++ c :: r⟩) : c.Kept m := h.kept c (by simp)

/-- A call that changes one class and the memory of its region. -/
lemma replace (h : Good ⟨m, l ++ c :: r⟩) (hkept : c'.Kept m') (halike : c.Alike c')
    (hframe : ∀ x, ¬ c.Inside x → m' x = m x) : Good ⟨m', l ++ c' :: r⟩ := by
  refine ⟨fun d hd => ?_, ?_⟩
  · have hd' : d ∈ l ++ r ∨ d = c' := by
      rw [mem_append, mem_cons] at hd
      rw [mem_append]
      tauto
    rcases hd' with hmem | rfl
    · have hold : d ∈ l ++ c :: r := by
        rw [mem_append] at hmem
        rw [mem_append, mem_cons]
        tauto
      refine (h.kept d hold).frame fun x hx => hframe x ?_
      exact not_inside_of_apart (h.apart_of_mem hmem) hx
    · exact hkept
  · have hpair := h.apart
    rw [map_append, map_cons] at hpair ⊢
    rw [halike.region_eq]
    exact hpair

/-- A block is in one class only. -/
lemma not_mem_addrs (h : Good ⟨m, l ++ c :: r⟩) (hptr : ptr ∈ c.addrs) (hc' : c' ∈ l ++ r) :
    ptr ∉ c'.addrs := by
  intro hptr'
  have hkept := h.kept_mid
  have hkept' : c'.Kept m := h.kept c' (by
    rw [mem_append] at hc'
    rw [mem_append, mem_cons]
    tauto)
  have hin := inside_of_mem hptr (le_refl _) (Nat.lt_add_of_pos_right hkept.size_pos)
  have hin' := inside_of_mem hptr' (le_refl _) (Nat.lt_add_of_pos_right hkept'.size_pos)
  exact not_inside_of_apart (h.apart_of_mem hc') hin' hin

lemma sound (h : Good s) : Sound s where
  classes c hc := (h.kept c hc).sound
  apart := h.apart
  distinct := by
    obtain ⟨m, cs⟩ := s
    refine nodup_flatMap.mpr ⟨fun c hc => (h.kept c hc).sound.distinct, ?_⟩
    have hpair := pairwise_map.mp h.apart
    refine hpair.imp_of_mem fun {c c'} hc hc' hapart ptr hlive hlive' => ?_
    have hin : ∀ d ∈ cs, ptr ∈ d.live → d.Inside ptr := by
      intro d hd hmem
      have hkept := h.kept d hd
      exact inside_of_mem (hkept.sound.whole _ hmem) (le_refl _)
        (Nat.lt_add_of_pos_right hkept.size_pos)
    exact not_inside_of_apart hapart (hin c hc hlive) (hin c' hc' hlive')

end Good

/-! ## The loop over the classes -/

variable {cs : List Blocks}

lemma freeIn_of_not_mem (hptr : ptr < 2 ^ 64) (hplaced : ∀ c ∈ cs, c.Placed)
    (hmem : ∀ c ∈ cs, ptr ∉ c.addrs) : freeIn m ptr cs = ⟨m, cs⟩ := by
  induction cs with
  | nil => rfl
  | cons c cs ih =>
    have howns : ¬ c.owns ptr = true := fun h =>
      hmem c (by simp) (((hplaced c (by simp)).owns_iff hptr).mp h)
    rw [freeIn, if_neg howns, ih (fun d hd => hplaced d (by simp [hd]))
      (fun d hd => hmem d (by simp [hd]))]

lemma freeIn_of_mem (hptr : ptr < 2 ^ 64) (hplaced : ∀ d ∈ l ++ c :: r, d.Placed)
    (hmem : ptr ∈ c.addrs) (hother : ∀ d ∈ l, ptr ∉ d.addrs) :
    freeIn m ptr (l ++ c :: r) = ⟨m.storePtr ptr c.freeList, l ++ c.push ptr :: r⟩ := by
  induction l with
  | nil =>
    have howns : c.owns ptr = true := ((hplaced c (by simp)).owns_iff hptr).mpr hmem
    rw [nil_append, freeIn, if_pos howns, nil_append]
  | cons d l ih =>
    have howns : ¬ d.owns ptr = true := fun h =>
      hother d (by simp) (((hplaced d (by simp)).owns_iff hptr).mp h)
    have hrest := ih (fun e he => hplaced e (mem_cons_of_mem _ he))
      (fun e he => hother e (by simp [he]))
    rw [cons_append, freeIn, if_neg howns, hrest, cons_append]

/-- The class that serves a request: the first one with blocks that are large enough. -/
def Serves (s : State) (size idx : Nat) (c : Blocks) : Prop :=
  s.classes[idx]? = some c ∧ size ≤ c.blockSize ∧
    ∀ j < idx, ∀ d, s.classes[j]? = some d → d.blockSize < size

lemma slabFindClass_of_serves (h : Serves s size idx c) : slabFindClass s size = some idx := by
  obtain ⟨hidx, hsize, hfirst⟩ := h
  obtain ⟨hlt, hget⟩ := List.getElem?_eq_some_iff.mp hidx
  refine findIdx?_eq_some_iff_getElem.mpr ⟨hlt, by simpa [hget] using hsize, fun j hj => ?_⟩
  have hjlt : j < s.classes.length := lt_trans hj hlt
  have hless := hfirst j hj _ (getElem?_eq_getElem hjlt)
  simpa using hless

lemma alloc_of_none (h : size = 0 ∨ ∀ c ∈ s.classes, c.blockSize < size) :
    alloc s size = (0, s) := by
  unfold alloc
  rcases h with rfl | hsmall
  · rw [if_pos rfl]
  · have hnone : slabFindClass s size = none := by
      refine findIdx?_eq_none_iff.mpr fun c hc => ?_
      simpa using hsmall c hc
    rw [hnone, ite_self]

lemma alloc_of_serves (hsize : size ≠ 0) (h : Serves s size idx c) :
    alloc s size = if c.freeCount = 0 then (0, s) else
      (c.freeList, ⟨s.mem.clear c.freeList c.blockSize, s.classes.set idx (c.pop s.mem)⟩) := by
  unfold alloc
  rw [if_neg hsize, slabFindClass_of_serves h]
  simp only [h.1]

lemma serves_or (s : State) (size : Nat) :
    (∀ c ∈ s.classes, c.blockSize < size) ∨ ∃ idx c, Serves s size idx c := by
  cases hfind : slabFindClass s size with
  | none =>
    refine .inl fun c hc => ?_
    simpa using findIdx?_eq_none_iff.mp hfind c hc
  | some idx =>
    obtain ⟨hlt, hsize, hfirst⟩ := findIdx?_eq_some_iff_getElem.mp hfind
    refine .inr ⟨idx, s.classes[idx], getElem?_eq_getElem hlt, by simpa using hsize, ?_⟩
    intro j hj d hd
    obtain ⟨hjlt, rfl⟩ := List.getElem?_eq_some_iff.mp hd
    simpa using hfirst j hj

/-! ## Calls -/

/-- The calls that a client may make. -/
def Legal (s : State) : Call → Prop
  | .alloc _ => True
  | .free ptr => Blocks.Freeable s.classes ptr
  | .write a _ => Blocks.Writable s.classes a

instance (s : State) : (call : Call) → Decidable (Legal s call)
  | .alloc _ => inferInstanceAs (Decidable True)
  | .free ptr => inferInstanceAs (Decidable (Blocks.Freeable s.classes ptr))
  | .write a _ => inferInstanceAs (Decidable (Blocks.Writable s.classes a))

/-- What a call has to do. -/
def Right (s : State) : Call → Prop
  | .alloc size =>
      (size = 0 ∨ (∀ c ∈ s.classes, c.blockSize < size) → alloc s size = (0, s)) ∧
      ∀ idx c, size ≠ 0 → Serves s size idx c → ∃ c',
        (alloc s size).2.classes = s.classes.set idx c' ∧
          c.Served s.mem (alloc s size).1 (alloc s size).2.mem c'
  | .free ptr =>
      (∀ idx c, s.classes[idx]? = some c → ptr ∈ c.live → ∃ c',
        (free s ptr).classes = s.classes.set idx c' ∧ c'.live = c.live.erase ptr) ∧
      ((∀ c ∈ s.classes, ptr ∉ c.addrs) → free s ptr = s)
  | .write _ _ => True

/-- All calls are legal. -/
def LegalRun (s : State) : List Call → Prop
  | [] => True
  | call :: calls => Legal s call ∧ LegalRun (step s call) calls

instance decidableLegalRun (s : State) : (calls : List Call) → Decidable (LegalRun s calls)
  | [] => inferInstanceAs (Decidable True)
  | call :: calls => @instDecidableAnd _ _ _ (decidableLegalRun (step s call) calls)

/-- Every state is sound, and every call does what it has to. -/
def RightRun (cs : List Blocks) (s : State) : List Call → Prop
  | [] => Sound s ∧ List.Forall₂ Blocks.Alike cs s.classes
  | call :: calls => (Sound s ∧ List.Forall₂ Blocks.Alike cs s.classes) ∧ Right s call ∧
      RightRun cs (step s call) calls

lemma forall₂_alike_refl (cs : List Blocks) : Forall₂ Alike cs cs := by
  induction cs with
  | nil => exact .nil
  | cons c cs ih => exact .cons (.refl c) ih

lemma forall₂_alike_trans {cs' cs'' : List Blocks} (h : Forall₂ Alike cs cs')
    (h' : Forall₂ Alike cs' cs'') : Forall₂ Alike cs cs'' := by
  induction h generalizing cs'' with
  | nil => exact h'
  | cons hhead _ ih =>
    obtain ⟨d, ds, hhead', htail', rfl⟩ := List.forall₂_cons_left_iff.mp h'
    exact .cons (hhead.trans hhead') (ih htail')

lemma forall₂_alike_mid (halike : c.Alike c') : Forall₂ Alike (l ++ c :: r) (l ++ c' :: r) :=
  rel_append (forall₂_alike_refl l) (.cons halike (forall₂_alike_refl r))

lemma exists_mid (h : cs[idx]? = some c) :
    ∃ l r, cs = l ++ c :: r ∧ ∀ c', cs.set idx c' = l ++ c' :: r := by
  obtain ⟨hlt, rfl⟩ := List.getElem?_eq_some_iff.mp h
  refine ⟨cs.take idx, cs.drop (idx + 1), ?_, fun c' => ?_⟩
  · rw [getElem_cons_drop, take_append_drop]
  · exact set_eq_take_cons_drop c' hlt

namespace Good

lemma alloc (h : Good s) (hsize : size ≠ 0) (hserves : Serves s size idx c) :
    (∃ c', (alloc s size).2.classes = s.classes.set idx c' ∧
      c.Served s.mem (alloc s size).1 (alloc s size).2.mem c') ∧
    Good (Slab.alloc s size).2 ∧ Forall₂ Alike s.classes (Slab.alloc s size).2.classes := by
  obtain ⟨m, cs⟩ := s
  obtain ⟨l, r, rfl, hset⟩ := exists_mid hserves.1
  have hkept := h.kept_mid
  rw [alloc_of_serves hsize hserves]
  split
  · next hfree =>
    exact ⟨⟨c, (hset c).symm, hkept.served_null hfree⟩, h, forall₂_alike_refl _⟩
  · next hfree =>
    have halike : c.Alike (c.pop m) := ⟨rfl, rfl, rfl⟩
    refine ⟨⟨c.pop m, rfl, hkept.served hfree⟩, ?_, ?_⟩
    · dsimp only
      rw [hset]
      exact h.replace (hkept.pop hfree) halike
        fun x hx => clear_frame (hkept.freeList_mem hfree).1 hx
    · dsimp only
      rw [hset]
      exact forall₂_alike_mid halike

lemma live_of_freeable (h : Good ⟨m, l ++ c :: r⟩) (hptr : Blocks.Freeable (l ++ c :: r) ptr)
    (hmem : ptr ∈ c.addrs) : ptr ∈ c.live := by
  have hkept := h.kept_mid
  have hin := inside_of_mem hmem (le_refl _) (Nat.lt_add_of_pos_right hkept.size_pos)
  -- whatever class the pointer is said to be in, it is this one
  have hsame : ∀ d ∈ l ++ c :: r, d.Inside ptr → d = c := by
    intro d hd hd'
    by_contra hne
    have hother : d ∈ l ++ r := by
      rw [mem_append, mem_cons] at hd
      rw [mem_append]
      tauto
    exact not_inside_of_apart (h.apart_of_mem hother) hd' hin
  obtain ⟨-, ⟨d, hd, hlive⟩ | rfl | hout | ⟨d, hd, hd', hmod⟩⟩ := hptr
  · have hkept' := h.kept d hd
    have hin' := inside_of_mem (hkept'.sound.whole _ hlive) (le_refl _)
      (Nat.lt_add_of_pos_right hkept'.size_pos)
    rwa [hsame d hd hin'] at hlive
  · exact absurd rfl (hkept.addr_ne_zero hmem)
  · exact absurd hin (hout c (by simp))
  · rw [hsame d hd hd'] at hmod
    exact absurd (mod_of_mem_addrs hmem) hmod

lemma free_of_mem (h : Good ⟨m, l ++ c :: r⟩) (hmem : ptr ∈ c.addrs) :
    free ⟨m, l ++ c :: r⟩ ptr = ⟨m.storePtr ptr c.freeList, l ++ c.push ptr :: r⟩ := by
  have hkept := h.kept_mid
  rw [free, if_neg (hkept.addr_ne_zero hmem)]
  refine freeIn_of_mem (hkept.addr_lt hmem) (fun d hd => (h.kept d hd).toPlaced) hmem ?_
  exact fun d hd => h.not_mem_addrs hmem (mem_append_left _ hd)

lemma free_of_not_mem (h : Good s) (hptr : ptr < 2 ^ 64) (hmem : ∀ c ∈ s.classes, ptr ∉ c.addrs) :
    free s ptr = s := by
  unfold free
  rw [freeIn_of_not_mem hptr (fun c hc => (h.kept c hc).toPlaced) hmem, ite_self]

lemma right_step (h : Good s) (call : Call) (hlegal : Legal s call) :
    Right s call ∧ Good (step s call) ∧
      Forall₂ Alike s.classes (step s call).classes := by
  cases call with
  | alloc size =>
    by_cases hnone : size = 0 ∨ ∀ c ∈ s.classes, c.blockSize < size
    · have hnull := alloc_of_none hnone
      refine ⟨⟨fun _ => hnull, fun idx c hsize hserves => ?_⟩, ?_⟩
      · exact (h.alloc hsize hserves).1
      · rw [step, hnull]
        exact ⟨h, forall₂_alike_refl _⟩
    · have hsize : size ≠ 0 := fun hzero => hnone (.inl hzero)
      obtain hsmall | ⟨idx, c, hserves⟩ := serves_or s size
      · exact absurd (.inr hsmall) hnone
      · exact ⟨⟨fun hnone' => absurd hnone' hnone, fun idx c _ hserves => (h.alloc hsize hserves).1⟩,
          (h.alloc hsize hserves).2⟩
  | free ptr =>
    have hptr : ptr < 2 ^ 64 := hlegal.1
    obtain ⟨m, cs⟩ := s
    by_cases hmem : ∃ c ∈ cs, ptr ∈ c.addrs
    · obtain ⟨c, hc, hmem⟩ := hmem
      obtain ⟨l, r, rfl⟩ := append_of_mem hc
      have hlive := h.live_of_freeable hlegal hmem
      have hfree := h.free_of_mem hmem
      have halike : c.Alike (c.push ptr) := ⟨rfl, rfl, rfl⟩
      refine ⟨⟨fun idx d hd hlive' => ?_, fun hnone => absurd hmem (hnone c hc)⟩, ?_⟩
      · obtain ⟨l', r', hmid, hset⟩ := exists_mid hd
        dsimp only at hmid hset
        rw [hmid] at h ⊢
        refine ⟨d.push ptr, ?_, rfl⟩
        rw [h.free_of_mem (h.kept_mid.sound.whole _ hlive')]
        dsimp only
        rw [← hset, hmid]
      · rw [step, hfree]
        refine ⟨h.replace (h.kept_mid.push hlive) halike fun x hx => ?_, forall₂_alike_mid halike⟩
        exact storePtr_frame h.kept_mid.toPlaced hmem hx _
    · have hnone : ∀ c ∈ cs, ptr ∉ c.addrs := fun c hc hin => hmem ⟨c, hc, hin⟩
      have hsame := h.free_of_not_mem hptr hnone
      refine ⟨⟨fun idx d hd hlive => ?_, fun _ => hsame⟩, ?_⟩
      · have hd' : d ∈ cs := mem_of_getElem? hd
        exact absurd ((h.kept d hd').sound.whole _ hlive) (hnone d hd')
      · rw [step, hsame]
        exact ⟨h, forall₂_alike_refl _⟩
  | write a x =>
    obtain ⟨m, cs⟩ := s
    obtain ⟨c, hc, b, hb, hlo, hhi⟩ := hlegal
    obtain ⟨l, r, rfl⟩ := append_of_mem hc
    have hkept := h.kept_mid
    have hin : c.Inside a := inside_of_mem (hkept.sound.whole _ hb) hlo hhi
    refine ⟨trivial, ?_, forall₂_alike_refl _⟩
    refine h.replace (hkept.write x (.inl ⟨b, hb, hlo, hhi⟩)) (.refl c) fun y hy => ?_
    exact Function.update_of_ne (fun heq : y = a => hy (heq ▸ hin)) _ _

lemma right_run (calls : List Call) (h : Good s) (halike : Forall₂ Alike cs s.classes)
    (hlegal : LegalRun s calls) : RightRun cs s calls := by
  induction calls generalizing s with
  | nil => exact ⟨h.sound, halike⟩
  | cons call calls ih =>
    obtain ⟨hright, hgood, halike'⟩ := h.right_step call hlegal.1
    exact ⟨⟨h.sound, halike⟩, hright, ih hgood (forall₂_alike_trans halike halike') hlegal.2⟩

end Good

/-! ## A new slab -/

/-- The memory of a class is in the address space. -/
def Spec.Fits (p : Spec) : Prop := 0 < p.memory ∧ p.blocks.region.stop ≤ 2 ^ 64

lemma Spec.Fits.placed {p : Spec} (h : p.Fits) : p.blocks.Placed := by
  refine ⟨ptrSize_le_sizeFor _, ?_, h.1, h.2⟩
  change 0 < if p.count = 0 then 16 else p.count
  split <;> omega

lemma Good.createClass (h : Good s) {p : Spec} (hfits : p.Fits)
    (hapart : ∀ c ∈ s.classes, Apart c.region p.blocks.region) : Good (createClass s p) := by
  have hplaced := hfits.placed
  refine ⟨fun c hc => ?_, ?_⟩
  · rcases mem_append.mp hc with hc | hc
    · refine (h.kept c hc).frame fun x hx => ?_
      have hout : ¬ p.blocks.Inside x := not_inside_of_apart (hapart c hc) hx
      change p.blocks.link _ x = _
      rw [link_frame hplaced hout]
      exact if_neg hout
    · rw [mem_singleton.mp hc]
      exact kept_link _ _ _ hplaced
  · change ((s.classes ++ [p.blocks]).map region).Pairwise Apart
    rw [map_append, pairwise_append]
    refine ⟨h.apart, pairwise_singleton _ _, fun r hr r' hr' => ?_⟩
    obtain ⟨c, hc, rfl⟩ := mem_map.mp hr
    rw [map_singleton, mem_singleton] at hr'
    rw [hr']
    exact hapart c hc

lemma good_foldl {specs : List Spec} (h : Good s) (hfits : ∀ p ∈ specs, p.Fits)
    (hapart : (s.classes ++ specs.map Spec.blocks).map region |>.Pairwise Apart) :
    Good (specs.foldl createClass s) ∧
      (specs.foldl createClass s).classes = s.classes ++ specs.map Spec.blocks := by
  induction specs generalizing s with
  | nil => exact ⟨h, (append_nil _).symm⟩
  | cons p specs ih =>
    have hassoc : s.classes ++ (p :: specs).map Spec.blocks
        = (createClass s p).classes ++ specs.map Spec.blocks := by simp [createClass]
    have hgood : Good (createClass s p) := by
      refine h.createClass (hfits p (by simp)) fun c hc => ?_
      rw [map_append, pairwise_append] at hapart
      exact hapart.2.2 _ (mem_map_of_mem hc) _ (by simp)
    rw [hassoc] at hapart ⊢
    exact ih hgood (fun q hq => hfits q (by simp [hq])) hapart

lemma good_create {mem : ByteMem} {specs : List Spec} (hcreate : create mem specs = some s)
    (hfits : ∀ p ∈ specs, p.Fits) (hapart : (specs.map fun p => p.blocks.region).Pairwise Apart) :
    Good s ∧ s.classes = specs.map Spec.blocks := by
  unfold create at hcreate
  split at hcreate
  · exact absurd hcreate (by simp)
  · obtain rfl := Option.some.inj hcreate
    have hempty : Good ⟨mem, []⟩ := ⟨by simp, List.Pairwise.nil⟩
    refine good_foldl hempty hfits ?_
    rw [nil_append, map_map]
    exact hapart

end Slab

/-- In every run of a pool and of a slab the live blocks are different blocks of their regions, the
counter of free blocks agrees with them, and every call does what it has to: a request is answered
with a block that was free and holds zeros, or with null if no block is free, and the free of
anything but a block changes nothing. -/
theorem blocks_handed_out_once :
    (∀ mem blockSize blockCount memory s calls,
      Pool.create mem blockSize blockCount memory = some s → 0 < memory →
      memory + sizeFor blockSize * blockCount ≤ 2 ^ 64 → Pool.LegalRun s calls →
      Pool.RightRun (.unused (sizeFor blockSize) blockCount memory) s calls) ∧
    ∀ mem specs s calls, Slab.create mem specs = some s → (∀ p ∈ specs, p.Fits) →
      (specs.map fun p => p.blocks.region).Pairwise Region.Apart → Slab.LegalRun s calls →
      Slab.RightRun (specs.map Slab.Spec.blocks) s calls := by
  constructor
  · intro mem blockSize blockCount memory s calls hcreate hmemory hstop hlegal
    obtain ⟨hpool, hkept⟩ := Pool.kept_create hcreate hmemory hstop
    exact Pool.right_run calls hkept (hpool ▸ .refl _) hlegal
  · intro mem specs s calls hcreate hfits hapart hlegal
    obtain ⟨hgood, hclasses⟩ := Slab.good_create hcreate hfits hapart
    exact hgood.right_run calls (hclasses ▸ Slab.forall₂_alike_refl _) hlegal

/-- A pool that runs full, and a slab of two classes. -/
theorem blocks_handed_out_reused :
    (∃ s, Pool.create (fun _ => 7) 3 2 4096 = some s ∧
      Pool.RightRun (.unused 8 2 4096) s [.alloc, .write 4099 9, .alloc, .alloc, .free 4096,
        .free 0, .free 12, .free 4099, .alloc]) ∧
    ∃ s, Slab.create (fun _ => 7) [⟨8, 1, 4096⟩, ⟨24, 3, 8192⟩] = some s ∧
      Slab.RightRun [.unused 8 1 4096, .unused 24 3 8192] s [.alloc 5, .alloc 8, .alloc 20,
        .write 8215 1, .free 8193, .free 4096, .alloc 0, .alloc 8, .free 8192, .alloc 24] := by
  refine ⟨⟨_, rfl, ?_⟩, ⟨_, rfl, ?_⟩⟩
  · exact blocks_handed_out_once.1 (fun _ => 7) 3 2 4096 _ _ rfl (by decide) (by decide)
      (by decide +kernel)
  · refine blocks_handed_out_once.2 (fun _ => 7) [⟨8, 1, 4096⟩, ⟨24, 3, 8192⟩] _ _ rfl ?_ ?_ ?_
    · intro p hp
      rcases mem_cons.mp hp with rfl | hp
      · exact ⟨by decide, by decide⟩
      · rw [mem_singleton.mp hp]
        exact ⟨by decide, by decide⟩
    · decide
    · decide +kernel

end Cobalt.Memory
