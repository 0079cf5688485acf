/-
Cobalt.Lib.Region — ranges of addresses.

An allocator hands out regions of one address space that are apart from each
other. `sum_size_le` says that together they are no larger than the space.
-/
import Mathlib

namespace Cobalt

open Finset

/-- The addresses from `start` on, `size` of them. -/
structure Region where
  start : Nat
  size : Nat
  deriving DecidableEq, Repr

namespace Region

/-- The end of the region. -/
def stop (r : Region) : Nat := r.start + r.size

/-- Two regions that do not overlap. -/
def Apart (r r' : Region) : Prop := r.stop ≤ r'.start ∨ r'.stop ≤ r.start

instance (r r' : Region) : Decidable (Apart r r') :=
  inferInstanceAs (Decidable (r.stop ≤ r'.start ∨ r'.stop ≤ r.start))

/-- `r` is a part of `r'`. -/
def Within (r r' : Region) : Prop := r'.start ≤ r.start ∧ r.stop ≤ r'.stop

variable {r r' q q' : Region} {rs : List Region}

lemma Apart.symm (h : Apart r r') : Apart r' r := Or.symm h

lemma Apart.within (h : Apart r r') (hq : Within q r) (hq' : Within q' r') : Apart q q' := by
  rcases h with h | h
  · exact .inl (le_trans hq.2 (le_trans h hq'.1))
  · exact .inr (le_trans hq'.2 (le_trans h hq.1))

lemma Within.trans (h : Within r r') (h' : Within r' q) : Within r q :=
  ⟨le_trans h'.1 h.1, le_trans h.2 h'.2⟩

/-- Regions that are apart fill as many addresses as they have. -/
lemma exists_card_eq_sum (h : rs.Pairwise Apart) :
    ∃ s : Finset Nat, s.card = (rs.map size).sum ∧
      ∀ a, a ∈ s ↔ ∃ r ∈ rs, r.start ≤ a ∧ a < r.stop := by
  induction rs with
  | nil => exact ⟨∅, by simp⟩
  | cons r rs ih =>
    obtain ⟨hr, hrs⟩ := List.pairwise_cons.mp h
    obtain ⟨s, hcard, hmem⟩ := ih hrs
    have hdisj : Disjoint (Finset.Ico r.start r.stop) s := by
      refine disjoint_left.mpr fun a ha hs => ?_
      obtain ⟨hlo, hhi⟩ := mem_Ico.mp ha
      obtain ⟨r', hr', hlo', hhi'⟩ := (hmem a).mp hs
      rcases hr r' hr' with hle | hle <;> omega
    refine ⟨Finset.Ico r.start r.stop ∪ s, ?_, fun a => ?_⟩
    · rw [card_union_of_disjoint hdisj, hcard, Nat.card_Ico, List.map_cons, List.sum_cons,
        stop, Nat.add_sub_cancel_left]
    · rw [mem_union, mem_Ico, hmem, List.exists_mem_cons_iff]

/-- Regions of one address space that are apart are together no larger than it. -/
lemma sum_size_le {space : Nat} (h : rs.Pairwise Apart) (hin : ∀ r ∈ rs, r.stop ≤ space) :
    (rs.map size).sum ≤ space := by
  obtain ⟨s, hcard, hmem⟩ := exists_card_eq_sum h
  have hsub : s ⊆ Finset.range space := by
    intro a ha
    obtain ⟨r, hr, -, hlt⟩ := (hmem a).mp ha
    exact mem_range.mpr (lt_of_lt_of_le hlt (hin r hr))
  rw [← hcard]
  exact (card_le_card hsub).trans (le_of_eq (card_range space))

end Region

end Cobalt
