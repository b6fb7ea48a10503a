import Mathlib.Algebra.BigOperators.Group.Finset.Basic

/-!
# Sums over finite sets

How a sum changes with one of its summands.
-/

namespace SlurmSim.Lib

variable {ι M : Type} [DecidableEq ι] [AddCommMonoid M] {set : Finset ι} {i : ι}

theorem sum_change (before after : ι → M) (member : i ∈ set)
    (same : ∀ j ∈ set, j ≠ i → after j = before j) :
    ∑ j ∈ set, after j + before i = ∑ j ∈ set, before j + after i := by
  have rest : ∑ j ∈ set.erase i, after j = ∑ j ∈ set.erase i, before j := by
    refine Finset.sum_congr rfl fun j mem => ?_
    obtain ⟨ne, isMember⟩ := Finset.mem_erase.mp mem
    exact same j isMember ne
  rw [← Finset.sum_erase_add set before member, ← Finset.sum_erase_add set after member, rest]
  exact add_right_comm ..

end SlurmSim.Lib
