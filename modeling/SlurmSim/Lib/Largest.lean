import Mathlib.Algebra.BigOperators.Group.Finset.Piecewise
import Mathlib.Algebra.Order.BigOperators.Group.Finset
import Mathlib.Data.Finset.Max
import Mathlib.Data.List.Sort

/-!
# The largest elements of a set

A part of a finite set that has its largest elements, measured by a function, has the
largest sum among the parts with as many elements.
-/

namespace SlurmSim.Lib

open List

variable {ι : Type} [DecidableEq ι] {f : ι → Nat} {set top other : Finset ι}

/-- No element outside of `top` is larger than one inside. -/
structure IsTop (f : ι → Nat) (set top : Finset ι) : Prop where
  subset : top ⊆ set
  largest : ∀ i ∈ top, ∀ j ∈ set, j ∉ top → f j ≤ f i

namespace IsTop

omit [DecidableEq ι] in
theorem empty (f : ι → Nat) (set : Finset ι) : IsTop f set ∅ :=
  ⟨Finset.empty_subset set, fun i inside => absurd inside (Finset.notMem_empty i)⟩

theorem insert (isTop : IsTop f set top) {i : ι} (member : i ∈ set)
    (next : ∀ j ∈ set, j ∉ top → f j ≤ f i) : IsTop f set (insert i top) := by
  refine ⟨Finset.insert_subset member isTop.subset, ?_⟩
  intro k mem j inSet notIn
  rw [Finset.mem_insert, not_or] at notIn
  rcases Finset.mem_insert.mp mem with rfl | before
  · exact next j inSet notIn.2
  · exact isTop.largest k before j inSet notIn.2

theorem sum_le (isTop : IsTop f set top) (mem : other ⊆ set) (few : other.card ≤ top.card) :
    ∑ i ∈ other, f i ≤ ∑ i ∈ top, f i := by
  have fewer : (other \ top).card ≤ (top \ other).card := by
    have first := Finset.card_sdiff_add_card_inter other top
    have second := Finset.card_sdiff_add_card_inter top other
    rw [Finset.inter_comm] at second
    omega
  have exchanged : ∑ i ∈ other \ top, f i ≤ ∑ i ∈ top \ other, f i := by
    rcases (top \ other).eq_empty_or_nonempty with none_ | some_
    · rw [none_, Finset.card_empty, Nat.le_zero, Finset.card_eq_zero] at fewer
      rw [fewer, none_]
    · obtain ⟨least, inTop, isLeast⟩ := Finset.exists_min_image (top \ other) f some_
      calc ∑ i ∈ other \ top, f i ≤ (other \ top).card • f least := by
            refine Finset.sum_le_card_nsmul _ _ _ fun i member => ?_
            obtain ⟨inOther, notIn⟩ := Finset.mem_sdiff.mp member
            exact isTop.largest least (Finset.mem_sdiff.mp inTop).1 i (mem inOther) notIn
        _ ≤ (top \ other).card • f least := Nat.mul_le_mul_right _ fewer
        _ ≤ ∑ i ∈ top \ other, f i := Finset.card_nsmul_le_sum _ _ _ isLeast
  calc ∑ i ∈ other, f i = ∑ i ∈ other ∩ top, f i + ∑ i ∈ other \ top, f i :=
        (Finset.sum_inter_add_sum_sdiff other top f).symm
    _ ≤ ∑ i ∈ top ∩ other, f i + ∑ i ∈ top \ other, f i := by
        rw [Finset.inter_comm]
        exact Nat.add_le_add_left exchanged _
    _ = ∑ i ∈ top, f i := Finset.sum_inter_add_sum_sdiff top other f

theorem take {list : List ι} (sorted : list.Pairwise fun i j => f j ≤ f i) (k : Nat) :
    IsTop f list.toFinset (list.take k).toFinset := by
  refine ⟨fun i mem => ?_, fun i mem j inList notIn => ?_⟩
  · exact mem_toFinset.mpr (mem_of_mem_take (mem_toFinset.mp mem))
  · have later : j ∈ list.drop k := by
      rw [mem_toFinset] at inList notIn
      rw [← take_append_drop k list] at inList
      exact (mem_append.mp inList).resolve_left notIn
    rw [← take_append_drop k list] at sorted
    exact (pairwise_append.mp sorted).2.2 i (mem_toFinset.mp mem) j later

end IsTop

end SlurmSim.Lib
