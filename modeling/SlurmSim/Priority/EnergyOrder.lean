import SlurmSim.Priority.Energy

/-!
# The order of the energy projections

`cmpEnergyValues` only says 0 or 1, and the scores behind it are taken relative
to the pair that is compared. The comparator is consistent on no set of two or
more partitions.
-/

namespace SlurmSim.Priority

open SlurmSim.Lib List

/-- The projections of different partitions, with positive energies and times. -/
structure ProjectedSet where
  infos : List (EnergyInfo ℚ)
  distinct : (infos.map EnergyInfo.part).Nodup
  positive : ∀ info ∈ infos, 0 < info.bestEnergy ∧ 0 < info.bestTime

/-- The comparator puts `b` behind `a`. -/
def SortsBefore (a b : EnergyInfo ℚ) : Prop :=
  0 < cmpEnergyValues b a

/-- What `qsort` and the rebuilt partition list rest on. -/
structure ConsistentComparator (set : ProjectedSet) : Prop where
  opposite : ∀ a ∈ set.infos, ∀ b ∈ set.infos,
    (cmpEnergyValues a b).sign = -(cmpEnergyValues b a).sign
  transitive : ∀ a ∈ set.infos, ∀ b ∈ set.infos, ∀ c ∈ set.infos,
    SortsBefore a b → SortsBefore b c → SortsBefore a c
  orderFree : ∀ infos others : List (EnergyInfo ℚ), infos.Perm set.infos → others.Perm set.infos →
    rebuildPartList infos = rebuildPartList others
  bestFirst : ∀ infos : List (EnergyInfo ℚ), infos.Perm set.infos →
    (qsort cmpEnergyValues infos).reverse.Pairwise fun a b => fcmpEnergyValues b a ≤ 0

variable {D : Type} [Double D]

theorem cmpEnergyValues_cases (a b : EnergyInfo D) :
    cmpEnergyValues a b = 0 ∨ cmpEnergyValues a b = 1 := by
  unfold cmpEnergyValues
  split
  · exact Or.inr rfl
  · exact Or.inl rfl

theorem cmpEnergyValues_eq_zero {a b : EnergyInfo D}
    (opposite : (cmpEnergyValues a b).sign = -(cmpEnergyValues b a).sign) :
    cmpEnergyValues a b = 0 := by
  rcases cmpEnergyValues_cases a b with zero | one
  · exact zero
  · rcases cmpEnergyValues_cases b a with other | other <;> rw [one, other] at opposite <;>
      exact absurd opposite (by decide)

theorem rebuildPartList_of_zero {infos : List (EnergyInfo D)}
    (zero : ∀ a ∈ infos, ∀ b ∈ infos, cmpEnergyValues a b = 0) :
    rebuildPartList infos = (infos.map EnergyInfo.part).reverse := by
  have inOrder : infos.Pairwise fun a b => cmpEnergyValues a b ≤ 0 :=
    List.Pairwise.imp_of_mem (fun inA inB _ => Int.le_of_eq (zero _ inA _ inB))
      (pairwise_of_forall fun _ _ => trivial)
  rw [rebuildPartList, qsort_of_pairwise inOrder, map_reverse]

theorem ConsistentComparator.length_le_one {set : ProjectedSet}
    (consistent : ConsistentComparator set) : set.infos.length ≤ 1 := by
  have zero : ∀ a ∈ set.infos, ∀ b ∈ set.infos, cmpEnergyValues a b = 0 :=
    fun a inA b inB => cmpEnergyValues_eq_zero (consistent.opposite a inA b inB)
  cases shape : set.infos with
  | nil => exact Nat.zero_le _
  | cons a rest =>
    cases rest with
    | nil => exact le_rfl
    | cons b rest =>
      exfalso
      have exchanged : (b :: a :: rest).Perm set.infos := shape ▸ List.Perm.swap a b rest
      have same := consistent.orderFree set.infos (b :: a :: rest) (List.Perm.refl _) exchanged
      have zeroExchanged : ∀ c ∈ b :: a :: rest, ∀ d ∈ b :: a :: rest, cmpEnergyValues c d = 0 :=
        fun c inC d inD => zero c (exchanged.mem_iff.mp inC) d (exchanged.mem_iff.mp inD)
      rw [rebuildPartList_of_zero zero, rebuildPartList_of_zero zeroExchanged,
        reverse_inj, shape, map_cons, map_cons, map_cons, List.cons.injEq] at same
      have distinct := set.distinct
      rw [shape, map_cons, map_cons, nodup_cons] at distinct
      exact distinct.1 (mem_cons.mpr (Or.inl same.1))

theorem cmpEnergyValues_self (a : EnergyInfo ℚ) : cmpEnergyValues a a = 0 := by
  have zero : fcmpEnergyValues a a = 0 := by
    simp only [fcmpEnergyValues]
    ring
  simp [cmpEnergyValues, zero, Double.lt, Double.ofNat]

/-- The comparator is consistent exactly on the sets that need no sorting. -/
theorem consistentComparator_iff (set : ProjectedSet) :
    ConsistentComparator set ↔ set.infos.length ≤ 1 := by
  constructor
  · exact ConsistentComparator.length_le_one
  · intro short
    cases shape : set.infos with
    | nil =>
      refine ⟨?_, ?_, ?_, ?_⟩
      · simp [shape]
      · simp [shape]
      · intro infos others same sameOthers
        rw [shape] at same sameOthers
        rw [same.eq_nil, sameOthers.eq_nil]
      · intro infos same
        rw [shape] at same
        rw [same.eq_nil]
        exact List.Pairwise.nil
    | cons a rest =>
      cases rest with
      | nil =>
        refine ⟨?_, ?_, ?_, ?_⟩
        · simp [shape, cmpEnergyValues_self]
        · simp [shape, SortsBefore, cmpEnergyValues_self]
        · intro infos others same sameOthers
          rw [shape] at same sameOthers
          rw [perm_singleton.mp same, perm_singleton.mp sameOthers]
        · intro infos same
          rw [shape] at same
          rw [perm_singleton.mp same]
          exact pairwise_singleton _ _
      | cons b rest =>
        rw [shape] at short
        simp at short

/-! ## Three partitions in a cycle -/

def projected (name : String) (energy : ℚ) (time : Nat) : EnergyInfo ℚ :=
  { EnergyInfo.blank ⟨name⟩ with bestEnergy := energy, bestTime := time }

def cyclicSet : ProjectedSet where
  infos := [projected "cluster" 100 100, projected "booster" 400 34, projected "dam" 200 57]
  distinct := by decide
  positive := by
    intro info inside
    simp only [mem_cons, not_mem_nil, or_false] at inside
    rcases inside with rfl | rfl | rfl <;> norm_num [projected]

/-- Each of the three scores better than the next, and the list depends on the
order in which they were given. -/
theorem cyclicSet_not_consistent :
    (0 < fcmpEnergyValues (projected "cluster" 100 100) (projected "booster" 400 34) ∧
      0 < fcmpEnergyValues (projected "booster" 400 34) (projected "dam" 200 57) ∧
      0 < fcmpEnergyValues (projected "dam" 200 57) (projected "cluster" 100 100)) ∧
    (cmpEnergyValues (projected "cluster" 100 100) (projected "booster" 400 34) = 1 ∧
      cmpEnergyValues (projected "booster" 400 34) (projected "cluster" 100 100) = 0) ∧
    rebuildPartList cyclicSet.infos ≠ rebuildPartList cyclicSet.infos.reverse ∧
    ¬ ConsistentComparator cyclicSet := by
  refine ⟨by decide +kernel, by decide +kernel, by decide +kernel, ?_⟩
  intro consistent
  exact absurd consistent.length_le_one (by decide)

end SlurmSim.Priority
