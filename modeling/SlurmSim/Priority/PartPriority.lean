import Mathlib.Data.Rat.Floor

/-!
# Priorities of a job in one and in several partitions

`_get_priority_internal` adds up the weighted factors twice: for the partition of the
job, and for each partition of its list.  The C doubles are read as exact rationals.  A
conversion to an integer type that the value does not fit has no result.
-/

namespace SlurmSim.Priority.PartPriority

/-- `NICE_OFFSET` -/
def niceOffset : UInt32 := 0x80000000

/-- The conversion of a double to an unsigned type of `width` bits. -/
def toUnsigned (width : Nat) (a : ℚ) : Option Nat :=
  if -1 < a ∧ a < 2 ^ width then some ⌊a⌋.toNat else none

/-- The weights of the plugin, with one for each trackable resource if any are configured. -/
structure Weights where
  age : UInt32
  fs : UInt32
  js : UInt32
  part : UInt32
  qos : UInt32
  tres : Option (List ℚ)

/-- `priority_factors_object_t` as `set_priority_factors` leaves it, except for the factor of
the partition. -/
structure Factors where
  priorityAge : ℚ
  priorityFs : ℚ
  priorityJs : ℚ
  priorityQos : ℚ
  priorityTres : Option (List ℚ)
  nice : UInt32

/-- A partition, and the largest `priority_job_factor` of all partitions. -/
structure PartRecord where
  priorityJobFactor : UInt16
  partMaxPriority : UInt16
  le_max : priorityJobFactor ≤ partMaxPriority

/-- `norm_priority` -/
def PartRecord.normPriority (part : PartRecord) : ℚ :=
  if part.partMaxPriority = 0 then 0
  else part.priorityJobFactor.toNat / part.partMaxPriority.toNat

/-- `tmp_tres` -/
def tmpTres (weights : Weights) (factors : Factors) : ℚ :=
  match weights.tres, factors.priorityTres with
  | some weightTres, some tresFactors => (List.zipWith (· * ·) tresFactors weightTres).sum
  | _, _ => 0

/-- The weighted factors other than the one of the partition. -/
def weighted (weights : Weights) (factors : Factors) : ℚ :=
  factors.priorityAge * weights.age.toNat + factors.priorityFs * weights.fs.toNat +
    factors.priorityJs * weights.js.toNat + factors.priorityQos * weights.qos.toNat +
    tmpTres weights factors

/-- The nice value as a signed number. -/
def signedNice (factors : Factors) : Int :=
  factors.nice.toNat - niceOffset.toNat

/-- `((uint64_t) nice) - NICE_OFFSET` -/
def unsignedNice (factors : Factors) : UInt64 :=
  factors.nice.toUInt64 - niceOffset.toUInt64

/-- Priority 0 is reserved for held jobs, and the largest one has 32 bits. -/
def clampPriority (priority : ℚ) : Option Nat :=
  (toUnsigned 64 (if priority < 1 then 1 else priority)).map fun tmp64 => min tmp64 0xffffffff

/-- The sum for the partition of the job. -/
def singlePriority (weights : Weights) (factors : Factors) (part : PartRecord) : Option Nat :=
  clampPriority (part.normPriority * weights.part.toNat + weighted weights factors -
    signedNice factors)

/-- The sum for one partition of the list, without the energy bonus.  Without a
`part_max_priority` the first quotient is not a number. -/
def partPriority (weights : Weights) (factors : Factors) (part : PartRecord) : Option Nat :=
  if part.partMaxPriority = 0 then none
  else
    let priorityPart : ℚ :=
      part.priorityJobFactor.toNat / part.partMaxPriority.toNat * weights.part.toNat
    (toUnsigned 32 (weighted weights factors - (unsignedNice factors).toNat)).bind fun sum =>
      clampPriority (priorityPart + sum)

/-! ## Agreement -/

/-- Both priorities exist and differ by one at most, which is what truncation can do. -/
def Close (single multi : Option Nat) : Prop :=
  ∃ s m, single = some s ∧ multi = some m ∧ s ≤ m + 1 ∧ m ≤ s + 1

/-- The nice value that changes nothing. -/
def Factors.plain (factors : Factors) : Factors := { factors with nice := niceOffset }

/-- A priority that is at least another one. -/
def Raises (after before : Option Nat) : Prop :=
  ∃ a b, after = some a ∧ before = some b ∧ b ≤ a

/-- What the two sums have to do with each other. -/
structure Agrees (weights : Weights) (factors : Factors) (part : PartRecord) : Prop where
  close : Close (singlePriority weights factors part) (partPriority weights factors part)
  raises : factors.nice < niceOffset →
    Raises (singlePriority weights factors part) (singlePriority weights factors.plain part) ∧
      Raises (partPriority weights factors part) (partPriority weights factors.plain part)

/-! ## Conversions -/

variable {a : ℚ}

theorem toUnsigned_eq_some {width n : Nat} (converted : toUnsigned width a = some n) :
    (-1 < a ∧ a < 2 ^ width) ∧ ⌊a⌋.toNat = n := by
  unfold toUnsigned at converted
  split_ifs at converted with fits
  exact ⟨fits, Option.some.inj converted⟩

theorem toUnsigned_of_fits {width : Nat} (low : -1 < a) (high : a < 2 ^ width) :
    toUnsigned width a = some ⌊a⌋.toNat :=
  if_pos ⟨low, high⟩

theorem truncated_near (low : -1 < a) : (⌊a⌋.toNat : ℚ) < a + 1 ∧ a < ⌊a⌋.toNat + 1 := by
  rcases le_or_gt 0 a with pos | negative
  · have whole : ((⌊a⌋.toNat : Int) : ℚ) = ⌊a⌋ := by
      rw [Int.toNat_of_nonneg (Int.floor_nonneg.mpr pos)]
    rw [Int.cast_natCast] at whole
    rw [whole]
    exact ⟨by linarith [Int.floor_le a], Int.lt_floor_add_one a⟩
  · have floor_neg : ⌊a⌋ < 0 := Int.floor_lt.mpr (by exact_mod_cast negative)
    rw [Int.toNat_of_nonpos floor_neg.le, Nat.cast_zero]
    exact ⟨by linarith, by linarith⟩

/-- What the clamp makes of a sum. -/
def clamped (a : ℚ) : Nat := min ⌊max a 1⌋.toNat 0xffffffff

theorem clampPriority_of_lt (below : a < 2 ^ 64) : clampPriority a = some (clamped a) := by
  have high : max a 1 < 2 ^ 64 := max_lt below (by norm_num)
  have low : -1 < max a 1 := lt_of_lt_of_le (by norm_num) (le_max_right a 1)
  have same : (if a < 1 then 1 else a) = max a 1 := by
    split_ifs with small
    · exact (max_eq_right small.le).symm
    · exact (max_eq_left (not_lt.mp small)).symm
  rw [clampPriority, same, toUnsigned_of_fits low high]
  rfl

theorem lt_of_clampPriority {n : Nat} (exists_ : clampPriority a = some n) : a < 2 ^ 64 := by
  obtain ⟨tmp64, converted, _⟩ := Option.map_eq_some_iff.mp exists_
  have high := (toUnsigned_eq_some converted).1.2
  split_ifs at high with small
  · exact lt_trans small (by norm_num)
  · exact high

theorem clamped_le_succ {b : ℚ} (near : a ≤ b + 1) : clamped a ≤ clamped b + 1 := by
  have shifted : max a 1 ≤ max b 1 + 1 :=
    max_le (near.trans (by linarith [le_max_left b 1])) (by linarith [le_max_right b 1])
  have floors := Int.floor_le_floor shifted
  rw [Int.floor_add_one] at floors
  unfold clamped
  omega

/-! ## The nice value -/

theorem unsignedNice_of_le {factors : Factors} (le : niceOffset ≤ factors.nice) :
    ((unsignedNice factors).toNat : Int) = signedNice factors := by
  have bound := factors.nice.toNat_lt
  have offset : niceOffset.toNat ≤ factors.nice.toNat := UInt32.le_iff_toNat_le.mp le
  rw [unsignedNice, signedNice, UInt64.toNat_sub, UInt32.toNat_toUInt64, UInt32.toNat_toUInt64]
  omega

theorem unsignedNice_of_lt {factors : Factors} (lt : factors.nice < niceOffset) :
    ((unsignedNice factors).toNat : Int) = 2 ^ 64 + signedNice factors := by
  have offset : factors.nice.toNat < niceOffset.toNat := UInt32.lt_iff_toNat_lt.mp lt
  have value : niceOffset.toNat = 2 ^ 31 := rfl
  rw [unsignedNice, signedNice, UInt64.toNat_sub, UInt32.toNat_toUInt64, UInt32.toNat_toUInt64]
  omega

/-! ## The factor of the partition -/

theorem normPriority_nonneg (part : PartRecord) : 0 ≤ part.normPriority := by
  unfold PartRecord.normPriority
  split_ifs
  · exact le_refl 0
  · positivity

theorem normPriority_le_one (part : PartRecord) : part.normPriority ≤ 1 := by
  unfold PartRecord.normPriority
  split_ifs
  · exact zero_le_one
  · refine div_le_one_of_le₀ ?_ (Nat.cast_nonneg _)
    exact_mod_cast UInt16.le_iff_toNat_le.mp part.le_max

/-- The weighted factor of the partition. -/
def partTerm (weights : Weights) (part : PartRecord) : ℚ :=
  part.normPriority * weights.part.toNat

theorem partTerm_nonneg (weights : Weights) (part : PartRecord) : 0 ≤ partTerm weights part :=
  mul_nonneg (normPriority_nonneg part) (Nat.cast_nonneg _)

theorem partTerm_lt (weights : Weights) (part : PartRecord) : partTerm weights part < 2 ^ 32 := by
  have weight : (weights.part.toNat : ℚ) < 2 ^ 32 := by exact_mod_cast weights.part.toNat_lt
  calc partTerm weights part ≤ 1 * weights.part.toNat :=
        mul_le_mul_of_nonneg_right (normPriority_le_one part) (Nat.cast_nonneg _)
    _ < 2 ^ 32 := by rwa [one_mul]

/-! ## The two sums -/

variable {weights : Weights} {factors : Factors} {part : PartRecord}

theorem partPriority_eq_some {m : Nat} (exists_ : partPriority weights factors part = some m) :
    part.partMaxPriority ≠ 0 ∧ -1 < weighted weights factors - (unsignedNice factors).toNat ∧
      weighted weights factors - (unsignedNice factors).toNat < 2 ^ 32 ∧
      clampPriority (partTerm weights part +
        (⌊weighted weights factors - (unsignedNice factors).toNat⌋.toNat : Nat)) = some m := by
  unfold partPriority at exists_
  split_ifs at exists_ with noMax
  obtain ⟨sum, converted, clamps⟩ := Option.bind_eq_some_iff.mp exists_
  obtain ⟨⟨low, high⟩, rfl⟩ := toUnsigned_eq_some converted
  refine ⟨noMax, low, high, ?_⟩
  rw [partTerm, PartRecord.normPriority, if_neg noMax]
  exact clamps

theorem partPriority_of_fits (hasMax : part.partMaxPriority ≠ 0)
    (low : -1 < weighted weights factors - (unsignedNice factors).toNat)
    (high : weighted weights factors - (unsignedNice factors).toNat < 2 ^ 32) :
    partPriority weights factors part = some (clamped (partTerm weights part +
      (⌊weighted weights factors - (unsignedNice factors).toNat⌋.toNat : Nat))) := by
  have near := (truncated_near low).1
  rw [partPriority, if_neg hasMax, toUnsigned_of_fits low high, Option.bind_some,
    ← clampPriority_of_lt (by linarith [partTerm_lt weights part]), partTerm,
    PartRecord.normPriority, if_neg hasMax]

/-- A lowered nice value leaves the second sum without a result, or at the other end. -/
theorem not_close_of_lt (lowered : factors.nice < niceOffset) :
    ¬Close (singlePriority weights factors part) (partPriority weights factors part) := by
  rintro ⟨s, m, single, multi, close, _⟩
  obtain ⟨_, low, _, clamps⟩ := partPriority_eq_some multi
  have cast : ((unsignedNice factors).toNat : ℚ) = 2 ^ 64 + signedNice factors := by
    exact_mod_cast unsignedNice_of_lt lowered
  have below := lt_of_clampPriority single
  rw [← partTerm] at below
  have nonneg := partTerm_nonneg weights part
  have negative : ⌊weighted weights factors - (unsignedNice factors).toNat⌋ < 0 :=
    Int.floor_lt.mpr (by rw [cast, Int.cast_zero]; linarith)
  rw [Int.toNat_of_nonpos negative.le, Nat.cast_zero, add_zero] at clamps
  have small : partTerm weights part < 1 := by linarith
  rw [clampPriority_of_lt (small.trans (by norm_num))] at clamps
  rw [singlePriority, clampPriority_of_lt (lt_of_clampPriority single)] at single
  have least : m = 1 := by
    rw [← Option.some.inj clamps, clamped, max_eq_right small.le, Int.floor_one]
    rfl
  have most : s = 0xffffffff := by
    have above : (2 ^ 63 : ℚ) ≤ partTerm weights part + weighted weights factors -
        signedNice factors := by
      linarith
    rw [← Option.some.inj single, clamped, ← partTerm]
    refine min_eq_right ?_
    have floors : (2 ^ 63 : Int) ≤ ⌊max (partTerm weights part + weighted weights factors -
        signedNice factors) 1⌋ :=
      Int.le_floor.mpr (by exact_mod_cast above.trans (le_max_left _ _))
    omega
  omega

/-- The priority in a partition of the list is that of a job in this partition exactly when
the nice value is not lowered, the other factors make a number of 32 bits, and some
partition has a factor. -/
theorem partPriority_agrees_iff (weights : Weights) (factors : Factors) (part : PartRecord) :
    Agrees weights factors part ↔ part.partMaxPriority ≠ 0 ∧ niceOffset ≤ factors.nice ∧
        -1 < weighted weights factors - signedNice factors ∧
        weighted weights factors - signedNice factors < 2 ^ 32 := by
  constructor
  · intro agrees
    have notLowered : niceOffset ≤ factors.nice :=
      UInt32.not_lt.mp fun lowered => not_close_of_lt lowered agrees.close
    obtain ⟨s, m, _, multi, _⟩ := agrees.close
    obtain ⟨hasMax, low, high, _⟩ := partPriority_eq_some multi
    have cast : ((unsignedNice factors).toNat : ℚ) = signedNice factors := by
      exact_mod_cast unsignedNice_of_le notLowered
    rw [cast] at low high
    exact ⟨hasMax, notLowered, low, high⟩
  · rintro ⟨hasMax, notLowered, low, high⟩
    refine ⟨?_, fun lowered => absurd notLowered (UInt32.not_le.mpr lowered)⟩
    have cast : ((unsignedNice factors).toNat : ℚ) = signedNice factors := by
      exact_mod_cast unsignedNice_of_le notLowered
    rw [← cast] at low high
    obtain ⟨near, near'⟩ := truncated_near low
    have below : partTerm weights part + weighted weights factors - signedNice factors < 2 ^ 64 := by
      rw [← cast]
      linarith [partTerm_lt weights part]
    refine ⟨_, _, clampPriority_of_lt below, partPriority_of_fits hasMax low high, ?_, ?_⟩
    · refine clamped_le_succ ?_
      rw [← partTerm, ← cast]
      linarith
    · refine clamped_le_succ ?_
      rw [← partTerm, ← cast]
      linarith

/-- One weight for the age and one for the partition. -/
def agePartWeights : Weights := ⟨1000, 0, 0, 500, 0, none⟩

/-- A job of the full age with a nice value. -/
def agedJob (nice : UInt32) : Factors := ⟨1, 0, 0, 0, none, nice⟩

/-- The only partition. -/
def onlyPart : PartRecord := ⟨1, 1, UInt16.le_refl 1⟩

/-- A nice value lowered by 100 adds 100 to the first sum, the second one has no result. -/
theorem partPriority_agrees_fails :
    singlePriority agePartWeights (agedJob (niceOffset - 100)) onlyPart = some 1600 ∧
      singlePriority agePartWeights (agedJob niceOffset) onlyPart = some 1500 ∧
      partPriority agePartWeights (agedJob niceOffset) onlyPart = some 1500 ∧
      partPriority agePartWeights (agedJob (niceOffset - 100)) onlyPart = none ∧
      ¬Agrees agePartWeights (agedJob (niceOffset - 100)) onlyPart := by
  have lost : partPriority agePartWeights (agedJob (niceOffset - 100)) onlyPart = none := by
    decide +kernel
  refine ⟨by decide +kernel, by decide +kernel, by decide +kernel, lost, fun agrees => ?_⟩
  obtain ⟨s, m, _, multi, _⟩ := agrees.close
  rw [lost] at multi
  cases multi

end SlurmSim.Priority.PartPriority
