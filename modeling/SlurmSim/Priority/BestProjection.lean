import SlurmSim.Priority.Energy

/-!
# The frequency that `get_best_projection` selects

A frequency without data has zero projections.  `_search_min` passes over zeros, but starts
from the first entry whatever it holds.
-/

namespace SlurmSim.Priority

open Double

/-! ## The search -/

section SearchMin

variable {v : Nat → ℚ} {n : Nat}

theorem searchMin_succ (v : Nat → ℚ) (n : Nat) :
    searchMin v (n + 1) = searchMinStep v (searchMin v n) n := by
  rw [searchMin, List.range_succ, List.foldl_append]
  rfl

theorem searchMinStep_cases (v : Nat → ℚ) (minI i : Nat) :
    (v i < v minI ∧ v i ≠ 0 ∧ searchMinStep v minI i = i) ∨
      (¬(v i < v minI ∧ v i ≠ 0) ∧ searchMinStep v minI i = minI) := by
  unfold searchMinStep
  split_ifs with less
  · have both : v i < v minI ∧ v i ≠ 0 := by simpa [Double.lt, Double.isZero] using less
    exact .inl ⟨both.1, both.2, rfl⟩
  · refine .inr ⟨fun both => less ?_, rfl⟩
    simpa [Double.lt, Double.isZero] using both

theorem searchMin_of_zero (zero : v 0 = 0) (nonneg : ∀ i < n, 0 ≤ v i) : searchMin v n = 0 := by
  induction n with
  | zero => rfl
  | succ n ih =>
    rw [searchMin_succ, ih fun i lt => nonneg i (Nat.lt_succ_of_lt lt)]
    rcases searchMinStep_cases v 0 n with ⟨less, _⟩ | ⟨_, same⟩
    · exact absurd (nonneg n (Nat.lt_succ_self n)) (not_le.mpr (zero ▸ less))
    · exact same

/-- The first of the least entries that are not zero. -/
structure IsFirstMin (v : Nat → ℚ) (n m : Nat) : Prop where
  ne_zero : v m ≠ 0
  le : ∀ i < n, v i ≠ 0 → v m ≤ v i
  first : ∀ i < m, v i ≠ 0 → v m < v i

theorem searchMin_isFirstMin (start : v 0 ≠ 0) : IsFirstMin v n (searchMin v n) := by
  induction n with
  | zero => exact ⟨start, fun _ lt => absurd lt (Nat.not_lt_zero _), fun _ lt =>
    absurd lt (Nat.not_lt_zero _)⟩
  | succ n ih =>
    rw [searchMin_succ]
    rcases searchMinStep_cases v (searchMin v n) n with ⟨less, some_, same⟩ | ⟨stays, same⟩
    · rw [same]
      refine ⟨some_, fun i lt isSome => ?_, fun i lt isSome => ?_⟩
      · rcases Nat.lt_succ_iff_lt_or_eq.mp lt with before | rfl
        · exact less.le.trans (ih.le i before isSome)
        · exact le_refl _
      · exact less.trans_le (ih.le i lt isSome)
    · rw [same]
      refine ⟨ih.ne_zero, fun i lt isSome => ?_, ih.first⟩
      rcases Nat.lt_succ_iff_lt_or_eq.mp lt with before | rfl
      · exact ih.le i before isSome
      · exact not_lt.mp fun less => stays ⟨less, isSome⟩

theorem searchMin_lt (pos : 0 < n) : searchMin v n < n := by
  induction n with
  | zero => exact absurd pos (Nat.lt_irrefl 0)
  | succ n ih =>
    rw [searchMin_succ]
    rcases searchMinStep_cases v (searchMin v n) n with ⟨_, _, same⟩ | ⟨_, same⟩
    · rw [same]
      exact Nat.lt_succ_self n
    · rw [same]
      rcases Nat.eq_zero_or_pos n with rfl | more
      · exact Nat.zero_lt_one
      · exact Nat.lt_succ_of_lt (ih more)

end SearchMin

/-! ## Projections of a module -/

/-- The projections of the frequencies of a module: those without data are zero. -/
structure Projections where
  nFreqs : Nat
  energy : Nat → ℚ
  time : Nat → ℚ
  whole : ∀ k < nFreqs, energy k ≠ 0 ∧ 0 < time k ∨ energy k = 0 ∧ time k = 0
  known : ∃ k < nFreqs, energy k ≠ 0

namespace Projections

variable (p : Projections)

def HasData (k : Nat) : Prop := k < p.nFreqs ∧ p.energy k ≠ 0 ∧ 0 < p.time k

/-- The indices of the divisors of `get_best_projection`. -/
def minE : Nat := searchMin p.energy p.nFreqs

def minR : Nat := searchMin p.time p.nFreqs

/-- The index `f_i` that `get_best_projection` reads all its results from. -/
def selected : Nat :=
  searchMin (jobProjection p.energy p.time p.minE p.minR) p.nFreqs

/-- `(e_f / e_min)^2 + (1.5 * t_f / t_min)^2` -/
def score (eMin tMin : ℚ) (k : Nat) : ℚ :=
  (p.energy k / eMin) ^ 2 + (3 / 2 * p.time k / tMin) ^ 2

def IsMinEnergy (eMin : ℚ) : Prop := IsLeast {e | ∃ k, p.HasData k ∧ p.energy k = e} eMin

def IsMinTime (tMin : ℚ) : Prop := IsLeast {t | ∃ k, p.HasData k ∧ p.time k = t} tMin

/-- No division by a missing projection, and a best frequency with data. -/
structure SelectsBest : Prop where
  divisors : p.HasData p.minE ∧ p.HasData p.minR
  selected : p.HasData p.selected
  minimal : ∀ eMin tMin, p.IsMinEnergy eMin → p.IsMinTime tMin → ∀ k, p.HasData k →
    p.score eMin tMin p.selected ≤ p.score eMin tMin k

/-- The mark of a frequency without data loses against a frequency with data. -/
def MarksLose (eMin tMin : ℚ) : Prop :=
  ∀ k < p.nFreqs, ¬p.HasData k → ∃ f, p.HasData f ∧
    (p.score eMin tMin f < dblMax ∨ p.score eMin tMin f = dblMax ∧ f < k)

end Projections

namespace Projections

variable {p : Projections}

variable {k : Nat}

theorem hasData_or_zero (lt : k < p.nFreqs) : p.HasData k ∨ p.energy k = 0 ∧ p.time k = 0 :=
  (p.whole k lt).imp_left fun data => ⟨lt, data⟩

theorem hasData_of_energy (lt : k < p.nFreqs) (some_ : p.energy k ≠ 0) : p.HasData k :=
  (hasData_or_zero lt).resolve_right fun zero => some_ zero.1

theorem hasData_of_time (lt : k < p.nFreqs) (some_ : p.time k ≠ 0) : p.HasData k :=
  (hasData_or_zero lt).resolve_right fun zero => some_ zero.2

theorem nFreqs_pos (p : Projections) : 0 < p.nFreqs := by
  obtain ⟨k, lt, _⟩ := p.known
  exact Nat.zero_lt_of_lt lt

theorem time_nonneg (lt : k < p.nFreqs) : 0 ≤ p.time k := by
  rcases hasData_or_zero lt with data | zero
  · exact data.2.2.le
  · exact zero.2.ge

/-! ## Divisors with data -/

theorem hasData_zero_of_minR (divisor : p.HasData p.minR) : p.HasData 0 := by
  rcases hasData_or_zero p.nFreqs_pos with data | zero
  · exact data
  · have same : p.minR = 0 := searchMin_of_zero zero.2 fun _ lt => time_nonneg lt
    exact same ▸ divisor

section FirstData

variable (first : p.HasData 0)

include first

theorem minE_hasData : p.HasData p.minE :=
  hasData_of_energy (searchMin_lt p.nFreqs_pos) (searchMin_isFirstMin first.2.1).ne_zero

theorem minR_hasData : p.HasData p.minR :=
  hasData_of_time (searchMin_lt p.nFreqs_pos) (searchMin_isFirstMin first.2.2.ne').ne_zero

theorem isMinEnergy_minE : p.IsMinEnergy (p.energy p.minE) := by
  refine ⟨⟨p.minE, minE_hasData first, rfl⟩, ?_⟩
  rintro e ⟨k, data, rfl⟩
  exact (searchMin_isFirstMin first.2.1).le k data.1 data.2.1

theorem isMinTime_minR : p.IsMinTime (p.time p.minR) := by
  refine ⟨⟨p.minR, minR_hasData first, rfl⟩, ?_⟩
  rintro t ⟨k, data, rfl⟩
  exact (searchMin_isFirstMin first.2.2.ne').le k data.1 data.2.2.ne'

/-! ## The array of scores -/

omit first in
theorem jobProjection_of_data {k : Nat} (data : p.HasData k) :
    jobProjection p.energy p.time p.minE p.minR k =
      p.score (p.energy p.minE) (p.time p.minR) k := by
  have some_ : ¬(isZero (p.energy k) = true) := by simpa [Double.isZero] using data.2.1
  rw [jobProjection, if_neg some_, score]
  simp only [runtimeWeight, Double.ofNat]
  ring

omit first in
theorem jobProjection_of_zero {k : Nat} (zero : p.energy k = 0) :
    jobProjection p.energy p.time p.minE p.minR k = dblMax := by
  have isNone : isZero (p.energy k) = true := by simpa [Double.isZero] using zero
  rw [jobProjection, if_pos isNone]

theorem score_pos {k : Nat} (data : p.HasData k) :
    0 < p.score (p.energy p.minE) (p.time p.minR) k := by
  have ratio : 0 < 3 / 2 * p.time k / p.time p.minR :=
    div_pos (mul_pos (by norm_num) data.2.2) (minR_hasData first).2.2
  exact add_pos_of_nonneg_of_pos (sq_nonneg _) (pow_pos ratio 2)

theorem selected_isFirstMin :
    IsFirstMin (jobProjection p.energy p.time p.minE p.minR) p.nFreqs p.selected :=
  searchMin_isFirstMin (by rw [jobProjection_of_data first]; exact (score_pos first first).ne')

theorem score_selected_le {k : Nat} (selected : p.HasData p.selected) (data : p.HasData k) :
    p.score (p.energy p.minE) (p.time p.minR) p.selected ≤
      p.score (p.energy p.minE) (p.time p.minR) k := by
  have le := (selected_isFirstMin first).le k data.1
  rw [jobProjection_of_data data, jobProjection_of_data selected] at le
  exact le (score_pos first data).ne'

theorem selected_hasData_iff :
    p.HasData p.selected ↔ p.MarksLose (p.energy p.minE) (p.time p.minR) := by
  have isFirst := selected_isFirstMin first
  have mark_ne : (dblMax : ℚ) ≠ 0 := by norm_num [Double.dblMax]
  constructor
  · intro data k lt missing
    have mark := jobProjection_of_zero ((hasData_or_zero lt).resolve_left missing).1
    refine ⟨p.selected, data, ?_⟩
    have le := isFirst.le k lt
    rw [mark, jobProjection_of_data data] at le
    rcases (le mark_ne).lt_or_eq with less | same
    · exact .inl less
    · refine .inr ⟨same, lt_of_not_ge fun before => ?_⟩
      rcases before.lt_or_eq with before | rfl
      · have more := isFirst.first k before
        rw [mark, jobProjection_of_data data, same] at more
        exact lt_irrefl _ (more mark_ne)
      · exact missing data
  · intro lose
    by_contra missing
    have lt : p.selected < p.nFreqs := searchMin_lt p.nFreqs_pos
    have mark := jobProjection_of_zero ((hasData_or_zero lt).resolve_left missing).1
    obtain ⟨f, data, beats⟩ := lose p.selected lt missing
    have some_ := (score_pos first data).ne'
    rcases beats with less | ⟨same, before⟩
    · have le := isFirst.le f data.1
      rw [mark, jobProjection_of_data data] at le
      exact absurd less (not_lt.mpr (le some_))
    · have more := isFirst.first f before
      rw [mark, jobProjection_of_data data, same] at more
      exact lt_irrefl _ (more mark_ne)

end FirstData

/-- `get_best_projection` selects the best frequency exactly when the first frequency has data,
and `DBL_MAX` does not pass for a score. -/
theorem selectsBest_iff (p : Projections) :
    p.SelectsBest ↔ p.HasData 0 ∧
      ∀ eMin tMin, p.IsMinEnergy eMin → p.IsMinTime tMin → p.MarksLose eMin tMin := by
  constructor
  · intro selects
    have first := hasData_zero_of_minR selects.divisors.2
    refine ⟨first, fun eMin tMin energy time => ?_⟩
    rw [energy.unique (isMinEnergy_minE first), time.unique (isMinTime_minR first)]
    exact (selected_hasData_iff first).mp selects.selected
  · rintro ⟨first, lose⟩
    have selected := (selected_hasData_iff first).mpr
      (lose _ _ (isMinEnergy_minE first) (isMinTime_minR first))
    refine ⟨⟨minE_hasData first, minR_hasData first⟩, selected, ?_⟩
    intro eMin tMin energy time k data
    rw [energy.unique (isMinEnergy_minE first), time.unique (isMinTime_minR first)]
    exact score_selected_le first selected data

/-- Three frequencies, the first one without data. -/
def firstMissing : Projections where
  nFreqs := 3
  energy k := if k = 0 then 0 else if k = 1 then 5 else 4
  time k := if k = 0 then 0 else if k = 1 then 10 else 20
  whole := by decide +kernel
  known := ⟨1, by decide, by decide +kernel⟩

/-- Both searches stay at the first frequency, whose missing projections become the divisors. -/
theorem firstMissing_not_best :
    firstMissing.minE = 0 ∧ firstMissing.energy 0 = 0 ∧ ¬firstMissing.SelectsBest := by
  refine ⟨by decide +kernel, rfl, fun selects => ?_⟩
  exact selects.divisors.1.2.1 (by decide +kernel)

end Projections

end SlurmSim.Priority
