import Mathlib.Order.Lattice.Nat

/-!
# Runs of consecutive positions

A scan from a first position on remembers where the run that ends at the current position
starts.  Runs of a wanted length, and the longest one, are read off from these starts.
-/

namespace SlurmSim.Lib.Runs

variable {good : Nat → Prop} {first bit start n : Nat}

/-- All positions from the first one on and below the second one are good. -/
def RunOn (good : Nat → Prop) (lo hi : Nat) : Prop :=
  ∀ i, lo ≤ i → i < hi → good i

theorem RunOn.sub {lo hi low high : Nat} (run : RunOn good lo hi) (le : lo ≤ low)
    (ge : high ≤ hi) : RunOn good low high :=
  fun i above below => run i (Nat.le_trans le above) (Nat.lt_of_lt_of_le below ge)

theorem RunOn.snoc {lo hi : Nat} (run : RunOn good lo hi) (next : good hi) :
    RunOn good lo (hi + 1) := by
  intro i above below
  rcases Nat.lt_or_eq_of_le (Nat.lt_succ_iff.mp below) with less | same
  · exact run i above less
  · exact same ▸ next

/-- The longest run that ends at a position and does not start before the scan does. -/
structure Trailing (good : Nat → Prop) (first bit start : Nat) : Prop where
  scanned : first ≤ start
  reached : start ≤ bit
  run : RunOn good start bit
  longest : ∀ p, first ≤ p → p ≤ bit → RunOn good p bit → start ≤ p

namespace Trailing

theorem empty (good : Nat → Prop) (first : Nat) : Trailing good first first first where
  scanned := Nat.le_refl first
  reached := Nat.le_refl first
  run := fun _ above below => absurd below (Nat.not_lt.mpr above)
  longest := fun _ after _ _ => after

theorem extend (trailing : Trailing good first bit start) (isGood : good bit) :
    Trailing good first (bit + 1) start where
  scanned := trailing.scanned
  reached := Nat.le_succ_of_le trailing.reached
  run := trailing.run.snoc isGood
  longest := by
    intro p after before run
    rcases Nat.lt_or_eq_of_le before with less | same
    · exact trailing.longest p after (Nat.lt_succ_iff.mp less)
        (run.sub (Nat.le_refl p) (Nat.le_succ bit))
    · exact same ▸ Nat.le_succ_of_le trailing.reached

theorem reset (trailing : Trailing good first bit start) (isBad : ¬good bit) :
    Trailing good first (bit + 1) (bit + 1) where
  scanned := Nat.le_succ_of_le (Nat.le_trans trailing.scanned trailing.reached)
  reached := le_rfl
  run := fun _ above below => absurd below (Nat.not_lt.mpr above)
  longest := by
    intro p _ before run
    by_contra earlier
    exact isBad (run bit (Nat.lt_succ_iff.mp (Nat.not_le.mp earlier)) (Nat.lt_succ_self bit))

end Trailing

/-! ## The first run of a length -/

/-- No run of the length has been passed. -/
structure Searched (good : Nat → Prop) (n first bit start : Nat) : Prop
    extends Trailing good first bit start where
  none : ∀ p, first ≤ p → p + n ≤ bit → ¬RunOn good p (p + n)

namespace Searched

theorem start_scan (good : Nat → Prop) (pos : 0 < n) (first : Nat) :
    Searched good n first first first where
  toTrailing := Trailing.empty good first
  none := fun p after before => absurd before (by omega)

theorem short (searched : Searched good n first bit start) : bit < start + n := by
  by_contra long
  exact searched.none start searched.scanned (Nat.not_lt.mp long)
    (searched.run.sub (Nat.le_refl start) (Nat.not_lt.mp long))

theorem found (searched : Searched good n first bit start) (isGood : good bit)
    (long : start + n = bit + 1) :
    IsLeast {p | first ≤ p ∧ RunOn good p (p + n)} start := by
  refine ⟨⟨searched.scanned, long ▸ searched.run.snoc isGood⟩, ?_⟩
  rintro p ⟨after, run⟩
  by_contra earlier
  exact searched.none p after (by omega) run

theorem extend (searched : Searched good n first bit start) (isGood : good bit)
    (short : start + n ≠ bit + 1) : Searched good n first (bit + 1) start where
  toTrailing := searched.toTrailing.extend isGood
  none := by
    intro p after before run
    rcases Nat.lt_or_eq_of_le before with less | same
    · exact searched.none p after (Nat.lt_succ_iff.mp less) run
    · have trailing := searched.toTrailing.extend isGood
      have le := trailing.longest p after (by omega) (same ▸ run)
      have bound := searched.short
      omega

theorem reset (searched : Searched good n first bit start) (isBad : ¬good bit)
    (pos : 0 < n) : Searched good n first (bit + 1) (bit + 1) where
  toTrailing := searched.toTrailing.reset isBad
  none := by
    intro p after before run
    rcases Nat.lt_or_eq_of_le before with less | same
    · exact searched.none p after (Nat.lt_succ_iff.mp less) run
    · exact isBad (run bit (by omega) (by omega))

end Searched

/-! ## The longest run -/

/-- The lengths of the runs that end at a position or before. -/
def runLengths (good : Nat → Prop) (bit : Nat) : Set Nat :=
  {k | ∃ p, p + k ≤ bit ∧ RunOn good p (p + k)}

theorem runLengths_zero (good : Nat → Prop) : IsGreatest (runLengths good 0) 0 := by
  constructor
  · exact ⟨0, Nat.le_refl 0, fun _ above below => absurd below (Nat.not_lt.mpr above)⟩
  · rintro k ⟨p, fits, _⟩
    omega

theorem longest_extend {most : Nat} (greatest : IsGreatest (runLengths good bit) most)
    (trailing : Trailing good 0 (bit + 1) start) :
    IsGreatest (runLengths good (bit + 1)) (max most (bit + 1 - start)) := by
  obtain ⟨⟨p, fits, run⟩, least⟩ := greatest
  constructor
  · rcases Nat.le_total most (bit + 1 - start) with le | le
    · rw [Nat.max_eq_right le]
      have reached := trailing.reached
      refine ⟨start, by omega, ?_⟩
      rw [Nat.add_sub_cancel' reached]
      exact trailing.run
    · rw [Nat.max_eq_left le]
      exact ⟨p, by omega, run⟩
  · rintro k ⟨q, ends, long⟩
    rcases Nat.lt_or_eq_of_le ends with less | same
    · exact Nat.le_trans (least ⟨q, Nat.lt_succ_iff.mp less, long⟩) (Nat.le_max_left _ _)
    · have le := trailing.longest q (Nat.zero_le q) (by omega) (same ▸ long)
      exact Nat.le_trans (by omega) (Nat.le_max_right _ _)

theorem longest_stop {most bits : Nat} (greatest : IsGreatest (runLengths good (bit + 1)) most)
    (isBad : ¬good bit) (mem : bit < bits) (few : bits - bit < most) :
    IsGreatest (runLengths good bits) most := by
  obtain ⟨⟨p, fits, run⟩, least⟩ := greatest
  constructor
  · exact ⟨p, Nat.le_trans fits mem, run⟩
  · rintro k ⟨q, ends, long⟩
    by_contra more
    rcases Nat.lt_or_ge bit (q + k) with behind | before
    · by_cases covers : q ≤ bit
      · exact isBad (long bit covers behind)
      · omega
    · exact more (least ⟨q, Nat.le_succ_of_le before, long⟩)

end SlurmSim.Lib.Runs
