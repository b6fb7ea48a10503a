import Mathlib.Algebra.GroupWithZero.Nat
import Mathlib.Algebra.Order.BigOperators.Group.List
import Mathlib.Algebra.Order.Group.Nat
import Mathlib.Data.Nat.Find

/-!
# Round robin

Entries with capacities take their turns in order, round after round, and each turn
fills up to `width` places of its entry until a number of tasks is placed.  The
share of an entry is told from the places that come before its own.
-/

namespace SlurmSim.Lib.RoundRobin

open List

/-- What an entry holds after `n` whole rounds. -/
def filled (width n capacity : Nat) : Nat :=
  min capacity (n * width)

/-- All places that are filled after `n` whole rounds. -/
def placed (width n : Nat) (capacities : List Nat) : Nat :=
  (capacities.map (filled width n)).sum

/-- The round after `n` whole ones, with the tasks that were placed before it. -/
def round (tasks width n : Nat) : List Nat → Nat → List Nat × Nat
  | [], tid => ([], tid)
  | capacity :: rest, tid =>
    let more := min (filled width (n + 1) capacity - filled width n capacity) (tasks - tid)
    let (shares, tid) := round tasks width n rest (tid + more)
    ((filled width n capacity + more) :: shares, tid)

/-- The places that come before the last place of the entry at `j`: its own, those of
earlier entries with the round of that place, and those of later ones without it. -/
def beforeLast (width : Nat) (capacities : List Nat) (j : Nat) : Nat :=
  let last := capacities.getD j 0 - 1
  let n := last / width
  last + placed width (n + 1) (capacities.take j) + placed width n (capacities.drop (j + 1))

variable {tasks width n : Nat}

/-! ## Whole rounds -/

theorem filled_le (width n capacity : Nat) : filled width n capacity ≤ capacity :=
  Nat.min_le_left ..

variable {capacities : List Nat} {tid j : Nat}

theorem filled_mono (width capacity : Nat) {m : Nat} (le : m ≤ n) :
    filled width m capacity ≤ filled width n capacity := by
  have product : m * width ≤ n * width := Nat.mul_le_mul_right width le
  unfold filled
  omega

@[simp]
theorem filled_zero (width capacity : Nat) : filled width 0 capacity = 0 := by
  simp [filled]

@[simp]
theorem placed_nil (width n : Nat) : placed width n [] = 0 :=
  rfl

@[simp]
theorem placed_cons (width n capacity : Nat) (rest : List Nat) :
    placed width n (capacity :: rest) = filled width n capacity + placed width n rest := by
  simp [placed]

theorem placed_zero (width : Nat) (capacities : List Nat) : placed width 0 capacities = 0 := by
  induction capacities with
  | nil => rfl
  | cons capacity rest ih => rw [placed_cons, filled_zero, ih]

theorem placed_mono (width : Nat) {m : Nat} (le : m ≤ n) (capacities : List Nat) :
    placed width m capacities ≤ placed width n capacities := by
  induction capacities with
  | nil => exact le_rfl
  | cons capacity rest ih =>
    rw [placed_cons, placed_cons]
    exact Nat.add_le_add (filled_mono width capacity le) ih

theorem exists_room (less : placed width n capacities < capacities.sum) :
    ∃ capacity ∈ capacities, n * width < capacity := by
  induction capacities with
  | nil => exact absurd less (Nat.lt_irrefl _)
  | cons capacity rest ih =>
    by_cases room : n * width < capacity
    · exact ⟨capacity, mem_cons_self, room⟩
    · rw [placed_cons, sum_cons] at less
      have full : filled width n capacity = capacity := Nat.min_eq_left (by omega)
      obtain ⟨other, mem, hasRoom⟩ := ih (by omega)
      exact ⟨other, mem_cons_of_mem _ mem, hasRoom⟩

theorem placed_sum (pos : 0 < width) (rounds : capacities.sum ≤ n) :
    placed width n capacities = capacities.sum := by
  induction capacities with
  | nil => rfl
  | cons capacity rest ih =>
    rw [sum_cons] at rounds
    have product : n ≤ n * width := Nat.le_mul_of_pos_right n pos
    rw [placed_cons, sum_cons, ih (by omega), filled, Nat.min_eq_left (by omega)]

theorem exists_last_round (pos : 0 < width) (some_ : 0 < tasks)
    (enough : tasks ≤ capacities.sum) :
    ∃ n, placed width n capacities < tasks ∧ tasks ≤ placed width (n + 1) capacities := by
  have ends : ∃ n, tasks ≤ placed width n capacities :=
    ⟨capacities.sum, by rw [placed_sum pos le_rfl]; exact enough⟩
  cases first : Nat.find ends with
  | zero =>
    have done := Nat.find_spec ends
    rw [first, placed_zero] at done
    omega
  | succ n =>
    refine ⟨n, ?_, ?_⟩
    · exact Nat.lt_of_not_le (Nat.find_min ends (by omega))
    · rw [← first]
      exact Nat.find_spec ends

/-! ## One round -/

theorem round_snd (tasks width n : Nat) (capacities : List Nat) (le : tid ≤ tasks) :
    (round tasks width n capacities tid).2 =
      min tasks (tid + (placed width (n + 1) capacities - placed width n capacities)) := by
  induction capacities generalizing tid with
  | nil => simp only [round, placed_nil]; omega
  | cons capacity rest ih =>
    have first := filled_mono width capacity (Nat.le_add_right n 1)
    have others := placed_mono width (Nat.le_add_right n 1) rest
    simp only [round, placed_cons]
    rw [ih (by omega)]
    omega

theorem round_sum (tasks width n : Nat) (capacities : List Nat) (tid : Nat) :
    (round tasks width n capacities tid).1.sum + tid =
      placed width n capacities + (round tasks width n capacities tid).2 := by
  induction capacities generalizing tid with
  | nil => simp [round]
  | cons capacity rest ih =>
    have others := ih
      (tid + min (filled width (n + 1) capacity - filled width n capacity) (tasks - tid))
    simp only [round, placed_cons, sum_cons]
    omega

@[simp]
theorem length_round (tasks width n : Nat) (capacities : List Nat) (tid : Nat) :
    (round tasks width n capacities tid).1.length = capacities.length := by
  induction capacities generalizing tid with
  | nil => rfl
  | cons capacity rest ih => simp only [round, length_cons, ih]

theorem round_whole (tasks width n : Nat) (capacities : List Nat)
    (enough : tid + (placed width (n + 1) capacities - placed width n capacities) ≤ tasks) :
    (round tasks width n capacities tid).1 = capacities.map (filled width (n + 1)) := by
  induction capacities generalizing tid with
  | nil => rfl
  | cons capacity rest ih =>
    have first := filled_mono width capacity (Nat.le_add_right n 1)
    have others := placed_mono width (Nat.le_add_right n 1) rest
    rw [placed_cons, placed_cons] at enough
    have more : min (filled width (n + 1) capacity - filled width n capacity) (tasks - tid) =
        filled width (n + 1) capacity - filled width n capacity := by omega
    simp only [round, map_cons]
    rw [more, ih (by omega), Nat.add_sub_cancel' first]

theorem round_done (tasks width n : Nat) (capacities : List Nat) (done : tasks ≤ tid) :
    round tasks width n capacities tid = (capacities.map (filled width n), tid) := by
  induction capacities with
  | nil => rfl
  | cons capacity rest ih =>
    rw [round, Nat.sub_eq_zero_of_le done, Nat.min_zero, Nat.add_zero, ih]
    rfl

/-- The share of each entry in a round, from the tasks placed before its turn. -/
theorem round_getD (tasks width n : Nat) (le : tid ≤ tasks) (mem : j < capacities.length) :
    (round tasks width n capacities tid).1.getD j 0 = filled width n (capacities.getD j 0) +
        min (filled width (n + 1) (capacities.getD j 0) - filled width n (capacities.getD j 0))
          (tasks - (tid + (placed width (n + 1) (capacities.take j) -
            placed width n (capacities.take j)))) := by
  induction capacities generalizing tid j with
  | nil => exact absurd mem (Nat.not_lt_zero j)
  | cons capacity rest ih =>
    have first := filled_mono width capacity (Nat.le_add_right n 1)
    cases j with
    | zero => simp [round]
    | succ j =>
      have others := placed_mono width (Nat.le_add_right n 1) (rest.take j)
      simp only [round, getD_cons_succ, take_succ_cons, placed_cons]
      rw [ih (by omega) (Nat.lt_of_succ_lt_succ mem)]
      omega

theorem round_getD_le (tasks width n : Nat) (le : tid ≤ tasks) (mem : j < capacities.length) :
    (round tasks width n capacities tid).1.getD j 0 ≤ capacities.getD j 0 := by
  rw [round_getD tasks width n le mem]
  have before := filled_le width n (capacities.getD j 0)
  have after := filled_le width (n + 1) (capacities.getD j 0)
  omega

/-! ## The last round -/

theorem placed_split (width n : Nat) (capacities : List Nat) (mem : j < capacities.length) :
    placed width n capacities =
      placed width n (capacities.take j) + filled width n (capacities.getD j 0) +
        placed width n (capacities.drop (j + 1)) := by
  induction capacities generalizing j with
  | nil => exact absurd mem (Nat.not_lt_zero j)
  | cons capacity rest ih =>
    cases j with
    | zero => simp
    | succ j =>
      simp only [placed_cons, take_succ_cons, getD_cons_succ, drop_succ_cons]
      rw [ih (Nat.lt_of_succ_lt_succ mem)]
      omega

/-- An entry is full at the end if and only if the tasks go past the places before
its last one. -/
theorem round_full_iff (pos : 0 < width) (less : placed width n capacities < tasks)
    (enough : tasks ≤ placed width (n + 1) capacities) (mem : j < capacities.length)
    (some_ : 0 < capacities.getD j 0) :
    (round tasks width n capacities (placed width n capacities)).1.getD j 0 = capacities.getD j 0 ↔
      beforeLast width capacities j < tasks := by
  rw [round_getD tasks width n (Nat.le_of_lt less) mem]
  have before := placed_split width n capacities mem
  have after := placed_split width (n + 1) capacities mem
  have earlier := placed_mono width (Nat.le_add_right n 1) (capacities.take j)
  simp only [beforeLast]
  generalize capacities.getD j 0 = capacity at *
  generalize isLast : capacity - 1 = last
  have turn : last / width * width + last % width = last := Nat.div_add_mod' last width
  have rest : last % width < width := Nat.mod_lt last pos
  generalize last / width = q at *
  rcases Nat.lt_trichotomy q n with less_ | same | greater
  · have product : (q + 1) * width ≤ n * width := Nat.mul_le_mul_right width less_
    have next : (q + 1) * width ≤ (n + 1) * width := Nat.mul_le_mul_right width (by omega)
    rw [Nat.add_one_mul] at product next
    have full : filled width n capacity = capacity := Nat.min_eq_left (by omega)
    have fullAfter : filled width (n + 1) capacity = capacity := Nat.min_eq_left (by omega)
    have earlierPlaced := placed_mono width less_ (capacities.take j)
    have laterPlaced := placed_mono width (Nat.le_of_lt less_) (capacities.drop (j + 1))
    simp only [Nat.succ_eq_add_one] at earlierPlaced
    constructor
    · intro _
      omega
    · intro _
      omega
  · subst same
    have before_ : filled width q capacity = q * width := Nat.min_eq_right (by omega)
    have after_ : filled width (q + 1) capacity = capacity :=
      Nat.min_eq_left (by rw [Nat.add_one_mul]; omega)
    constructor
    · intro full
      omega
    · intro beyond
      omega
  · have product : (n + 1) * width ≤ q * width := Nat.mul_le_mul_right width greater
    have next : n * width ≤ (n + 1) * width := Nat.mul_le_mul_right width (by omega)
    have before_ : filled width n capacity = n * width := Nat.min_eq_right (by omega)
    have after_ : filled width (n + 1) capacity = (n + 1) * width := Nat.min_eq_right (by omega)
    have earlierPlaced := placed_mono width (Nat.le_succ_of_le greater) (capacities.take j)
    have laterPlaced := placed_mono width greater (capacities.drop (j + 1))
    simp only [Nat.succ_eq_add_one] at earlierPlaced laterPlaced
    constructor
    · intro full
      omega
    · intro beyond
      omega

end SlurmSim.Lib.RoundRobin
