import SlurmSim.Common.BitFmt

/-!
# The step format

Text such as `1-17:4` stands for every fourth position.  The loop over the positions ends in
front of the last number, which the array has room for.
-/

namespace SlurmSim.Common.Bitmap

open SlurmSim.Lib.Numerals List

/-- The `int32_t` numbers in the array that `bitfmt2int` allocates for the step format. -/
def stepArraySize (startTaskId endTaskId step : Int) : Int :=
  let size := toInt32 ((endTaskId - startTaskId).tdiv step + 1)
  toInt32 (toInt32 (size * 2) + 1)

/-- A decimal number of an expression, of 32 bits. -/
structure Decimal where
  digits : List Char
  nonempty : digits ≠ []
  isDigit : ∀ c ∈ digits, '0' ≤ c ∧ c ≤ '9'
  small : readOn 10 0 (digits.map fun c => c.toNat - 48) < 2 ^ 31

namespace Decimal

def value (n : Decimal) : Nat :=
  readOn 10 0 (n.digits.map fun c => c.toNat - 48)

theorem strtol_eq (n : Decimal) (rest : List Char)
    (stops : ∀ c ∈ rest.head?, ¬('0' ≤ c ∧ c ≤ '9')) :
    strtol (n.digits ++ rest) = ((n.value : Int), rest) := by
  obtain ⟨digits, nonempty, isDigit, small⟩ := n
  obtain ⟨c, others, rfl⟩ := exists_cons_of_ne_nil nonempty
  have taken : (c :: (others ++ rest)).takeWhile (fun c => decide ('0' ≤ c ∧ c ≤ '9')) =
      c :: others := by
    rw [← cons_append, takeWhile_append_of_pos fun d mem => decide_eq_true (isDigit d mem)]
    cases rest with
    | nil => rw [takeWhile_nil, append_nil]
    | cons d rest =>
      have stop : decide ('0' ≤ d ∧ d ≤ '9') = false := decide_eq_false (stops d rfl)
      rw [takeWhile_cons, stop, if_neg Bool.false_ne_true, append_nil]
  have fits : (readOn 10 0 ((c :: others).map fun c => c.toNat - 48) : Int) ≤ 2 ^ 63 - 1 := by
    omega
  rw [cons_append, strtol_cons (isDigit c mem_cons_self), taken, min_eq_left fits,
    ← cons_append, drop_left]
  rfl

theorem toInt32_value (n : Decimal) : toInt32 n.value = n.value := by
  have small := n.small
  change n.value < 2 ^ 31 at small
  rw [toInt32]
  omega

end Decimal

/-- An expression in the step format, whose loop ends with an index of 32 bits. -/
structure StepExpr where
  start : Decimal
  last : Decimal
  step : Decimal
  ordered : start.value ≤ last.value
  positive : 0 < step.value
  indexFits : start.value + (last.value - start.value + step.value - 1) / step.value * step.value
    < 2 ^ 31

namespace StepExpr

variable (e : StepExpr)

def text : List Char :=
  e.start.digits ++ '-' :: (e.last.digits ++ ':' :: e.step.digits)

/-- The positions that the expression stands for. -/
def positions : List Int :=
  (List.range ((e.last.value - e.start.value) / e.step.value + 1)).map fun k : Nat =>
    (e.start.value + k * e.step.value : Int)

/-- The list is that of all the positions, and the array has room for it. -/
structure Listed (inx : List Int) : Prop where
  pairs : inx = (e.positions.flatMap fun x => [x, x]) ++ [-1]
  room : inx.length ≤ stepArraySize e.start.value e.last.value e.step.value

/-! ## Parsing -/

theorem bitfmt2int_text : bitfmt2int (some e.text) =
    some (some (stepPairs e.start.value e.last.value e.step.value ++ [-1])) := by
  have colon : ':' ∈ e.text := by simp [text]
  have hyphen : ¬('0' ≤ '-' ∧ '-' ≤ '9') := by simp
  have separator : ¬('0' ≤ ':' ∧ ':' ≤ '9') := by simp
  have first := e.start.strtol_eq ('-' :: (e.last.digits ++ ':' :: e.step.digits))
    (fun c head => by cases head; exact hyphen)
  have second := e.last.strtol_eq (':' :: e.step.digits)
    (fun c head => by cases head; exact separator)
  have third := e.step.strtol_eq [] (fun c head => by cases head)
  rw [append_nil] at third
  have ordered := e.ordered
  have positive := e.positive
  have accepted : ¬(([] : List Char) ≠ [] ∨ (e.last.value : Int) < e.start.value ∨
      (e.step.value : Int) ≤ 0) := by
    simp
    omega
  rw [bitfmt2int, if_pos colon, text, parseSteps, first]
  simp only [second, third, Decimal.toInt32_value, if_neg accepted, Option.map_some]

end StepExpr

theorem stepPairs_eq {endTaskId step : Int} (pos : 0 < step) (n : Nat) (i : Int)
    (below : ∀ k < n, i + k * step < endTaskId) (ends : endTaskId ≤ i + n * step) :
    stepPairs i endTaskId step =
      ((List.range n).map fun k : Nat => (i + k * step : Int)).flatMap fun x => [x, x] := by
  induction n generalizing i with
  | zero =>
    have stops : ¬(i < endTaskId ∧ 0 < step) := by
      omega
    rw [stepPairs, if_neg stops]
    rfl
  | succ n ih =>
    have more : i < endTaskId := by simpa using below 0 (Nat.succ_pos n)
    have rest := ih (i + step) (fun k less => by
        have next := below (k + 1) (Nat.succ_lt_succ less)
        push_cast [Int.add_mul] at next
        omega) (by
      push_cast [Int.add_mul] at ends
      omega)
    rw [stepPairs, if_pos ⟨more, pos⟩, rest, range_succ_eq_map, map_cons,
      flatMap_cons, map_map]
    have shifted : (fun k : Nat => i + step + k * step) =
        (fun k : Nat => i + k * step) ∘ Nat.succ := by
      funext k
      simp only [Function.comp_apply]
      push_cast [Int.add_mul]
      omega
    rw [shifted]
    simp

namespace StepExpr

variable (e : StepExpr)

theorem length_positions :
    e.positions.length = (e.last.value - e.start.value) / e.step.value + 1 := by
  rw [positions, length_map, length_range]

theorem length_pairs (positions : List Int) :
    (positions.flatMap fun x => [x, x]).length = 2 * positions.length := by
  simp [length_flatMap, Nat.mul_comm]

theorem room_iff :
    (2 * e.positions.length + 1 : Int) ≤ stepArraySize e.start.value e.last.value e.step.value ↔
      2 * ((e.last.value - e.start.value) / e.step.value + 1) + 1 < 2 ^ 31 := by
  have ordered := e.ordered
  have quotient : ((e.last.value : Int) - e.start.value).tdiv e.step.value =
      ((e.last.value - e.start.value) / e.step.value : Nat) := by
    rw [← Int.natCast_sub ordered, Int.ofNat_tdiv]
  rw [stepArraySize, quotient, e.length_positions]
  simp only [toInt32]
  omega

theorem stepPairs_below : stepPairs e.start.value e.last.value e.step.value =
    ((List.range ((e.last.value - e.start.value + e.step.value - 1) / e.step.value)).map
      fun k : Nat => (e.start.value + k * e.step.value : Int)).flatMap fun x => [x, x] := by
  have positive := e.positive
  generalize e.start.value = a at *
  generalize e.last.value = z at *
  generalize e.step.value = s at *
  have upper := Nat.div_add_mod (z - a + s - 1) s
  have remainder := Nat.mod_lt (z - a + s - 1) positive
  generalize (z - a + s - 1) / s = n at *
  apply stepPairs_eq (by omega)
  · intro k less
    have le : s * (k + 1) ≤ s * n := Nat.mul_le_mul_left s less
    rw [Nat.mul_succ] at le
    have below : a + k * s < z := by
      rw [Nat.mul_comm]
      omega
    exact_mod_cast below
  · have ends : z ≤ a + n * s := by
      rw [Nat.mul_comm]
      omega
    exact_mod_cast ends

end StepExpr

theorem roundedUp {d s : Nat} (pos : 0 < s) :
    (s ∣ d → (d + s - 1) / s = d / s) ∧ (¬s ∣ d → (d + s - 1) / s = d / s + 1) := by
  have split := Nat.div_add_mod d s
  have small := Nat.mod_lt d pos
  have sum : d + s - 1 = s * (d / s) + (d % s + s - 1) := by omega
  rw [sum, Nat.mul_add_div pos, Nat.dvd_iff_mod_eq_zero]
  constructor
  · intro none
    rw [Nat.div_eq_of_lt (by omega : d % s + s - 1 < s), Nat.add_zero]
  · intro some
    have whole : d % s + s - 1 = s * 1 + (d % s - 1) := by omega
    rw [whole, Nat.mul_add_div pos, Nat.div_eq_of_lt (by omega : d % s - 1 < s)]

/-- The list of a step expression is complete if and only if its last number is not one of
the positions and its array has a size of 32 bits. -/
theorem step_list_iff (e : StepExpr) :
    (∃ inx, bitfmt2int (some e.text) = some (some inx) ∧ e.Listed inx) ↔
      ¬e.step.value ∣ e.last.value - e.start.value ∧
        2 * ((e.last.value - e.start.value) / e.step.value + 1) + 1 < 2 ^ 31 := by
  obtain ⟨divided, more⟩ := @roundedUp (e.last.value - e.start.value) _ e.positive
  have length : ((e.positions.flatMap fun x => [x, x]) ++ [(-1 : Int)]).length =
      2 * e.positions.length + 1 := by
    rw [length_append, StepExpr.length_pairs, length_singleton]
  rw [e.bitfmt2int_text, e.stepPairs_below, ← e.room_iff]
  constructor
  · rintro ⟨inx, found, pairs, room⟩
    cases found
    have count := congrArg List.length pairs
    rw [length, e.length_positions, length_append, StepExpr.length_pairs, length_map,
      length_range, length_singleton] at count
    refine ⟨fun divides => ?_, ?_⟩
    · rw [divided divides] at count
      omega
    · rw [pairs, length] at room
      exact_mod_cast room
  · rintro ⟨notLast, room⟩
    rw [more notLast]
    refine ⟨_, rfl, rfl, ?_⟩
    change (((e.positions.flatMap fun x => [x, x]) ++ [(-1 : Int)]).length : Int) ≤ _
    rw [length]
    exact_mod_cast room

/-- The expression `1-17:4`. -/
def oneToSeventeen : StepExpr where
  start := ⟨['1'], by decide, by simp, by decide⟩
  last := ⟨['1', '7'], by decide, by simp, by decide⟩
  step := ⟨['4'], by decide, by simp, by decide⟩
  ordered := by decide
  positive := by decide
  indexFits := by decide

/-- The last position of `1-17:4` is missing. -/
theorem step_list_fails : ¬∀ e : StepExpr,
    ∃ inx, bitfmt2int (some e.text) = some (some inx) ∧ e.Listed inx := by
  intro listed
  obtain ⟨inx, found, pairs, _⟩ := listed oneToSeventeen
  rw [StepExpr.bitfmt2int_text] at found
  have missing : stepPairs oneToSeventeen.start.value oneToSeventeen.last.value
      oneToSeventeen.step.value ++ [-1] = [1, 1, 5, 5, 9, 9, 13, 13, -1] := by decide +kernel
  have complete : (oneToSeventeen.positions.flatMap fun x => [x, x]) ++ [-1] =
      [1, 1, 5, 5, 9, 9, 13, 13, 17, 17, -1] := by decide +kernel
  rw [missing] at found
  rw [complete] at pairs
  cases found
  cases pairs

end SlurmSim.Common.Bitmap
