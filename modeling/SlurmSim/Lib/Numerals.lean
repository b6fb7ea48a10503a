import Mathlib.Data.Nat.Digits.Lemmas

/-!
# Numerals

Numbers written with digits in a base, most significant digit first.
-/

namespace SlurmSim.Lib.Numerals

open List

/-- The digits of a number; zero has one digit. -/
def numeral (base n : Nat) : List Nat :=
  if n = 0 then [0] else (Nat.digits base n).reverse

/-- Read digits behind a number that has been read already. -/
def readOn (base sum : Nat) (digits : List Nat) : Nat :=
  digits.foldl (fun sum digit => sum * base + digit) sum

theorem readOn_append (base sum : Nat) (digits others : List Nat) :
    readOn base sum (digits ++ others) = readOn base (readOn base sum digits) others :=
  foldl_append

theorem readOn_reverse (base sum : Nat) (digits : List Nat) :
    readOn base sum digits.reverse = sum * base ^ digits.length + Nat.ofDigits base digits := by
  induction digits with
  | nil => simp [readOn]
  | cons digit digits ih =>
    rw [reverse_cons, readOn_append, ih, Nat.ofDigits_cons, length_cons]
    simp only [readOn, foldl_cons, foldl_nil]
    ring

theorem readOn_eq (base sum : Nat) (digits : List Nat) :
    readOn base sum digits = sum * base ^ digits.length + readOn base 0 digits := by
  have value := readOn_reverse base sum digits.reverse
  have alone := readOn_reverse base 0 digits.reverse
  rw [reverse_reverse, length_reverse] at value alone
  rw [value, alone, Nat.zero_mul, Nat.zero_add]

theorem readOn_numeral (base sum n : Nat) :
    readOn base sum (numeral base n) = sum * base ^ (numeral base n).length + n := by
  rw [numeral]
  split_ifs with zero
  · simp [readOn, zero]
  · rw [readOn_reverse, Nat.ofDigits_digits, length_reverse]

theorem read_numeral (base n : Nat) : readOn base 0 (numeral base n) = n := by
  rw [readOn_numeral, Nat.zero_mul, Nat.zero_add]

variable {base n : Nat} {digits : List Nat}

theorem lt_of_mem_numeral {digit : Nat} (large : 1 < base) (mem : digit ∈ numeral base n) :
    digit < base := by
  rw [numeral] at mem
  split_ifs at mem with zero
  · rw [mem_singleton.mp mem]
    omega
  · exact Nat.digits_lt_base large (mem_reverse.mp mem)

theorem numeral_ne_nil (base n : Nat) : numeral base n ≠ [] := by
  rw [numeral]
  split_ifs with zero
  · exact cons_ne_nil _ _
  · rw [Ne, reverse_eq_nil_iff]
    exact Nat.digits_ne_nil_iff_ne_zero.mpr zero

theorem numeral_of_lt (small : n < base) : numeral base n = [n] := by
  rw [numeral]
  split_ifs with zero
  · rw [zero]
  · rw [Nat.digits_of_lt base n zero small, reverse_singleton]

theorem numeral_of_le (large : 1 < base) (le : base ≤ n) :
    numeral base n = numeral base (n / base) ++ [n % base] := by
  have quotient : n / base ≠ 0 := Nat.div_ne_zero_iff.mpr ⟨by omega, le⟩
  rw [numeral, if_neg (by omega), numeral, if_neg quotient, Nat.digits_def' large (by omega),
    reverse_cons]

theorem length_numeral_mono (base : Nat) {m : Nat} (le : n ≤ m) :
    (numeral base n).length ≤ (numeral base m).length := by
  rw [numeral]
  split_ifs with zero
  · exact length_pos_of_ne_nil (numeral_ne_nil base m)
  · rw [numeral, if_neg (by omega), length_reverse, length_reverse]
    exact Nat.le_length_digits_le base n m le

theorem length_numeral_le {width : Nat} (large : 1 < base) (pos : 0 < width)
    (small : n < base ^ width) : (numeral base n).length ≤ width := by
  rw [numeral]
  split_ifs with zero
  · exact pos
  · rw [length_reverse, Nat.length_digits base n large zero]
    exact Nat.log_lt_of_lt_pow zero small

/-- A number behind the zeros that bring it to a width. -/
def padded (base width n : Nat) : List Nat :=
  List.replicate (width - (numeral base n).length) 0 ++ numeral base n

theorem length_padded (base width n : Nat) :
    (padded base width n).length = max width (numeral base n).length := by
  rw [padded, length_append, length_replicate]
  omega

theorem padded_ne_nil (base width n : Nat) : padded base width n ≠ [] := by
  exact append_ne_nil_of_right_ne_nil _ (numeral_ne_nil base n)

theorem lt_of_mem_padded {width digit : Nat} (large : 1 < base)
    (mem : digit ∈ padded base width n) : digit < base := by
  rcases mem_append.mp mem with zero | mem
  · rw [eq_of_mem_replicate zero]
    omega
  · exact lt_of_mem_numeral large mem

theorem read_padded (base width n : Nat) : readOn base 0 (padded base width n) = n := by
  have zeros : ∀ count, readOn base 0 (List.replicate count 0) = 0 := by
    intro count
    induction count with
    | zero => rfl
    | succ count ih =>
      rw [replicate_succ, readOn, foldl_cons, Nat.zero_mul]
      exact ih
  rw [padded, readOn_append, zeros, read_numeral]

theorem read_lt_pow (large : 1 < base) (small : ∀ digit ∈ digits, digit < base) :
    readOn base 0 digits < base ^ digits.length := by
  have value := readOn_reverse base 0 digits.reverse
  rw [reverse_reverse, Nat.zero_mul, Nat.zero_add] at value
  rw [value, ← length_reverse]
  exact Nat.ofDigits_lt_base_pow_length large fun digit mem => small digit (mem_reverse.mp mem)

theorem eq_of_read_eq {others : List Nat} (large : 1 < base)
    (length : digits.length = others.length) (small : ∀ digit ∈ digits, digit < base)
    (smalls : ∀ digit ∈ others, digit < base) (same : readOn base 0 digits = readOn base 0 others) :
    digits = others := by
  have value := readOn_reverse base 0 digits.reverse
  have values := readOn_reverse base 0 others.reverse
  rw [reverse_reverse, Nat.zero_mul, Nat.zero_add] at value values
  apply reverse_injective
  apply Nat.ofDigits_inj_of_len_eq large
  · rw [length_reverse, length_reverse, length]
  · exact fun digit mem => small digit (mem_reverse.mp mem)
  · exact fun digit mem => smalls digit (mem_reverse.mp mem)
  · rw [← value, ← values, same]

theorem padded_read (large : 1 < base) (some : digits ≠ [])
    (small : ∀ digit ∈ digits, digit < base) :
    padded base digits.length (readOn base 0 digits) = digits := by
  have length := length_numeral_le large (length_pos_of_ne_nil some) (read_lt_pow large small)
  apply eq_of_read_eq large
  · rw [length_padded, max_eq_left length]
  · exact fun digit mem => lt_of_mem_padded large mem
  · exact small
  · exact read_padded base digits.length (readOn base 0 digits)

end SlurmSim.Lib.Numerals
