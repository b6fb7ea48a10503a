import Mathlib.Data.Nat.Bitwise
import SlurmSim.Common.Bitmap

/-!
# Masks as text

Bitmaps travel as hexadecimal and as binary masks.  Digits are written and read from the least
significant end; the topmost one may stand for fewer bits than a digit has.  No mask has so
many digits that a position would have more than 32 bits.
-/

namespace SlurmSim.Common.Bitmap

open List

/-! ## Hexadecimal masks -/

/-- The value of a digit with these bits, lowest first. -/
def nibble (x y z w : Bool) : Nat :=
  (if x then 1 else 0) ||| (if y then 2 else 0) ||| (if z then 4 else 0) ||| (if w then 8 else 0)

/-- A digit as text. -/
def hexDigit (current : Nat) : Char :=
  if current ≤ 9 then Char.ofNat (current + 48) else Char.ofNat (current + (65 - 10))

/-- The digit of up to four positions. -/
def maskDigit (bitmap : Bitstr) (i : Nat) : Nat :=
  nibble (bitTest bitmap i) (decide (i + 1 < bitmap.bits) && bitTest bitmap (i + 1))
    (decide (i + 2 < bitmap.bits) && bitTest bitmap (i + 2))
    (decide (i + 3 < bitmap.bits) && bitTest bitmap (i + 3))

/-- The loop of `bit_fmt_hexmask`, which writes in front of what it has written. -/
def fmtHexLoop (bitmap : Bitstr) (i : Nat) (ptr : List Char) : List Char :=
  if i < bitmap.bits then
    fmtHexLoop bitmap (min (i + 4) bitmap.bits) (hexDigit (maskDigit bitmap i) :: ptr)
  else ptr
termination_by bitmap.bits - i

/-- `bit_fmt_hexmask` -/
def bitFmtHexmask (bitmap : Bitstr) : List Char :=
  '0' :: 'x' :: fmtHexLoop bitmap 0 []

/-- `isxdigit` -/
def isXDigit (c : Char) : Bool :=
  c.isDigit || ('a' ≤ c && c ≤ 'f') || ('A' ≤ c && c ≤ 'F')

/-- The value of a character, zero if it is no digit. -/
def hexValue (current : Char) : Nat :=
  if isXDigit current then
    if current.isDigit then current.toNat - 48 else current.toUpper.toNat - (65 - 10)
  else 0

/-- Set a position if the digit has the bit and the position is one. -/
def setMasked (current mask bit : Nat) (bitmap : Bitstr) : Bitstr :=
  if current &&& mask ≠ 0 ∧ bit < bitmap.bits then bitSet bit bitmap else bitmap

/-- The positions of a digit. -/
def setDigit (current bitIndex : Nat) (bitmap : Bitstr) : Bitstr :=
  setMasked current 8 (bitIndex + 3) (setMasked current 4 (bitIndex + 2)
    (setMasked current 2 (bitIndex + 1) (setMasked current 1 bitIndex bitmap)))

/-- The loop of `bit_unfmt_hexmask`, over the digits from the last one on. -/
def unfmtHexLoop : List Char → Nat → Int → Bitstr → Int × Bitstr
  | [], _, rc, bitmap => (rc, bitmap)
  | c :: curpos, bitIndex, rc, bitmap =>
    unfmtHexLoop curpos (bitIndex + 4) (if isXDigit c then rc else -1)
      (setDigit (hexValue c) bitIndex bitmap)

/-- The text behind a `0x`. -/
def bypassPrefix (str : List Char) : List Char :=
  if str.take 2 = ['0', 'x'] then str.drop 2 else str

/-- `bit_unfmt_hexmask` -/
def bitUnfmtHexmask (bitmap : Bitstr) (str : List Char) : Int × Bitstr :=
  unfmtHexLoop (bypassPrefix str).reverse 0 0 (bitNclear 0 (bitmap.bits - 1) bitmap)

/-! ## Binary masks -/

/-- A binary digit as text. -/
def binDigit (isSet : Bool) : Char :=
  Char.ofNat ((if isSet then 1 else 0) + 48)

/-- The loop of `bit_fmt_binmask`. -/
def fmtBinLoop (bitmap : Bitstr) (i : Nat) (ptr : List Char) : List Char :=
  if i < bitmap.bits then fmtBinLoop bitmap (i + 1) (binDigit (bitTest bitmap i) :: ptr)
  else ptr
termination_by bitmap.bits - i

/-- `bit_fmt_binmask` -/
def bitFmtBinmask (bitmap : Bitstr) : List Char :=
  fmtBinLoop bitmap 0 []

/-- The difference of a character from `'0'`, which is a `char`. -/
def binValue (c : Char) : Nat :=
  (c.toNat + 208) % 256

/-- The loop of `bit_unfmt_binmask`. -/
def unfmtBinLoop : List Char → Nat → Bitstr → Bitstr
  | [], _, bitmap => bitmap
  | c :: curpos, bitIndex, bitmap =>
    unfmtBinLoop curpos (bitIndex + 1) (setMasked (binValue c) 1 bitIndex bitmap)

/-- `bit_unfmt_binmask` -/
def bitUnfmtBinmask (bitmap : Bitstr) (str : List Char) : Bitstr :=
  unfmtBinLoop str.reverse 0 (bitNclear 0 (bitmap.bits - 1) bitmap)

/-! ## Digits -/

theorem testBit_nibble (x y z w : Bool) :
    (nibble x y z w).testBit 0 = x ∧ (nibble x y z w).testBit 1 = y ∧
      (nibble x y z w).testBit 2 = z ∧ (nibble x y z w).testBit 3 = w ∧ nibble x y z w < 16 := by
  revert x y z w
  decide

theorem hexDigit_spec {current : Nat} (small : current < 16) :
    isXDigit (hexDigit current) = true ∧ hexValue (hexDigit current) = current := by
  revert current
  decide

theorem testBit_maskDigit {bitmap : Bitstr} {i : Nat} (mem : i < bitmap.bits) {j : Nat}
    (small : j < 4) :
    (maskDigit bitmap i).testBit j = (decide (i + j < bitmap.bits) && bitTest bitmap (i + j)) := by
  obtain ⟨zero, one, two, three, _⟩ := testBit_nibble (bitTest bitmap i)
    (decide (i + 1 < bitmap.bits) && bitTest bitmap (i + 1))
    (decide (i + 2 < bitmap.bits) && bitTest bitmap (i + 2))
    (decide (i + 3 < bitmap.bits) && bitTest bitmap (i + 3))
  rw [maskDigit]
  obtain rfl | rfl | rfl | rfl : j = 0 ∨ j = 1 ∨ j = 2 ∨ j = 3 := by omega
  · rw [zero, Nat.add_zero, decide_eq_true mem, Bool.true_and]
  · exact one
  · exact two
  · exact three

theorem maskDigit_lt (bitmap : Bitstr) (i : Nat) : maskDigit bitmap i < 16 :=
  (testBit_nibble _ _ _ _).2.2.2.2

/-! ## Writing -/

section Writing

variable (bitmap : Bitstr)

theorem fmtHexLoop_eq (i : Nat) (ptr : List Char) :
    fmtHexLoop bitmap i ptr = ((List.range ((bitmap.bits - i + 3) / 4)).map fun k =>
        hexDigit (maskDigit bitmap (i + 4 * k))).reverse ++ ptr := by
  fun_induction fmtHexLoop bitmap i ptr with
  | case1 i ptr more ih =>
    have count : (bitmap.bits - i + 3) / 4 =
        (bitmap.bits - min (i + 4) bitmap.bits + 3) / 4 + 1 := by omega
    rw [ih, count, range_succ_eq_map, map_cons, reverse_cons, append_assoc,
      map_map, singleton_append, Nat.mul_zero, Nat.add_zero]
    congr 2
    refine map_congr_left fun k mem => ?_
    have less := mem_range.mp mem
    rw [Function.comp_apply, show min (i + 4) bitmap.bits + 4 * k = i + 4 * k.succ by omega]
  | case2 i ptr stops =>
    rw [show (bitmap.bits - i + 3) / 4 = 0 by omega, range_zero, map_nil, reverse_nil, nil_append]

theorem fmtBinLoop_eq (i : Nat) (ptr : List Char) :
    fmtBinLoop bitmap i ptr =
      ((List.range (bitmap.bits - i)).map fun k => binDigit (bitTest bitmap (i + k))).reverse ++
        ptr := by
  fun_induction fmtBinLoop bitmap i ptr with
  | case1 i ptr more ih =>
    have count : bitmap.bits - i = bitmap.bits - (i + 1) + 1 := by omega
    rw [ih, count, range_succ_eq_map, map_cons, reverse_cons, append_assoc,
      map_map, singleton_append, Nat.add_zero]
    congr 2
    refine map_congr_left fun k _ => ?_
    rw [Function.comp_apply, show i + 1 + k = i + k.succ by omega]
  | case2 i ptr stops =>
    rw [show bitmap.bits - i = 0 by omega, range_zero, map_nil, reverse_nil, nil_append]

end Writing

/-! ## Reading -/

section Reading

variable {bitmap : Bitstr}

theorem bits_setMasked (current mask bit : Nat) (bitmap : Bitstr) :
    (setMasked current mask bit bitmap).bits = bitmap.bits := by
  rw [setMasked]
  split_ifs
  · rfl
  · rfl

theorem bitTest_setMasked (current k bit : Nat) (bitmap : Bitstr) (i : Nat) :
    bitTest (setMasked current (2 ^ k) bit bitmap) i =
      (bitTest bitmap i || (decide (i = bit ∧ i < bitmap.bits) && current.testBit k)) := by
  have masked : current &&& 2 ^ k ≠ 0 ↔ current.testBit k = true := by
    rw [Nat.and_two_pow]
    cases current.testBit k with
    | false => simp
    | true => simp
  rw [setMasked]
  split_ifs with sets
  · have writes : Writes true (· = bit) bitmap (bitSet bit bitmap) :=
      bitSet_writes (lt_of_lt_of_le sets.2 bitmap.bits_le_room)
    by_cases same : i = bit
    · subst same
      rw [writes.inside i rfl, masked.mp sets.1, decide_eq_true ⟨rfl, sets.2⟩, Bool.and_self,
        Bool.or_true]
    · rw [writes.outside i same, decide_eq_false fun both => same both.1, Bool.false_and,
        Bool.or_false]
  · cases isSet : current.testBit k with
    | false => rw [Bool.and_false, Bool.or_false]
    | true =>
      have none : ¬(i = bit ∧ i < bitmap.bits) := by
        rintro ⟨rfl, inside⟩
        exact sets ⟨masked.mpr isSet, inside⟩
      rw [decide_eq_false none, Bool.false_and, Bool.or_false]

theorem bits_setDigit (current bitIndex : Nat) (bitmap : Bitstr) :
    (setDigit current bitIndex bitmap).bits = bitmap.bits := by
  rw [setDigit, bits_setMasked, bits_setMasked, bits_setMasked, bits_setMasked]

theorem bitTest_setDigit (current bitIndex : Nat) (bitmap : Bitstr) (i : Nat) :
    bitTest (setDigit current bitIndex bitmap) i =
      (bitTest bitmap i || (decide (bitIndex ≤ i ∧ i < bitIndex + 4 ∧ i < bitmap.bits) &&
        current.testBit (i - bitIndex))) := by
  have masks : setDigit current bitIndex bitmap = setMasked current (2 ^ 3) (bitIndex + 3)
      (setMasked current (2 ^ 2) (bitIndex + 2) (setMasked current (2 ^ 1) (bitIndex + 1)
        (setMasked current (2 ^ 0) (bitIndex + 0) bitmap))) := rfl
  rw [masks]
  simp only [bitTest_setMasked, bits_setMasked]
  by_cases within : bitIndex ≤ i ∧ i < bitIndex + 4
  · obtain ⟨j, small, rfl⟩ : ∃ j < 4, i = bitIndex + j := ⟨i - bitIndex, by omega, by omega⟩
    have only : ∀ k, bitIndex + j = bitIndex + k ↔ j = k := fun k => by omega
    simp only [only, within, true_and, Nat.add_sub_cancel_left]
    obtain rfl | rfl | rfl | rfl : j = 0 ∨ j = 1 ∨ j = 2 ∨ j = 3 := by omega
    · simp
    · simp
    · simp
    · simp
  · have other : ∀ k < 4, ¬(i = bitIndex + k ∧ i < bitmap.bits) := fun k less => by omega
    have outside : ¬(bitIndex ≤ i ∧ i < bitIndex + 4 ∧ i < bitmap.bits) := by omega
    rw [decide_eq_false (other 0 (by omega)), decide_eq_false (other 1 (by omega)),
      decide_eq_false (other 2 (by omega)), decide_eq_false (other 3 (by omega)),
      decide_eq_false outside]
    simp only [Bool.false_and, Bool.or_false]

/-- The digits of a text, from the last one on. -/
def digitAt (value : Char → Nat) (curpos : List Char) (k : Nat) : Nat :=
  (curpos[k]?.map value).getD 0

theorem unfmtHexLoop_rc (curpos : List Char) (bitIndex : Nat) (rc : Int) (bitmap : Bitstr) :
    (unfmtHexLoop curpos bitIndex rc bitmap).1 = if curpos.all isXDigit then rc else -1 := by
  induction curpos generalizing bitIndex rc bitmap with
  | nil => rfl
  | cons c curpos ih =>
    rw [unfmtHexLoop, ih, all_cons]
    cases isXDigit c with
    | true => rfl
    | false =>
      exact ite_self (-1)

theorem bitTest_unfmtHexLoop (curpos : List Char) (bitIndex : Nat) (rc : Int) (bitmap : Bitstr)
    (i : Nat) :
    bitTest (unfmtHexLoop curpos bitIndex rc bitmap).2 i =
      (bitTest bitmap i || (decide (bitIndex ≤ i ∧ i < bitmap.bits) &&
        (digitAt hexValue curpos ((i - bitIndex) / 4)).testBit ((i - bitIndex) % 4))) := by
  induction curpos generalizing bitIndex rc bitmap with
  | nil => simp [unfmtHexLoop, digitAt]
  | cons c curpos ih =>
    rw [unfmtHexLoop, ih, bitTest_setDigit, bits_setDigit, Bool.or_assoc]
    by_cases here : bitIndex ≤ i ∧ i < bitIndex + 4
    · obtain ⟨j, small, rfl⟩ : ∃ j < 4, i = bitIndex + j := ⟨i - bitIndex, by omega, by omega⟩
      have notLater : ¬(bitIndex + 4 ≤ bitIndex + j ∧ bitIndex + j < bitmap.bits) := by omega
      rw [decide_eq_false notLater, Bool.false_and, Bool.or_false, Nat.add_sub_cancel_left,
        Nat.div_eq_of_lt small, Nat.mod_eq_of_lt small]
      simp [digitAt, small]
    · have notHere : ¬(bitIndex ≤ i ∧ i < bitIndex + 4 ∧ i < bitmap.bits) := by omega
      rw [decide_eq_false notHere, Bool.false_and, Bool.false_or]
      by_cases later : bitIndex + 4 ≤ i
      · obtain ⟨d, rfl⟩ := Nat.exists_eq_add_of_le later
        have quotient : (bitIndex + 4 + d - bitIndex) / 4 =
            (bitIndex + 4 + d - (bitIndex + 4)) / 4 + 1 := by omega
        have remainder : (bitIndex + 4 + d - bitIndex) % 4 =
            (bitIndex + 4 + d - (bitIndex + 4)) % 4 := by omega
        have mem : decide (bitIndex + 4 ≤ bitIndex + 4 + d ∧ bitIndex + 4 + d < bitmap.bits) =
            decide (bitIndex ≤ bitIndex + 4 + d ∧ bitIndex + 4 + d < bitmap.bits) :=
          decide_eq_decide.mpr (by omega)
        rw [quotient, remainder, mem]
        rfl
      · have before : ¬(bitIndex + 4 ≤ i ∧ i < bitmap.bits) := by omega
        have never : ¬(bitIndex ≤ i ∧ i < bitmap.bits) := by omega
        rw [decide_eq_false before, decide_eq_false never, Bool.false_and, Bool.false_and]

theorem bitTest_unfmtBinLoop (curpos : List Char) (bitIndex : Nat) (bitmap : Bitstr) (i : Nat) :
    bitTest (unfmtBinLoop curpos bitIndex bitmap) i =
      (bitTest bitmap i || (decide (bitIndex ≤ i ∧ i < bitmap.bits) &&
        (digitAt binValue curpos (i - bitIndex)).testBit 0)) := by
  induction curpos generalizing bitIndex bitmap with
  | nil => simp [unfmtBinLoop, digitAt]
  | cons c curpos ih =>
    have first : bitTest (setMasked (binValue c) 1 bitIndex bitmap) i = (bitTest bitmap i ||
        (decide (i = bitIndex ∧ i < bitmap.bits) && (binValue c).testBit 0)) :=
      bitTest_setMasked (binValue c) 0 bitIndex bitmap i
    rw [unfmtBinLoop, ih, bits_setMasked, first, Bool.or_assoc]
    by_cases here : i = bitIndex
    · subst here
      have notLater : ¬(i + 1 ≤ i ∧ i < bitmap.bits) := by omega
      rw [decide_eq_false notLater, Bool.false_and, Bool.or_false, Nat.sub_self]
      simp [digitAt]
    · have notHere : ¬(i = bitIndex ∧ i < bitmap.bits) := fun both => here both.1
      rw [decide_eq_false notHere, Bool.false_and, Bool.false_or]
      by_cases later : bitIndex + 1 ≤ i
      · obtain ⟨d, rfl⟩ := Nat.exists_eq_add_of_le later
        have distance : bitIndex + 1 + d - bitIndex = bitIndex + 1 + d - (bitIndex + 1) + 1 := by
          omega
        have mem : decide (bitIndex + 1 ≤ bitIndex + 1 + d ∧ bitIndex + 1 + d < bitmap.bits) =
            decide (bitIndex ≤ bitIndex + 1 + d ∧ bitIndex + 1 + d < bitmap.bits) :=
          decide_eq_decide.mpr (by omega)
        rw [distance, mem]
        rfl
      · have before : ¬(bitIndex + 1 ≤ i ∧ i < bitmap.bits) := by omega
        have never : ¬(bitIndex ≤ i ∧ i < bitmap.bits) := by omega
        rw [decide_eq_false before, decide_eq_false never, Bool.false_and, Bool.false_and]

theorem cleared (pos : 0 < bitmap.bits) {i : Nat} (inside : i < bitmap.bits) :
    bitTest (bitNclear 0 (bitmap.bits - 1) bitmap) i = false :=
  (bitNclear_writes (by omega)).inside i ⟨Nat.zero_le i, by omega⟩

theorem bitTest_bitUnfmtHexmask (pos : 0 < bitmap.bits) (str : List Char) {i : Nat}
    (mem : i < bitmap.bits) :
    bitTest (bitUnfmtHexmask bitmap str).2 i =
      (digitAt hexValue (bypassPrefix str).reverse (i / 4)).testBit (i % 4) := by
  rw [bitUnfmtHexmask, bitTest_unfmtHexLoop, cleared pos mem, bits_bitNclear, Bool.false_or,
    decide_eq_true ⟨Nat.zero_le i, mem⟩, Bool.true_and, Nat.sub_zero]

theorem bitTest_bitUnfmtBinmask (pos : 0 < bitmap.bits) (str : List Char) {i : Nat}
    (mem : i < bitmap.bits) :
    bitTest (bitUnfmtBinmask bitmap str) i = (digitAt binValue str.reverse i).testBit 0 := by
  rw [bitUnfmtBinmask, bitTest_unfmtBinLoop, cleared pos mem, bits_bitNclear, Bool.false_or,
    decide_eq_true ⟨Nat.zero_le i, mem⟩, Bool.true_and, Nat.sub_zero]

theorem bitUnfmtHexmask_rc (bitmap : Bitstr) (str : List Char) :
    (bitUnfmtHexmask bitmap str).1 = if (bypassPrefix str).all isXDigit then 0 else -1 := by
  rw [bitUnfmtHexmask, unfmtHexLoop_rc, all_reverse]

theorem bypassPrefix_digits {digits : List Char} (valid : digits.all isXDigit = true) :
    bypassPrefix digits = digits := by
  refine if_neg fun isPrefix => ?_
  have mem : 'x' ∈ digits := mem_of_mem_take (isPrefix ▸ by simp : 'x' ∈ digits.take 2)
  have absurd := all_eq_true.mp valid 'x' mem
  revert absurd
  decide

theorem bypassPrefix_marked (digits : List Char) : bypassPrefix ('0' :: 'x' :: digits) = digits :=
  rfl

end Reading

/-! ## Round trips -/

section RoundTrips

variable {b c : Bitstr}

theorem digitAt_map_range {value : Char → Nat} {digit : Nat → Char} {count k : Nat}
    (mem : k < count) :
    digitAt value ((List.range count).map digit) k = value (digit k) := by
  rw [digitAt, getElem?_map, getElem?_range mem]
  rfl

theorem all_fmtHexLoop (b : Bitstr) : (fmtHexLoop b 0 []).all isXDigit = true := by
  rw [fmtHexLoop_eq, append_nil, all_reverse, all_map, all_eq_true]
  exact fun k _ => (hexDigit_spec (maskDigit_lt b _)).1

theorem hexmask_roundTrip (same : c.bits = b.bits) {i : Nat} (mem : i < b.bits) :
    bitTest (bitUnfmtHexmask c (bitFmtHexmask b)).2 i = bitTest b i := by
  rw [bitTest_bitUnfmtHexmask (by omega) _ (by omega), bitFmtHexmask, bypassPrefix_marked,
    fmtHexLoop_eq, append_nil, reverse_reverse, digitAt_map_range (by omega),
    (hexDigit_spec (maskDigit_lt b _)).2,
    testBit_maskDigit (by omega) (Nat.mod_lt i (by omega)), Nat.zero_add, Nat.div_add_mod,
    decide_eq_true mem, Bool.true_and]

theorem binmask_roundTrip (same : c.bits = b.bits) {i : Nat} (mem : i < b.bits) :
    bitTest (bitUnfmtBinmask c (bitFmtBinmask b)) i = bitTest b i := by
  rw [bitTest_bitUnfmtBinmask (by omega) _ (by omega), bitFmtBinmask, fmtBinLoop_eq,
    append_nil, reverse_reverse, digitAt_map_range (by omega), Nat.zero_add]
  cases bitTest b i with
  | false => decide
  | true => decide

end RoundTrips

/-- What the masks of one size are for. -/
structure MasksExact (b c : Bitstr) : Prop where
  hexReturns : (bitUnfmtHexmask c (bitFmtHexmask b)).1 = 0
  hexEqual : ∀ i < b.bits, bitTest (bitUnfmtHexmask c (bitFmtHexmask b)).2 i = bitTest b i
  binEqual : ∀ i < b.bits, bitTest (bitUnfmtBinmask c (bitFmtBinmask b)) i = bitTest b i
  digits : ∀ digits : List Char, digits.all isXDigit = true →
    ∀ str, str = digits ∨ str = '0' :: 'x' :: digits →
      (bitUnfmtHexmask c str).1 = 0 ∧ ∀ i < c.bits, bitTest (bitUnfmtHexmask c str).2 i =
        (digitAt hexValue digits.reverse (i / 4)).testBit (i % 4)
  invalid : ∀ str, (∃ char ∈ bypassPrefix str, isXDigit char = false) →
    (bitUnfmtHexmask c str).1 = -1

end SlurmSim.Common.Bitmap
