import Mathlib.Data.List.Basic

/-!
# Bitmaps as hex masks

A bitmap is formatted as a string `0x0123ABC`, most significant digit first.
-/

namespace SlurmSim.Common.Codec

/-- The character of four bits, lowest first. -/
def hexChar (a b c d : Bool) : UInt8 :=
  let current := a.toUInt8 ||| b.toUInt8 <<< 1 ||| c.toUInt8 <<< 2 ||| d.toUInt8 <<< 3
  if current ≤ 9 then current + 48 else current + 55

/-- The loop of `bit_fmt_hexmask`, from the last character on. -/
def hexDigits : List Bool → List UInt8
  | [] => []
  | [a] => [hexChar a false false false]
  | [a, b] => [hexChar a b false false]
  | [a, b, c] => [hexChar a b c false]
  | a :: b :: c :: d :: bits => hexChar a b c d :: hexDigits bits

/-- `bit_fmt_hexmask`, without the final zero. -/
def bitFmtHexmask (bitmap : List Bool) : List UInt8 :=
  48 :: 120 :: (hexDigits bitmap).reverse

/-- The value of a hex digit; any other character counts as zero. -/
def hexValue (current : UInt8) : UInt8 :=
  if 48 ≤ current ∧ current ≤ 57 then current - 48
  else if 65 ≤ current ∧ current ≤ 70 then current - 55
  else if 97 ≤ current ∧ current ≤ 102 then current - 87
  else 0

/-- Set the bits of a digit, as far as they are inside the bitmap. -/
def setDigit (current : UInt8) (bitIndex : Nat) (bitmap : List Bool) : List Bool :=
  let bitmap := if current &&& 1 ≠ 0 then bitmap.set bitIndex true else bitmap
  let bitmap := if current &&& 2 ≠ 0 then bitmap.set (bitIndex + 1) true else bitmap
  let bitmap := if current &&& 4 ≠ 0 then bitmap.set (bitIndex + 2) true else bitmap
  if current &&& 8 ≠ 0 then bitmap.set (bitIndex + 3) true else bitmap

/-- The loop of `bit_unfmt_hexmask` over the characters, the last one first. -/
def unfmtLoop : List UInt8 → Nat → List Bool → List Bool
  | [], _, bitmap => bitmap
  | current :: str, bitIndex, bitmap =>
    unfmtLoop str (bitIndex + 4) (setDigit (hexValue current) bitIndex bitmap)

/-- The characters between `0x`, if it is there, and the end. -/
def hexBody : List UInt8 → List UInt8
  | 48 :: 120 :: str => str
  | str => str

/-- `bit_unfmt_hexmask` into a bitmap of the given size. -/
def bitUnfmtHexmask (bitsize : Nat) (str : List UInt8) : List Bool :=
  unfmtLoop (hexBody str).reverse 0 (List.replicate bitsize false)

/-! ## Round trip -/

theorem setDigit_append (current : UInt8) (done bitmap : List Bool) :
    setDigit current done.length (done ++ bitmap) = done ++ setDigit current 0 bitmap := by
  have set_append : ∀ (n : Nat) (list : List Bool),
      (done ++ list).set (done.length + n) true = done ++ list.set n true := by
    intro n list
    rw [List.set_append_right _ _ (Nat.le_add_right _ _), Nat.add_sub_cancel_left]
  have first := set_append 0
  rw [Nat.add_zero] at first
  unfold setDigit
  split_ifs <;> simp only [first, set_append, Nat.zero_add]

theorem setDigit_hexChar (a b c d : Bool) (bitmap : List Bool) :
    setDigit (hexValue (hexChar a b c d)) 0 (false :: false :: false :: false :: bitmap) =
      a :: b :: c :: d :: bitmap := by
  cases a <;> cases b <;> cases c <;> cases d <;> rfl

theorem unfmtLoop_hexDigits (bits done : List Bool) :
    unfmtLoop (hexDigits bits) done.length (done ++ List.replicate bits.length false) =
      done ++ bits := by
  induction bits using hexDigits.induct generalizing done with
  | case1 => rfl
  | case2 a =>
    rw [hexDigits, unfmtLoop, setDigit_append]
    cases a <;> rfl
  | case3 a b =>
    rw [hexDigits, unfmtLoop, setDigit_append]
    cases a <;> cases b <;> rfl
  | case4 a b c =>
    rw [hexDigits, unfmtLoop, setDigit_append]
    cases a <;> cases b <;> cases c <;> rfl
  | case5 a b c d bits ih =>
    have zeros : List.replicate (a :: b :: c :: d :: bits).length false =
        false :: false :: false :: false :: List.replicate bits.length false := rfl
    have next : done ++ a :: b :: c :: d :: List.replicate bits.length false =
        (done ++ [a, b, c, d]) ++ List.replicate bits.length false := by simp
    have index : done.length + 4 = (done ++ [a, b, c, d]).length := by simp
    rw [hexDigits, unfmtLoop, setDigit_append, zeros, setDigit_hexChar, next, index, ih]
    simp

theorem bitUnfmtHexmask_bitFmtHexmask (bitmap : List Bool) :
    bitUnfmtHexmask bitmap.length (bitFmtHexmask bitmap) = bitmap := by
  have body : hexBody (bitFmtHexmask bitmap) = (hexDigits bitmap).reverse := rfl
  rw [bitUnfmtHexmask, body, List.reverse_reverse]
  exact unfmtLoop_hexDigits bitmap []

theorem length_hexDigits (bits : List Bool) : (hexDigits bits).length = (bits.length + 3) / 4 := by
  induction bits using hexDigits.induct with
  | case1 => rfl
  | case2 a => simp [hexDigits]
  | case3 a b => simp [hexDigits]
  | case4 a b c => simp [hexDigits]
  | case5 a b c d bits ih =>
    rw [hexDigits, List.length_cons, ih]
    simp only [List.length_cons]
    omega

theorem zero_not_mem_bitFmtHexmask (bitmap : List Bool) : 0 ∉ bitFmtHexmask bitmap := by
  have digit : ∀ a b c d, hexChar a b c d ≠ 0 := by decide
  have digits : 0 ∉ hexDigits bitmap := by
    induction bitmap using hexDigits.induct with
    | case1 => exact List.not_mem_nil
    | case2 a => simp [hexDigits, (digit _ _ _ _).symm]
    | case3 a b => simp [hexDigits, (digit _ _ _ _).symm]
    | case4 a b c => simp [hexDigits, (digit _ _ _ _).symm]
    | case5 a b c d bits ih => simp [hexDigits, (digit _ _ _ _).symm, ih]
  simp [bitFmtHexmask, digits]

end SlurmSim.Common.Codec
