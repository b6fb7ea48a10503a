import Mathlib.Data.Nat.ModEq
import Mathlib.Tactic.Ring

/-!
# Network byte order

Numbers as a fixed number of bytes, most significant byte first.
-/

namespace SlurmSim.Lib.BigEndian

/-- The lowest bytes of a number. -/
def bytesOf : Nat → Nat → List UInt8
  | 0, _ => []
  | n + 1, value => UInt8.ofNat (value / 256 ^ n) :: bytesOf n value

/-- The number that the bytes stand for. -/
def valueOf (bytes : List UInt8) : Nat :=
  bytes.foldl (fun value byte => value * 256 + byte.toNat) 0

@[simp] theorem length_bytesOf (n value : Nat) : (bytesOf n value).length = n := by
  induction n with
  | zero => rfl
  | succ n ih => rw [bytesOf, List.length_cons, ih]

theorem foldl_bytesOf (n value start : Nat) :
    (bytesOf n value).foldl (fun value byte => value * 256 + byte.toNat) start =
      start * 256 ^ n + value % 256 ^ n := by
  induction n generalizing start with
  | zero => simp [bytesOf, Nat.mod_one]
  | succ n ih =>
    have byte : (UInt8.ofNat (value / 256 ^ n)).toNat = value / 256 ^ n % 256 := UInt8.toNat_ofNat'
    rw [bytesOf, List.foldl_cons, ih, byte, Nat.mod_pow_succ]
    ring

theorem valueOf_bytesOf (n value : Nat) : valueOf (bytesOf n value) = value % 256 ^ n := by
  rw [valueOf, foldl_bytesOf, Nat.zero_mul, Nat.zero_add]

theorem valueOf_bytesOf_of_lt {n value : Nat} (fits : value < 256 ^ n) :
    valueOf (bytesOf n value) = value := by
  rw [valueOf_bytesOf, Nat.mod_eq_of_lt fits]

end SlurmSim.Lib.BigEndian
