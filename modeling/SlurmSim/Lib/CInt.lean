import Mathlib.Algebra.Group.Int.Defs
import Mathlib.Algebra.Group.Nat.Defs
import Mathlib.Order.Basic

/-!
# Counters of type `int`

Numbers of 32 bits that are converted from unsigned ones and counted down.
-/

namespace SlurmSim.Lib.CInt

theorem toInt32_eq (u : UInt32) : u.toInt32 = Int32.ofNat u.toNat := by
  have same : (UInt32.ofNat u.toNat).toInt32 = Int32.ofNat u.toNat := rfl
  rwa [UInt32.ofNat_toNat] at same

theorem toNat_sub_one {u : UInt32} (more : u ≠ 0) : (u - 1).toNat + 1 = u.toNat := by
  have pos : u.toNat ≠ 0 := fun zero => more (UInt32.toNat_inj.mp zero)
  have bound := u.toNat_lt
  rw [UInt32.toNat_sub, UInt32.toNat_one]
  omega

theorem le_of_sub_nonpos {m n : Nat} (small : m < 2 ^ 31)
    (nonpos : Int32.ofNat m - Int32.ofNat n ≤ 0) : m ≤ n := by
  have zero : (0 : Int32).toInt = 0 := rfl
  by_contra less
  rw [← Int32.ofNat_sub _ _ (by omega), Int32.le_iff_toInt_le,
    Int32.toInt_ofNat_of_lt (by omega)] at nonpos
  omega

theorem sub_nonpos {m n : Nat} (le : m ≤ n) (near : n - m ≤ 2 ^ 31) :
    Int32.ofNat m - Int32.ofNat n ≤ 0 := by
  have zero : (0 : Int32).toInt = 0 := rfl
  have size : (Int32.size : Int) = 2 ^ 32 := rfl
  obtain ⟨k, rfl⟩ := Nat.exists_eq_add_of_le le
  rw [Int32.ofNat_add, ← Int32.sub_sub, Int32.sub_self, Int32.le_iff_toInt_le, zero,
    Int32.toInt_sub, zero, Int32.toInt_ofNat', Int.bmod_def, Int.bmod_def, size]
  omega

theorem exists_counter (n : Nat) : ∃ m < 2 ^ 31, Int32.ofNat m - Int32.ofNat n ≤ 0 := by
  have whole : Int32.ofNat n = Int32.ofNat (n % 2 ^ 32) := by
    refine Int32.toInt_inj.mp ?_
    rw [Int32.toInt_ofNat', Int32.toInt_ofNat', Int.natCast_emod]
    exact (Int.emod_bmod _ _).symm
  have rest : n % 2 ^ 32 < 2 ^ 32 := Nat.mod_lt n (by decide)
  rw [whole]
  generalize n % 2 ^ 32 = m at rest
  by_cases small : m < 2 ^ 31
  · exact ⟨m, small, sub_nonpos (Nat.le_refl m) (by omega)⟩
  · refine ⟨m - 2 ^ 31, by omega, ?_⟩
    have split : Int32.ofNat m = Int32.ofNat (m - 2 ^ 31) + Int32.ofNat (2 ^ 31) := by
      rw [← Int32.ofNat_add]
      congr 1
      omega
    rw [split, ← Int32.sub_sub, Int32.sub_self]
    decide

theorem ofNat_nonpos {m : Nat} (large : 2 ^ 31 ≤ m) (bound : m < 2 ^ 32) : Int32.ofNat m ≤ 0 := by
  have zero : (0 : Int32).toInt = 0 := rfl
  have size : (Int32.size : Int) = 2 ^ 32 := rfl
  rw [Int32.le_iff_toInt_le, zero, Int32.toInt_ofNat', Int.bmod_def, size]
  omega

theorem ofNat_toUInt16 {a : Int32} (low : 0 ≤ a.toInt) (high : a.toInt < 2 ^ 16) :
    Int32.ofNat a.toUInt32.toUInt16.toNat = a := by
  have self : Int32.ofNat a.toInt.toNat = a := by
    refine Int32.toInt_inj.mp ?_
    rw [Int32.toInt_ofNat_of_lt (by omega)]
    omega
  have stored : (Int32.ofNat a.toInt.toNat).toUInt32.toUInt16.toNat = a.toInt.toNat := by
    change (UInt32.ofNat a.toInt.toNat).toUInt16.toNat = _
    rw [UInt32.toNat_toUInt16, UInt32.toNat_ofNat']
    omega
  rw [self] at stored
  rw [stored, self]

end SlurmSim.Lib.CInt
