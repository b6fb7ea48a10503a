import SlurmSim.Common.Bitmap

/-!
# Rotations

A rotation moves every position by a distance, modulo the size of the copy.  Rotations of one
size add up.
-/

namespace SlurmSim.Common.Bitmap

section Rotations

variable {b : Bitstr}

theorem rotated_eq (n : Int) {nbits : Nat} (pos : 0 < nbits) (bit i : Nat) :
    i = (bit + (n % nbits).toNat) % nbits ↔ (i : Int) = (bit + n) % nbits := by
  have nonneg := Int.emod_nonneg n (show (nbits : Int) ≠ 0 by omega)
  have distance : ((n % nbits).toNat : Int) = n % nbits := Int.toNat_of_nonneg nonneg
  rw [← Int.natCast_inj, Int.natCast_emod, Int.natCast_add, distance, Int.add_emod_emod]

theorem bitRotateCopy_moves (n : Int) {nbits : Nat} (fits : b.bits ≤ nbits) (pos : 0 < nbits)
    (i : Nat) :
    bitTest (bitRotateCopy b n nbits) i = true ↔
      ∃ bit < b.bits, bitTest b bit = true ∧ (i : Int) = (bit + n) % nbits := by
  rw [bitTest_bitRotateCopy_of_le n fits pos]
  simp only [rotated_eq n pos]

theorem bits_bitRotate (b : Bitstr) (n : Int) : (bitRotate b n).bits = b.bits := by
  rw [bitRotate]
  split_ifs
  · rfl
  · rfl

theorem bitRotate_moves (n : Int) {i : Nat} (mem : i < b.bits) :
    bitTest (bitRotate b n) i = true ↔
      ∃ bit < b.bits, bitTest b bit = true ∧ (i : Int) = (bit + n) % b.bits := by
  rw [bitRotate]
  split_ifs with zero
  · constructor
    · intro isSet
      refine ⟨i, mem, isSet, ?_⟩
      rw [zero, Int.add_zero, Int.emod_eq_of_lt (by omega) (by omega)]
    · rintro ⟨bit, less, isSet, moved⟩
      rw [zero, Int.add_zero, Int.emod_eq_of_lt (by omega) (by omega), Int.natCast_inj] at moved
      exact moved ▸ isSet
  · exact bitRotateCopy_moves n le_rfl (by omega) i

theorem bitRotate_bitRotate (n k : Int) {i : Nat} (mem : i < b.bits) :
    bitTest (bitRotate (bitRotate b n) k) i = bitTest (bitRotate b (n + k)) i := by
  have size := bits_bitRotate b n
  rw [Bool.eq_iff_iff, bitRotate_moves k (by omega), bitRotate_moves (n + k) mem, size]
  constructor
  · rintro ⟨middle, less, isSet, moved⟩
    obtain ⟨bit, small, isBit, moves⟩ := (bitRotate_moves n less).mp isSet
    refine ⟨bit, small, isBit, ?_⟩
    rw [moved, moves, Int.emod_add_emod, Int.add_assoc]
  · rintro ⟨bit, less, isSet, moved⟩
    have nonneg := Int.emod_nonneg (bit + n) (show (b.bits : Int) ≠ 0 by omega)
    have bound := Int.emod_lt_of_pos (bit + n) (show (0 : Int) < b.bits by omega)
    have middle : (((bit + n : Int) % b.bits).toNat : Int) = (bit + n) % b.bits :=
      Int.toNat_of_nonneg nonneg
    have small : ((bit + n : Int) % b.bits).toNat < b.bits := by omega
    refine ⟨((bit + n : Int) % b.bits).toNat, small, ?_, ?_⟩
    · exact (bitRotate_moves n small).mpr ⟨bit, less, isSet, middle⟩
    · rw [middle, Int.emod_add_emod, Int.add_assoc]
      exact moved

end Rotations

/-- What the rotations of a bitmap are. -/
structure Rotates (b : Bitstr) : Prop where
  size : ∀ n nbits, (bitRotateCopy b n nbits).bits = nbits
  moves : ∀ (n : Int) (nbits : Nat), max b.bits 1 ≤ nbits → ∀ i,
    bitTest (bitRotateCopy b n nbits) i = true ↔
      ∃ bit < b.bits, bitTest b bit = true ∧ (i : Int) = (bit + n) % nbits
  adds : ∀ (n k : Int), ∀ i < b.bits,
    bitTest (bitRotate (bitRotate b n) k) i = bitTest (bitRotate b (n + k)) i
  undoes : ∀ n : Int, ∀ i < b.bits, bitTest (bitRotate (bitRotate b n) (-n)) i = bitTest b i

theorem rotations_exact (b : Bitstr) : Rotates b where
  size := bits_bitRotateCopy b
  moves := fun n _ fits i => bitRotateCopy_moves n (by omega) (by omega) i
  adds := fun n k _ inside => bitRotate_bitRotate n k inside
  undoes := by
    intro n i inside
    rw [bitRotate_bitRotate n (-n) inside, Int.add_right_neg, bitRotate, if_pos rfl]

end SlurmSim.Common.Bitmap
