import Mathlib.Data.Nat.Count
import Mathlib.Tactic.Ring

/-!
# Counting the set bits of a word

Fields of a word are added side by side, first single bits, then fields of two and of four
bits, and a product gathers the bytes in the highest one.  Every step but the last acts on
each byte by itself.
-/

namespace SlurmSim.Lib.HammingWeight

/-- A function of each of the lowest bytes of a number. -/
def eachByte (f : Nat → Nat) : Nat → Nat → Nat
  | 0, _ => 0
  | k + 1, x => f (x % 256) + 256 * eachByte f k (x / 256)

/-- A byte that is repeated. -/
def repeated (m : Nat) : Nat → Nat
  | 0 => 0
  | k + 1 => m + 256 * repeated m k

/-- The set bits of a number below a position. -/
def setBits (x bits : Nat) : Nat :=
  Nat.count (fun i => x.testBit i = true) bits

variable {f g : Nat → Nat} {m s : Nat}

/-! ## Masks -/

theorem and_bytes {a m : Nat} (small : a < 256) (smallMask : m < 256) (A M : Nat) :
    (a + 256 * A) &&& (m + 256 * M) = (a &&& m) + 256 * (A &&& M) := by
  have low : ((a + 256 * A) &&& (m + 256 * M)) % 2 ^ 8 = a &&& m := by
    rw [Nat.and_mod_two_pow]
    congr 1
    · omega
    · omega
  have high : ((a + 256 * A) &&& (m + 256 * M)) / 2 ^ 8 = A &&& M := by
    rw [Nat.and_div_two_pow]
    congr 1
    · omega
    · omega
  omega

theorem and_repeated (small : m < 256) (k x : Nat) :
    x &&& repeated m k = eachByte (· &&& m) k x := by
  induction k generalizing x with
  | zero => exact Nat.and_zero x
  | succ k ih =>
    have split := and_bytes (Nat.mod_lt x (show 0 < 256 by omega)) small (x / 256) (repeated m k)
    rw [Nat.mod_add_div] at split
    rw [repeated, split, ih, eachByte]

theorem repeated_shiftLeft (m s k : Nat) : repeated m k <<< s = repeated (m <<< s) k := by
  simp only [Nat.shiftLeft_eq]
  induction k with
  | zero => exact Nat.zero_mul _
  | succ k ih => rw [repeated, repeated, Nat.add_mul, Nat.mul_assoc, ih]

theorem eachByte_mul (c : Nat) (f : Nat → Nat) (k x : Nat) :
    eachByte (fun byte => c * f byte) k x = c * eachByte f k x := by
  induction k generalizing x with
  | zero => rfl
  | succ k ih => rw [eachByte, eachByte, ih, Nat.mul_add, Nat.mul_left_comm]

theorem and_shiftLeft (x m s : Nat) : x &&& (m <<< s) = 2 ^ s * ((x >>> s) &&& m) := by
  rw [Nat.mul_comm, ← Nat.shiftLeft_eq]
  apply Nat.eq_of_testBit_eq
  intro i
  by_cases le : s ≤ i
  · simp [le, Nat.add_sub_cancel' le]
  · simp [le]

theorem shiftRight_and_repeated (small : m <<< s < 256) (k x : Nat) :
    (x >>> s) &&& repeated m k = eachByte (fun byte => (byte >>> s) &&& m) k x := by
  have masked : x &&& (repeated m k <<< s) = eachByte (fun byte => byte &&& (m <<< s)) k x := by
    rw [repeated_shiftLeft, and_repeated small]
  simp only [and_shiftLeft, eachByte_mul] at masked
  exact Nat.eq_of_mul_eq_mul_left (Nat.two_pow_pos s) masked

/-! ## Steps on each byte -/

theorem eachByte_add (f g : Nat → Nat) (k x : Nat) :
    eachByte f k x + eachByte g k x = eachByte (fun byte => f byte + g byte) k x := by
  induction k generalizing x with
  | zero => rfl
  | succ k ih =>
    rw [eachByte, eachByte, eachByte, ← ih]
    omega

theorem eachByte_self (k x : Nat) (bounded : x < 256 ^ k) : eachByte (fun byte => byte) k x = x := by
  induction k generalizing x with
  | zero => exact (Nat.lt_one_iff.mp bounded).symm
  | succ k ih =>
    rw [eachByte, ih _ (by omega), Nat.mod_add_div]

theorem eachByte_eachByte (small : ∀ byte < 256, g byte < 256) (k x : Nat) :
    eachByte f k (eachByte g k x) = eachByte (fun byte => f (g byte)) k x := by
  induction k generalizing x with
  | zero => rfl
  | succ k ih =>
    have first := small (x % 256) (Nat.mod_lt _ (by omega))
    rw [eachByte, eachByte, eachByte, ← ih]
    have low : (g (x % 256) + 256 * eachByte g k (x / 256)) % 256 = g (x % 256) := by omega
    have high : (g (x % 256) + 256 * eachByte g k (x / 256)) / 256 = eachByte g k (x / 256) := by
      omega
    rw [low, high]

theorem eachByte_congr (same : ∀ byte < 256, f byte = g byte) (k x : Nat) :
    eachByte f k x = eachByte g k x := by
  induction k generalizing x with
  | zero => rfl
  | succ k ih => rw [eachByte, eachByte, same _ (Nat.mod_lt _ (by omega)), ih]

/-- Pairs of bits: each second bit is taken from the pair it is in. -/
def pairs (byte : Nat) : Nat :=
  byte - ((byte >>> 1) &&& 0x55)

/-- Fields of four bits: two pairs are added. -/
def nibbles (byte : Nat) : Nat :=
  (byte &&& 0x33) + ((byte >>> 2) &&& 0x33)

/-- The set bits of a byte: two fields of four bits are added. -/
def weight (byte : Nat) : Nat :=
  (nibbles (pairs byte) + (nibbles (pairs byte) >>> 4)) &&& 0x0f

theorem sub_pairs {k x : Nat} (bounded : x < 256 ^ k) :
    x - ((x >>> 1) &&& repeated 0x55 k) = eachByte pairs k x := by
  have le : ∀ byte, (byte >>> 1) &&& 0x55 ≤ byte := fun byte =>
    Nat.le_trans Nat.and_le_left (Nat.shiftRight_le byte 1)
  have whole : eachByte pairs k x + ((x >>> 1) &&& repeated 0x55 k) = x := by
    have back : ∀ byte < 256, pairs byte + ((byte >>> 1) &&& 0x55) = byte := fun byte _ =>
      Nat.sub_add_cancel (le byte)
    rw [shiftRight_and_repeated (by decide), eachByte_add, eachByte_congr back,
      eachByte_self k x bounded]
  omega

theorem add_nibbles (k x : Nat) :
    (x &&& repeated 0x33 k) + ((x >>> 2) &&& repeated 0x33 k) = eachByte nibbles k x := by
  rw [and_repeated (by decide), shiftRight_and_repeated (by decide), eachByte_add]
  rfl

theorem eachByte_mod_sixteen (small : ∀ byte < 256, f byte % 16 ≤ 4) (k x : Nat) :
    eachByte f k x % 16 ≤ 4 := by
  cases k with
  | zero => exact Nat.zero_le 4
  | succ k =>
    have first := small (x % 256) (Nat.mod_lt _ (by omega))
    rw [eachByte]
    omega

theorem add_upper (small : ∀ byte < 256, f byte ≤ 68 ∧ f byte % 16 ≤ 4) (k x : Nat) :
    (eachByte f k x + (eachByte f k x >>> 4)) &&& repeated 0x0f k =
      eachByte (fun byte => (f byte + (f byte >>> 4)) &&& 0x0f) k x := by
  induction k generalizing x with
  | zero => exact Nat.and_zero _
  | succ k ih =>
    obtain ⟨first, low⟩ := small (x % 256) (Nat.mod_lt _ (by omega))
    have next := eachByte_mod_sixteen (fun byte less => (small byte less).2) k (x / 256)
    have rest := ih (x / 256)
    rw [eachByte, eachByte, ← rest, repeated]
    generalize eachByte f k (x / 256) = upper at next
    generalize f (x % 256) = byte at first low
    simp only [Nat.shiftRight_eq_div_pow]
    have carried : byte + 256 * upper + (byte + 256 * upper) / 2 ^ 4 =
        (byte + byte / 2 ^ 4 + 16 * (upper % 16)) + 256 * (upper + upper / 2 ^ 4) := by omega
    have masked : ∀ n : Nat, n &&& 0x0f = n % 16 := fun n => Nat.and_two_pow_sub_one_eq_mod n 4
    rw [carried, and_bytes (by omega) (by decide), masked, masked]
    omega

/-- The sum of a function over the lowest bytes of a number. -/
def sumBytes (f : Nat → Nat) : Nat → Nat → Nat
  | 0, _ => 0
  | k + 1, x => f (x % 256) + sumBytes f k (x / 256)

theorem highest_byte {low sum above product : Nat}
    (split : product = low + 2 ^ 56 * sum + 2 ^ 64 * above) (small : low < 2 ^ 56)
    (fits : sum < 256) : product % 2 ^ 64 / 2 ^ 56 = sum := by
  omega

/-- The product gathers the sum of eight bytes in the highest one. -/
theorem gather (small : ∀ byte < 256, f byte ≤ 8) (x : Nat) :
    eachByte f 8 x * repeated 1 8 % 2 ^ 64 / 2 ^ 56 = sumBytes f 8 x := by
  have bound : ∀ y, f (y % 256) ≤ 8 := fun y => small _ (Nat.mod_lt y (by omega))
  have ones : repeated 1 8 = 0x0101010101010101 := rfl
  have b0 := bound x
  have b1 := bound (x / 256)
  have b2 := bound (x / 256 / 256)
  have b3 := bound (x / 256 / 256 / 256)
  have b4 := bound (x / 256 / 256 / 256 / 256)
  have b5 := bound (x / 256 / 256 / 256 / 256 / 256)
  have b6 := bound (x / 256 / 256 / 256 / 256 / 256 / 256)
  have b7 := bound (x / 256 / 256 / 256 / 256 / 256 / 256 / 256)
  simp only [eachByte, sumBytes, ones]
  generalize f (x % 256) = a0 at *
  generalize f (x / 256 % 256) = a1 at *
  generalize f (x / 256 / 256 % 256) = a2 at *
  generalize f (x / 256 / 256 / 256 % 256) = a3 at *
  generalize f (x / 256 / 256 / 256 / 256 % 256) = a4 at *
  generalize f (x / 256 / 256 / 256 / 256 / 256 % 256) = a5 at *
  generalize f (x / 256 / 256 / 256 / 256 / 256 / 256 % 256) = a6 at *
  generalize f (x / 256 / 256 / 256 / 256 / 256 / 256 / 256 % 256) = a7 at *
  refine @highest_byte (a0 + 256 * (a0 + a1) + 256 ^ 2 * (a0 + a1 + a2) +
      256 ^ 3 * (a0 + a1 + a2 + a3) + 256 ^ 4 * (a0 + a1 + a2 + a3 + a4) +
      256 ^ 5 * (a0 + a1 + a2 + a3 + a4 + a5) + 256 ^ 6 * (a0 + a1 + a2 + a3 + a4 + a5 + a6)) _
    (a1 + a2 + a3 + a4 + a5 + a6 + a7 + 256 * (a2 + a3 + a4 + a5 + a6 + a7) +
      256 ^ 2 * (a3 + a4 + a5 + a6 + a7) + 256 ^ 3 * (a4 + a5 + a6 + a7) +
      256 ^ 4 * (a5 + a6 + a7) + 256 ^ 5 * (a6 + a7) + 256 ^ 6 * a7) _ ?_ ?_ ?_
  · ring
  · omega
  · omega

/-! ## The weight -/

theorem setBits_congr {x y bits : Nat} (same : ∀ i < bits, x.testBit i = y.testBit i) :
    setBits x bits = setBits y bits := by
  apply Nat.le_antisymm
  · exact Nat.count_mono_left fun i less isSet => (same i less).symm.trans isSet
  · exact Nat.count_mono_left fun i less isSet => (same i less).trans isSet

theorem setBits_byte (x bits : Nat) :
    setBits x (8 + bits) = setBits (x % 256) 8 + setBits (x / 256) bits := by
  have low : setBits x 8 = setBits (x % 2 ^ 8) 8 :=
    setBits_congr fun i less => by rw [Nat.testBit_mod_two_pow, decide_eq_true less, Bool.true_and]
  have high : Nat.count (fun i => x.testBit (8 + i) = true) bits = setBits (x / 2 ^ 8) bits := by
    simp only [setBits, Nat.testBit_div_two_pow, Nat.add_comm 8]
  calc setBits x (8 + bits)
      = setBits x 8 + Nat.count (fun i => x.testBit (8 + i) = true) bits := Nat.count_add _ _ _
    _ = setBits (x % 2 ^ 8) 8 + setBits (x / 2 ^ 8) bits := by rw [low, high]

theorem weight_spec : ∀ byte < 256, weight byte = setBits byte 8 ∧ weight byte ≤ 8 ∧
    nibbles (pairs byte) ≤ 68 ∧ nibbles (pairs byte) % 16 ≤ 4 ∧ pairs byte < 256 := by
  decide +kernel

theorem sumBytes_weight (k x : Nat) : sumBytes weight k x = setBits x (8 * k) := by
  induction k generalizing x with
  | zero => rfl
  | succ k ih =>
    rw [sumBytes, ih, (weight_spec _ (Nat.mod_lt x (by omega))).1, Nat.mul_succ, Nat.add_comm,
      Nat.add_comm (8 * k), setBits_byte, Nat.add_comm]

theorem setBits_word {x : Nat} (bounded : x < 2 ^ 64) {two four : Nat}
    (isTwo : two = x - ((x >>> 1) &&& repeated 0x55 8))
    (isFour : four = (two &&& repeated 0x33 8) + ((two >>> 2) &&& repeated 0x33 8)) :
    (((four + (four >>> 4)) &&& repeated 0x0f 8) * repeated 1 8) % 2 ^ 64 / 2 ^ 56 =
      setBits x 64 := by
  have pairsSmall : ∀ byte < 256, pairs byte < 256 := fun byte less =>
    (weight_spec byte less).2.2.2.2
  rw [sub_pairs bounded] at isTwo
  rw [isTwo, add_nibbles, eachByte_eachByte pairsSmall] at isFour
  rw [isFour, add_upper fun byte less =>
    ⟨(weight_spec byte less).2.2.1, (weight_spec byte less).2.2.2.1⟩]
  have sum := gather (fun byte less => (weight_spec byte less).2.1) x
  rw [sumBytes_weight] at sum
  exact sum

end SlurmSim.Lib.HammingWeight
