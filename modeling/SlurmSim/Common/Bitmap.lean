import Mathlib.Data.Nat.ModEq

/-!
# Bitmaps as words

The functions of `bitstring.c` on the words of a bitmap.  A size that is not a
multiple of 64 leaves bits in the last word that belong to no position.
-/

namespace SlurmSim.Common.Bitmap

open List

/-- `bitstr_t`: the number of valid bits and the words behind the header. -/
structure Bitstr where
  bits : Nat
  words : List (BitVec 64)
  length_words : words.length = (bits + 63) / 64

/-- The largest size that `_assert_valid_size` lets pass. -/
def maxBits : Nat := 0x40000000

namespace Bitstr

/-- The word of a position. -/
def word (b : Bitstr) (bit : Nat) : BitVec 64 :=
  b.words.getD (bit / 64) 0

/-- Change the word of a position. -/
def modify (b : Bitstr) (bit : Nat) (change : BitVec 64 → BitVec 64) : Bitstr where
  bits := b.bits
  words := b.words.modify (bit / 64) change
  length_words := by rw [length_modify, b.length_words]

end Bitstr

/-- The number of words for so many bits. -/
def wordsFor (nbits : Nat) : Nat :=
  (nbits + 63) / 64

/-- `bit_alloc` -/
def bitAlloc (nbits : Nat) : Bitstr where
  bits := nbits
  words := List.replicate (wordsFor nbits) 0
  length_words := length_replicate

/-- `bit_realloc`: words that are added are zero. -/
def bitRealloc (b : Bitstr) (nbits : Nat) : Bitstr where
  bits := nbits
  words := b.words.take (wordsFor nbits) ++ List.replicate (wordsFor nbits - b.words.length) 0
  length_words := by
    rw [length_append, length_take, length_replicate, wordsFor]
    omega

/-- `bit_test`, for any position in the words. -/
def bitTest (b : Bitstr) (bit : Nat) : Bool :=
  (b.word bit).getLsbD (bit % 64)

/-- `_bit_mask` -/
def bitMask (bit : Nat) : BitVec 64 :=
  1#64 <<< (bit % 64)

/-- `bit_set` -/
def bitSet (bit : Nat) (b : Bitstr) : Bitstr :=
  b.modify bit (· ||| bitMask bit)

/-- `bit_clear` -/
def bitClear (bit : Nat) (b : Bitstr) : Bitstr :=
  b.modify bit (· &&& ~~~bitMask bit)

/-- The bits of a byte within its word. -/
def byteMask (byte : Nat) : BitVec 64 :=
  0xff#64 <<< (8 * (byte % 8))

/-- A byte of `memset(.., 0xff, ..)`. -/
def setByte (byte : Nat) (b : Bitstr) : Bitstr :=
  b.modify (8 * byte) (· ||| byteMask byte)

/-- A byte of `memset(.., 0, ..)`. -/
def clearByte (byte : Nat) (b : Bitstr) : Bitstr :=
  b.modify (8 * byte) (· &&& ~~~byteMask byte)

section Range

variable (put putByte : Nat → Bitstr → Bitstr)

/-- The bits before the first whole byte. -/
def firstBits (stop : Int) (start : Nat) (b : Bitstr) : Nat × Bitstr :=
  if start ≤ stop ∧ 0 < start % 8 then firstBits stop (start + 1) (put start b) else (start, b)
termination_by (stop + 1 - start).toNat

/-- The bits behind the last whole byte. -/
def lastBits (start : Nat) (stop : Int) (b : Bitstr) : Int × Bitstr :=
  if start ≤ stop ∧ 0 < (stop + 1) % 8 then lastBits start (stop - 1) (put stop.toNat b)
  else (stop, b)
termination_by (stop + 1 - start).toNat

/-- `memset` -/
def memset (first : Nat) : Nat → Bitstr → Bitstr
  | 0, b => b
  | count + 1, b => memset (first + 1) count (putByte first b)

/-- What `bit_nset` and `bit_nclear` do. -/
def putRange (start : Nat) (stop : Int) (b : Bitstr) : Bitstr :=
  let (start, b) := firstBits put stop start b
  let (stop, b) := lastBits put start stop b
  if start < stop then memset putByte (start / 8) ((stop - start + 1).toNat / 8) b else b

end Range

/-- `bit_nset` -/
def bitNset (start stop : Nat) : Bitstr → Bitstr :=
  putRange bitSet setByte start stop

/-- `bit_nclear` -/
def bitNclear (start stop : Nat) : Bitstr → Bitstr :=
  putRange bitClear clearByte start stop

/-- `bit_ffs`'s search within a word, bit by bit. -/
def scanWord (b : Bitstr) (word : Nat) (bit : Nat) : Option Nat :=
  if bit < b.bits ∧ bit / 64 = word then
    if bitTest b bit then some bit else scanWord b word (bit + 1)
  else none
termination_by b.bits - bit

/-- `__builtin_ctzll` -/
def ctzll (word : BitVec 64) : Nat :=
  ((List.range 64).find? fun bit => word.getLsbD bit).getD 64

/-- The loop of `bit_ffs`, with `__builtin_ctzll` if there is one. -/
def ffsLoop (builtin : Bool) (b : Bitstr) (bit : Nat) : Int :=
  if bit < b.bits then
    if b.word bit = 0 then ffsLoop builtin b (bit + 64)
    else if builtin then bit + ctzll (b.word bit)
    else
      match scanWord b (bit / 64) bit with
      | some value => value
      | none => ffsLoop builtin b (64 * (bit / 64 + 1))
  else -1
termination_by b.bits - bit

/-- `bit_ffs` -/
def bitFfs (builtin : Bool) (b : Bitstr) : Int :=
  ffsLoop builtin b 0

/-- `bit_super_set`, for bitmaps of one size. -/
def bitSuperSet (b1 b2 : Bitstr) : Bool :=
  (b1.words.zip b2.words).all fun (word1, word2) => word1 == word1 &&& word2

/-- `bit_equal` -/
def bitEqual (b1 b2 : Bitstr) : Bool :=
  b1.bits == b2.bits && (b1.words.zip b2.words).all fun (word1, word2) => word1 == word2

/-- The loops over the words of two bitmaps of one size. -/
def wordwise (op : BitVec 64 → BitVec 64 → BitVec 64) (b1 b2 : Bitstr)
    (same : b1.bits = b2.bits) : Bitstr where
  bits := b1.bits
  words := List.zipWith op b1.words b2.words
  length_words := by
    rw [length_zipWith, b1.length_words, b2.length_words, same, Nat.min_self]

/-- `bit_and` -/
def bitAnd (b1 b2 : Bitstr) (same : b1.bits = b2.bits) : Bitstr :=
  wordwise (· &&& ·) b1 b2 same

/-- `bit_and_not` -/
def bitAndNot (b1 b2 : Bitstr) (same : b1.bits = b2.bits) : Bitstr :=
  wordwise (· &&& ~~~·) b1 b2 same

/-- `bit_or` -/
def bitOr (b1 b2 : Bitstr) (same : b1.bits = b2.bits) : Bitstr :=
  wordwise (· ||| ·) b1 b2 same

/-- `bit_not` -/
def bitNot (b : Bitstr) : Bitstr where
  bits := b.bits
  words := b.words.map (~~~·)
  length_words := by rw [length_map, b.length_words]

/-- `bit_copy` -/
def bitCopy (b : Bitstr) : Bitstr where
  bits := b.bits
  words := b.words
  length_words := b.length_words

/-- `bit_copybits`, for bitmaps of one size. -/
def bitCopybits (dest src : Bitstr) (same : src.bits = dest.bits) : Bitstr where
  bits := dest.bits
  words := src.words
  length_words := by rw [src.length_words, same]

/-- The bits that shift up. -/
def shiftUp (b1 : Bitstr) (n : Nat) : Nat → Bitstr → Bitstr
  | 0, new => new
  | bit + 1, new =>
    let new := shiftUp b1 n bit new
    if bitTest b1 bit then bitSet (bit + n) new else new

/-- The bits that wrap around, from a position on. -/
def wrapAround (b1 : Bitstr) (first : Nat) : Nat → Bitstr → Bitstr
  | 0, new => new
  | dst + 1, new =>
    let new := wrapAround b1 first dst new
    if bitTest b1 (first + dst) then bitSet dst new else new

/-- `bit_rotate_copy` -/
def bitRotateCopy (b1 : Bitstr) (n : Int) (nbits : Nat) : Bitstr :=
  let deltasize := nbits - b1.bits
  let n := n.tmod nbits
  let n := (if n < 0 then n + nbits else n).toNat
  let wrapbits := if deltasize < n then n - deltasize else 0
  let new := bitNclear 0 (nbits - 1) (bitAlloc nbits)
  let new := shiftUp b1 n (b1.bits - wrapbits) new
  wrapAround b1 (b1.bits - wrapbits) wrapbits new

section Sizes

variable {put putByte : Nat → Bitstr → Bitstr}

theorem bits_firstBits (puts : ∀ bit b, (put bit b).bits = b.bits) (stop : Int) (start : Nat)
    (b : Bitstr) : (firstBits put stop start b).2.bits = b.bits := by
  fun_induction firstBits put stop start b with
  | case1 start b more ih => rw [ih, puts]
  | case2 start b stops => rfl

theorem bits_lastBits (puts : ∀ bit b, (put bit b).bits = b.bits) (start : Nat) (stop : Int)
    (b : Bitstr) : (lastBits put start stop b).2.bits = b.bits := by
  fun_induction lastBits put start stop b with
  | case1 stop b more ih => rw [ih, puts]
  | case2 stop b stops => rfl

theorem bits_memset (puts : ∀ byte b, (putByte byte b).bits = b.bits) (first count : Nat)
    (b : Bitstr) : (memset putByte first count b).bits = b.bits := by
  induction count generalizing first b with
  | zero => rfl
  | succ count ih => rw [memset, ih, puts]

theorem bits_bitNclear (start stop : Nat) (b : Bitstr) :
    (bitNclear start stop b).bits = b.bits := by
  have bit : ∀ bit b, (bitClear bit b).bits = b.bits := fun _ _ => rfl
  have byte : ∀ byte b, (clearByte byte b).bits = b.bits := fun _ _ => rfl
  rw [bitNclear, putRange]
  simp only
  split_ifs
  · rw [bits_memset byte, bits_lastBits bit, bits_firstBits bit]
  · rw [bits_lastBits bit, bits_firstBits bit]

theorem bits_shiftUp (b1 new : Bitstr) (n count : Nat) :
    (shiftUp b1 n count new).bits = new.bits := by
  induction count with
  | zero => rfl
  | succ bit ih =>
    rw [shiftUp]
    split_ifs
    · exact ih
    · exact ih

theorem bits_wrapAround (b1 new : Bitstr) (first count : Nat) :
    (wrapAround b1 first count new).bits = new.bits := by
  induction count with
  | zero => rfl
  | succ dst ih =>
    rw [wrapAround]
    split_ifs
    · exact ih
    · exact ih

theorem bits_bitRotateCopy (b1 : Bitstr) (n : Int) (nbits : Nat) :
    (bitRotateCopy b1 n nbits).bits = nbits := by
  rw [bitRotateCopy, bits_wrapAround, bits_shiftUp, bits_bitNclear]
  rfl

end Sizes

/-- `bit_rotate` -/
def bitRotate (b1 : Bitstr) (n : Int) : Bitstr :=
  if n = 0 then b1
  else bitCopybits b1 (bitRotateCopy b1 n b1.bits) (bits_bitRotateCopy b1 n b1.bits)

/-! ## Positions -/

section Positions

variable {b after next : Bitstr} {value : Bool} {region other : Nat → Prop}

/-- All positions of the words, with those behind the last bit. -/
def Bitstr.room (b : Bitstr) : Nat :=
  64 * b.words.length

theorem Bitstr.bits_le_room (b : Bitstr) : b.bits ≤ b.room := by
  rw [Bitstr.room, b.length_words]
  omega

theorem Bitstr.room_eq (b : Bitstr) : b.room = 64 * ((b.bits + 63) / 64) := by
  rw [Bitstr.room, b.length_words]

theorem bitTest_of_room_le {i : Nat} (outside : b.room ≤ i) : bitTest b i = false := by
  have none : b.words.length ≤ i / 64 := by
    unfold Bitstr.room at outside
    omega
  rw [bitTest, Bitstr.word, getD_eq_getElem?_getD, getElem?_eq_none none]
  simp

theorem word_modify (b : Bitstr) {bit : Nat} (change : BitVec 64 → BitVec 64) (i : Nat)
    (mem : bit < b.room) :
    (b.modify bit change).word i =
      if i / 64 = bit / 64 then change (b.word i) else b.word i := by
  have less : bit / 64 < b.words.length := by
    unfold Bitstr.room at mem
    omega
  simp only [Bitstr.word, Bitstr.modify, getD_eq_getElem?_getD]
  by_cases same : i / 64 = bit / 64
  · rw [if_pos same, same, getElem?_modify_eq, getElem?_eq_getElem less]
    rfl
  · rw [if_neg same, getElem?_modify_ne _ _ (Ne.symm same)]

/-- The positions of a region take a value, and no others change. -/
structure Writes (value : Bool) (region : Nat → Prop) (b after : Bitstr) : Prop where
  bits : after.bits = b.bits
  inside : ∀ i, region i → bitTest after i = value
  outside : ∀ i, ¬region i → bitTest after i = bitTest b i

theorem Writes.room (writes : Writes value region b after) : after.room = b.room := by
  rw [Bitstr.room_eq, Bitstr.room_eq, writes.bits]

theorem Writes.refl (value : Bool) (b : Bitstr) : Writes value (fun _ => False) b b :=
  ⟨rfl, fun _ absurd => absurd.elim, fun _ _ => rfl⟩

theorem Writes.trans (first : Writes value region b next) (second : Writes value other next after) :
    Writes value (fun i => region i ∨ other i) b after where
  bits := second.bits.trans first.bits
  inside := by
    intro i either
    by_cases here : other i
    · exact second.inside i here
    · rw [second.outside i here]
      exact first.inside i (either.resolve_right here)
  outside := by
    intro i neither
    obtain ⟨notFirst, notSecond⟩ := not_or.mp neither
    rw [second.outside i notSecond, first.outside i notFirst]

theorem Writes.congr (writes : Writes value region b after) (same : ∀ i, other i ↔ region i) :
    Writes value other b after where
  bits := writes.bits
  inside := fun i here => writes.inside i ((same i).mp here)
  outside := fun i here => writes.outside i (here ∘ (same i).mpr)

theorem getLsbD_bitMask (bit : Nat) {k : Nat} (less : k < 64) :
    (bitMask bit).getLsbD k = decide (k = bit % 64) := by
  simp only [bitMask, BitVec.getLsbD_shiftLeft, BitVec.getLsbD_one, less, decide_true,
    Bool.true_and]
  by_cases same : k = bit % 64
  · simp [same]
  · by_cases below : k < bit % 64
    · simp [below, same]
    · simp [below, same]
      omega

theorem getLsbD_byteMask (byte : Nat) {k : Nat} (less : k < 64) :
    (byteMask byte).getLsbD k = decide (k / 8 = byte % 8) := by
  have ones : ∀ j, (0xff#64).getLsbD j = decide (j < 8) := by
    intro j
    by_cases small : j < 64
    · revert j
      decide
    · rw [BitVec.getLsbD_of_ge _ _ (by omega), decide_eq_false (by omega)]
  rw [byteMask, BitVec.getLsbD_shiftLeft, ones]
  simp only [less, decide_true, Bool.true_and]
  by_cases below : k < 8 * (byte % 8)
  · rw [decide_eq_true below, decide_eq_false (show ¬k / 8 = byte % 8 by omega)]
    rfl
  · rw [decide_eq_false below]
    simp only [Bool.not_false, Bool.true_and, decide_eq_decide]
    omega

section Masks

variable {bit : Nat} {mask : BitVec 64}

theorem writes_or (mem : bit < b.room) (here : ∀ i, region i → i / 64 = bit / 64)
    (masked : ∀ i, i / 64 = bit / 64 → (mask.getLsbD (i % 64) = true ↔ region i)) :
    Writes true region b (b.modify bit (· ||| mask)) := by
  refine ⟨rfl, fun i isHere => ?_, fun i notHere => ?_⟩
  · rw [bitTest, word_modify b _ _ mem, if_pos (here i isHere), BitVec.getLsbD_or,
      (masked i (here i isHere)).mpr isHere, Bool.or_true]
  · rw [bitTest, word_modify b _ _ mem]
    by_cases same : i / 64 = bit / 64
    · have clear : mask.getLsbD (i % 64) = false :=
        Bool.eq_false_iff.mpr (notHere ∘ (masked i same).mp)
      rw [if_pos same, BitVec.getLsbD_or, clear, Bool.or_false, bitTest]
    · rw [if_neg same, bitTest]

theorem writes_and_not (mem : bit < b.room) (here : ∀ i, region i → i / 64 = bit / 64)
    (masked : ∀ i, i / 64 = bit / 64 → (mask.getLsbD (i % 64) = true ↔ region i)) :
    Writes false region b (b.modify bit (· &&& ~~~mask)) := by
  have small : ∀ i, i % 64 < 64 := fun i => Nat.mod_lt _ (by omega)
  refine ⟨rfl, fun i isHere => ?_, fun i notHere => ?_⟩
  · rw [bitTest, word_modify b _ _ mem, if_pos (here i isHere), BitVec.getLsbD_and,
      BitVec.getLsbD_not, (masked i (here i isHere)).mpr isHere]
    simp
  · rw [bitTest, word_modify b _ _ mem]
    by_cases same : i / 64 = bit / 64
    · have clear : mask.getLsbD (i % 64) = false :=
        Bool.eq_false_iff.mpr (notHere ∘ (masked i same).mp)
      rw [if_pos same, BitVec.getLsbD_and, BitVec.getLsbD_not, clear, bitTest]
      simp [small]
    · rw [if_neg same, bitTest]

theorem bitMask_region (bit : Nat) (i : Nat) (same : i / 64 = bit / 64) :
    (bitMask bit).getLsbD (i % 64) = true ↔ i = bit := by
  rw [getLsbD_bitMask _ (Nat.mod_lt _ (by omega)), decide_eq_true_iff]
  omega

theorem byteMask_region (byte : Nat) (i : Nat) (same : i / 64 = 8 * byte / 64) :
    (byteMask byte).getLsbD (i % 64) = true ↔ i / 8 = byte := by
  rw [getLsbD_byteMask _ (Nat.mod_lt _ (by omega)), decide_eq_true_iff]
  omega

theorem bitSet_writes (mem : bit < b.room) : Writes true (· = bit) b (bitSet bit b) :=
  writes_or mem (fun _ same => same ▸ rfl) (bitMask_region bit)

theorem bitClear_writes (mem : bit < b.room) : Writes false (· = bit) b (bitClear bit b) :=
  writes_and_not mem (fun _ same => same ▸ rfl) (bitMask_region bit)

theorem setByte_writes {byte : Nat} (mem : 8 * byte < b.room) :
    Writes true (· / 8 = byte) b (setByte byte b) :=
  writes_or mem (fun _ same => by omega) (byteMask_region byte)

theorem clearByte_writes {byte : Nat} (mem : 8 * byte < b.room) :
    Writes false (· / 8 = byte) b (clearByte byte b) :=
  writes_and_not mem (fun _ same => by omega) (byteMask_region byte)

end Masks

/-! ## Ranges -/

section Ranges

variable {put putByte : Nat → Bitstr → Bitstr}

variable {stop : Int} {start : Nat}

theorem firstBits_writes
    (puts : ∀ {b : Bitstr} {bit : Nat}, bit < b.room → Writes value (· = bit) b (put bit b))
    (start : Nat) (mem : stop < b.room) :
    start ≤ (firstBits put stop start b).1 ∧
      ((firstBits put stop start b).1 % 8 = 0 ∨ stop < (firstBits put stop start b).1) ∧
      ((firstBits put stop start b).1 ≤ stop + 1 ∨ (firstBits put stop start b).1 = start) ∧
      Writes value (fun i => start ≤ i ∧ i < (firstBits put stop start b).1) b
        (firstBits put stop start b).2 := by
  fun_induction firstBits put stop start b with
  | case1 start b more ih =>
    have first : Writes value (· = start) b (put start b) := puts (by omega)
    obtain ⟨le, rest, most, writes⟩ := ih (by rw [first.room]; exact mem)
    refine ⟨by omega, rest, by omega, (first.trans writes).congr fun i => by omega⟩
  | case2 start b stops =>
    refine ⟨le_rfl, by simp only; omega, .inr rfl, (Writes.refl value b).congr fun i => ?_⟩
    exact ⟨fun both => absurd both.2 (not_lt.mpr both.1), False.elim⟩

theorem lastBits_writes
    (puts : ∀ {b : Bitstr} {bit : Nat}, bit < b.room → Writes value (· = bit) b (put bit b))
    (start : Nat) (mem : stop < b.room) :
    (lastBits put start stop b).1 ≤ stop ∧
      (((lastBits put start stop b).1 + 1) % 8 = 0 ∨ (lastBits put start stop b).1 < start) ∧
      (start ≤ (lastBits put start stop b).1 + 1 ∨ (lastBits put start stop b).1 = stop) ∧
      Writes value (fun i => (lastBits put start stop b).1 < i ∧ i ≤ stop) b
        (lastBits put start stop b).2 := by
  fun_induction lastBits put start stop b with
  | case1 stop b more ih =>
    have first : Writes value (· = stop.toNat) b (put stop.toNat b) := puts (by omega)
    obtain ⟨le, rest, most, writes⟩ := ih (by rw [first.room]; omega)
    refine ⟨by omega, rest, by omega, (first.trans writes).congr fun i => by omega⟩
  | case2 stop b stops =>
    refine ⟨le_rfl, by simp only; omega, .inr rfl, (Writes.refl value b).congr fun i => ?_⟩
    exact ⟨fun both => absurd both.1 (not_lt.mpr both.2), False.elim⟩

theorem memset_writes (puts : ∀ {b : Bitstr} {byte : Nat}, 8 * byte < b.room →
      Writes value (· / 8 = byte) b (putByte byte b))
    {first count : Nat} (mem : 8 * (first + count) ≤ b.room) :
    Writes value (fun i => first ≤ i / 8 ∧ i / 8 < first + count) b
      (memset putByte first count b) := by
  induction count generalizing first b with
  | zero =>
    exact (Writes.refl value b).congr fun i => ⟨fun both => by omega, False.elim⟩
  | succ count ih =>
    have one : Writes value (· / 8 = first) b (putByte first b) := puts (by omega)
    have others : Writes value (fun i => first + 1 ≤ i / 8 ∧ i / 8 < first + 1 + count) _ _ :=
      ih (by rw [one.room]; omega)
    exact (one.trans others).congr fun i => by omega

/-- The whole range is written, bit by bit at its ends and byte by byte between. -/
theorem putRange_writes
    (puts : ∀ {b : Bitstr} {bit : Nat}, bit < b.room → Writes value (· = bit) b (put bit b))
    (putsByte : ∀ {b : Bitstr} {byte : Nat}, 8 * byte < b.room → Writes value (· / 8 = byte) b (putByte byte b))
    (mem : stop < b.room) :
    Writes value (fun i => start ≤ i ∧ i ≤ stop) b (putRange put putByte start stop b) := by
  obtain ⟨ge, first, most, writesFirst⟩ := firstBits_writes puts start mem
  rw [putRange]
  generalize firstBits put stop start b = front at *
  obtain ⟨begin, b1⟩ := front
  simp only at ge first most writesFirst ⊢
  obtain ⟨le, last, least, writesLast⟩ := lastBits_writes puts begin
    (show stop < b1.room by rw [writesFirst.room]; exact mem)
  generalize lastBits put begin stop b1 = back at *
  obtain ⟨finish, b2⟩ := back
  simp only at le last least writesLast ⊢
  have both := writesFirst.trans writesLast
  have same := both.room
  split_ifs with more
  · have bytes : Writes value (fun i => begin / 8 ≤ i / 8 ∧
        i / 8 < begin / 8 + (finish - begin + 1).toNat / 8) b2 _ :=
      memset_writes putsByte (by omega)
    exact (both.trans bytes).congr fun i => by omega
  · exact both.congr fun i => by omega

theorem bitNset_writes {stop : Nat} (mem : stop < b.bits) :
    Writes true (fun i => start ≤ i ∧ i ≤ stop) b (bitNset start stop b) :=
  (putRange_writes bitSet_writes setByte_writes
    (Int.ofNat_lt.mpr (mem.trans_le b.bits_le_room))).congr fun i => by omega

theorem bitNclear_writes {stop : Nat} (mem : stop < b.bits) :
    Writes false (fun i => start ≤ i ∧ i ≤ stop) b (bitNclear start stop b) :=
  (putRange_writes bitClear_writes clearByte_writes
    (Int.ofNat_lt.mpr (mem.trans_le b.bits_le_room))).congr fun i => by omega

end Ranges

/-! ## Words -/

theorem bitTest_bitAlloc (nbits i : Nat) : bitTest (bitAlloc nbits) i = false := by
  rw [bitTest, Bitstr.word, bitAlloc]
  simp [getD_eq_getElem?_getD, getElem?_replicate]
  split <;> simp

theorem bitTest_bitRealloc (b : Bitstr) (nbits i : Nat) :
    bitTest (bitRealloc b nbits) i = (decide (i < 64 * wordsFor nbits) && bitTest b i) := by
  by_cases mem : i < 64 * wordsFor nbits
  · rw [decide_eq_true mem, Bool.true_and, bitTest, bitTest, Bitstr.word, Bitstr.word, bitRealloc,
      getD_eq_getElem?_getD, getD_eq_getElem?_getD]
    by_cases old : i / 64 < b.words.length
    · rw [getElem?_append_left (by rw [length_take]; omega), getElem?_take_of_lt (by omega)]
    · rw [getElem?_append_right (by rw [length_take]; omega), getElem?_replicate,
        if_pos (by rw [length_take]; omega), getElem?_eq_none (not_lt.mp old)]
      rfl
  · rw [decide_eq_false mem, Bool.false_and]
    refine bitTest_of_room_le ?_
    rw [Bitstr.room_eq]
    exact not_lt.mp mem

theorem bitTest_wordwise {b1 b2 : Bitstr} (same : b1.bits = b2.bits)
    {op : BitVec 64 → BitVec 64 → BitVec 64} {bool : Bool → Bool → Bool}
    (bitwise : ∀ x y k, k < 64 → (op x y).getLsbD k = bool (x.getLsbD k) (y.getLsbD k))
    {i : Nat} (mem : i < b1.room) :
    bitTest (wordwise op b1 b2 same) i = bool (bitTest b1 i) (bitTest b2 i) := by
  have less1 : i / 64 < b1.words.length := by
    unfold Bitstr.room at mem
    omega
  have less2 : i / 64 < b2.words.length := by
    rw [b2.length_words, ← same, ← b1.length_words]
    exact less1
  simp only [bitTest, Bitstr.word, wordwise, getD_eq_getElem?_getD, getElem?_zipWith,
    getElem?_eq_getElem less1, getElem?_eq_getElem less2, Option.getD_some]
  exact bitwise _ _ _ (Nat.mod_lt _ (by omega))

theorem bitTest_bitNot {i : Nat} (mem : i < b.room) :
    bitTest (bitNot b) i = !bitTest b i := by
  have less : i / 64 < b.words.length := by
    unfold Bitstr.room at mem
    omega
  have small : i % 64 < 64 := Nat.mod_lt _ (by omega)
  simp only [bitTest, Bitstr.word, bitNot, getD_eq_getElem?_getD, getElem?_map,
    getElem?_eq_getElem less, Option.map_some, Option.getD_some, BitVec.getLsbD_not, small,
    decide_true, Bool.true_and]

/-! ## Rotation -/

theorem shiftUp_writes (b1 : Bitstr) {new : Bitstr} {n count : Nat}
    (mem : count + n ≤ new.room) :
    Writes true (fun i => ∃ bit < count, bitTest b1 bit = true ∧ i = bit + n) new
      (shiftUp b1 n count new) := by
  induction count with
  | zero => exact (Writes.refl true new).congr fun i => by simp
  | succ count ih =>
    have before := ih (by omega)
    rw [shiftUp]
    split_ifs with isSet
    · have one : Writes true (· = count + n) _ (bitSet (count + n) (shiftUp b1 n count new)) :=
        bitSet_writes (by rw [before.room]; omega)
      refine (before.trans one).congr fun i => ?_
      simp only [Nat.lt_succ_iff_lt_or_eq, or_and_right, exists_or, exists_eq_left, isSet, true_and]
    · refine before.congr fun i => ?_
      simp only [Nat.lt_succ_iff_lt_or_eq, or_and_right, exists_or, exists_eq_left, isSet,
        Bool.false_eq_true, false_and, or_false]

theorem wrapAround_writes (b1 : Bitstr) {new : Bitstr} (first : Nat) {count : Nat}
    (mem : count ≤ new.room) :
    Writes true (fun i => i < count ∧ bitTest b1 (first + i) = true) new
      (wrapAround b1 first count new) := by
  induction count with
  | zero => exact (Writes.refl true new).congr fun i => by simp
  | succ count ih =>
    have before := ih (by omega)
    rw [wrapAround]
    split_ifs with isSet
    · have one : Writes true (· = count) _ (bitSet count (wrapAround b1 first count new)) :=
        bitSet_writes (by rw [before.room]; omega)
      refine (before.trans one).congr fun i => ?_
      by_cases last : i = count
      · simp [last, isSet]
      · simp only [last, or_false]
        exact and_congr_left fun _ => by omega
    · refine before.congr fun i => ?_
      by_cases last : i = count
      · simp [last, isSet]
      · exact and_congr_left fun _ => by omega

theorem rotation_eq (n : Int) {size : Nat} (pos : 0 < size) :
    ((if n.tmod size < 0 then n.tmod size + size else n.tmod size).toNat : Int) = n % size := by
  have nonneg := Int.emod_nonneg n (show (size : Int) ≠ 0 by omega)
  have less := Int.emod_lt_of_pos n (show (0 : Int) < size by omega)
  rw [Int.tmod_eq_emod]
  split_ifs <;> omega

/-- A rotation moves each position by the distance, around the size of the copy. -/
theorem bitTest_bitRotateCopy_of_le {b1 : Bitstr} (n : Int) {nbits : Nat} (fits : b1.bits ≤ nbits)
    (pos : 0 < nbits) (i : Nat) :
    bitTest (bitRotateCopy b1 n nbits) i = true ↔
      ∃ bit < b1.bits, bitTest b1 bit = true ∧ i = (bit + (n % nbits).toNat) % nbits := by
  have distance := rotation_eq n pos
  have less := Int.emod_lt_of_pos n (show (0 : Int) < nbits by omega)
  rw [bitRotateCopy]
  generalize (if n.tmod nbits < 0 then n.tmod nbits + nbits else n.tmod nbits).toNat = r
    at distance ⊢
  obtain ⟨w, wraps, few, moved⟩ : ∃ w,
      (if nbits - b1.bits < r then r - (nbits - b1.bits) else 0) = w ∧ w ≤ b1.bits ∧
        (b1.bits - w + r = nbits ∨ w = 0 ∧ b1.bits + r ≤ nbits) := by
    refine ⟨_, rfl, ?_⟩
    split_ifs <;> omega
  rw [← distance, Int.toNat_natCast, wraps]
  have near : r < nbits := by omega
  clear wraps distance
  have clears : Writes false (fun i => 0 ≤ i ∧ i ≤ nbits - 1) (bitAlloc nbits)
      (bitNclear 0 (nbits - 1) (bitAlloc nbits)) :=
    bitNclear_writes (show nbits - 1 < nbits by omega)
  have room : nbits ≤ (bitNclear 0 (nbits - 1) (bitAlloc nbits)).room := by
    rw [clears.room]
    exact Bitstr.bits_le_room (bitAlloc nbits)
  have shifts := shiftUp_writes b1
    (show b1.bits - w + r ≤ (bitNclear 0 (nbits - 1) (bitAlloc nbits)).room by omega)
  have around := wrapAround_writes b1 (b1.bits - w)
    (show w ≤ (shiftUp b1 r (b1.bits - w) _).room by rw [shifts.room]; omega)
  have all := shifts.trans around
  have clear : bitTest (bitNclear 0 (nbits - 1) (bitAlloc nbits)) i = false := by
    by_cases here : 0 ≤ i ∧ i ≤ nbits - 1
    · exact clears.inside i here
    · rw [clears.outside i here, bitTest_bitAlloc]
  have written : bitTest (wrapAround b1 (b1.bits - w) w (shiftUp b1 r (b1.bits - w)
      (bitNclear 0 (nbits - 1) (bitAlloc nbits)))) i = true ↔
      (∃ bit < b1.bits - w, bitTest b1 bit = true ∧ i = bit + r) ∨
        i < w ∧ bitTest b1 (b1.bits - w + i) = true := by
    refine ⟨fun isSet => ?_, all.inside i⟩
    by_contra nowhere
    rw [all.outside i nowhere, clear] at isSet
    cases isSet
  rw [written]
  clear written
  constructor
  · rintro (⟨bit, small, isSet, rfl⟩ | ⟨small, isSet⟩)
    · exact ⟨bit, by omega, isSet, (Nat.mod_eq_of_lt (by omega)).symm⟩
    · refine ⟨_, by omega, isSet, ?_⟩
      rw [show b1.bits - w + i + r = i + nbits by omega, Nat.add_mod_right,
        Nat.mod_eq_of_lt (by omega)]
  · rintro ⟨bit, small, isSet, rfl⟩
    by_cases stays : bit < b1.bits - w
    · refine .inl ⟨bit, stays, isSet, Nat.mod_eq_of_lt (by omega)⟩
    · have position : (bit + r) % nbits = bit + r - nbits := by
        rw [Nat.mod_eq_sub_mod (by omega), Nat.mod_eq_of_lt (by omega)]
      refine .inr ⟨by omega, ?_⟩
      rw [position, show b1.bits - w + (bit + r - nbits) = bit by omega]
      exact isSet

theorem bitTest_bitRotateCopy {b1 : Bitstr} (n : Int) (pos : 0 < b1.bits) (i : Nat) :
    bitTest (bitRotateCopy b1 n b1.bits) i = true ↔
      ∃ bit < b1.bits, bitTest b1 bit = true ∧ i = (bit + (n % b1.bits).toNat) % b1.bits :=
  bitTest_bitRotateCopy_of_le n le_rfl pos i

end Positions

end SlurmSim.Common.Bitmap
