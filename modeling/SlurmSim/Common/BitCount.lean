import SlurmSim.Common.BitmapRuns
import SlurmSim.Lib.HammingWeight

/-!
# Counting the bits of a bitmap

The loops that count set bits take whole words at first and single bits behind the last
whole word, so that the bits behind the size are not counted.
-/

namespace SlurmSim.Common.Bitmap

open SlurmSim.Lib.HammingWeight
open Finset (mem_filter mem_range)

/-! ## The loops -/

/-- `__builtin_popcountll` -/
def popcountll (w : BitVec 64) : Nat :=
  setBits w.toNat 64

/-- `hweight`, with `__builtin_popcountll` if there is one. -/
def hweight (builtin : Bool) (w : BitVec 64) : Nat :=
  if builtin then popcountll w
  else
    let w := w - ((w >>> 1) &&& 0x5555555555555555#64)
    let w := (w &&& 0x3333333333333333#64) + ((w >>> 2) &&& 0x3333333333333333#64)
    let w := (w + (w >>> 4)) &&& 0x0f0f0f0f0f0f0f0f#64
    ((w * 0x0101010101010101#64) >>> 56).toNat

/-- The whole words of `bit_set_count`: where they end, and their set bits. -/
def countWords (builtin : Bool) (b : Bitstr) (bit count : Nat) : Nat × Nat :=
  if bit + 64 ≤ b.bits then
    countWords builtin b (bit + 64) (count + hweight builtin (b.word bit))
  else (bit, count)
termination_by b.bits - bit

/-- The whole words of `bit_overlap`. -/
def overlapWords (builtin : Bool) (b1 b2 : Bitstr) (bit count : Nat) : Nat × Nat :=
  if bit < b1.bits then
    if b1.bits ≤ bit + 63 then (bit, count)
    else
      overlapWords builtin b1 b2 (bit + 64) (count + hweight builtin (b1.word bit &&& b2.word bit))
  else (bit, count)
termination_by b1.bits - bit

/-- The single bits behind the whole words. -/
def countBits (bits : Nat) (test : Nat → Bool) (bit count : Nat) : Nat :=
  if bit < bits then countBits bits test (bit + 1) (if test bit then count + 1 else count)
  else count
termination_by bits - bit

/-- `bit_set_count` -/
def bitSetCount (builtin : Bool) (b : Bitstr) : Nat :=
  let (bit, count) := countWords builtin b 0 0
  countBits b.bits (bitTest b) bit count

/-- `bit_overlap`, for bitmaps of one size. -/
def bitOverlap (builtin : Bool) (b1 b2 : Bitstr) : Nat :=
  let (bit, count) := overlapWords builtin b1 b2 0 0
  countBits b1.bits (fun bit => bitTest b1 bit && bitTest b2 bit) bit count

/-- The single bits of `bit_pick_cnt`. -/
def pickBits (b : Bitstr) (nbits bit count : Nat) (new : Bitstr) : Nat × Nat × Bitstr :=
  if bit < b.bits ∧ count < nbits then
    if bitTest b bit then pickBits b nbits (bit + 1) (count + 1) (bitSet bit new)
    else pickBits b nbits (bit + 1) count new
  else (bit, count, new)
termination_by b.bits - bit

/-- The loop of `bit_pick_cnt`: the count and the new bitmap.  The single bits are left only at
the end of the bitmap or with enough bits. -/
def pickLoop (builtin : Bool) (b : Bitstr) (nbits bit count : Nat) (new : Bitstr) :
    Nat × Bitstr :=
  if bit < b.bits ∧ count < nbits then
    if b.word bit = 0 then pickLoop builtin b nbits (bit + 64) count new
    else
      let newBits := hweight builtin (b.word bit)
      if count + newBits ≤ nbits ∧ bit + 63 < b.bits then
        pickLoop builtin b nbits (bit + 64) (count + newBits) (new.modify bit fun _ => b.word bit)
      else (pickBits b nbits bit count new).2
  else (count, new)
termination_by b.bits - bit

/-- `bit_pick_cnt`; `none` is `NULL`. -/
def bitPickCnt (builtin : Bool) (b : Bitstr) (nbits : Nat) : Option Bitstr :=
  if b.bits < nbits then none
  else
    let (count, new) := pickLoop builtin b nbits 0 0 (bitAlloc b.bits)
    if count < nbits then none else some new

/-! ## Weights of words -/

/-- The fields that are added side by side count the set bits. -/
theorem hweight_eq (builtin : Bool) (w : BitVec 64) : hweight builtin w = setBits w.toNat 64 := by
  cases builtin with
  | true => rfl
  | false =>
    have bounded := w.isLt
    have half : (w.toNat >>> 1) &&& repeated 0x55 8 ≤ w.toNat :=
      Nat.le_trans Nat.and_le_left (Nat.shiftRight_le _ 1)
    have two : (w - ((w >>> 1) &&& 0x5555555555555555#64)).toNat =
        w.toNat - ((w.toNat >>> 1) &&& repeated 0x55 8) := BitVec.toNat_sub_of_le half
    rw [hweight, if_neg Bool.false_ne_true]
    dsimp only
    generalize w - ((w >>> 1) &&& 0x5555555555555555#64) = fields at two
    have ones : repeated 0x33 8 = 0x3333333333333333 := rfl
    have low : fields.toNat &&& repeated 0x33 8 ≤ repeated 0x33 8 := Nat.and_le_right
    have high : (fields.toNat >>> 2) &&& repeated 0x33 8 ≤ repeated 0x33 8 := Nat.and_le_right
    have four : ((fields &&& 0x3333333333333333#64) +
          ((fields >>> 2) &&& 0x3333333333333333#64)).toNat =
        (fields.toNat &&& repeated 0x33 8) + ((fields.toNat >>> 2) &&& repeated 0x33 8) := by
      exact Nat.mod_eq_of_lt (show (fields.toNat &&& repeated 0x33 8) +
        ((fields.toNat >>> 2) &&& repeated 0x33 8) < 2 ^ 64 by omega)
    generalize (fields &&& 0x3333333333333333#64) + ((fields >>> 2) &&& 0x3333333333333333#64) =
      sums at four
    have bytes : (sums + (sums >>> 4)).toNat = sums.toNat + (sums.toNat >>> 4) := by
      rw [BitVec.toNat_add, BitVec.toNat_ushiftRight]
      exact Nat.mod_eq_of_lt (by omega)
    rw [BitVec.toNat_ushiftRight, BitVec.toNat_mul, BitVec.toNat_and, bytes,
      Nat.shiftRight_eq_div_pow]
    exact setBits_word bounded two four

/-! ## The set bits -/

/-- The positions below the size whose bits are set. -/
def members (b : Bitstr) : Finset Nat :=
  (Finset.range b.bits).filter fun i => bitTest b i = true

@[simp] theorem mem_members {b : Bitstr} {i : Nat} :
    i ∈ members b ↔ i < b.bits ∧ bitTest b i = true := by
  rw [members, mem_filter, mem_range]

section Counts

variable {p : Nat → Prop} [DecidablePred p] {s : Finset Nat} {b b1 b2 new : Bitstr}
  {bits bit count nbits : Nat} {test : Nat → Bool}

theorem count_mem (below : ∀ i ∈ s, i < bits) : Nat.count (· ∈ s) bits = s.card := by
  rw [Nat.count_eq_card_filter_range]
  congr 1
  ext i
  rw [mem_filter, mem_range]
  exact ⟨fun both => both.2, fun mem => ⟨below i mem, mem⟩⟩

theorem lt_of_mem_members {i : Nat} (mem : i ∈ members b) : i < b.bits :=
  (mem_members.mp mem).1

theorem count_word (builtin : Bool) {w : BitVec 64}
    (same : ∀ k < 64, w.getLsbD k = true ↔ p (bit + k)) :
    Nat.count p (bit + 64) = Nat.count p bit + hweight builtin w := by
  have word : Nat.count (fun k => p (bit + k)) 64 = setBits w.toNat 64 := by
    apply Nat.le_antisymm
    · exact Nat.count_mono_left fun k less here => (same k less).mpr here
    · exact Nat.count_mono_left fun k less here => (same k less).mp here
  rw [hweight_eq, Nat.count_add, word]

theorem getLsbD_word (b : Bitstr) {k : Nat} (aligned : 64 ∣ bit) (small : k < 64) :
    (b.word bit).getLsbD k = bitTest b (bit + k) := by
  obtain ⟨j, rfl⟩ := aligned
  exact (bitTest_word b j small).symm

theorem word_members (aligned : 64 ∣ bit) (whole : bit + 64 ≤ b.bits) (k : Nat) (small : k < 64) :
    (b.word bit).getLsbD k = true ↔ bit + k ∈ members b := by
  rw [getLsbD_word b aligned small, mem_members]
  exact (and_iff_right (by omega)).symm

theorem countWords_spec (builtin : Bool) (b : Bitstr) (bit count : Nat) (aligned : 64 ∣ bit)
    (counted : count = Nat.count (· ∈ members b) bit) :
    (countWords builtin b bit count).2 =
      Nat.count (· ∈ members b) (countWords builtin b bit count).1 := by
  fun_induction countWords builtin b bit count with
  | case1 bit count whole ih =>
    apply ih (by omega)
    rw [counted, count_word builtin (word_members aligned whole)]
  | case2 bit count stops => exact counted

theorem countBits_spec (same : ∀ i < bits, test i = true ↔ p i) (bit count : Nat)
    (counted : count = Nat.count p bit) :
    ∃ last, bits ≤ last ∧ countBits bits test bit count = Nat.count p last := by
  fun_induction countBits bits test bit count with
  | case1 bit count more ih =>
    apply ih
    rw [Nat.count_succ, counted]
    simp only [same bit more]
    split_ifs
    · rfl
    · rfl
  | case2 bit count stops => exact ⟨bit, not_lt.mp stops, counted⟩

theorem bitSetCount_eq (builtin : Bool) (b : Bitstr) : bitSetCount builtin b = (members b).card := by
  have words := countWords_spec builtin b 0 0 (dvd_zero 64) rfl
  rw [bitSetCount]
  generalize countWords builtin b 0 0 = reached at words
  obtain ⟨bit, count⟩ := reached
  obtain ⟨last, le, counted⟩ := @countBits_spec (· ∈ members b) _ b.bits (bitTest b)
    (fun i less => by rw [mem_members]; exact (and_iff_right less).symm) bit count words
  simp only
  rw [counted, count_mem fun i mem => lt_of_lt_of_le (lt_of_mem_members mem) le]

theorem overlapWords_spec (builtin : Bool) (sizes : b1.bits = b2.bits) (bit count : Nat)
    (aligned : 64 ∣ bit) (counted : count = Nat.count (· ∈ members b1 ∩ members b2) bit) :
    (overlapWords builtin b1 b2 bit count).2 =
      Nat.count (· ∈ members b1 ∩ members b2) (overlapWords builtin b1 b2 bit count).1 := by
  fun_induction overlapWords builtin b1 b2 bit count with
  | case1 bit count more stops => exact counted
  | case2 bit count more whole ih =>
    have both : ∀ k < 64, (b1.word bit &&& b2.word bit).getLsbD k = true ↔
        bit + k ∈ members b1 ∩ members b2 := by
      intro k small
      rw [BitVec.getLsbD_and, Bool.and_eq_true, word_members aligned (by omega) k small,
        word_members aligned (by omega) k small, Finset.mem_inter]
    apply ih (by omega)
    rw [counted, count_word builtin both]
  | case3 bit count stops => exact counted

theorem bitOverlap_eq (builtin : Bool) (sizes : b1.bits = b2.bits) :
    bitOverlap builtin b1 b2 = (members b1 ∩ members b2).card := by
  have words := overlapWords_spec builtin sizes 0 0 (dvd_zero 64) rfl
  have below : ∀ i ∈ members b1 ∩ members b2, i < b1.bits := fun i mem =>
    lt_of_mem_members (Finset.mem_inter.mp mem).1
  rw [bitOverlap]
  generalize overlapWords builtin b1 b2 0 0 = reached at words
  obtain ⟨bit, count⟩ := reached
  obtain ⟨last, le, counted⟩ := @countBits_spec (· ∈ members b1 ∩ members b2) _ b1.bits
    (fun bit => bitTest b1 bit && bitTest b2 bit)
    (fun i less => by simp [less, ← sizes]) bit count words
  simp only
  rw [counted, count_mem fun i mem => lt_of_lt_of_le (below i mem) le]

end Counts

/-! ## Picked bits -/

/-- The set bits below a position are taken. -/
structure Picked (b : Bitstr) (nbits bit count : Nat) (new : Bitstr) : Prop where
  bits : new.bits = b.bits
  taken : ∀ i, bitTest new i = true ↔ i < bit ∧ i ∈ members b
  counted : count = Nat.count (· ∈ members b) bit
  enough : count ≤ nbits

namespace Picked

variable {b new : Bitstr} {nbits bit count : Nat}

theorem start (b : Bitstr) (nbits : Nat) : Picked b nbits 0 0 (bitAlloc b.bits) where
  bits := rfl
  taken := fun i => by simp [bitTest_bitAlloc]
  counted := rfl
  enough := Nat.zero_le nbits

theorem skip (picked : Picked b nbits bit count new) {next : Nat} (le : bit ≤ next)
    (clear : ∀ i, bit ≤ i → i < next → i ∉ members b) : Picked b nbits next count new where
  bits := picked.bits
  taken := by
    intro i
    rw [picked.taken]
    refine and_congr_left fun mem => ⟨fun less => by omega, fun less => ?_⟩
    by_contra passed
    exact clear i (by omega) less mem
  counted := by
    obtain ⟨k, rfl⟩ := Nat.exists_eq_add_of_le le
    have none : Nat.count (fun j => bit + j ∈ members b) k = 0 :=
      Nat.count_iff_forall_not.mpr fun j less => clear (bit + j) (by omega) (by omega)
    rw [Nat.count_add, none, picked.counted, Nat.add_zero]
  enough := picked.enough

theorem take (picked : Picked b nbits bit count new) (mem : bit ∈ members b)
    (more : count < nbits) : Picked b nbits (bit + 1) (count + 1) (bitSet bit new) := by
  have inside := lt_of_mem_members mem
  have writes : Writes true (· = bit) new (bitSet bit new) :=
    bitSet_writes (lt_of_lt_of_le (picked.bits ▸ inside) new.bits_le_room)
  constructor
  · exact picked.bits
  · intro i
    by_cases same : i = bit
    · subst same
      rw [writes.inside i rfl]
      exact ⟨fun _ => ⟨by omega, mem⟩, fun _ => rfl⟩
    · rw [writes.outside i same, picked.taken]
      exact and_congr_left fun _ => by omega
  · rw [Nat.count_succ, if_pos mem, picked.counted]
  · exact more

theorem takeWord (picked : Picked b nbits bit count new) (builtin : Bool) (aligned : 64 ∣ bit)
    (whole : bit + 64 ≤ b.bits) (fits : count + hweight builtin (b.word bit) ≤ nbits) :
    Picked b nbits (bit + 64) (count + hweight builtin (b.word bit))
      (new.modify bit fun _ => b.word bit) := by
  have room := new.bits_le_room
  have bits := picked.bits
  constructor
  · exact picked.bits
  · intro i
    rw [bitTest, word_modify new _ _ (by omega)]
    split_ifs with same
    · obtain ⟨k, small, rfl⟩ : ∃ k < 64, i = bit + k := ⟨i - bit, by omega, by omega⟩
      rw [show (bit + k) % 64 = k by omega, word_members aligned whole k small]
      exact (and_iff_right (by omega)).symm
    · have before : i < bit ↔ i < bit + 64 := by omega
      change bitTest new i = true ↔ _
      rw [picked.taken, before]
  · rw [count_word builtin (word_members aligned whole), picked.counted]
  · exact fits

theorem bits_loop (picked : Picked b nbits bit count new) :
    ∃ last, Picked b nbits last (pickBits b nbits bit count new).2.1
        (pickBits b nbits bit count new).2.2 ∧
      ((pickBits b nbits bit count new).2.1 = nbits ∨ b.bits ≤ last) := by
  fun_induction pickBits b nbits bit count new with
  | case1 bit count new more isSet ih =>
    exact ih (picked.take (mem_members.mpr ⟨more.1, isSet⟩) more.2)
  | case2 bit count new more isClear ih =>
    apply ih
    apply picked.skip (Nat.le_succ bit)
    intro i le less mem
    have same : i = bit := by omega
    exact isClear (same ▸ (mem_members.mp mem).2)
  | case3 bit count new stops =>
    have enough := picked.enough
    exact ⟨bit, picked, by simp only; omega⟩

theorem loop (picked : Picked b nbits bit count new) (builtin : Bool) (aligned : 64 ∣ bit) :
    ∃ last, Picked b nbits last (pickLoop builtin b nbits bit count new).1
        (pickLoop builtin b nbits bit count new).2 ∧
      ((pickLoop builtin b nbits bit count new).1 = nbits ∨ b.bits ≤ last) := by
  fun_induction pickLoop builtin b nbits bit count new with
  | case1 bit count new more zero ih =>
    apply ih (picked.skip (Nat.le_add_right bit 64) _) (by omega)
    intro i le less mem
    have isSet := (mem_members.mp mem).2
    rw [(word_eq_zero_iff b bit).mp zero i (by omega)] at isSet
    cases isSet
  | case2 bit count new more nonzero newBits whole ih =>
    exact ih (picked.takeWord builtin aligned (by omega) whole.1) (by omega)
  | case3 bit count new more nonzero newBits partly => exact picked.bits_loop
  | case4 bit count new stops =>
    have enough := picked.enough
    exact ⟨bit, picked, by omega⟩

end Picked

/-- The smallest elements of a set, so many of them. -/
structure Smallest (s : Finset Nat) (k : Nat) (smallest : Finset Nat) : Prop where
  subset : smallest ⊆ s
  card : smallest.card = k
  least : ∀ i ∈ smallest, ∀ j ∈ s, j ∉ smallest → i < j

/-- `bit_pick_cnt` fails only for want of set bits, and else takes the first ones. -/
theorem bitPickCnt_smallest (builtin : Bool) (b : Bitstr) {nbits : Nat} (fits : nbits ≤ b.bits) :
    (bitPickCnt builtin b nbits = none ↔ (members b).card < nbits) ∧
      ∀ new, bitPickCnt builtin b nbits = some new →
        new.bits = b.bits ∧ Smallest (members b) nbits (members new) := by
  obtain ⟨last, picked, ends⟩ := (Picked.start b nbits).loop builtin (dvd_zero 64)
  rw [bitPickCnt, if_neg (not_lt.mpr fits)]
  generalize pickLoop builtin b nbits 0 0 (bitAlloc b.bits) = reached at picked ends
  obtain ⟨count, taken⟩ := reached
  simp only at picked ends ⊢
  have elements : members taken = (Finset.range last).filter (· ∈ members b) := by
    ext i
    rw [mem_members, picked.taken, picked.bits, mem_filter, mem_range]
    exact and_iff_right_of_imp fun both => lt_of_mem_members both.2
  have card : (members taken).card = count := by
    rw [elements, picked.counted, Nat.count_eq_card_filter_range]
  have subset : members taken ⊆ members b := by
    rw [elements]
    exact fun i mem => (mem_filter.mp mem).2
  have atMost : count ≤ (members b).card := card ▸ Finset.card_le_card subset
  have enough := picked.enough
  split_ifs with few
  · have all : count = (members b).card := by
      rw [picked.counted]
      exact count_mem fun i mem => lt_of_lt_of_le (lt_of_mem_members mem) (by omega)
    exact ⟨⟨fun _ => by omega, fun _ => rfl⟩, fun new isNew => by cases isNew⟩
  · have all : ¬(members b).card < nbits := by omega
    refine ⟨⟨fun isNew => isNew.elim, fun less => absurd less all⟩, ?_⟩
    rintro new ⟨rfl⟩
    refine ⟨picked.bits, subset, by omega, ?_⟩
    intro i mem j isMember left
    rw [elements, mem_filter, mem_range] at mem left
    have behind : last ≤ j := not_lt.mp fun less => left ⟨less, isMember⟩
    exact lt_of_lt_of_le mem.1 behind

/-! ## Operations on whole words -/

theorem mem_members_wordwise {b1 b2 : Bitstr} (same : b1.bits = b2.bits)
    {op : BitVec 64 → BitVec 64 → BitVec 64} (bool : Bool → Bool → Bool)
    (bitwise : ∀ x y k, k < 64 → (op x y).getLsbD k = bool (x.getLsbD k) (y.getLsbD k)) (i : Nat) :
    i ∈ members (wordwise op b1 b2 same) ↔
      i < b1.bits ∧ bool (bitTest b1 i) (bitTest b2 i) = true := by
  rw [mem_members]
  refine and_congr_right fun less => ?_
  rw [bitTest_wordwise same bitwise (less.trans_le b1.bits_le_room)]

/-- The counts after an operation on whole words, whatever stands behind the size. -/
theorem count_operations (builtin : Bool) {b1 b2 : Bitstr} (same : b1.bits = b2.bits) :
    bitSetCount builtin (bitAnd b1 b2 same) = bitOverlap builtin b1 b2 ∧
      bitSetCount builtin (bitAndNot b1 b2 same) + bitOverlap builtin b1 b2 =
        bitSetCount builtin b1 ∧
      bitSetCount builtin (bitOr b1 b2 same) + bitOverlap builtin b1 b2 =
        bitSetCount builtin b1 + bitSetCount builtin b2 ∧
      bitSetCount builtin (bitNot b1) + bitSetCount builtin b1 = b1.bits := by
  have both : members (bitAnd b1 b2 same) = members b1 ∩ members b2 := by
    ext i
    rw [bitAnd, mem_members_wordwise same (· && ·) (by simp)]
    grind [mem_members]
  have first : members (bitAndNot b1 b2 same) = members b1 \ members b2 := by
    ext i
    rw [bitAndNot, mem_members_wordwise same (· && !·) (by simp +contextual)]
    grind [mem_members]
  have either : members (bitOr b1 b2 same) = members b1 ∪ members b2 := by
    ext i
    rw [bitOr, mem_members_wordwise same (· || ·) (by simp)]
    grind [mem_members]
  have others : members (bitNot b1) = Finset.range b1.bits \ members b1 := by
    ext i
    have size : (bitNot b1).bits = b1.bits := rfl
    rw [mem_members, size, Finset.mem_sdiff, Finset.mem_range, mem_members]
    refine and_congr_right fun less => ?_
    simp [bitTest_bitNot (less.trans_le b1.bits_le_room), less]
  simp only [bitSetCount_eq, bitOverlap_eq builtin same, both, first, either, others]
  refine ⟨trivial, Finset.card_sdiff_add_card_inter _ _, Finset.card_union_add_card_inter _ _, ?_⟩
  rw [Finset.card_sdiff_add_card_eq_card fun i mem => Finset.mem_range.mpr (lt_of_mem_members mem),
    Finset.card_range]

theorem count_operations_three : bitSetCount true (bitNot (bitSet 0 (bitAlloc 3))) +
    bitSetCount true (bitSet 0 (bitAlloc 3)) = 3 :=
  (@count_operations true (bitSet 0 (bitAlloc 3)) (bitAlloc 3) rfl).2.2.2

end SlurmSim.Common.Bitmap
