import Mathlib.Order.Interval.Finset.Nat
import SlurmSim.Common.Bitmap

/-!
# Bitmaps as sets

Whole histories of bitmaps against the sets that they denote.  Complements and
shrinking leave bits behind the size, and the queries that read whole words then see
bits of no position.
-/

namespace SlurmSim.Common.Bitmap

open Function (update update_of_ne update_self)

/-! ## Histories -/

/-- A call on the bitmaps that are held under numbers. -/
inductive Op where
  | alloc (h nbits : Nat)
  | realloc (h nbits : Nat)
  | set (h bit : Nat)
  | clear (h bit : Nat)
  | nset (h start stop : Nat)
  | nclear (h start stop : Nat)
  | and (h1 h2 : Nat)
  | andNot (h1 h2 : Nat)
  | or (h1 h2 : Nat)
  | not (h : Nat)
  | copy (new h : Nat)
  | copybits (dest src : Nat)
  | rotate (h : Nat) (n : Int)

/-- The operations on one kind of bitmap. -/
structure Machine (α : Type) where
  size : α → Nat
  alloc : Nat → α
  realloc : α → Nat → α
  set : Nat → α → α
  clear : Nat → α → α
  nset : Nat → Nat → α → α
  nclear : Nat → Nat → α → α
  and : (a b : α) → size a = size b → α
  andNot : (a b : α) → size a = size b → α
  or : (a b : α) → size a = size b → α
  not : α → α
  copy : α → α
  copybits : (dest src : α) → size src = size dest → α
  rotate : α → Int → α

abbrev Store (α : Type) := Nat → Option α

section Steps

variable {α : Type} (machine : Machine α)

/-- Replace the bitmap under a number, if the assertion on it holds. -/
def change (h : Nat) (valid : Nat → Bool) (change : α → α) (store : Store α) :
    Option (Store α) :=
  (store h).bind fun a =>
    if valid (machine.size a) then some (update store h (some (change a))) else none

/-- Combine two bitmaps, if they have one size. -/
def combine (h1 h2 : Nat) (combine : (a b : α) → machine.size a = machine.size b → α)
    (store : Store α) : Option (Store α) :=
  (store h1).bind fun a => (store h2).bind fun b =>
    if same : machine.size a = machine.size b then
      some (update store h1 (some (combine a b same)))
    else none

/-- `_assert_valid_size`, for sizes that are not zero. -/
def validSize (nbits : Nat) : Bool :=
  1 ≤ nbits && nbits ≤ maxBits

/-- One call; `none` if an assertion fails. -/
def step (store : Store α) : Op → Option (Store α)
  | .alloc h nbits =>
    if validSize nbits then some (update store h (some (machine.alloc nbits))) else none
  | .realloc h nbits =>
    change machine h (fun _ => validSize nbits) (machine.realloc · nbits) store
  | .set h bit => change machine h (bit < ·) (machine.set bit) store
  | .clear h bit => change machine h (bit < ·) (machine.clear bit) store
  | .nset h start stop =>
    change machine h (fun size => start < size && stop < size) (machine.nset start stop) store
  | .nclear h start stop =>
    change machine h (fun size => start < size && stop < size) (machine.nclear start stop) store
  | .and h1 h2 => combine machine h1 h2 machine.and store
  | .andNot h1 h2 => combine machine h1 h2 machine.andNot store
  | .or h1 h2 => combine machine h1 h2 machine.or store
  | .not h => change machine h (fun _ => true) machine.not store
  | .copy new h =>
    (store h).bind fun a => some (update store new (some (machine.copy a)))
  | .copybits dest src =>
    combine machine dest src (fun a b same => machine.copybits a b same.symm) store
  | .rotate h n => change machine h (fun _ => true) (machine.rotate · n) store

/-- A history. -/
def run : List Op → Store α → Option (Store α)
  | [], store => some store
  | op :: ops, store => (step machine store op).bind (run ops)

end Steps

/-- The operations of `bitstring.c`. -/
def bitstrings : Machine Bitstr where
  size := Bitstr.bits
  alloc := bitAlloc
  realloc := bitRealloc
  set := bitSet
  clear := bitClear
  nset := bitNset
  nclear := bitNclear
  and := bitAnd
  andNot := bitAndNot
  or := bitOr
  not := bitNot
  copy := bitCopy
  copybits := bitCopybits
  rotate := bitRotate

/-- A set of positions below a size. -/
structure BitSet where
  size : Nat
  elems : Finset Nat
  deriving DecidableEq

/-- The sets that a history denotes. -/
def bitSets : Machine BitSet where
  size := BitSet.size
  alloc nbits := ⟨nbits, ∅⟩
  realloc s nbits := ⟨nbits, s.elems.filter (· < nbits)⟩
  set bit s := { s with elems := insert bit s.elems }
  clear bit s := { s with elems := s.elems.erase bit }
  nset start stop s := { s with elems := s.elems ∪ Finset.Icc start stop }
  nclear start stop s := { s with elems := s.elems \ Finset.Icc start stop }
  and s t _ := { s with elems := s.elems ∩ t.elems }
  andNot s t _ := { s with elems := s.elems \ t.elems }
  or s t _ := { s with elems := s.elems ∪ t.elems }
  not s := { s with elems := Finset.range s.size \ s.elems }
  copy s := s
  copybits s t _ := { s with elems := t.elems }
  rotate s n := { s with elems := s.elems.image fun i => (i + (n % s.size).toNat) % s.size }

/-- What the queries have to answer. -/
structure Answers (builtin : Bool) (store : Store Bitstr) (sets : Store BitSet) : Prop where
  size : ∀ h, (store h).map Bitstr.bits = (sets h).map BitSet.size
  test : ∀ h b s, store h = some b → sets h = some s →
    ∀ bit < b.bits, bitTest b bit = true ↔ bit ∈ s.elems
  ffs : ∀ h b s, store h = some b → sets h = some s →
    s.elems = ∅ ∧ bitFfs builtin b = -1 ∨
      ∃ first : Nat, bitFfs builtin b = first ∧ first ∈ s.elems ∧ ∀ bit ∈ s.elems, first ≤ bit
  equal : ∀ h1 h2 b1 b2 s1 s2, store h1 = some b1 → store h2 = some b2 →
    sets h1 = some s1 → sets h2 = some s2 → (bitEqual b1 b2 = true ↔ s1 = s2)
  superSet : ∀ h1 h2 b1 b2 s1 s2, store h1 = some b1 → store h2 = some b2 →
    sets h1 = some s1 → sets h2 = some s2 → b1.bits = b2.bits →
    (bitSuperSet b1 b2 = true ↔ s1.elems ⊆ s2.elems)

/-- A bitmap whose set bits are those of a set. -/
structure Denotes (b : Bitstr) (s : BitSet) : Prop where
  size : b.bits = s.size
  positive : 0 < b.bits
  member : ∀ i, bitTest b i = true ↔ i ∈ s.elems
  bounded : ∀ i ∈ s.elems, i < s.size

/-! ## Single operations -/

section Operations

variable {b after b1 b2 : Bitstr} {s s1 s2 : BitSet} {region : Nat → Prop}

theorem Denotes.test_lt (denotes : Denotes b s) {i : Nat} (isSet : bitTest b i = true) :
    i < b.bits := by
  rw [denotes.size]
  exact denotes.bounded i ((denotes.member i).mp isSet)

theorem Denotes.writesTrue (denotes : Denotes b s) (writes : Writes true region b after)
    {elems : Finset Nat} (same : ∀ i, i ∈ elems ↔ i ∈ s.elems ∨ region i)
    (inside : ∀ i, region i → i < b.bits) : Denotes after { s with elems := elems } where
  size := writes.bits.trans denotes.size
  positive := writes.bits ▸ denotes.positive
  member := by
    intro i
    rw [same]
    by_cases here : region i
    · exact iff_of_true (writes.inside i here) (.inr here)
    · rw [writes.outside i here, denotes.member]
      exact (or_iff_left here).symm
  bounded := by
    intro i mem
    rcases (same i).mp mem with old | here
    · exact denotes.bounded i old
    · exact denotes.size ▸ inside i here

theorem Denotes.writesFalse (denotes : Denotes b s) (writes : Writes false region b after)
    {elems : Finset Nat} (same : ∀ i, i ∈ elems ↔ i ∈ s.elems ∧ ¬region i) :
    Denotes after { s with elems := elems } where
  size := writes.bits.trans denotes.size
  positive := writes.bits ▸ denotes.positive
  member := by
    intro i
    rw [same]
    by_cases here : region i
    · refine iff_of_false ?_ fun both => both.2 here
      rw [writes.inside i here]
      exact Bool.false_ne_true
    · rw [writes.outside i here, denotes.member]
      exact (and_iff_left here).symm
  bounded := fun i mem => denotes.bounded i ((same i).mp mem).1

theorem denotes_bitAlloc {nbits : Nat} (valid : validSize nbits = true) :
    Denotes (bitAlloc nbits) (bitSets.alloc nbits) where
  size := rfl
  positive := by
    simp only [validSize, Bool.and_eq_true, decide_eq_true_eq] at valid
    exact valid.1
  member := fun i => by simp [bitTest_bitAlloc, bitSets]
  bounded := fun i mem => absurd mem (Finset.notMem_empty i)

/-- No bit behind the new size is set in the last word that is kept. -/
def CleanTail (b : Bitstr) (nbits : Nat) : Prop :=
  ∀ i, nbits ≤ i → i < b.bits → i < 64 * wordsFor nbits → bitTest b i = false

theorem Denotes.bitRealloc {nbits : Nat} (denotes : Denotes b s) (valid : validSize nbits = true)
    (clean : CleanTail b nbits) : Denotes (bitRealloc b nbits) (bitSets.realloc s nbits) where
  size := rfl
  positive := by
    simp only [validSize, Bool.and_eq_true, decide_eq_true_eq] at valid
    exact valid.1
  member := by
    intro i
    have words : nbits ≤ 64 * wordsFor nbits := by
      unfold wordsFor
      omega
    simp only [bitTest_bitRealloc, bitSets, Finset.mem_filter, Bool.and_eq_true,
      decide_eq_true_eq]
    constructor
    · rintro ⟨inWords, isSet⟩
      refine ⟨(denotes.member i).mp isSet, ?_⟩
      by_contra behind
      rw [clean i (not_lt.mp behind) (denotes.test_lt isSet) inWords] at isSet
      cases isSet
    · rintro ⟨mem, less⟩
      exact ⟨less.trans_le words, (denotes.member i).mpr mem⟩
  bounded := fun i mem => (Finset.mem_filter.mp mem).2

theorem Denotes.bitSet {bit : Nat} (denotes : Denotes b s) (valid : bit < b.bits) :
    Denotes (bitSet bit b) (bitSets.set bit s) :=
  denotes.writesTrue (bitSet_writes (valid.trans_le b.bits_le_room))
    (fun i => by rw [Finset.mem_insert, or_comm]) fun _ here => here ▸ valid

theorem Denotes.bitClear {bit : Nat} (denotes : Denotes b s) (valid : bit < b.bits) :
    Denotes (bitClear bit b) (bitSets.clear bit s) :=
  denotes.writesFalse (bitClear_writes (valid.trans_le b.bits_le_room))
    fun i => by rw [Finset.mem_erase, and_comm]

theorem Denotes.bitNset {start stop : Nat} (denotes : Denotes b s) (valid : stop < b.bits) :
    Denotes (bitNset start stop b) (bitSets.nset start stop s) :=
  denotes.writesTrue (bitNset_writes valid)
    (fun i => by rw [Finset.mem_union, Finset.mem_Icc]) fun _ here => here.2.trans_lt valid

theorem Denotes.bitNclear {start stop : Nat} (denotes : Denotes b s) (valid : stop < b.bits) :
    Denotes (bitNclear start stop b) (bitSets.nclear start stop s) :=
  denotes.writesFalse (bitNclear_writes valid) fun i => by rw [Finset.mem_sdiff, Finset.mem_Icc]

theorem Denotes.wordwise (denotes1 : Denotes b1 s1) (denotes2 : Denotes b2 s2)
    (same : b1.bits = b2.bits) {op : BitVec 64 → BitVec 64 → BitVec 64}
    (bool : Bool → Bool → Bool)
    (bitwise : ∀ x y k, k < 64 → (op x y).getLsbD k = bool (x.getLsbD k) (y.getLsbD k))
    (none : bool false false = false) {elems : Finset Nat}
    (combined : ∀ i, i ∈ elems ↔ bool (decide (i ∈ s1.elems)) (decide (i ∈ s2.elems)) = true) :
    Denotes (wordwise op b1 b2 same) { s1 with elems := elems } := by
  have value : ∀ {b s}, Denotes b s → ∀ i, bitTest b i = decide (i ∈ s.elems) :=
    fun denotes i => by rw [Bool.eq_iff_iff, decide_eq_true_iff, denotes.member]
  refine ⟨denotes1.size, denotes1.positive, fun i => ?_, fun i mem => ?_⟩
  · rw [combined]
    by_cases inside : i < b1.room
    · rw [bitTest_wordwise same bitwise inside, value denotes1, value denotes2]
    · have room1 : b1.room ≤ i := not_lt.mp inside
      have room2 : b2.room ≤ i := by
        rw [Bitstr.room_eq, ← same, ← Bitstr.room_eq]
        exact room1
      have room : (Bitmap.wordwise op b1 b2 same).room ≤ i := by
        rw [Bitstr.room_eq]
        exact b1.room_eq ▸ room1
      rw [bitTest_of_room_le room, ← value denotes1, ← value denotes2, bitTest_of_room_le room1,
        bitTest_of_room_le room2, none]
  · by_contra outside
    have size2 : s2.size = s1.size := by
      rw [← denotes1.size, ← denotes2.size, same]
    have not1 : i ∉ s1.elems := fun mem => outside (denotes1.bounded i mem)
    have not2 : i ∉ s2.elems := fun mem => outside (size2 ▸ denotes2.bounded i mem)
    rw [combined, decide_eq_false not1, decide_eq_false not2, none] at mem
    cases mem

theorem Denotes.bitAnd (denotes1 : Denotes b1 s1) (denotes2 : Denotes b2 s2)
    (same : b1.bits = b2.bits) (sizes : s1.size = s2.size) :
    Denotes (bitAnd b1 b2 same) (bitSets.and s1 s2 sizes) :=
  denotes1.wordwise denotes2 same (· && ·) (fun _ _ _ _ => BitVec.getLsbD_and) rfl fun i => by simp

theorem Denotes.bitAndNot (denotes1 : Denotes b1 s1) (denotes2 : Denotes b2 s2)
    (same : b1.bits = b2.bits) (sizes : s1.size = s2.size) :
    Denotes (bitAndNot b1 b2 same) (bitSets.andNot s1 s2 sizes) :=
  denotes1.wordwise denotes2 same (fun x y => x && !y)
    (fun _ _ _ small => by simp [small]) rfl fun i => by simp

theorem Denotes.bitOr (denotes1 : Denotes b1 s1) (denotes2 : Denotes b2 s2)
    (same : b1.bits = b2.bits) (sizes : s1.size = s2.size) :
    Denotes (bitOr b1 b2 same) (bitSets.or s1 s2 sizes) :=
  denotes1.wordwise denotes2 same (· || ·) (fun _ _ _ _ => BitVec.getLsbD_or) rfl fun i => by simp

theorem Denotes.bitNot (denotes : Denotes b s) (whole : 64 ∣ b.bits) :
    Denotes (bitNot b) (bitSets.not s) where
  size := denotes.size
  positive := denotes.positive
  member := by
    intro i
    have room : b.room = b.bits := by
      rw [Bitstr.room_eq]
      omega
    have roomNot : (Bitmap.bitNot b).room = b.room := by
      rw [Bitstr.room_eq, Bitstr.room_eq]
      rfl
    simp only [bitSets, Finset.mem_sdiff, Finset.mem_range]
    by_cases inside : i < b.bits
    · rw [bitTest_bitNot (room ▸ inside), Bool.not_eq_true', ← Bool.not_eq_true, denotes.member]
      exact (and_iff_right (denotes.size ▸ inside)).symm
    · refine iff_of_false ?_ fun both => inside (denotes.size ▸ both.1)
      rw [bitTest_of_room_le (by rw [roomNot, room]; exact not_lt.mp inside)]
      exact Bool.false_ne_true
  bounded := fun i mem => Finset.mem_range.mp (Finset.mem_sdiff.mp mem).1

theorem Denotes.bitCopy (denotes : Denotes b s) : Denotes (bitCopy b) (bitSets.copy s) :=
  ⟨denotes.size, denotes.positive, denotes.member, denotes.bounded⟩

theorem Denotes.bitCopybits (denotes1 : Denotes b1 s1) (denotes2 : Denotes b2 s2)
    (same : b2.bits = b1.bits) (sizes : s2.size = s1.size) :
    Denotes (bitCopybits b1 b2 same) (bitSets.copybits s1 s2 sizes) :=
  ⟨denotes1.size, denotes1.positive, denotes2.member, fun i mem => sizes ▸ denotes2.bounded i mem⟩

theorem Denotes.bitRotate (denotes : Denotes b s) (n : Int) :
    Denotes (bitRotate b n) (bitSets.rotate s n) := by
  have positive := denotes.positive
  have bounded : ∀ i ∈ (bitSets.rotate s n).elems, i < s.size := by
    intro i mem
    obtain ⟨bit, -, rfl⟩ := Finset.mem_image.mp mem
    exact Nat.mod_lt _ (denotes.size ▸ positive)
  have moved : ∀ i, i ∈ (bitSets.rotate s n).elems ↔
      ∃ bit < b.bits, bitTest b bit = true ∧ i = (bit + (n % b.bits).toNat) % b.bits := by
    intro i
    simp only [bitSets, Finset.mem_image, denotes.size, denotes.member]
    refine exists_congr fun bit => ⟨fun ⟨mem, moved⟩ => ?_, fun ⟨_, mem, moved⟩ => ?_⟩
    · exact ⟨denotes.bounded bit mem, mem, moved.symm⟩
    · exact ⟨mem, moved.symm⟩
  rw [Bitmap.bitRotate]
  split_ifs with zero
  · refine ⟨denotes.size, positive, fun i => ?_, bounded⟩
    rw [moved, zero, Int.zero_emod, Int.toNat_zero]
    constructor
    · intro isSet
      have less := denotes.test_lt isSet
      exact ⟨i, less, isSet, (Nat.mod_eq_of_lt less).symm⟩
    · rintro ⟨bit, less, isSet, rfl⟩
      rw [Nat.add_zero, Nat.mod_eq_of_lt less]
      exact isSet
  · refine ⟨denotes.size, positive, fun i => ?_, bounded⟩
    rw [moved]
    exact bitTest_bitRotateCopy n positive i

end Operations

/-! ## Queries -/

section Queries

variable {b b1 b2 : Bitstr} {s s1 s2 : BitSet}

theorem word_eq_zero_iff (b : Bitstr) (bit : Nat) :
    b.word bit = 0 ↔ ∀ i, i / 64 = bit / 64 → bitTest b i = false := by
  constructor
  · intro zero i same
    have word : b.word i = b.word bit := by
      rw [Bitstr.word, same, Bitstr.word]
    rw [bitTest, word, zero]
    exact BitVec.getLsbD_zero
  · intro clear
    refine BitVec.eq_of_getLsbD_eq fun k small => ?_
    have same : (64 * (bit / 64) + k) / 64 = bit / 64 := by omega
    have position := clear (64 * (bit / 64) + k) same
    rw [bitTest, Bitstr.word, same, show (64 * (bit / 64) + k) % 64 = k by omega] at position
    rw [Bitstr.word, position]
    exact BitVec.getLsbD_zero.symm

theorem ctzll_spec {word : BitVec 64} (nonzero : word ≠ 0) :
    ctzll word < 64 ∧ word.getLsbD (ctzll word) = true ∧
      ∀ k < ctzll word, word.getLsbD k = false := by
  have found : ((List.range 64).find? fun bit => word.getLsbD bit).isSome := by
    rw [List.find?_isSome]
    by_contra none
    refine nonzero (BitVec.eq_of_getLsbD_eq fun k small => ?_)
    change _ = (0#64).getLsbD k
    rw [BitVec.getLsbD_zero, Bool.eq_false_iff]
    exact fun isSet => none ⟨k, List.mem_range.mpr small, isSet⟩
  obtain ⟨first, isFirst⟩ := Option.isSome_iff_exists.mp found
  have spec := List.find?_range_eq_some.mp isFirst
  rw [ctzll, isFirst, Option.getD_some]
  refine ⟨List.mem_range.mp spec.2.1, spec.1, fun k less => ?_⟩
  simpa using spec.2.2 k less

/-- The first set bit from a position on, or `-1`. -/
def IsFirst (b : Bitstr) (bit : Nat) (value : Int) : Prop :=
  (value = -1 ∧ ∀ i, bit ≤ i → bitTest b i = false) ∨
    ∃ first : Nat, value = first ∧ bitTest b first = true ∧
      ∀ i, bit ≤ i → i < first → bitTest b i = false

theorem IsFirst.skip {bit next : Nat} {value : Int} (isFirst : IsFirst b next value)
    (clear : ∀ i, bit ≤ i → i < next → bitTest b i = false) : IsFirst b bit value := by
  rcases isFirst with ⟨none, behind⟩ | ⟨first, found, isSet, before⟩
  · refine .inl ⟨none, fun i le => ?_⟩
    by_cases less : i < next
    · exact clear i le less
    · exact behind i (not_lt.mp less)
  · refine .inr ⟨first, found, isSet, fun i le less => ?_⟩
    by_cases here : i < next
    · exact clear i le here
    · exact before i (not_lt.mp here) less

theorem scanWord_spec (b : Bitstr) (word bit : Nat) :
    match scanWord b word bit with
    | some value => bit ≤ value ∧ bitTest b value = true ∧
        ∀ i, bit ≤ i → i < value → bitTest b i = false
    | none => ∀ i, bit ≤ i → i < b.bits → i / 64 = word → bit / 64 = word → bitTest b i = false := by
  fun_induction scanWord b word bit with
  | case1 bit more isSet => exact ⟨le_rfl, isSet, fun i le less => absurd less (not_lt.mpr le)⟩
  | case2 bit more isClear ih =>
    have here : bitTest b bit = false := Bool.eq_false_iff.mpr isClear
    revert ih
    cases scanWord b word (bit + 1) with
    | some value =>
      rintro ⟨le, isSet, before⟩
      refine ⟨by omega, isSet, fun i least less => ?_⟩
      rcases eq_or_lt_of_le least with same | later
      · exact same ▸ here
      · exact before i later less
    | none =>
      intro before i le less same _
      rcases eq_or_lt_of_le le with first | later
      · exact first ▸ here
      · exact before i later less same (by omega)
  | case3 bit stops =>
    intro i le less same start
    exact absurd ⟨by omega, start⟩ stops

theorem ffsLoop_isFirst (builtin : Bool) (b : Bitstr)
    (clean : ∀ i, b.bits ≤ i → bitTest b i = false) {bit : Nat} (aligned : 64 ∣ bit) :
    IsFirst b bit (ffsLoop builtin b bit) := by
  fun_induction ffsLoop builtin b bit with
  | case1 bit more zero ih =>
    refine (ih (by omega)).skip fun i le less => ?_
    exact (word_eq_zero_iff b bit).mp zero i (by omega)
  | case2 bit more nonzero _ =>
    obtain ⟨small, isSet, before⟩ := ctzll_spec nonzero
    refine .inr ⟨bit + ctzll (b.word bit), by rfl, ?_, fun i le less => ?_⟩
    · rw [bitTest, Bitstr.word, show (bit + ctzll (b.word bit)) / 64 = bit / 64 by omega,
        show (bit + ctzll (b.word bit)) % 64 = ctzll (b.word bit) by omega]
      exact isSet
    · have position := before (i % 64) (by omega)
      rw [bitTest, Bitstr.word, show i / 64 = bit / 64 by omega]
      exact position
  | case3 bit more nonzero _ value found =>
    have spec := scanWord_spec b (bit / 64) bit
    rw [found] at spec
    exact .inr ⟨value, rfl, spec.2⟩
  | case4 bit more nonzero _ none ih =>
    have spec := scanWord_spec b (bit / 64) bit
    rw [none] at spec
    refine (ih (by omega)).skip fun i le less => ?_
    by_cases mem : i < b.bits
    · exact spec i le mem (by omega) rfl
    · exact clean i (not_lt.mp mem)
  | case5 bit stops =>
    exact .inl ⟨rfl, fun i le => clean i (by omega)⟩

theorem Denotes.clean (denotes : Denotes b s) {i : Nat} (behind : b.bits ≤ i) :
    bitTest b i = false :=
  Bool.eq_false_iff.mpr fun isSet => absurd (denotes.test_lt isSet) (not_lt.mpr behind)

theorem Denotes.ffs (builtin : Bool) (denotes : Denotes b s) :
    s.elems = ∅ ∧ bitFfs builtin b = -1 ∨
      ∃ first : Nat, bitFfs builtin b = first ∧ first ∈ s.elems ∧ ∀ bit ∈ s.elems, first ≤ bit := by
  rcases ffsLoop_isFirst builtin b (fun i => denotes.clean) (dvd_zero 64) with
    ⟨none, clear⟩ | ⟨first, found, isSet, before⟩
  · refine .inl ⟨Finset.eq_empty_of_forall_notMem fun i mem => ?_, none⟩
    rw [← denotes.member, clear i (Nat.zero_le i)] at mem
    cases mem
  · refine .inr ⟨first, found, (denotes.member first).mp isSet, fun bit mem => ?_⟩
    by_contra less
    rw [← denotes.member, before bit (Nat.zero_le bit) (not_le.mp less)] at mem
    cases mem

theorem all_zip_iff {words1 words2 : List (BitVec 64)} (same : words1.length = words2.length)
    (test : BitVec 64 × BitVec 64 → Bool) :
    (words1.zip words2).all test = true ↔
      ∀ k < words1.length, test (words1.getD k 0, words2.getD k 0) = true := by
  induction words1 generalizing words2 with
  | nil => simp
  | cons word1 words1 ih =>
    cases words2 with
    | nil => cases same
    | cons word2 words2 =>
      rw [List.zip_cons_cons, List.all_cons, Bool.and_eq_true, ih (Nat.succ.inj same)]
      refine ⟨fun ⟨first, others⟩ k less => ?_, fun all => ⟨?_, fun k less => ?_⟩⟩
      · cases k with
        | zero => exact first
        | succ k => exact others k (Nat.lt_of_succ_lt_succ less)
      · exact all 0 (Nat.succ_pos _)
      · exact all (k + 1) (Nat.succ_lt_succ less)

theorem getD_words (b : Bitstr) (k : Nat) : b.words.getD k 0 = b.word (64 * k) := by
  rw [Bitstr.word, Nat.mul_div_cancel_left k (by omega)]

theorem bitTest_word (b : Bitstr) (k : Nat) {j : Nat} (small : j < 64) :
    bitTest b (64 * k + j) = (b.word (64 * k)).getLsbD j := by
  rw [bitTest, Bitstr.word, Bitstr.word, show (64 * k + j) / 64 = k by omega,
    show (64 * k + j) % 64 = j by omega, Nat.mul_div_cancel_left k (by omega)]

theorem bitEqual_iff :
    bitEqual b1 b2 = true ↔ b1.bits = b2.bits ∧ ∀ i, bitTest b1 i = bitTest b2 i := by
  rw [bitEqual, Bool.and_eq_true, beq_iff_eq]
  refine and_congr_right fun same => ?_
  have lengths : b1.words.length = b2.words.length := by
    rw [b1.length_words, b2.length_words, same]
  rw [all_zip_iff lengths]
  simp only [beq_iff_eq, getD_words]
  constructor
  · intro words i
    by_cases mem : i < b1.room
    · have word := words (i / 64) (by unfold Bitstr.room at mem; omega)
      rw [← Nat.div_add_mod i 64, bitTest_word _ _ (Nat.mod_lt i (by omega)),
        bitTest_word _ _ (Nat.mod_lt i (by omega)), word]
    · have room : b2.room = b1.room := by
        rw [Bitstr.room, Bitstr.room, lengths]
      rw [bitTest_of_room_le (not_lt.mp mem), bitTest_of_room_le (room ▸ not_lt.mp mem)]
  · intro bits k _
    refine BitVec.eq_of_getLsbD_eq fun j small => ?_
    rw [← bitTest_word _ _ small, ← bitTest_word _ _ small, bits]

theorem bitSuperSet_iff (same : b1.bits = b2.bits) :
    bitSuperSet b1 b2 = true ↔ ∀ i, bitTest b1 i = true → bitTest b2 i = true := by
  have lengths : b1.words.length = b2.words.length := by
    rw [b1.length_words, b2.length_words, same]
  rw [bitSuperSet, all_zip_iff lengths]
  simp only [beq_iff_eq, getD_words]
  constructor
  · intro words i isSet
    have mem : i < b1.room := by
      by_contra outside
      rw [bitTest_of_room_le (not_lt.mp outside)] at isSet
      cases isSet
    have word := words (i / 64) (by unfold Bitstr.room at mem; omega)
    rw [← Nat.div_add_mod i 64, bitTest_word _ _ (Nat.mod_lt i (by omega)), word,
      BitVec.getLsbD_and, Bool.and_eq_true] at isSet
    rw [← Nat.div_add_mod i 64, bitTest_word _ _ (Nat.mod_lt i (by omega))]
    exact isSet.2
  · intro bits k _
    refine BitVec.eq_of_getLsbD_eq fun j small => ?_
    have bit := bits (64 * k + j)
    rw [bitTest_word _ _ small, bitTest_word _ _ small] at bit
    rw [BitVec.getLsbD_and]
    cases first : (b1.word (64 * k)).getLsbD j with
    | false => rfl
    | true => rw [bit first, Bool.and_self]

theorem Denotes.equal (denotes1 : Denotes b1 s1) (denotes2 : Denotes b2 s2) :
    bitEqual b1 b2 = true ↔ s1 = s2 := by
  rw [bitEqual_iff, denotes1.size, denotes2.size]
  constructor
  · rintro ⟨size, bits⟩
    have elems : s1.elems = s2.elems :=
      Finset.ext fun i => by rw [← denotes1.member, ← denotes2.member, bits]
    cases s1
    cases size
    cases elems
    rfl
  · rintro rfl
    exact ⟨rfl, fun i => by rw [Bool.eq_iff_iff, denotes1.member, denotes2.member]⟩

theorem Denotes.superSet (denotes1 : Denotes b1 s1) (denotes2 : Denotes b2 s2)
    (same : b1.bits = b2.bits) : bitSuperSet b1 b2 = true ↔ s1.elems ⊆ s2.elems := by
  rw [bitSuperSet_iff same]
  simp only [denotes1.member, denotes2.member]
  rfl

end Queries

/-! ## Whole histories -/

section Histories

variable {store after : Store Bitstr} {sets : Store BitSet}

/-- Every bitmap that is held denotes the set that is held in its place. -/
def Refines (store : Store Bitstr) (sets : Store BitSet) : Prop :=
  ∀ h, Option.Rel Denotes (store h) (sets h)

/-- A complement acts on whole words, and a bitmap shrinks only where nothing is left
behind in its last word. -/
def Tidy (store : Store Bitstr) : Op → Prop
  | .not h => ∀ b, store h = some b → 64 ∣ b.bits
  | .realloc h nbits => ∀ b, store h = some b → CleanTail b nbits
  | _ => True

/-- All calls of a history are tidy. -/
def TidyRun : List Op → Store Bitstr → Prop
  | [], _ => True
  | op :: ops, store =>
    Tidy store op ∧ ∀ after, step bitstrings store op = some after → TidyRun ops after

theorem Refines.update {h : Nat} {b : Bitstr} {s : BitSet} (refines : Refines store sets)
    (denotes : Denotes b s) :
    Refines (update store h (some b)) (update sets h (some s)) := by
  intro other
  by_cases same : other = h
  · subst same
    rw [update_self, update_self]
    exact .some denotes
  · rw [update_of_ne same, update_of_ne same]
    exact refines other

theorem Refines.get {h : Nat} {b : Bitstr} (refines : Refines store sets)
    (found : store h = some b) : ∃ s, sets h = some s ∧ Denotes b s := by
  have related := refines h
  rw [found] at related
  cases held : sets h with
  | none =>
    rw [held] at related
    cases related
  | some s =>
    rw [held] at related
    cases related with
    | some denotes => exact ⟨s, rfl, denotes⟩

theorem Refines.change {h : Nat} {valid : Nat → Bool} {f : Bitstr → Bitstr} {g : BitSet → BitSet}
    (refines : Refines store sets) (steps : change bitstrings h valid f store = some after)
    (kept : ∀ b s, store h = some b → Denotes b s → valid b.bits = true → Denotes (f b) (g s)) :
    ∃ next, Bitmap.change bitSets h valid g sets = some next ∧ Refines after next := by
  obtain ⟨b, found, steps⟩ := Option.bind_eq_some_iff.mp steps
  obtain ⟨s, held, denotes⟩ := refines.get found
  split_ifs at steps with isValid
  cases steps
  refine ⟨_, ?_, refines.update (kept b s found denotes isValid)⟩
  have valid : valid (bitSets.size s) = true := by
    change valid s.size = true
    rw [← denotes.size]
    exact isValid
  rw [Bitmap.change, held, Option.bind_some, if_pos valid]

theorem Refines.combine {h1 h2 : Nat} {f : (a b : Bitstr) → a.bits = b.bits → Bitstr}
    {g : (a b : BitSet) → a.size = b.size → BitSet}
    (refines : Refines store sets) (steps : combine bitstrings h1 h2 f store = some after)
    (kept : ∀ b1 b2 s1 s2 same sizes, Denotes b1 s1 → Denotes b2 s2 →
      Denotes (f b1 b2 same) (g s1 s2 sizes)) :
    ∃ next, Bitmap.combine bitSets h1 h2 g sets = some next ∧ Refines after next := by
  obtain ⟨b1, found1, steps⟩ := Option.bind_eq_some_iff.mp steps
  obtain ⟨b2, found2, steps⟩ := Option.bind_eq_some_iff.mp steps
  obtain ⟨s1, held1, denotes1⟩ := refines.get found1
  obtain ⟨s2, held2, denotes2⟩ := refines.get found2
  split_ifs at steps with same
  cases steps
  have sizes : s1.size = s2.size := by
    rw [← denotes1.size, ← denotes2.size]
    exact same
  refine ⟨_, ?_, refines.update (kept b1 b2 s1 s2 same sizes denotes1 denotes2)⟩
  simp only [Bitmap.combine, held1, held2, Option.bind_some]
  exact dif_pos sizes

/-- A tidy call keeps every bitmap at its set. -/
theorem Refines.step {op : Op} (refines : Refines store sets) (tidy : Tidy store op)
    (steps : step bitstrings store op = some after) :
    ∃ next, Bitmap.step bitSets sets op = some next ∧ Refines after next := by
  cases op with
  | alloc h nbits =>
    rw [Bitmap.step] at steps
    split_ifs at steps with valid
    cases steps
    exact ⟨_, if_pos valid, refines.update (denotes_bitAlloc valid)⟩
  | realloc h nbits =>
    rw [Bitmap.step] at steps ⊢
    exact refines.change steps fun b s found denotes valid =>
      denotes.bitRealloc valid (tidy b found)
  | set h bit =>
    rw [Bitmap.step] at steps ⊢
    exact refines.change steps fun b s _ denotes valid =>
      denotes.bitSet (of_decide_eq_true valid)
  | clear h bit =>
    rw [Bitmap.step] at steps ⊢
    exact refines.change steps fun b s _ denotes valid =>
      denotes.bitClear (of_decide_eq_true valid)
  | nset h start stop =>
    rw [Bitmap.step] at steps ⊢
    exact refines.change steps fun b s _ denotes valid =>
      denotes.bitNset (of_decide_eq_true (Bool.and_eq_true_iff.mp valid).2)
  | nclear h start stop =>
    rw [Bitmap.step] at steps ⊢
    exact refines.change steps fun b s _ denotes valid =>
      denotes.bitNclear (of_decide_eq_true (Bool.and_eq_true_iff.mp valid).2)
  | and h1 h2 =>
    exact refines.combine steps fun _ _ _ _ same sizes denotes1 denotes2 =>
      denotes1.bitAnd denotes2 same sizes
  | andNot h1 h2 =>
    exact refines.combine steps fun _ _ _ _ same sizes denotes1 denotes2 =>
      denotes1.bitAndNot denotes2 same sizes
  | or h1 h2 =>
    exact refines.combine steps fun _ _ _ _ same sizes denotes1 denotes2 =>
      denotes1.bitOr denotes2 same sizes
  | not h =>
    rw [Bitmap.step] at steps ⊢
    exact refines.change steps fun b s found denotes _ => denotes.bitNot (tidy b found)
  | copy new h =>
    obtain ⟨b, found, steps⟩ := Option.bind_eq_some_iff.mp steps
    cases steps
    obtain ⟨s, held, denotes⟩ := refines.get found
    refine ⟨_, ?_, refines.update denotes.bitCopy⟩
    rw [Bitmap.step, held, Option.bind_some]
  | copybits dest src =>
    exact refines.combine steps fun _ _ _ _ same sizes denotes1 denotes2 =>
      denotes1.bitCopybits denotes2 same.symm sizes.symm
  | rotate h n =>
    rw [Bitmap.step] at steps ⊢
    exact refines.change steps fun b s _ denotes _ => denotes.bitRotate n

theorem Refines.run {ops : List Op} (refines : Refines store sets) (tidy : TidyRun ops store)
    (runs : run bitstrings ops store = some after) :
    ∃ final, Bitmap.run bitSets ops sets = some final ∧ Refines after final := by
  induction ops generalizing store sets with
  | nil =>
    cases runs
    exact ⟨sets, rfl, refines⟩
  | cons op ops ih =>
    obtain ⟨middle, first, others⟩ := Option.bind_eq_some_iff.mp runs
    obtain ⟨next, steps, refinesNext⟩ := refines.step tidy.1 first
    obtain ⟨final, runsFinal, refinesFinal⟩ := ih refinesNext (tidy.2 middle first) others
    refine ⟨final, ?_, refinesFinal⟩
    rw [Bitmap.run, steps, Option.bind_some, runsFinal]

theorem Refines.answers (builtin : Bool) (refines : Refines store sets) :
    Answers builtin store sets := by
  have denotes : ∀ {h b s}, store h = some b → sets h = some s → Denotes b s := by
    intro h b s found held
    obtain ⟨other, isHeld, denotes⟩ := refines.get found
    rw [held] at isHeld
    cases isHeld
    exact denotes
  refine ⟨fun h => ?_, fun h b s found held bit _ => (denotes found held).member bit,
    fun h b s found held => (denotes found held).ffs builtin,
    fun h1 h2 b1 b2 s1 s2 found1 found2 held1 held2 =>
      (denotes found1 held1).equal (denotes found2 held2),
    fun h1 h2 b1 b2 s1 s2 found1 found2 held1 held2 same =>
      (denotes found1 held1).superSet (denotes found2 held2) same⟩
  have related := refines h
  revert related
  cases store h with
  | none =>
    cases sets h with
    | none => exact fun _ => rfl
    | some s => exact fun related => by cases related
  | some b =>
    cases sets h with
    | none => exact fun related => by cases related
    | some s =>
      intro related
      cases related with
      | some denotes => exact congrArg some denotes.size

end Histories

/-- In every history whose complements act on whole words and whose shrinking leaves
nothing behind, all queries answer for the sets that the history denotes. -/
theorem bitmaps_refine_sets (builtin : Bool) (ops : List Op) (store : Store Bitstr)
    (runs : run bitstrings ops (fun _ => none) = some store)
    (tidy : TidyRun ops fun _ => none) :
    ∃ sets, run bitSets ops (fun _ => none) = some sets ∧ Answers builtin store sets := by
  have start : Refines (fun _ => none) (fun _ => none) := fun _ => .none
  obtain ⟨sets, denoted, refines⟩ := start.run tidy runs
  exact ⟨sets, denoted, refines.answers builtin⟩

theorem bitmaps_refine_sets_complement : ∃ store sets,
    run bitstrings [.alloc 0 64, .not 0] (fun _ => none) = some store ∧
    run bitSets [.alloc 0 64, .not 0] (fun _ => none) = some sets ∧ Answers true store sets := by
  have tidy : TidyRun [.alloc 0 64, .not 0] fun _ => none := by
    refine ⟨trivial, fun after steps => ⟨fun b found => ?_, fun _ _ => trivial⟩⟩
    cases steps
    cases found
    exact dvd_refl 64
  obtain ⟨sets, runs, answers⟩ :=
    bitmaps_refine_sets true [.alloc 0 64, .not 0] _ rfl tidy
  exact ⟨_, sets, rfl, runs, answers⟩

/-- The complement of the empty bitmap of size 1 is not equal to the bitmap with its one
bit set. -/
theorem bitmaps_refine_sets_fails : ¬∀ (builtin : Bool) (ops : List Op) (store : Store Bitstr),
    run bitstrings ops (fun _ => none) = some store →
    ∃ sets, run bitSets ops (fun _ => none) = some sets ∧ Answers builtin store sets := by
  intro refine_sets
  obtain ⟨sets, runs, answers⟩ :=
    refine_sets true [.alloc 0 1, .alloc 1 1, .set 1 0, .not 0] _ rfl
  cases runs
  have equal := (answers.equal 0 1 _ _ _ _ rfl rfl rfl rfl).mpr (by decide)
  revert equal
  decide

end SlurmSim.Common.Bitmap
