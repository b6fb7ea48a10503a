import SlurmSim.Common.BitCount
import SlurmSim.Lib.Runs

/-!
# Searching a bitmap

The searches for the first clear bit, for the last set bit and for the longest run of set
bits.  Words that hold no answer are passed as a whole, and no search answers with a bit
behind the size.
-/

namespace SlurmSim.Common.Bitmap

open SlurmSim.Lib.Runs

/-! ## The searches -/

/-- `bit_ffc`'s search within a word. -/
def scanClear (b : Bitstr) (word bit : Nat) : Option Nat :=
  if bit < b.bits ∧ bit / 64 = word then
    if !bitTest b bit then some bit else scanClear b word (bit + 1)
  else none
termination_by b.bits - bit

/-- The loop of `bit_ffc`; `BITSTR_MAXVAL` has all bits set. -/
def ffcLoop (b : Bitstr) (bit : Nat) : Int :=
  if bit < b.bits then
    if b.word bit = 0xffffffffffffffff#64 then ffcLoop b (bit + 64)
    else
      match scanClear b (bit / 64) bit with
      | some value => value
      | none => ffcLoop b (64 * (bit / 64 + 1))
  else -1
termination_by b.bits - bit

/-- `bit_ffc` -/
def bitFfc (b : Bitstr) : Int :=
  ffcLoop b 0

/-- `bit_fls`'s test of partial words, from `bit + 1` down: where it ends, and the value. -/
def flsPartial (b : Bitstr) : Nat → Nat × Int
  | 0 => (0, -1)
  | bit + 1 =>
    if bit / 64 = (bit + 1) / 64 then
      if bitTest b bit then (bit + 1, bit) else flsPartial b bit
    else (bit + 1, -1)

/-- The search down to the first bit, without `__builtin_clzll`. -/
def scanDown (b : Bitstr) : Nat → Int
  | 0 => -1
  | bit + 1 => if bitTest b bit then bit else scanDown b bit

/-- `__builtin_clzll` -/
def clzll (word : BitVec 64) : Nat :=
  ((List.range 64).find? fun bit => word.getLsbD (63 - bit)).getD 64

/-- `bit_fls`'s test of whole words, from `bit + 1` down. -/
def flsWords (builtin : Bool) (b : Bitstr) : Nat → Int
  | 0 => -1
  | bit + 1 =>
    if b.word bit = 0 then flsWords builtin b (bit + 1 - 64)
    else if builtin then bit - clzll (b.word bit)
    else scanDown b (bit + 1)

/-- `bit_fls` -/
def bitFls (builtin : Bool) (b : Bitstr) : Int :=
  if b.bits = 0 then -1
  else
    let (last, value) := flsPartial b b.bits
    if value = -1 then flsWords builtin b last else value

/-- The loop of `bit_nset_max_count`; its last test can only hold where `cnt` was just reset. -/
def maxCountLoop (b : Bitstr) (bit cnt maxcnt : Nat) : Nat :=
  if bit < b.bits then
    if !bitTest b bit then
      if b.bits - bit < maxcnt then maxcnt else maxCountLoop b (bit + 1) 0 maxcnt
    else maxCountLoop b (bit + 1) (cnt + 1) (if maxcnt < cnt + 1 then cnt + 1 else maxcnt)
  else maxcnt
termination_by b.bits - bit

/-- `bit_nset_max_count` -/
def bitNsetMaxCount (b : Bitstr) : Nat :=
  maxCountLoop b 0 0 0

/-! ## The first clear bit -/

section Searches

variable {b : Bitstr} {bit : Nat}

/-- The first clear bit below the size from a position on, or `-1`. -/
def IsFirstClear (b : Bitstr) (bit : Nat) (value : Int) : Prop :=
  (value = -1 ∧ ∀ i, bit ≤ i → i < b.bits → bitTest b i = true) ∨
    ∃ first : Nat, value = first ∧ bit ≤ first ∧ first < b.bits ∧ bitTest b first = false ∧
      ∀ i, bit ≤ i → i < first → bitTest b i = true

theorem IsFirstClear.skip {next : Nat} {value : Int} (isFirst : IsFirstClear b next value)
    (le : bit ≤ next) (set : ∀ i, bit ≤ i → i < next → i < b.bits → bitTest b i = true) :
    IsFirstClear b bit value := by
  rcases isFirst with ⟨none, behind⟩ | ⟨first, found, after, mem, isClear, before⟩
  · refine .inl ⟨none, fun i above below => ?_⟩
    by_cases less : i < next
    · exact set i above less below
    · exact behind i (not_lt.mp less) below
  · refine .inr ⟨first, found, by omega, mem, isClear, fun i above below => ?_⟩
    by_cases less : i < next
    · exact set i above less (by omega)
    · exact before i (not_lt.mp less) below

theorem scanClear_spec (b : Bitstr) (word bit : Nat) :
    match scanClear b word bit with
    | some value => bit ≤ value ∧ value < b.bits ∧ bitTest b value = false ∧
        ∀ i, bit ≤ i → i < value → bitTest b i = true
    | none => ∀ i, bit ≤ i → i < b.bits → i / 64 = word → bit / 64 = word →
        bitTest b i = true := by
  fun_induction scanClear b word bit with
  | case1 bit more isClear =>
    exact ⟨le_rfl, more.1, Bool.not_eq_true' _ |>.mp isClear,
      fun i le less => absurd less (not_lt.mpr le)⟩
  | case2 bit more isSet ih =>
    have here : bitTest b bit = true := by simpa using isSet
    revert ih
    cases scanClear b word (bit + 1) with
    | some value =>
      rintro ⟨le, mem, isClear, before⟩
      refine ⟨by omega, mem, isClear, fun i least less => ?_⟩
      rcases eq_or_lt_of_le least with same | later
      · exact same ▸ here
      · exact before i later less
    | none =>
      intro before i le less same _
      rcases eq_or_lt_of_le le with first | later
      · exact first ▸ here
      · exact before i later less same (by omega)
  | case3 bit stops =>
    intro i le less same start
    exact absurd ⟨by omega, start⟩ stops

theorem bitTest_of_all_ones (ones : b.word bit = 0xffffffffffffffff#64) {i : Nat}
    (same : i / 64 = bit / 64) : bitTest b i = true := by
  have word : b.word i = b.word bit := by
    rw [Bitstr.word, same, Bitstr.word]
  have all : 0xffffffffffffffff#64 = BitVec.allOnes 64 := rfl
  rw [bitTest, word, ones, all, BitVec.getLsbD_allOnes, decide_eq_true_iff]
  exact Nat.mod_lt i (by omega)

theorem ffcLoop_isFirstClear (b : Bitstr) (aligned : 64 ∣ bit) :
    IsFirstClear b bit (ffcLoop b bit) := by
  fun_induction ffcLoop b bit with
  | case1 bit more ones ih =>
    apply (ih (by omega)).skip (Nat.le_add_right bit 64)
    intro i above below _
    exact bitTest_of_all_ones ones (by omega)
  | case2 bit more partly value found =>
    have spec := scanClear_spec b (bit / 64) bit
    rw [found] at spec
    exact .inr ⟨value, rfl, spec⟩
  | case3 bit more partly none ih =>
    have spec := scanClear_spec b (bit / 64) bit
    rw [none] at spec
    apply (ih (by omega)).skip (by omega)
    intro i above below mem
    exact spec i above mem (by omega) rfl
  | case4 bit stops => exact .inl ⟨rfl, fun i above below => absurd below (by omega)⟩

/-- `bit_ffc` finds the least position that is not set. -/
theorem bitFfc_least (b : Bitstr) :
    (∀ p : Nat, bitFfc b = p ↔ IsLeast {i | i < b.bits ∧ i ∉ members b} p) ∧
      (bitFfc b = -1 ↔ ∀ i < b.bits, i ∈ members b) := by
  have isFirst := ffcLoop_isFirstClear b (dvd_zero 64)
  change IsFirstClear b 0 (bitFfc b) at isFirst
  generalize bitFfc b = value at isFirst ⊢
  rcases isFirst with ⟨rfl, all⟩ | ⟨first, rfl, _, mem, isClear, before⟩
  · have full : ∀ i < b.bits, i ∈ members b := fun i less =>
      mem_members.mpr ⟨less, all i (Nat.zero_le i) less⟩
    constructor
    · intro p
      exact ⟨fun absurd => by omega, fun least => absurd (full p least.1.1) least.1.2⟩
    · exact ⟨fun _ => full, fun _ => rfl⟩
  · have missing : first ∉ members b := by
      rw [mem_members, isClear]
      exact fun both => Bool.false_ne_true both.2
    have least : IsLeast {i | i < b.bits ∧ i ∉ members b} first := by
      refine ⟨⟨mem, missing⟩, ?_⟩
      rintro i ⟨less, isMissing⟩
      by_contra earlier
      exact isMissing (mem_members.mpr ⟨less, before i (Nat.zero_le i) (not_le.mp earlier)⟩)
    constructor
    · intro p
      rw [Int.natCast_inj]
      exact ⟨fun same => same ▸ least, fun other => least.unique other⟩
    · exact ⟨fun absurd => by omega, fun full => absurd (full first mem) missing⟩

/-! ## The last set bit -/

/-- The last set bit below a position, or `-1`. -/
def IsLast (b : Bitstr) (bound : Nat) (value : Int) : Prop :=
  (value = -1 ∧ ∀ i < bound, bitTest b i = false) ∨
    ∃ last : Nat, value = last ∧ last < bound ∧ bitTest b last = true ∧
      ∀ i < bound, last < i → bitTest b i = false

theorem IsLast.skip {low bound : Nat} {value : Int} (isLast : IsLast b low value)
    (le : low ≤ bound) (clear : ∀ i, low ≤ i → i < bound → bitTest b i = false) :
    IsLast b bound value := by
  rcases isLast with ⟨none, before⟩ | ⟨last, found, mem, isSet, behind⟩
  · refine .inl ⟨none, fun i less => ?_⟩
    by_cases below : i < low
    · exact before i below
    · exact clear i (not_lt.mp below) less
  · refine .inr ⟨last, found, by omega, isSet, fun i less after => ?_⟩
    by_cases below : i < low
    · exact behind i below after
    · exact clear i (not_lt.mp below) less

theorem IsLast.here (isSet : bitTest b bit = true) : IsLast b (bit + 1) bit :=
  .inr ⟨bit, rfl, Nat.lt_succ_self bit, isSet, fun i less after => absurd after (by omega)⟩

theorem IsLast.before {value : Int} (isLast : IsLast b bit value) (isClear : ¬bitTest b bit = true) :
    IsLast b (bit + 1) value := by
  apply isLast.skip (Nat.le_succ bit)
  intro i above below
  have same : i = bit := by omega
  exact Bool.eq_false_iff.mpr (same ▸ isClear)

theorem scanDown_isLast (b : Bitstr) (bound : Nat) : IsLast b bound (scanDown b bound) := by
  induction bound with
  | zero => exact .inl ⟨rfl, fun i less => absurd less (Nat.not_lt_zero i)⟩
  | succ bit ih =>
    rw [scanDown]
    split_ifs with isSet
    · exact IsLast.here isSet
    · exact ih.before isSet

theorem flsPartial_spec (b : Bitstr) (bound : Nat) :
    (flsPartial b bound).2 ≠ -1 ∧ IsLast b bound (flsPartial b bound).2 ∨
      (flsPartial b bound).2 = -1 ∧ 64 ∣ (flsPartial b bound).1 ∧ (flsPartial b bound).1 ≤ bound ∧
        ∀ i, (flsPartial b bound).1 ≤ i → i < bound → bitTest b i = false := by
  induction bound with
  | zero => exact .inr ⟨rfl, dvd_zero 64, le_rfl, fun i _ less => absurd less (Nat.not_lt_zero i)⟩
  | succ bit ih =>
    rw [flsPartial]
    split_ifs with within isSet
    · exact .inl ⟨by omega, IsLast.here isSet⟩
    · have here : bitTest b bit = false := Bool.eq_false_iff.mpr isSet
      rcases ih with ⟨found, isLast⟩ | ⟨none, aligned, le, clear⟩
      · exact .inl ⟨found, isLast.before isSet⟩
      · refine .inr ⟨none, aligned, Nat.le_succ_of_le le, fun i above below => ?_⟩
        rcases Nat.lt_or_eq_of_le (Nat.lt_succ_iff.mp below) with less | same
        · exact clear i above less
        · exact same ▸ here
    · exact .inr ⟨rfl, by simp only; omega, le_rfl, fun i above below => absurd below (by omega)⟩

theorem clzll_spec {word : BitVec 64} (nonzero : word ≠ 0) :
    clzll word < 64 ∧ word.getLsbD (63 - clzll word) = true ∧
      ∀ k < 64, 63 - clzll word < k → word.getLsbD k = false := by
  have found : ((List.range 64).find? fun bit => word.getLsbD (63 - bit)).isSome := by
    rw [List.find?_isSome]
    by_contra none
    refine nonzero (BitVec.eq_of_getLsbD_eq fun k small => ?_)
    change _ = (0#64).getLsbD k
    rw [BitVec.getLsbD_zero, Bool.eq_false_iff]
    intro isSet
    refine none ⟨63 - k, List.mem_range.mpr (by omega), ?_⟩
    rw [show 63 - (63 - k) = k by omega]
    exact isSet
  obtain ⟨first, isFirst⟩ := Option.isSome_iff_exists.mp found
  have spec := List.find?_range_eq_some.mp isFirst
  have small := List.mem_range.mp spec.2.1
  rw [clzll, isFirst, Option.getD_some]
  refine ⟨small, spec.1, fun k less after => ?_⟩
  have above := spec.2.2 (63 - k) (by omega)
  rw [show 63 - (63 - k) = k by omega] at above
  simpa using above

theorem flsWords_isLast (builtin : Bool) (b : Bitstr) {bound : Nat} (aligned : 64 ∣ bound) :
    IsLast b bound (flsWords builtin b bound) := by
  fun_induction flsWords builtin b bound with
  | case1 => exact .inl ⟨rfl, fun i less => absurd less (Nat.not_lt_zero i)⟩
  | case2 bit zero ih =>
    apply (ih (by omega)).skip (Nat.sub_le _ _)
    intro i above below
    exact (word_eq_zero_iff b bit).mp zero i (by omega)
  | case3 bit nonzero _ =>
    obtain ⟨small, isSet, behind⟩ := clzll_spec nonzero
    have inWord : ∀ i, i / 64 = bit / 64 → bitTest b i = (b.word bit).getLsbD (i % 64) := by
      intro i same
      rw [bitTest, Bitstr.word, same, Bitstr.word]
    refine .inr ⟨bit - clzll (b.word bit), by omega, by omega, ?_, fun i less after => ?_⟩
    · rw [inWord _ (by omega), show (bit - clzll (b.word bit)) % 64 = 63 - clzll (b.word bit) by
        omega]
      exact isSet
    · rw [inWord i (by omega)]
      exact behind _ (Nat.mod_lt i (by omega)) (by omega)
  | case4 bit nonzero _ => exact scanDown_isLast b (bit + 1)

/-- `bit_fls` finds the greatest set bit. -/
theorem bitFls_greatest (builtin : Bool) (b : Bitstr) :
    (∀ p : Nat, bitFls builtin b = p ↔ IsGreatest {i | i ∈ members b} p) ∧
      (bitFls builtin b = -1 ↔ members b = ∅) := by
  have isLast : IsLast b b.bits (bitFls builtin b) := by
    rw [bitFls]
    split_ifs with none
    · exact .inl ⟨rfl, fun i less => absurd less (by omega)⟩
    · have spec := flsPartial_spec b b.bits
      simp only at spec ⊢
      split_ifs with more
      · rcases spec with ⟨found, _⟩ | ⟨_, aligned, le, clear⟩
        · exact absurd more found
        · exact (flsWords_isLast builtin b aligned).skip le clear
      · rcases spec with ⟨_, isLast⟩ | ⟨none, _⟩
        · exact isLast
        · exact absurd none more
  generalize bitFls builtin b = value at isLast ⊢
  rcases isLast with ⟨rfl, clear⟩ | ⟨last, rfl, inside, isSet, behind⟩
  · have empty : ∀ i, i ∉ members b := by
      intro i mem
      obtain ⟨less, isSet⟩ := mem_members.mp mem
      rw [clear i less] at isSet
      cases isSet
    constructor
    · intro p
      exact ⟨fun absurd => by omega, fun greatest => absurd greatest.1 (empty p)⟩
    · exact ⟨fun _ => Finset.eq_empty_of_forall_notMem empty, fun _ => rfl⟩
  · have mem : last ∈ members b := mem_members.mpr ⟨inside, isSet⟩
    have greatest : IsGreatest {i | i ∈ members b} last := by
      refine ⟨mem, fun i isMember => ?_⟩
      obtain ⟨less, here⟩ := mem_members.mp isMember
      by_contra after
      rw [behind i less (not_le.mp after)] at here
      cases here
    constructor
    · intro p
      rw [Int.natCast_inj]
      exact ⟨fun same => same ▸ greatest, fun other => greatest.unique other⟩
    · refine ⟨fun absurd => by omega, fun empty => ?_⟩
      rw [empty] at mem
      exact absurd mem (Finset.notMem_empty last)

end Searches

/-! ## The longest run -/

section Longest

variable {b : Bitstr} {bit start cnt maxcnt : Nat}

theorem maxCountLoop_isGreatest (inside : bit ≤ b.bits)
    (trailing : Trailing (· ∈ members b) 0 bit start) (counted : cnt + start = bit)
    (greatest : IsGreatest (runLengths (· ∈ members b) bit) maxcnt) :
    IsGreatest (runLengths (· ∈ members b) b.bits) (maxCountLoop b bit cnt maxcnt) := by
  fun_induction maxCountLoop b bit cnt maxcnt generalizing start with
  | case1 bit cnt maxcnt more isClear few =>
    have isBad : ¬bit ∈ members b := by simpa using fun _ => isClear
    have next := longest_extend greatest (trailing.reset isBad)
    rw [Nat.sub_self, Nat.max_zero] at next
    exact longest_stop next isBad more few
  | case2 bit cnt maxcnt more isClear enough ih =>
    have isBad : ¬bit ∈ members b := by simpa using fun _ => isClear
    have next := longest_extend greatest (trailing.reset isBad)
    rw [Nat.sub_self, Nat.max_zero] at next
    exact ih more (trailing.reset isBad) (Nat.zero_add _) next
  | case3 bit cnt maxcnt more isSet ih =>
    have mem : bit ∈ members b := mem_members.mpr ⟨more, by simpa using isSet⟩
    have next := longest_extend greatest (trailing.extend mem)
    have most : max maxcnt (bit + 1 - start) = if maxcnt < cnt + 1 then cnt + 1 else maxcnt := by
      split_ifs
      · omega
      · omega
    rw [most] at next
    exact ih more (trailing.extend mem) (by omega) next
  | case4 bit cnt maxcnt stops =>
    have last : bit = b.bits := by omega
    exact last ▸ greatest

/-- `bit_nset_max_count` is the length of the longest run of set bits. -/
theorem bitNsetMaxCount_isGreatest (b : Bitstr) :
    IsGreatest (runLengths (· ∈ members b) b.bits) (bitNsetMaxCount b) :=
  maxCountLoop_isGreatest (Nat.zero_le _) (Trailing.empty _ 0) rfl (runLengths_zero _)

end Longest

/-! ## All the loops -/

/-- The counts, the searches and the writes are those of the set of the bitmap. -/
structure Exact (builtin : Bool) (b : Bitstr) : Prop where
  setCount : bitSetCount builtin b = (members b).card
  overlap : ∀ other : Bitstr, b.bits = other.bits →
    bitOverlap builtin b other = (members b ∩ members other).card
  ffc : ∀ p : Nat, bitFfc b = p ↔ IsLeast {i | i < b.bits ∧ i ∉ members b} p
  ffcNone : bitFfc b = -1 ↔ ∀ i < b.bits, i ∈ members b
  fls : ∀ p : Nat, bitFls builtin b = p ↔ IsGreatest {i | i ∈ members b} p
  flsNone : bitFls builtin b = -1 ↔ members b = ∅
  maxCount : IsGreatest {k | ∃ p, p + k ≤ b.bits ∧ ∀ i, p ≤ i → i < p + k → i ∈ members b}
    (bitNsetMaxCount b)
  pickNone : ∀ nbits ≤ b.bits, bitPickCnt builtin b nbits = none ↔ (members b).card < nbits
  pick : ∀ nbits ≤ b.bits, ∀ new, bitPickCnt builtin b nbits = some new →
    new.bits = b.bits ∧ Smallest (members b) nbits (members new)
  nset : ∀ start < b.bits, ∀ stop < b.bits,
    Writes true (fun i => start ≤ i ∧ i ≤ stop) b (bitNset start stop b)
  nclear : ∀ start < b.bits, ∀ stop < b.bits,
    Writes false (fun i => start ≤ i ∧ i ≤ stop) b (bitNclear start stop b)

/-- All loops over words and bits are exact, whatever stands behind the size. -/
theorem bit_loops_exact (builtin : Bool) (b : Bitstr) : Exact builtin b where
  setCount := bitSetCount_eq builtin b
  overlap := fun _ sizes => bitOverlap_eq builtin sizes
  ffc := (bitFfc_least b).1
  ffcNone := (bitFfc_least b).2
  fls := (bitFls_greatest builtin b).1
  flsNone := (bitFls_greatest builtin b).2
  maxCount := bitNsetMaxCount_isGreatest b
  pickNone := fun _ fits => (bitPickCnt_smallest builtin b fits).1
  pick := fun _ fits => (bitPickCnt_smallest builtin b fits).2
  nset := fun _ _ _ inside => bitNset_writes inside
  nclear := fun _ _ _ inside => bitNclear_writes inside

end SlurmSim.Common.Bitmap
