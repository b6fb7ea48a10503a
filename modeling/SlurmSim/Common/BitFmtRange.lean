import Mathlib.Order.Lattice.Nat
import SlurmSim.Common.BitFmt
import SlurmSim.Common.BitmapRuns

/-!
# Ranges of a part of a bitmap

The positions of a part are written as if it began at zero.  The loop passes a word that is
zero by adding 64, so that from an offset within a word it enters the next one as far from its
first bit.
-/

namespace SlurmSim.Common.Bitmap

open List

/-- The last bit of a run, below `fini_bit`. -/
def rangeEnd (b : Bitstr) (finiBit bit : Nat) : Nat :=
  if bit + 1 < finiBit ∧ bitTest b (bit + 1) = true then rangeEnd b finiBit (bit + 1) else bit
termination_by finiBit - bit

theorem le_rangeEnd (b : Bitstr) (finiBit bit : Nat) : bit ≤ rangeEnd b finiBit bit := by
  fun_induction rangeEnd b finiBit bit with
  | case1 bit more ih => omega
  | case2 bit stops => exact le_rfl

/-- The loop of `bit_fmt_range`. -/
def fmtRangeLoop (b : Bitstr) (offset finiBit bit : Nat) (str : Option (List Char)) :
    Option (List Char) :=
  if bit < finiBit then
    if b.word bit = 0 then fmtRangeLoop b offset finiBit (bit + 64) str
    else if bitTest b bit then
      fmtRangeLoop b offset finiBit (rangeEnd b finiBit bit + 1)
        (emitText str (bit - offset) (rangeEnd b finiBit bit - offset))
    else fmtRangeLoop b offset finiBit (bit + 1) str
  else str
termination_by finiBit - bit
decreasing_by
  · omega
  · have := le_rangeEnd b finiBit bit
    omega
  · omega

/-- `fini_bit`; the sum is an `int`. -/
def finiBit (b : Bitstr) (offset len : Nat) : Nat :=
  (min (b.bits : Int) (toInt32 (offset + len))).toNat

/-- `bit_fmt_range`; `none` is `NULL`. -/
def bitFmtRange (b : Bitstr) (offset len : Nat) : Option (List Char) :=
  fmtRangeLoop b offset (finiBit b offset len) offset none

/-! ## What a text denotes -/

/-- The positions in the ranges of a text, as `bitfmt2int` reads it; no text is no position. -/
def TextDenotes (str : Option (List Char)) (s : Set Nat) : Prop :=
  match str with
  | none => s = ∅
  | some str => ∃ runs, parseText str = pairs runs ∧
      ∀ i, i ∈ s ↔ ∃ run ∈ runs, run.1 ≤ i ∧ i ≤ run.2

/-- The set bits of a part, counted from its first position on. -/
def partBits (b : Bitstr) (offset len : Nat) : Set Nat :=
  {i | i < len ∧ offset + i < b.bits ∧ bitTest b (offset + i) = true}

/-- The set bits of a part. -/
def partSet (b : Bitstr) (offset len : Nat) : Set Nat :=
  {p | offset ≤ p ∧ p < offset + len ∧ p < b.bits ∧ bitTest b p = true}

section Loop

variable {b : Bitstr} {offset fini bit : Nat}

/-! ## A part as a bitmap -/

theorem word_bitRealloc (fits : fini ≤ b.bits) (mem : bit < fini) :
    (bitRealloc b fini).word bit = b.word bit := by
  have length := b.length_words
  rw [Bitstr.word, Bitstr.word, bitRealloc, getD_eq_getElem?_getD,
    getD_eq_getElem?_getD, getElem?_append_left,
    getElem?_take_of_lt]
  · rw [wordsFor]
    omega
  · rw [length_take, wordsFor]
    omega

theorem test_bitRealloc (fits : fini ≤ b.bits) (mem : bit < fini) :
    bitTest (bitRealloc b fini) bit = bitTest b bit := by
  rw [bitTest, word_bitRealloc fits mem, bitTest]

theorem rangeEnd_eq (fits : fini ≤ b.bits) (bit : Nat) :
    rangeEnd b fini bit = runEnd (bitRealloc b fini) bit := by
  fun_induction rangeEnd b fini bit with
  | case1 bit more ih =>
    rw [runEnd, test_bitRealloc fits more.1, ih]
    exact (if_pos more).symm
  | case2 bit stops =>
    have same : ¬(bit + 1 < fini ∧ bitTest (bitRealloc b fini) (bit + 1) = true) := by
      rintro ⟨mem, isSet⟩
      rw [test_bitRealloc fits mem] at isSet
      exact stops ⟨mem, isSet⟩
    rw [runEnd]
    exact (if_neg same).symm

theorem fmtRangeLoop_eq (fits : fini ≤ b.bits) (offset bit : Nat) (str : Option (List Char)) :
    fmtRangeLoop b offset fini bit str =
      scanRuns (fun str start bit => emitText str (start - offset) (bit - offset))
        (bitRealloc b fini) bit str := by
  fun_induction fmtRangeLoop b offset fini bit str with
  | case1 bit str more zero ih =>
    rw [scanRuns, word_bitRealloc fits more, ih]
    exact ((if_pos more).trans (if_pos zero)).symm
  | case2 bit str more nonzero isSet ih =>
    rw [scanRuns, word_bitRealloc fits more, test_bitRealloc fits more, ih, rangeEnd_eq fits]
    exact ((if_pos more).trans ((if_neg nonzero).trans (if_pos isSet))).symm
  | case3 bit str more nonzero isClear ih =>
    rw [scanRuns, word_bitRealloc fits more, test_bitRealloc fits more, ih]
    exact ((if_pos more).trans ((if_neg nonzero).trans (if_neg isClear))).symm
  | case4 bit str stops =>
    rw [scanRuns]
    exact (if_neg stops).symm

/-! ## Entering words -/

/-- Where a scan comes to a word that is not zero: as far from the word's first bit as it began. -/
structure Enters (b : Bitstr) (bit next : Nat) : Prop where
  after : bit ≤ next
  offset : next % 64 = bit % 64
  passed : ∀ i, bit / 64 ≤ i / 64 → i / 64 < next / 64 → bitTest b i = false
  enters : b.bits ≤ next ∨ b.word next ≠ 0

theorem scanRuns_enters (b : Bitstr) (bit : Nat) :
    ∃ next, Enters b bit next ∧ ∀ {σ : Type} (emit : σ → Nat → Nat → σ) (state : σ),
      scanRuns emit b bit state = scanRuns emit b next state := by
  induction distance : b.bits - bit using Nat.strong_induction_on generalizing bit with
  | _ distance ih =>
    by_cases skips : bit < b.bits ∧ b.word bit = 0
    · obtain ⟨more, zero⟩ := skips
      obtain ⟨next, enters, same⟩ := ih (b.bits - (bit + 64)) (by omega) (bit + 64) rfl
      have after := enters.after
      refine ⟨next, ⟨by omega, ?_, fun i least less => ?_, enters.enters⟩, fun emit state => ?_⟩
      · rw [enters.offset, Nat.add_mod_right]
      · by_cases here : i / 64 = bit / 64
        · exact (word_eq_zero_iff b bit).mp zero i here
        · exact enters.passed i (by omega) less
      · rw [scanRuns, if_pos more, if_pos zero, same]
    · refine ⟨bit, ⟨le_rfl, rfl, fun i least less => absurd less (by omega), ?_⟩, fun _ _ => rfl⟩
      by_cases more : bit < b.bits
      · exact .inr fun zero => skips ⟨more, zero⟩
      · exact .inl (not_lt.mp more)

theorem maximalRuns_nil (stops : b.bits ≤ bit) : MaximalRuns b bit [] where
  apart := .nil
  isSet := fun _ mem => absurd mem not_mem_nil
  covers := fun i least less => absurd less (by omega)

theorem scanRuns_from (b : Bitstr) (bit : Nat) :
    ∃ next runs, Enters b bit next ∧ MaximalRuns b next runs ∧
      ∀ {σ : Type} (emit : σ → Nat → Nat → σ) (state : σ),
        scanRuns emit b bit state = runs.foldl (fun state run => emit state run.1 run.2) state := by
  obtain ⟨next, enters, same⟩ := scanRuns_enters b bit
  rcases enters.enters with behind | nonzero
  · refine ⟨next, [], enters, maximalRuns_nil behind, fun emit state => ?_⟩
    rw [same, scanRuns, if_neg (not_lt.mpr behind), foldl_nil]
  · obtain ⟨runs, maximal, scans⟩ := scanRuns_spec b next fun _ => nonzero
    refine ⟨next, runs, enters, maximal, fun emit state => ?_⟩
    rw [same, scans]

end Loop

/-! ## The text of a part -/

section Text

variable {b : Bitstr} {offset len fini next : Nat} {runs : List (Nat × Nat)} {s : Set Nat}

/-- The text of runs. -/
def textOf : List (Nat × Nat) → Option (List Char)
  | [] => none
  | run :: runs => some (runText run.1 run.2 ++ moreText runs)

theorem pairs_injective {others : List (Nat × Nat)} (same : pairs runs = pairs others) :
    runs = others := by
  induction runs generalizing others with
  | nil =>
    cases others with
    | nil => rfl
    | cons other others => cases same
  | cons run runs ih =>
    cases others with
    | nil => cases same
    | cons other others =>
      have split : (run.1 : Int) :: (run.2 : Int) :: pairs runs =
          (other.1 : Int) :: (other.2 : Int) :: pairs others := same
      obtain ⟨first, rest⟩ := List.cons.inj split
      obtain ⟨second, more⟩ := List.cons.inj rest
      rw [ih more]
      congr 1
      exact Prod.ext (Int.natCast_inj.mp first) (Int.natCast_inj.mp second)

theorem textDenotes_textOf (runs : List (Nat × Nat)) (s : Set Nat) :
    TextDenotes (textOf runs) s ↔ ∀ i, i ∈ s ↔ ∃ run ∈ runs, run.1 ≤ i ∧ i ≤ run.2 := by
  cases runs with
  | nil =>
    refine ⟨fun empty i => ?_, fun none => Set.eq_empty_iff_forall_notMem.mpr fun i mem => ?_⟩
    · rw [show s = ∅ from empty]
      simp
    · obtain ⟨run, absurd, _⟩ := (none i).mp mem
      cases absurd
  | cons run runs =>
    refine ⟨?_, fun denotes => ⟨run :: runs, parseText_text run runs, denotes⟩⟩
    rintro ⟨others, read, denotes⟩
    rw [parseText_text] at read
    rw [pairs_injective read]
    exact denotes

theorem foldl_emit_textOf (offset : Nat) (runs : List (Nat × Nat)) :
    runs.foldl (fun str run => emitText str (run.1 - offset) (run.2 - offset)) none =
      textOf (runs.map fun run => (run.1 - offset, run.2 - offset)) := by
  cases runs with
  | nil => rfl
  | cons run runs =>
    have shifted : ∀ str : Option (List Char),
        runs.foldl (fun str run => emitText str (run.1 - offset) (run.2 - offset)) str =
          (runs.map fun run => (run.1 - offset, run.2 - offset)).foldl
            (fun str run => emitText str run.1 run.2) str := by
      intro str
      rw [foldl_map]
    rw [foldl_cons, shifted, emitText, foldl_emitText]
    rfl

/-- The text denotes the part if and only if no set bit is in front of the entered position. -/
theorem shifted_denotes_iff (after : offset ≤ next) (fits : fini ≤ b.bits)
    (maximal : MaximalRuns (bitRealloc b fini) next runs) :
    TextDenotes (textOf (runs.map fun run => (run.1 - offset, run.2 - offset)))
        {i | offset + i < fini ∧ bitTest b (offset + i) = true} ↔
      ∀ p, offset ≤ p → p < fini → bitTest b p = true → next ≤ p := by
  rw [textDenotes_textOf]
  constructor
  · intro denotes p least less isSet
    have mem : p - offset ∈ {i | offset + i < fini ∧ bitTest b (offset + i) = true} := by
      refine ⟨?_, ?_⟩
      · omega
      · rwa [Nat.add_sub_cancel' least]
    obtain ⟨run, inRuns, start, _⟩ := (denotes _).mp mem
    obtain ⟨whole, isRun, rfl⟩ := mem_map.mp inRuns
    have first := (maximal.isSet whole isRun).1
    omega
  · intro entered i
    constructor
    · rintro ⟨less, isSet⟩
      obtain ⟨run, isRun, start, finish⟩ := maximal.covers (offset + i)
        (entered _ (Nat.le_add_right _ _) less isSet) less (by rwa [test_bitRealloc fits less])
      refine ⟨_, mem_map_of_mem isRun, ?_, ?_⟩
      · omega
      · omega
    · rintro ⟨run, inRuns, start, finish⟩
      obtain ⟨whole, isRun, rfl⟩ := mem_map.mp inRuns
      obtain ⟨first, order, last, allSet⟩ := maximal.isSet whole isRun
      have less : offset + i < fini := lt_of_le_of_lt (by omega) last
      refine ⟨less, ?_⟩
      rw [← test_bitRealloc fits less]
      exact allSet _ (by omega) (by omega)

/-- A word that is passed holds no set bit of the part, and the entered one holds the least. -/
theorem entered_iff (fits : fini ≤ b.bits) (enters : Enters (bitRealloc b fini) offset next) {p : Nat}
    (least : IsLeast {p | offset ≤ p ∧ p < fini ∧ bitTest b p = true} p) :
    next ≤ p ↔ b.word offset ≠ 0 ∨ offset % 64 ≤ p % 64 := by
  obtain ⟨⟨after, mem, isSet⟩, first⟩ := least
  have behind := enters.after
  have same := enters.offset
  have notPassed : next / 64 ≤ p / 64 := by
    by_contra passed
    have clear := enters.passed p (by omega) (by omega)
    rw [test_bitRealloc fits mem, isSet] at clear
    cases clear
  have sameWord : offset / 64 < next / 64 → p / 64 = next / 64 := by
    by_contra other
    have nonzero := enters.enters.resolve_left (by change ¬fini ≤ next; omega)
    rw [Ne, word_eq_zero_iff] at nonzero
    refine nonzero fun i here => ?_
    have less : i < fini := by omega
    rw [test_bitRealloc fits less]
    by_contra isSet
    have earlier := first ⟨by omega, less, Bool.not_eq_false _ |>.mp isSet⟩
    omega
  have sameZero : offset / 64 < next / 64 ↔ b.word offset = 0 := by
    rw [← word_bitRealloc fits (by omega : offset < fini)]
    constructor
    · intro later
      rw [word_eq_zero_iff]
      exact fun i here => enters.passed i (by omega) (by omega)
    · intro zero
      by_contra here
      have entered : next = offset := by omega
      rcases enters.enters with outside | nonzero
      · change fini ≤ next at outside
        omega
      · rw [entered] at nonzero
        exact nonzero zero
  by_cases later : offset / 64 < next / 64
  · have zero := sameZero.mp later
    have here := sameWord later
    rw [or_iff_right (not_not_intro zero)]
    omega
  · have nonzero : b.word offset ≠ 0 := fun zero => later (sameZero.mpr zero)
    exact ⟨fun _ => .inl nonzero, fun _ => by omega⟩

theorem forall_le_iff (next : Nat) : (∀ p ∈ s, next ≤ p) ↔ ∀ p, IsLeast s p → next ≤ p := by
  constructor
  · exact fun all p least => all p least.1
  · intro all p mem
    have least : IsLeast s (sInf s) := ⟨Nat.sInf_mem ⟨p, mem⟩, fun _ other => Nat.sInf_le other⟩
    exact Nat.le_trans (all _ least) (least.2 mem)

theorem fmtRangeLoop_denotes_iff (fits : fini ≤ b.bits) (offset : Nat) :
    TextDenotes (fmtRangeLoop b offset fini offset none)
        {i | offset + i < fini ∧ bitTest b (offset + i) = true} ↔
      ∀ p, IsLeast {p | offset ≤ p ∧ p < fini ∧ bitTest b p = true} p →
        b.word offset ≠ 0 ∨ offset % 64 ≤ p % 64 := by
  obtain ⟨next, runs, enters, maximal, scans⟩ := scanRuns_from (bitRealloc b fini) offset
  have text : fmtRangeLoop b offset fini offset none =
      textOf (runs.map fun run => (run.1 - offset, run.2 - offset)) := by
    rw [fmtRangeLoop_eq fits, scans, foldl_emit_textOf]
  rw [text, shifted_denotes_iff enters.after fits maximal]
  calc (∀ p, offset ≤ p → p < fini → bitTest b p = true → next ≤ p)
      ↔ ∀ p ∈ {p | offset ≤ p ∧ p < fini ∧ bitTest b p = true}, next ≤ p :=
        ⟨fun all p mem => all p mem.1 mem.2.1 mem.2.2,
          fun all p after less isSet => all p ⟨after, less, isSet⟩⟩
    _ ↔ ∀ p, IsLeast {p | offset ≤ p ∧ p < fini ∧ bitTest b p = true} p → next ≤ p :=
        forall_le_iff next
    _ ↔ _ := forall_congr' fun p => imp_congr_right fun least => entered_iff fits enters least

theorem finiBit_of_fits (b : Bitstr) (sumFits : offset + len < 2 ^ 31) :
    finiBit b offset len = min b.bits (offset + len) := by
  rw [finiBit, toInt32]
  omega

theorem finiBit_of_overflow (b : Bitstr) (offsetFits : offset < 2 ^ 31) (lenFits : len < 2 ^ 31)
    (overflows : ¬offset + len < 2 ^ 31) : finiBit b offset len = 0 := by
  rw [finiBit, toInt32]
  omega

end Text

/-- The text denotes the set bits of the part if and only if the part has none, or it ends
within 31 bits and the offset's word is not zero or lets the first of them be seen. -/
theorem bitFmtRange_denotes_iff (b : Bitstr) (offset len : Nat) (offsetFits : offset < 2 ^ 31)
    (lenFits : len < 2 ^ 31) :
    TextDenotes (bitFmtRange b offset len) (partBits b offset len) ↔
      ∀ p, IsLeast (partSet b offset len) p →
        offset + len < 2 ^ 31 ∧ (b.word offset ≠ 0 ∨ offset % 64 ≤ p % 64) := by
  rw [bitFmtRange]
  by_cases sumFits : offset + len < 2 ^ 31
  · have bits : partBits b offset len = {i | offset + i < min b.bits (offset + len) ∧
        bitTest b (offset + i) = true} := by
      ext i
      change (i < len ∧ offset + i < b.bits ∧ _) ↔ (offset + i < min b.bits (offset + len) ∧ _)
      rw [← and_assoc]
      exact and_congr_left fun _ => by omega
    have set : partSet b offset len = {p | offset ≤ p ∧ p < min b.bits (offset + len) ∧
        bitTest b p = true} := by
      ext p
      change (offset ≤ p ∧ p < offset + len ∧ p < b.bits ∧ _) ↔
        (offset ≤ p ∧ p < min b.bits (offset + len) ∧ _)
      rw [← and_assoc (a := p < offset + len)]
      exact and_congr_right fun _ => and_congr_left fun _ => by omega
    rw [finiBit_of_fits b sumFits, bits, fmtRangeLoop_denotes_iff (Nat.min_le_left _ _), set]
    exact forall_congr' fun p => imp_congr_right fun _ => (and_iff_right sumFits).symm
  · have none : ¬offset < 0 := Nat.not_lt_zero offset
    rw [finiBit_of_overflow b offsetFits lenFits sumFits, fmtRangeLoop, if_neg none]
    constructor
    · intro empty p least
      obtain ⟨after, less, inside, isSet⟩ := least.1
      have mem : p - offset ∈ partBits b offset len := by
        refine ⟨by omega, by omega, ?_⟩
        rwa [Nat.add_sub_cancel' after]
      rw [show partBits b offset len = ∅ from empty] at mem
      cases mem
    · intro fits
      refine Set.eq_empty_iff_forall_notMem.mpr fun i mem => ?_
      have inPart : offset + i ∈ partSet b offset len :=
        ⟨Nat.le_add_right _ _, by have := mem.1; omega, mem.2⟩
      have least : IsLeast (partSet b offset len) (sInf (partSet b offset len)) :=
        ⟨Nat.sInf_mem ⟨_, inPart⟩, fun _ other => Nat.sInf_le other⟩
      exact sumFits (fits _ least).1

/-- A bitmap of two words with the first bit of the second one set. -/
def secondWord : Bitstr where
  bits := 70
  words := [0, 1]
  length_words := rfl

theorem bitFmtRange_denotes_iff_aligned :
    TextDenotes (bitFmtRange secondWord 0 70) (partBits secondWord 0 70) ↔
      ∀ p, IsLeast (partSet secondWord 0 70) p →
        0 + 70 < 2 ^ 31 ∧ (secondWord.word 0 ≠ 0 ∨ 0 % 64 ≤ p % 64) :=
  bitFmtRange_denotes_iff secondWord 0 70 (by decide) (by decide)

/-- From position 1 on, the first bit of the second word is passed. -/
theorem bitFmtRange_denotes_fails : ¬∀ (b : Bitstr) (offset len : Nat), offset < 2 ^ 31 →
    len < 2 ^ 31 → TextDenotes (bitFmtRange b offset len) (partBits b offset len) := by
  intro denotes
  have text : bitFmtRange secondWord 1 69 = none := by decide +kernel
  have empty := denotes secondWord 1 69 (by decide) (by decide)
  rw [text] at empty
  have mem : 63 ∈ partBits secondWord 1 69 := ⟨by decide, by decide, by decide⟩
  rw [show partBits secondWord 1 69 = ∅ from empty] at mem
  cases mem

end SlurmSim.Common.Bitmap
