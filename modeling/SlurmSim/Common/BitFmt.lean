import Mathlib.Data.List.TakeWhile
import SlurmSim.Common.Bitmap
import SlurmSim.Lib.Numerals

/-!
# Bitmaps as ranges

Bitmaps travel as text such as `0-5,42` and as arrays of pairs that end with `-1`.
The empty bitmap has no text.
-/

namespace SlurmSim.Common.Bitmap

open SlurmSim.Lib.Numerals List

/-! ## Runs of set bits -/

/-- The last bit of the run that a set bit is in. -/
def runEnd (b : Bitstr) (bit : Nat) : Nat :=
  if bit + 1 < b.bits ∧ bitTest b (bit + 1) = true then runEnd b (bit + 1) else bit
termination_by b.bits - bit

theorem le_runEnd (b : Bitstr) (bit : Nat) : bit ≤ runEnd b bit := by
  fun_induction runEnd b bit with
  | case1 bit more ih => omega
  | case2 bit stops => exact le_rfl

/-- The loop of `bit_fmt_full` and `bitstr2inx` over the runs. -/
def scanRuns {σ : Type} (emit : σ → Nat → Nat → σ) (b : Bitstr) (bit : Nat) (state : σ) : σ :=
  if bit < b.bits then
    if b.word bit = 0 then scanRuns emit b (bit + 64) state
    else if bitTest b bit then scanRuns emit b (runEnd b bit + 1) (emit state bit (runEnd b bit))
    else scanRuns emit b (bit + 1) state
  else state
termination_by b.bits - bit
decreasing_by
  · omega
  · have := le_runEnd b bit
    omega
  · omega

/-! ## Formatting -/

/-- A decimal digit as text. -/
def digitChar (digit : Nat) : Char :=
  Char.ofNat (48 + digit)

/-- A number as text. -/
def decimal (n : Nat) : List Char :=
  (numeral 10 n).map digitChar

/-- One bit position, or a range. -/
def runText (start bit : Nat) : List Char :=
  if bit = start then decimal start else decimal start ++ '-' :: decimal bit

/-- `xstrfmtcat` of a run; `NULL` before the first. -/
def emitText (str : Option (List Char)) (start bit : Nat) : Option (List Char) :=
  match str with
  | none => some (runText start bit)
  | some str => some (str ++ ',' :: runText start bit)

/-- `bit_fmt_full` -/
def bitFmtFull (b : Bitstr) : Option (List Char) :=
  scanRuns emitText b 0 none

/-- `bitstr2inx` -/
def bitstr2inx (b : Bitstr) : List Int :=
  scanRuns (fun inx start bit => inx ++ [(start : Int), (bit : Int)]) b 0 [] ++ [-1]

/-! ## Parsing -/

/-- What `bitfmt2int` keeps while it reads. No position is larger than `maxBits`, so no
sum leaves the 32 bits. -/
structure Parse where
  startVal : Int
  sum : Int
  inx : List Int

/-- A character other than a separator. -/
def Parse.read (parse : Parse) (c : Char) : Parse :=
  if '0' ≤ c ∧ c ≤ '9' then { parse with sum := parse.sum * 10 + (c.toNat - 48 : Nat) }
  else if c = '-' then { parse with startVal := parse.sum, sum := 0 }
  else parse

/-- A separator or the end of the text. -/
def Parse.close (parse : Parse) : Parse :=
  let startVal := if parse.startVal = -1 then parse.sum else parse.startVal
  ⟨-1, 0, parse.inx ++ [startVal, parse.sum]⟩

/-- The loop of `bitfmt2int` from the second character on. -/
def parseLoop : List Char → Parse → Parse
  | [], parse => parse.close
  | c :: str, parse => parseLoop str (if c = ',' then parse.close else parse.read c)

/-- The loop of `bitfmt2int`; it ends at once at a separator in front. -/
def parseText : List Char → List Int
  | [] => []
  | c :: str => if c = ',' then [] else (parseLoop str (Parse.read ⟨-1, 0, []⟩ c)).inx

/-- `strtol` in base 10: the number and what follows it, after blanks and a sign. -/
def strtol (str : List Char) : Int × List Char :=
  let body := str.dropWhile fun c => c = ' ' ∨ ('\t' ≤ c ∧ c ≤ '\r')
  let (negative, body) : Bool × List Char :=
    match body with
    | '-' :: body => (true, body)
    | '+' :: body => (false, body)
    | body => (false, body)
  let digits := body.takeWhile fun c => '0' ≤ c ∧ c ≤ '9'
  let value : Int := readOn 10 0 (digits.map fun c => c.toNat - 48)
  let value := if negative then max (-value) (-2 ^ 63) else min value (2 ^ 63 - 1)
  if digits = [] then (0, str) else (value, body.drop digits.length)

theorem strtol_cons {c : Char} (digit : '0' ≤ c ∧ c ≤ '9') (str : List Char) :
    strtol (c :: str) = (min (readOn 10 0 (((c :: str).takeWhile fun c => '0' ≤ c ∧ c ≤ '9').map
          fun c => c.toNat - 48) : Int) (2 ^ 63 - 1),
        (c :: str).drop ((c :: str).takeWhile fun c => '0' ≤ c ∧ c ≤ '9').length) := by
  have other : ∀ d : Char, ¬ '0' ≤ d → c ≠ d := fun d below same => below (same ▸ digit.1)
  have noBlank : ¬ (c = ' ' ∨ ('\t' ≤ c ∧ c ≤ '\r')) := by
    rintro (blank | ⟨-, space⟩)
    · exact other ' ' (by decide) blank
    · exact absurd (Char.le_trans digit.1 space) (by decide)
  have body : (c :: str).dropWhile (fun c => c = ' ' ∨ ('\t' ≤ c ∧ c ≤ '\r')) = c :: str :=
    dropWhile_cons_of_neg (by simpa using noBlank)
  have digits : ((c :: str).takeWhile fun c => decide ('0' ≤ c ∧ c ≤ '9')) ≠ [] := by simp [digit]
  rw [strtol, body]
  split
  rename_i negative rest sign
  split at sign
  · rename_i head
    exact absurd (List.cons.inj head).1 (other '-' (by decide))
  · rename_i head
    exact absurd (List.cons.inj head).1 (other '+' (by decide))
  · obtain ⟨rfl, rfl⟩ := Prod.mk.inj sign
    exact if_neg digits

theorem strtol_digits {str : List Char} (nonempty : str ≠ [])
    (digits : ∀ c ∈ str, '0' ≤ c ∧ c ≤ '9') :
    strtol str = (min (readOn 10 0 (str.map fun c => c.toNat - 48) : Int) (2 ^ 63 - 1), []) := by
  obtain ⟨c, rest, rfl⟩ := exists_cons_of_ne_nil nonempty
  have all : (c :: rest).takeWhile (fun c => '0' ≤ c ∧ c ≤ '9') = c :: rest :=
    takeWhile_eq_self_iff.mpr fun d mem => decide_eq_true (digits d mem)
  rw [strtol_cons (digits c mem_cons_self), all, drop_length]

/-- A `long` as an `int32_t`. -/
def toInt32 (value : Int) : Int :=
  (value + 2 ^ 31) % 2 ^ 32 - 2 ^ 31

/-- The pairs of the step format. -/
def stepPairs (i endTaskId step : Int) : List Int :=
  if i < endTaskId ∧ 0 < step then i :: i :: stepPairs (i + step) endTaskId step else []
termination_by (endTaskId - i).toNat

/-- The step format; `none` is `NULL`. No overflow of its numbers is modelled. -/
def parseSteps (str : List Char) : Option (List Int) :=
  let (startTaskId, tmp) := strtol str
  match tmp with
  | '-' :: tmp =>
    let (endTaskId, tmp) := strtol tmp
    match tmp with
    | ':' :: tmp =>
      let (step, tmp) := strtol tmp
      if tmp ≠ [] ∨ toInt32 endTaskId < toInt32 startTaskId ∨ toInt32 step ≤ 0 then none
      else some (stepPairs (toInt32 startTaskId) (toInt32 endTaskId) (toInt32 step))
    | _ => none
  | _ => none

/-- `bitfmt2int`. The outer `none` is a size of the array that is no number of 32 bits,
the inner one is `NULL`. -/
def bitfmt2int : Option (List Char) → Option (Option (List Int))
  | none => some none
  | some str =>
    if ':' ∈ str then some ((parseSteps str).map (· ++ [-1]))
    else if 2 * (str.length + 1) + 1 < 2 ^ 31 then some (some (parseText str ++ [-1]))
    else none

/-- The loop of `inx2bitstr`; `none` if it runs off the array. -/
def inxLoop : List Int → Bitstr → Option (Int × Bitstr)
  | [], _ => none
  | p :: rest, b =>
    if p = -1 then some (0, b)
    else
      match rest with
      | [] => none
      | q :: rest =>
        if p < 0 ∨ b.bits ≤ p ∨ q < 0 ∨ b.bits ≤ q then some (-1, b)
        else inxLoop rest (bitNset p.toNat q.toNat b)

/-- `inx2bitstr` -/
def inx2bitstr (b : Bitstr) (inx : List Int) : Option (Int × Bitstr) :=
  inxLoop inx (bitNclear 0 (b.bits - 1) b)

/-- `bit_unfmt` -/
def bitUnfmt (b : Bitstr) (str : Option (List Char)) : Option (Int × Bitstr) :=
  if str = none ∨ str = some [] then some (0, b)
  else
    match bitfmt2int str with
    | none => none
    | some none => some (-1, b)
    | some (some intvec) => inx2bitstr b intvec

/-! ## The runs that the loops find -/

section Runs

variable {b c after : Bitstr} {bit : Nat}

/-- The maximal runs of set bits from a position on, in order. -/
structure MaximalRuns (b : Bitstr) (bit : Nat) (runs : List (Nat × Nat)) : Prop where
  apart : runs.Pairwise fun run next => run.2 + 1 < next.1
  isSet : ∀ run ∈ runs, bit ≤ run.1 ∧ run.1 ≤ run.2 ∧ run.2 < b.bits ∧
    ∀ i, run.1 ≤ i → i ≤ run.2 → bitTest b i = true
  covers : ∀ i, bit ≤ i → i < b.bits → bitTest b i = true →
    ∃ run ∈ runs, run.1 ≤ i ∧ i ≤ run.2

theorem MaximalRuns.skip {next : Nat} {runs : List (Nat × Nat)} (maximal : MaximalRuns b next runs)
    (le : bit ≤ next) (clear : ∀ i, bit ≤ i → i < next → i < b.bits → bitTest b i = false) :
    MaximalRuns b bit runs where
  apart := maximal.apart
  isSet := by
    intro run mem
    obtain ⟨start, rest⟩ := maximal.isSet run mem
    exact ⟨le.trans start, rest⟩
  covers := by
    intro i least inside isSet
    by_cases early : i < next
    · rw [clear i least early inside] at isSet
      cases isSet
    · exact maximal.covers i (not_lt.mp early) inside isSet

theorem runEnd_spec (isSet : bitTest b bit = true) (mem : bit < b.bits) :
    runEnd b bit < b.bits ∧ (∀ i, bit ≤ i → i ≤ runEnd b bit → bitTest b i = true) ∧
      ¬(runEnd b bit + 1 < b.bits ∧ bitTest b (runEnd b bit + 1) = true) := by
  fun_induction runEnd b bit with
  | case1 bit more ih =>
    obtain ⟨last, all, stops⟩ := ih more.2 more.1
    refine ⟨last, fun i least most => ?_, stops⟩
    rcases eq_or_lt_of_le least with same | later
    · exact same ▸ isSet
    · exact all i later most
  | case2 bit stops =>
    refine ⟨mem, fun i least most => ?_, stops⟩
    rw [le_antisymm most least]
    exact isSet

theorem MaximalRuns.cons {runs : List (Nat × Nat)} (isSet : bitTest b bit = true)
    (inside : bit < b.bits) (maximal : MaximalRuns b (runEnd b bit + 1) runs) :
    MaximalRuns b bit ((bit, runEnd b bit) :: runs) := by
  obtain ⟨last, all, stops⟩ := runEnd_spec isSet inside
  have le := le_runEnd b bit
  refine ⟨pairwise_cons.mpr ⟨fun next mem => ?_, maximal.apart⟩, fun run mem => ?_,
    fun i least less test => ?_⟩
  · obtain ⟨start, order, end_lt, allSet⟩ := maximal.isSet next mem
    refine lt_of_le_of_ne start fun same => stops ?_
    rw [same]
    exact ⟨by omega, allSet next.1 le_rfl order⟩
  · rcases mem_cons.mp mem with rfl | mem
    · exact ⟨le_rfl, le, last, all⟩
    · obtain ⟨start, rest⟩ := maximal.isSet run mem
      exact ⟨by omega, rest⟩
  · by_cases early : i ≤ runEnd b bit
    · exact ⟨_, mem_cons_self, least, early⟩
    · obtain ⟨run, mem, within⟩ := maximal.covers i (by omega) less test
      exact ⟨run, mem_cons_of_mem _ mem, within⟩

theorem word_ne_zero {i : Nat} (isSet : bitTest b i = true) : b.word i ≠ 0 := by
  intro zero
  rw [bitTest, zero] at isSet
  change (0#64).getLsbD _ = true at isSet
  rw [BitVec.getLsbD_zero] at isSet
  cases isSet

/-- The loops go from run to run. Within a word they stop only if it is not zero, so a
skip starts at the first bit of a word. -/
theorem scanRuns_spec (b : Bitstr) (bit : Nat) (entered : bit % 64 ≠ 0 → b.word bit ≠ 0) :
    ∃ runs, MaximalRuns b bit runs ∧ ∀ {σ : Type} (emit : σ → Nat → Nat → σ) (state : σ),
        scanRuns emit b bit state = runs.foldl (fun state run => emit state run.1 run.2) state := by
  induction distance : b.bits - bit using Nat.strong_induction_on generalizing bit with
  | _ distance ih =>
    by_cases inside : bit < b.bits
    · by_cases zero : b.word bit = 0
      · have aligned : bit % 64 = 0 := by
          by_contra within
          exact entered within zero
        obtain ⟨runs, maximal, scans⟩ :=
          ih (b.bits - (bit + 64)) (by omega) (bit + 64) (by omega) rfl
        refine ⟨runs, maximal.skip (by omega) fun i least less _ => ?_, fun emit state => ?_⟩
        · have word : b.word i = b.word bit := by
            rw [Bitstr.word, Bitstr.word, show i / 64 = bit / 64 by omega]
          rw [bitTest, word, zero]
          exact BitVec.getLsbD_zero
        · rw [scanRuns, if_pos inside, if_pos zero, scans]
      · by_cases isSet : bitTest b bit = true
        · obtain ⟨last, all, -⟩ := runEnd_spec isSet inside
          have le := le_runEnd b bit
          have ended := word_ne_zero (all (runEnd b bit) le le_rfl)
          have within : (runEnd b bit + 1) % 64 ≠ 0 → b.word (runEnd b bit + 1) ≠ 0 := by
            intro more
            rwa [Bitstr.word, show (runEnd b bit + 1) / 64 = runEnd b bit / 64 by omega,
              ← Bitstr.word]
          obtain ⟨runs, maximal, scans⟩ := ih (b.bits - (runEnd b bit + 1)) (by omega)
            (runEnd b bit + 1) within rfl
          refine ⟨_, maximal.cons isSet inside, fun emit state => ?_⟩
          rw [scanRuns, if_pos inside, if_neg zero, if_pos isSet, scans, foldl_cons]
        · have within : (bit + 1) % 64 ≠ 0 → b.word (bit + 1) ≠ 0 := by
            intro more
            rwa [Bitstr.word, show (bit + 1) / 64 = bit / 64 by omega, ← Bitstr.word]
          obtain ⟨runs, maximal, scans⟩ :=
            ih (b.bits - (bit + 1)) (by omega) (bit + 1) within rfl
          refine ⟨runs, maximal.skip (by omega) fun i least less _ => ?_, fun emit state => ?_⟩
          · rw [show i = bit by omega]
            exact Bool.eq_false_iff.mpr isSet
          · rw [scanRuns, if_pos inside, if_neg zero, if_neg isSet, scans]
    · refine ⟨[], ⟨.nil, fun _ mem => absurd mem not_mem_nil, fun i least less => ?_⟩,
        fun emit state => ?_⟩
      · omega
      · rw [scanRuns, if_neg inside, foldl_nil]

end Runs

/-! ## Text -/

section Text

variable {runs : List (Nat × Nat)}

/-- The runs behind the first one as text. -/
def moreText (runs : List (Nat × Nat)) : List Char :=
  runs.flatMap fun run => ',' :: runText run.1 run.2

/-- The pairs of an array, without its end. -/
def pairs (runs : List (Nat × Nat)) : List Int :=
  runs.flatMap fun run => [(run.1 : Int), (run.2 : Int)]

theorem foldl_emitText (str : List Char) (runs : List (Nat × Nat)) :
    runs.foldl (fun str run => emitText str run.1 run.2) (some str) =
      some (str ++ moreText runs) := by
  induction runs generalizing str with
  | nil => rw [foldl_nil, moreText, flatMap_nil, append_nil]
  | cons run runs ih =>
    rw [foldl_cons, emitText, ih, moreText, moreText, flatMap_cons, append_assoc]

theorem foldl_pairs (inx : List Int) (runs : List (Nat × Nat)) :
    runs.foldl (fun inx run => inx ++ [(run.1 : Int), (run.2 : Int)]) inx = inx ++ pairs runs := by
  induction runs generalizing inx with
  | nil => rw [foldl_nil, pairs, flatMap_nil, append_nil]
  | cons run runs ih =>
    rw [foldl_cons, ih, pairs, pairs, flatMap_cons, append_assoc]

/-- The number of digits of a number. -/
def digitCount (n : Nat) : Nat :=
  (numeral 10 n).length

/-- The characters of a run as text, and one behind it. -/
def runLength (run : Nat × Nat) : Nat :=
  (if run.2 = run.1 then digitCount run.1 else digitCount run.1 + 1 + digitCount run.2) + 1

theorem length_runText (run : Nat × Nat) : (runText run.1 run.2).length + 1 = runLength run := by
  rw [runText, runLength]
  split_ifs
  · rw [decimal, length_map, digitCount]
  · rw [length_append, length_cons, decimal, decimal, length_map, length_map,
      digitCount, digitCount]
    omega

theorem length_moreText (runs : List (Nat × Nat)) :
    (moreText runs).length = (runs.map runLength).sum := by
  rw [moreText, length_flatMap]
  congr 1
  refine map_congr_left fun run _ => ?_
  rw [length_cons, length_runText]

theorem digitChar_spec {digit : Nat} (small : digit < 10) :
    ('0' ≤ digitChar digit ∧ digitChar digit ≤ '9') ∧ (digitChar digit).toNat - 48 = digit ∧
      digitChar digit ≠ ',' ∧ digitChar digit ≠ ':' := by
  revert digit
  decide

theorem parseLoop_digits (digits : List Nat) (small : ∀ digit ∈ digits, digit < 10)
    (startVal : Int) (sum : Nat) (inx : List Int) (rest : List Char) :
    parseLoop (digits.map digitChar ++ rest) ⟨startVal, sum, inx⟩ =
      parseLoop rest ⟨startVal, readOn 10 sum digits, inx⟩ := by
  induction digits generalizing sum with
  | nil => rfl
  | cons digit digits ih =>
    obtain ⟨here, others⟩ := forall_mem_cons.mp small
    obtain ⟨isDigit, value, comma, -⟩ := digitChar_spec here
    have next := ih others (sum * 10 + digit)
    rw [map_cons, cons_append, parseLoop, if_neg comma, Parse.read, if_pos isDigit, value]
    exact next

theorem parseLoop_decimal (startVal : Int) (n : Nat) (inx : List Int) (rest : List Char) :
    parseLoop (decimal n ++ rest) ⟨startVal, 0, inx⟩ = parseLoop rest ⟨startVal, n, inx⟩ := by
  have digits := parseLoop_digits (numeral 10 n)
    (fun _ => lt_of_mem_numeral (show 1 < 10 by omega)) startVal 0 inx rest
  rw [read_numeral] at digits
  exact digits

theorem parseLoop_runText (start bit : Nat) (inx : List Int) (rest : List Char) :
    ∃ parse : Parse, parseLoop (runText start bit ++ rest) ⟨-1, 0, inx⟩ = parseLoop rest parse ∧
      parse.close = ⟨-1, 0, inx ++ [(start : Int), (bit : Int)]⟩ := by
  rw [runText]
  split_ifs with same
  · refine ⟨⟨-1, start, inx⟩, parseLoop_decimal _ _ _ _, ?_⟩
    rw [Parse.close, if_pos rfl, same]
  · refine ⟨⟨start, bit, inx⟩, ?_, ?_⟩
    · rw [append_assoc, parseLoop_decimal, cons_append, parseLoop, if_neg (by decide),
        Parse.read, if_neg (by decide), if_pos rfl, parseLoop_decimal]
    · rw [Parse.close, if_neg (by simp only; omega)]

theorem parseLoop_text (run : Nat × Nat) (runs : List (Nat × Nat)) (inx : List Int) :
    (parseLoop (runText run.1 run.2 ++ moreText runs) ⟨-1, 0, inx⟩).inx =
      inx ++ pairs (run :: runs) := by
  induction runs generalizing run inx with
  | nil =>
    obtain ⟨parse, reads, closes⟩ := parseLoop_runText run.1 run.2 inx (moreText [])
    rw [reads, moreText, flatMap_nil, parseLoop, closes]
    rfl
  | cons next runs ih =>
    obtain ⟨parse, reads, closes⟩ := parseLoop_runText run.1 run.2 inx (moreText (next :: runs))
    have text : moreText (next :: runs) = ',' :: (runText next.1 next.2 ++ moreText runs) := rfl
    rw [reads, text, parseLoop, if_pos rfl, closes, ih, append_assoc]
    rfl

theorem decimal_cons (n : Nat) : ∃ digit digits, digit < 10 ∧
    decimal n = digitChar digit :: digits := by
  cases numerals : numeral 10 n with
  | nil => exact absurd numerals (numeral_ne_nil 10 n)
  | cons digit digits =>
    refine ⟨digit, digits.map digitChar, ?_, ?_⟩
    · exact lt_of_mem_numeral (by omega) (numerals ▸ mem_cons_self)
    · rw [decimal, numerals, map_cons]

theorem runText_cons (start bit : Nat) : ∃ c str, c ≠ ',' ∧ runText start bit = c :: str := by
  obtain ⟨digit, digits, small, isDecimal⟩ := decimal_cons start
  rw [runText, isDecimal]
  split_ifs
  · exact ⟨_, _, (digitChar_spec small).2.2.1, rfl⟩
  · exact ⟨_, _, (digitChar_spec small).2.2.1, rfl⟩

theorem parseText_text (run : Nat × Nat) (runs : List (Nat × Nat)) :
    parseText (runText run.1 run.2 ++ moreText runs) = pairs (run :: runs) := by
  have loop := parseLoop_text run runs []
  obtain ⟨c, str, comma, text⟩ := runText_cons run.1 run.2
  rw [text, cons_append, parseLoop, if_neg comma] at loop
  rw [text, cons_append, parseText, if_neg comma, loop, nil_append]

theorem colon_not_mem_decimal (n : Nat) : ':' ∉ decimal n := by
  intro mem
  obtain ⟨digit, isDigit, colon⟩ := mem_map.mp mem
  exact (digitChar_spec (lt_of_mem_numeral (by omega) isDigit)).2.2.2 colon

theorem colon_not_mem_runText (start bit : Nat) : ':' ∉ runText start bit := by
  rw [runText]
  split_ifs
  · exact colon_not_mem_decimal start
  · simp [colon_not_mem_decimal]

theorem colon_not_mem_text (run : Nat × Nat) (runs : List (Nat × Nat)) :
    ':' ∉ runText run.1 run.2 ++ moreText runs := by
  simp [moreText, colon_not_mem_runText]

end Text

/-! ## There and back -/

section RoundTrip

variable {b c : Bitstr} {runs : List (Nat × Nat)}

theorem inxLoop_pairs (runs : List (Nat × Nat)) (b : Bitstr)
    (mem : ∀ run ∈ runs, run.1 ≤ run.2 ∧ run.2 < b.bits) :
    ∃ after, inxLoop (pairs runs ++ [-1]) b = some (0, after) ∧
      Writes true (fun i => ∃ run ∈ runs, run.1 ≤ i ∧ i ≤ run.2) b after := by
  induction runs generalizing b with
  | nil => exact ⟨b, rfl, (Writes.refl true b).congr fun i => by simp⟩
  | cons run runs ih =>
    obtain ⟨here, others⟩ := forall_mem_cons.mp mem
    have first : Writes true (fun i => run.1 ≤ i ∧ i ≤ run.2) b (bitNset run.1 run.2 b) :=
      bitNset_writes here.2
    obtain ⟨after, loops, writes⟩ := ih (bitNset run.1 run.2 b) (by rw [first.bits]; exact others)
    have array : pairs (run :: runs) ++ [-1] =
        (run.1 : Int) :: (run.2 : Int) :: (pairs runs ++ [-1]) := rfl
    refine ⟨after, ?_, (first.trans writes).congr fun i => by simp⟩
    rw [array, inxLoop, if_neg (by omega), if_neg (by omega), Int.toNat_natCast, Int.toNat_natCast, loops]

theorem inx2bitstr_pairs (same : c.bits = b.bits) (pos : 0 < b.bits)
    (maximal : MaximalRuns b 0 runs) :
    ∃ after, inx2bitstr c (pairs runs ++ [-1]) = some (0, after) ∧ after.bits = b.bits ∧
      ∀ i < b.bits, bitTest after i = bitTest b i := by
  have clears : Writes false (fun i => 0 ≤ i ∧ i ≤ c.bits - 1) c (bitNclear 0 (c.bits - 1) c) :=
    bitNclear_writes (by omega)
  obtain ⟨after, loops, writes⟩ := inxLoop_pairs runs (bitNclear 0 (c.bits - 1) c) fun run mem => by
    obtain ⟨-, order, less, -⟩ := maximal.isSet run mem
    rw [clears.bits, same]
    exact ⟨order, less⟩
  refine ⟨after, loops, ?_, fun i inside => ?_⟩
  · rw [writes.bits, clears.bits, same]
  · by_cases covered : ∃ run ∈ runs, run.1 ≤ i ∧ i ≤ run.2
    · obtain ⟨run, mem, start, stop⟩ := covered
      rw [writes.inside i ⟨run, mem, start, stop⟩, (maximal.isSet run mem).2.2.2 i start stop]
    · have clear : bitTest b i = false :=
        Bool.eq_false_iff.mpr fun isSet => covered (maximal.covers i (Nat.zero_le i) inside isSet)
      rw [writes.outside i covered, clears.inside i ⟨Nat.zero_le i, by omega⟩, clear]

/-- The text and the array of a bitmap bring it back, and the array is that of the text. -/
structure RoundTrips (b c : Bitstr) (runs : List (Nat × Nat)) : Prop where
  unfmt : ∃ after, bitUnfmt c (bitFmtFull b) = some (0, after) ∧
    ∀ i < b.bits, bitTest after i = bitTest b i
  inx : ∃ after, inx2bitstr c (bitstr2inx b) = some (0, after) ∧
    ∀ i < b.bits, bitTest after i = bitTest b i
  ints : bitfmt2int (bitFmtFull b) = some (some (pairs runs ++ [-1]))
  array : bitstr2inx b = pairs runs ++ [-1]

/-- A bitmap comes back just if a bit is set and its text is shorter than `2 ^ 30 - 1`. -/
theorem rangeText_roundTrips_iff (b c : Bitstr) (same : c.bits = b.bits) (positive : 0 < b.bits) :
    ∃ runs, MaximalRuns b 0 runs ∧ (RoundTrips b c runs ↔ (∃ i < b.bits, bitTest b i = true) ∧
        (runs.map runLength).sum < 2 ^ 30) := by
  obtain ⟨runs, maximal, scans⟩ := scanRuns_spec b 0 (fun absurd => (absurd rfl).elim)
  refine ⟨runs, maximal, ?_⟩
  have array : bitstr2inx b = pairs runs ++ [-1] := by
    rw [bitstr2inx, scans, foldl_pairs, nil_append]
  obtain ⟨filled, inx, -, bits⟩ := inx2bitstr_pairs same positive maximal
  have format : bitFmtFull b = runs.foldl (fun str run => emitText str run.1 run.2) none :=
    scans emitText none
  cases runs with
  | nil =>
    refine iff_of_false ?_ ?_
    · intro trips
      have ints := trips.ints
      rw [format] at ints
      cases ints
    · rintro ⟨⟨i, less, isSet⟩, -⟩
      obtain ⟨run, mem, -⟩ := maximal.covers i (Nat.zero_le i) less isSet
      exact absurd mem not_mem_nil
  | cons run runs =>
    rw [foldl_cons, emitText, foldl_emitText] at format
    have strlen : (runText run.1 run.2 ++ moreText runs).length + 1 =
        ((run :: runs).map runLength).sum := by
      rw [length_append, length_moreText, map_cons, sum_cons, ← length_runText]
      omega
    have nonempty : ∃ i < b.bits, bitTest b i = true := by
      obtain ⟨-, order, less, all⟩ := maximal.isSet run mem_cons_self
      exact ⟨run.1, by omega, all run.1 le_rfl order⟩
    have parsed : bitfmt2int (bitFmtFull b) =
        if 2 * ((runText run.1 run.2 ++ moreText runs).length + 1) + 1 < 2 ^ 31 then
          some (some (pairs (run :: runs) ++ [-1]))
        else none := by
      rw [format, bitfmt2int, if_neg (colon_not_mem_text run runs), parseText_text]
    rw [strlen] at parsed
    have full : ¬(bitFmtFull b = none ∨ bitFmtFull b = some []) := by
      obtain ⟨c, str, -, text⟩ := runText_cons run.1 run.2
      rw [format, text]
      simp
    constructor
    · intro trips
      refine ⟨nonempty, ?_⟩
      by_contra long
      have ints := trips.ints
      rw [parsed, if_neg (by omega)] at ints
      cases ints
    · rintro ⟨-, short⟩
      rw [if_pos (by omega)] at parsed
      refine ⟨⟨filled, ?_, bits⟩, ⟨filled, ?_, bits⟩, parsed, array⟩
      · rw [bitUnfmt, if_neg full, parsed]
        exact inx
      · rw [array]
        exact inx

theorem rangeText_roundTrips_three : ∃ runs, MaximalRuns (bitSet 2 (bitAlloc 3)) 0 runs ∧
    (RoundTrips (bitSet 2 (bitAlloc 3)) (bitAlloc 3) runs ↔
      (∃ i < 3, bitTest (bitSet 2 (bitAlloc 3)) i = true) ∧ (runs.map runLength).sum < 2 ^ 30) :=
  rangeText_roundTrips_iff (bitSet 2 (bitAlloc 3)) (bitAlloc 3) rfl (by decide)

/-- The empty bitmap of size 1 does not clear a bit that was set before. -/
theorem rangeText_roundTrips_fails : ¬∀ b c : Bitstr, c.bits = b.bits → 0 < b.bits →
    ∃ runs, MaximalRuns b 0 runs ∧ RoundTrips b c runs := by
  intro trips
  obtain ⟨runs, -, trips⟩ := trips (bitAlloc 1) (bitSet 0 (bitAlloc 1)) rfl (by decide)
  have format : bitFmtFull (bitAlloc 1) = none := by
    rw [bitFmtFull, scanRuns, if_pos (by decide), if_pos (by decide), scanRuns, if_neg (by decide)]
  obtain ⟨after, unfmt, bits⟩ := trips.unfmt
  rw [format] at unfmt
  cases unfmt
  have bit := bits 0 (by decide)
  revert bit
  decide

end RoundTrip

end SlurmSim.Common.Bitmap
