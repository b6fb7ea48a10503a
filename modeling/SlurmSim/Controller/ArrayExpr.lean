import SlurmSim.Common.BitFmt

/-!
# Job array expressions

The task ids of a job array are given as text, one token of which is `N`, `N-M` or
`N-M:S`.  The numbers are read with `strtol` and cut to `int`, and the loop that sets the
bits counts in `int` too.
-/

namespace SlurmSim.Controller.ArrayExpr

open SlurmSim.Common.Bitmap SlurmSim.Lib.Numerals

/-! ## The code -/

/-- What `_parse_array_tok` does with the bitmap; an index behind the last `int` belongs
to no bitmap. -/
inductive TokResult where
  | rejected
  | accepted (array : Bitstr)
  | overflow

/-- The text behind one bracket, if it starts with it. -/
def strip (bracket : Char) : List Char → List Char
  | [] => []
  | c :: text => if c = bracket then text else c :: text

/-- `end_ptr[0]` is the end of the text or `%`. -/
def atEnd : List Char → Bool
  | [] => true
  | c :: _ => c = '%'

/-- `strtol` into an `int`, and the text behind it and one closing bracket. -/
def readInt (text : List Char) : Int × List Char :=
  let (value, endPtr) := strtol text
  (toInt32 value, strip ']' endPtr)

/-- The loop that sets the bits. -/
def setLoop (i last step : Nat) (array : Bitstr) : TokResult :=
  if i ≤ last ∧ 0 < step then
    if i + step < 2 ^ 31 then setLoop (i + step) last step (bitSet i array) else .overflow
  else .accepted array
termination_by last + 1 - i

/-- The last check of `_parse_array_tok` and the loop. -/
def setBits (first last step : Int) (array : Bitstr) (max : Nat) : TokResult :=
  if (max : Int) ≤ last then .rejected
  else setLoop first.toNat last.toNat step.toNat array

/-- `_parse_array_tok` -/
def parseArrayTok (tok : List Char) (array : Bitstr) (max : Nat) : TokResult :=
  let (first, endPtr) := readInt (strip '[' tok)
  if first < 0 then .rejected
  else
    match endPtr with
    | '-' :: text =>
      let (last, endPtr) := readInt text
      match endPtr with
      | ':' :: text =>
        let (step, endPtr) := readInt text
        if ¬atEnd endPtr then .rejected
        else if step ≤ 0 then .rejected
        else if last < first then .rejected
        else setBits first last step array max
      | endPtr =>
        if ¬atEnd endPtr then .rejected
        else if last < first then .rejected
        else setBits first last 1 array max
    | endPtr => if ¬atEnd endPtr then .rejected else setBits first first 1 array max

/-- `strtok_r` with `","` -/
def tokens (text : List Char) : List (List Char) :=
  (text.splitOnP fun c => c = ',').filter fun token => token ≠ []

/-- The loop over the tokens, with the value of `valid`; `none` if it leaves the bitmap. -/
def parseTokens (max : Nat) : List (List Char) → Bitstr → Option (Bool × Bitstr)
  | [], array => some (true, array)
  | tok :: rest, array =>
    match parseArrayTok tok array max with
    | .rejected => some (false, array)
    | .accepted array => parseTokens max rest array
    | .overflow => none

/-- `bit_set_count` -/
def bitSetCount (b : Bitstr) : Nat :=
  (List.range b.bits).countP fun bit => bitTest b bit

/-- The fields of a job's description that `_valid_array_inx` uses. -/
structure JobDesc where
  arrayInx : Option (List Char)
  script : Option (List Char)
  immediate : Nat
  arrayBitmap : Option Bitstr

/-- A string that is `NULL` or empty. -/
def blank (text : Option (List Char)) : Bool :=
  text.getD [] = []

/-- `_valid_array_inx`, for the configured `MaxArraySize` and the value of
`max_array_tasks`, which is the array size if it is not configured. -/
def validArrayInx (maxArraySize maxTaskCnt : Nat) (desc : JobDesc) : Option (Bool × JobDesc) :=
  let desc := { desc with arrayBitmap := none }
  if blank desc.arrayInx then some (true, desc)
  else if blank desc.script then some (false, desc)
  else if maxArraySize = 0 then some (false, desc)
  else
    match parseTokens maxArraySize (tokens (desc.arrayInx.getD [])) (bitAlloc maxArraySize) with
    | none => none
    | some (valid, array) =>
      let tooMany := maxTaskCnt < maxArraySize ∧ maxTaskCnt < bitSetCount array
      some (valid && !tooMany, { desc with immediate := 0, arrayBitmap := some array })

/-! ## Expressions -/

/-- A non-empty run of digits in front, as a number without bound, and the text behind. -/
def number (text : List Char) : Option (Nat × List Char) :=
  let digits := text.takeWhile fun c => '0' ≤ c ∧ c ≤ '9'
  if digits = [] then none
  else some (readOn 10 0 (digits.map fun c => c.toNat - 48), text.drop digits.length)

/-- Nothing, or a closing bracket, and then the end or a limit behind `%`. -/
def closes (text : List Char) : Bool :=
  atEnd (strip ']' text)

/-- Last and step behind the first number of an expression. -/
def denotedRest (first : Nat) (text : List Char) : Option (Nat × Nat) :=
  if closes text then some (first, 1)
  else
    match text with
    | '-' :: text =>
      match number text with
      | none => none
      | some (last, text) =>
        if closes text then some (last, 1)
        else
          match text with
          | ':' :: text =>
            match number text with
            | none => none
            | some (step, text) => if closes text then some (last, step) else none
          | _ => none
    | _ => none

/-- First, last and step of an expression `N`, `N-M` or `N-M:S`. -/
def denoted (tok : List Char) : Option (Nat × Nat × Nat) :=
  match number (strip '[' tok) with
  | none => none
  | some (first, text) =>
    (denotedRest first text).map fun (last, step) => (first, last, step)

/-- The expression denotes task ids below the array size. -/
def Proper (max : Nat) (tok : List Char) (first last step : Nat) : Prop :=
  denoted tok = some (first, last, step) ∧ first ≤ last ∧ last < max ∧ 1 ≤ step

/-- The task ids of a range with a step. -/
def Progression (first last step : Nat) (bit : Nat) : Prop :=
  (∃ count, bit = first + count * step) ∧ bit ≤ last

/-- A token is accepted exactly when it denotes task ids, and then it sets their bits. -/
structure TokRight (max : Nat) (tok : List Char) (array : Bitstr) : Prop where
  reject : (¬∃ first last step, Proper max tok first last step) →
    parseArrayTok tok array max = .rejected
  accept : ∀ first last step, Proper max tok first last step → ∃ after,
    parseArrayTok tok array max = .accepted after ∧
      Writes true (Progression first last step) array after

/-- A number as it ends up in an `int`. -/
def cut (n : Nat) : Int :=
  toInt32 (min n (2 ^ 63 - 1))

/-- Last and step behind the first number, as they end up in an `int`, when the text
between and behind them is that of an expression. -/
def readRest (first : Int) (text : List Char) : Option (Int × Int) :=
  if atEnd text then some (first, 1)
  else
    match text with
    | '-' :: text =>
      let (last, text) := readInt text
      if atEnd text then some (last, 1)
      else
        match text with
        | ':' :: text =>
          let (step, text) := readInt text
          if atEnd text then some (last, step) else none
        | _ => none
    | _ => none

/-- The numbers of a token as they end up in an `int`. -/
def readNumbers (tok : List Char) : Option (Int × Int × Int) :=
  let (first, text) := readInt (strip '[' tok)
  (readRest first text).map fun (last, step) => (first, last, step)

/-- A token denotes a task id. -/
def Denotes (max : Nat) (tok : List Char) (bit : Nat) : Prop :=
  ∃ first last step, Proper max tok first last step ∧ Progression first last step bit

/-- The union of the denoted sets, or a rejection: for a token that denotes nothing, for a
job without a script, or for too many tasks. -/
structure RequestRight (maxArraySize maxTaskCnt : Nat) (desc : JobDesc) (valid : Bool)
    (after : JobDesc) : Prop where
  union : valid = true → blank desc.arrayInx = false →
    ∃ b, after.arrayBitmap = some b ∧ b.bits = maxArraySize ∧
      ∀ bit, bitTest b bit = true ↔
        ∃ tok ∈ tokens (desc.arrayInx.getD []), Denotes maxArraySize tok bit
  valid_iff : valid = true ↔ blank desc.arrayInx = true ∨
    (blank desc.script = false ∧
      (∀ tok ∈ tokens (desc.arrayInx.getD []),
        ∃ first last step, Proper maxArraySize tok first last step) ∧
      ∀ b, after.arrayBitmap = some b → maxTaskCnt < maxArraySize → bitSetCount b ≤ maxTaskCnt)

/-- The numbers are out of the ranges that are checked. -/
def OutOfRange (max : Nat) (first last step : Int) : Prop :=
  first < 0 ∨ step ≤ 0 ∨ last < first ∨ (max : Int) ≤ last

/-- Task ids are denoted: the step fits in an `int` or is not needed, and the index behind
the last task id fits too.  None are denoted: what is read as an `int` is out of range. -/
structure TokSafe (max : Nat) (tok : List Char) : Prop where
  proper : ∀ first last step, Proper max tok first last step →
    0 < cut step ∧ (cut step = step ∨ last < first + cut step) ∧
      first + ((last - first) / (cut step).toNat + 1) * (cut step).toNat < 2 ^ 31
  improper : (¬∃ first last step, Proper max tok first last step) →
    ∀ first last step, readNumbers tok = some (first, last, step) → OutOfRange max first last step

/-! ## Numbers -/

variable {text rest : List Char} {n : Nat} {first : Int}

theorem number_strtol (plain : number text = some (n, rest)) :
    strtol text = (min (n : Int) (2 ^ 63 - 1), rest) := by
  cases text with
  | nil => simp [number] at plain
  | cons c text =>
    by_cases digit : '0' ≤ c ∧ c ≤ '9'
    · have digits : ((c :: text).takeWhile fun c => decide ('0' ≤ c ∧ c ≤ '9')) ≠ [] := by
        simp [digit]
      simp only [number] at plain
      rw [if_neg digits, Option.some.injEq, Prod.mk.injEq] at plain
      rw [strtol_cons digit, ← plain.1, ← plain.2]
    · simp [number, List.takeWhile_cons_of_neg, digit] at plain

theorem number_readInt (plain : number text = some (n, rest)) :
    readInt text = (cut n, strip ']' rest) := by
  rw [readInt, number_strtol plain, cut]

theorem cut_of_lt (small : n < 2 ^ 31) : cut n = n := by
  rw [cut, min_eq_left (by omega), toInt32]
  omega

theorem readRest_denoted {first last step : Nat}
    (denotes : denotedRest first text = some (last, step)) :
    readRest (cut first) (strip ']' text) = some (cut last, cut step) := by
  have one : cut 1 = 1 := cut_of_lt (by decide)
  unfold denotedRest at denotes
  unfold readRest
  by_cases ends : closes text = true
  · rw [if_pos ends] at denotes
    obtain ⟨rfl, rfl⟩ : first = last ∧ 1 = step := by simpa using denotes
    rw [if_pos (by exact ends), one]
  · rw [if_neg ends] at denotes
    rw [if_neg (by exact ends)]
    split at denotes
    · rename_i text
      have dash : strip ']' ('-' :: text) = '-' :: text := rfl
      simp only [dash]
      cases plain : number text with
      | none =>
        rw [plain] at denotes
        cases denotes
      | some found =>
        obtain ⟨m, text⟩ := found
        simp only [plain, number_readInt plain] at denotes ⊢
        by_cases ends : closes text = true
        · rw [if_pos ends] at denotes
          obtain ⟨rfl, rfl⟩ : m = last ∧ 1 = step := by simpa using denotes
          rw [if_pos (by exact ends), one]
        · rw [if_neg ends] at denotes
          rw [if_neg (by exact ends)]
          split at denotes
          · rename_i text
            have colon : strip ']' (':' :: text) = ':' :: text := rfl
            simp only [colon]
            cases plain : number text with
            | none =>
              rw [plain] at denotes
              cases denotes
            | some found =>
              obtain ⟨s, text⟩ := found
              simp only [plain, number_readInt plain] at denotes ⊢
              split_ifs at denotes with ends
              obtain ⟨rfl, rfl⟩ : m = last ∧ s = step := by simpa using denotes
              rw [if_pos (by exact ends)]
          · cases denotes
    · cases denotes

theorem readNumbers_denoted {tok : List Char} {first last step : Nat}
    (denotes : denoted tok = some (first, last, step)) :
    readNumbers tok = some (cut first, cut last, cut step) := by
  rw [denoted] at denotes
  cases plain : number (strip '[' tok) with
  | none =>
    rw [plain] at denotes
    cases denotes
  | some found =>
    obtain ⟨n, text⟩ := found
    simp only [plain] at denotes
    obtain ⟨⟨m, s⟩, rest, same⟩ := Option.map_eq_some_iff.mp denotes
    obtain ⟨rfl, rfl, rfl⟩ : n = first ∧ m = last ∧ s = step := by simpa using same
    simp only [readNumbers, number_readInt plain, readRest_denoted rest, Option.map_some]

theorem readRest_single (single : ∀ rest, text ≠ '-' :: rest) :
    readRest first text = if atEnd text then some (first, 1) else none := by
  unfold readRest
  split
  · rfl
  · split
    · exact absurd rfl (single _)
    · rfl

theorem readRest_range {last : Int} (read : readInt text = (last, rest))
    (range : ∀ text, rest ≠ ':' :: text) :
    readRest first ('-' :: text) = if atEnd rest then some (last, 1) else none := by
  have dash : atEnd ('-' :: text) = false := rfl
  simp only [readRest, dash, read, Bool.false_eq_true, if_false]

theorem readRest_step {last step : Int} {more : List Char}
    (read : readInt text = (last, ':' :: more)) (reads : readInt more = (step, rest)) :
    readRest first ('-' :: text) = if atEnd rest then some (last, step) else none := by
  have dash : atEnd ('-' :: text) = false := rfl
  have colon : atEnd (':' :: more) = false := rfl
  simp only [readRest, dash, colon, read, reads, Bool.false_eq_true, if_false]

theorem parseArrayTok_eq (tok : List Char) (array : Bitstr) (max : Nat) :
    parseArrayTok tok array max =
      match readNumbers tok with
      | none => .rejected
      | some (first, last, step) =>
        if first < 0 ∨ step ≤ 0 ∨ last < first ∨ (max : Int) ≤ last then .rejected
        else setLoop first.toNat last.toNat step.toNat array := by
  rw [parseArrayTok, readNumbers]
  obtain ⟨first, text⟩ := readInt (strip '[' tok)
  dsimp only
  by_cases negative : first < 0
  · rw [if_pos negative]
    cases readRest first text with
    | none => rfl
    | some rest => simp [negative]
  · rw [if_neg negative]
    split
    · rename_i text
      cases read : readInt text with
      | mk last text =>
        dsimp only
        split
        · rename_i text
          cases reads : readInt text with
          | mk step text =>
            rw [readRest_step read reads]
            by_cases ends : atEnd text = true
            · by_cases zero : step ≤ 0
              · simp [ends, zero]
              · by_cases before : last < first
                · simp [ends, before]
                · simp [ends, negative, zero, before, setBits]
            · simp [ends]
        · rename_i range
          rw [readRest_range read fun text same => range text same]
          by_cases ends : atEnd text = true
          · by_cases before : last < first
            · simp [ends, before]
            · simp [ends, negative, before, setBits]
          · simp [ends]
    · rename_i single
      rw [readRest_single fun rest same => single rest same]
      by_cases ends : atEnd text = true
      · simp [ends, negative, setBits]
      · simp [ends]

/-! ## The loop -/

variable {i last step : Nat} {array : Bitstr}

theorem bound_next (pos : 0 < step) (mem : i + step ≤ last) :
    i + ((last - i) / step + 1) * step = i + step + ((last - (i + step)) / step + 1) * step := by
  have quotient : (last - i) / step = (last - (i + step)) / step + 1 := by
    rw [← Nat.add_div_right _ pos]
    congr 1
    omega
  rw [quotient]
  ring

theorem progression_next {j : Nat} (le : i ≤ last) :
    Progression i last step j ↔ j = i ∨ Progression (i + step) last step j := by
  constructor
  · rintro ⟨⟨count, rfl⟩, mem⟩
    rcases count with _ | count
    · exact Or.inl (by omega)
    · exact Or.inr ⟨⟨count, by ring⟩, mem⟩
  · rintro (rfl | ⟨⟨count, rfl⟩, mem⟩)
    · exact ⟨⟨0, by omega⟩, le⟩
    · exact ⟨⟨count + 1, by ring⟩, mem⟩

theorem setLoop_cases (pos : 0 < step) (mem : last < array.room) :
    (∃ after, setLoop i last step array = .accepted after ∧
      Writes true (Progression i last step) array after ∧
      (i ≤ last → i + ((last - i) / step + 1) * step < 2 ^ 31)) ∨
    (setLoop i last step array = .overflow ∧ i ≤ last ∧
      2 ^ 31 ≤ i + ((last - i) / step + 1) * step) := by
  fun_induction setLoop i last step array with
  | case1 i array more small ih =>
    obtain ⟨le, -⟩ := more
    have writes := bitSet_writes (lt_of_le_of_lt le mem)
    rcases ih (writes.room ▸ mem) with ⟨after, run, rest, fits⟩ | ⟨run, next, large⟩
    · refine Or.inl ⟨after, run, (writes.trans rest).congr fun j => progression_next le, ?_⟩
      intro _
      by_cases next : i + step ≤ last
      · rw [bound_next pos next]
        exact fits next
      · rw [Nat.div_eq_of_lt (by omega)]
        omega
    · refine Or.inr ⟨run, le, ?_⟩
      rw [bound_next pos next]
      exact large
  | case2 i array more large =>
    refine Or.inr ⟨rfl, more.1, ?_⟩
    have less : step ≤ ((last - i) / step + 1) * step :=
      Nat.le_mul_of_pos_left step (Nat.succ_pos _)
    omega
  | case3 i array done =>
    refine Or.inl ⟨array, rfl, (Writes.refl true array).congr fun j => ?_, fun le => ?_⟩
    · refine ⟨?_, False.elim⟩
      rintro ⟨⟨count, rfl⟩, le⟩
      omega
    · omega

/-! ## Tokens -/

variable {max : Nat} {tok : List Char}

variable {first : Nat}

theorem Proper.read (proper : Proper max tok first last step) (fits : max < 2 ^ 31) :
    readNumbers tok = some ((first : Int), (last : Int), cut step) := by
  obtain ⟨denotes, le, less, -⟩ := proper
  rw [readNumbers_denoted denotes, cut_of_lt (by omega), cut_of_lt (by omega)]

theorem Proper.parse (proper : Proper max tok first last step) (fits : max < 2 ^ 31)
    (array : Bitstr) :
    parseArrayTok tok array max =
      if 0 < cut step then setLoop first last (cut step).toNat array else .rejected := by
  have ⟨denotes, le, less, _⟩ := proper
  rw [parseArrayTok_eq, proper.read fits]
  by_cases pos : 0 < cut step
  · rw [if_pos pos]
    simp only [Int.toNat_natCast]
    rw [if_neg (by omega)]
  · rw [if_neg pos]
    exact if_pos (by omega)

theorem progression_congr {other : Nat}
    (same : step = other ∨ (last < first + step ∧ last < first + other)) (bit : Nat) :
    Progression first last step bit ↔ Progression first last other bit := by
  rcases same with rfl | ⟨large, larger⟩
  · rfl
  · have single : ∀ {step}, last < first + step → Progression first last step bit →
        bit = first ∧ bit ≤ last := by
      rintro step large ⟨⟨count, rfl⟩, le⟩
      rcases count with _ | count
      · exact ⟨by omega, le⟩
      · have less : step ≤ (count + 1) * step := Nat.le_mul_of_pos_left step (Nat.succ_pos count)
        omega
    constructor
    · intro mem
      obtain ⟨rfl, le⟩ := single large mem
      exact ⟨⟨0, by omega⟩, le⟩
    · intro mem
      obtain ⟨rfl, le⟩ := single larger mem
      exact ⟨⟨0, by omega⟩, le⟩

theorem large_of_cut_ne {n : Nat} (ne : cut n ≠ n) : 2 ^ 31 ≤ n := by
  by_contra small
  exact ne (cut_of_lt (by omega))

theorem TokSafe.right (safe : TokSafe max tok) (fits : max < 2 ^ 31) (size : array.bits = max) :
    TokRight max tok array where
  reject := by
    intro none
    rw [parseArrayTok_eq]
    split
    · rfl
    · rename_i found
      exact if_pos (safe.improper none _ _ _ found)
  accept := by
    intro first last step proper
    obtain ⟨pos, same, small⟩ := safe.proper first last step proper
    have room := array.bits_le_room
    have ⟨_, le, less, _⟩ := proper
    rw [proper.parse fits, if_pos pos]
    rcases setLoop_cases (i := first) (by omega : 0 < (cut step).toNat)
      (by omega : last < array.room) with ⟨after, run, writes, -⟩ | ⟨-, -, large⟩
    · refine ⟨after, run, writes.congr (progression_congr ?_)⟩
      by_cases same' : cut step = step
      · exact Or.inl (by omega)
      · have large := large_of_cut_ne same'
        exact Or.inr (by omega)
    · omega

theorem TokRight.safe (right : TokRight max tok (bitAlloc max)) (fits : max < 2 ^ 31) :
    TokSafe max tok where
  proper := by
    intro first last step proper
    have ⟨_, le, less, _⟩ := proper
    obtain ⟨after, run, writes⟩ := right.accept first last step proper
    rw [proper.parse fits] at run
    split_ifs at run with pos
    have room := (bitAlloc max).bits_le_room
    have size : (bitAlloc max).bits = max := rfl
    rcases setLoop_cases (i := first) (by omega : 0 < (cut step).toNat)
      (by omega : last < (bitAlloc max).room) with ⟨after', run', writes', small⟩ | ⟨run', -⟩
    · obtain rfl : after = after' := by simpa [run'] using run.symm
      refine ⟨pos, ?_, small le⟩
      by_contra neither
      obtain ⟨ne, inside⟩ := not_or.mp neither
      have large := large_of_cut_ne ne
      have isSet := writes'.inside (first + (cut step).toNat) ⟨⟨1, by omega⟩, by omega⟩
      have notSet := writes.outside (first + (cut step).toNat) ?_
      · rw [isSet, bitTest_bitAlloc] at notSet
        cases notSet
      · rintro ⟨⟨count, same⟩, -⟩
        rcases count with _ | count
        · omega
        · have less : step ≤ (count + 1) * step :=
            Nat.le_mul_of_pos_left step (Nat.succ_pos count)
          omega
    · rw [run'] at run
      cases run
  improper := by
    intro none first last step found
    by_contra inside
    have run := right.reject none
    simp only [parseArrayTok_eq, found] at run
    rw [if_neg (by exact inside)] at run
    obtain ⟨nonneg, pos, le, less⟩ : 0 ≤ first ∧ 0 < step ∧ first ≤ last ∧ last < max := by
      simp only [OutOfRange] at inside
      omega
    have room := (bitAlloc max).bits_le_room
    have size : (bitAlloc max).bits = max := rfl
    rcases setLoop_cases (i := first.toNat) (by omega : 0 < step.toNat)
      (by omega : last.toNat < (bitAlloc max).room) with ⟨after, run', -⟩ | ⟨run', -⟩
    · rw [run'] at run
      cases run
    · rw [run'] at run
      cases run

/-! ## Requests -/

theorem Proper.denotes_iff (proper : Proper max tok first last step) (bit : Nat) :
    Denotes max tok bit ↔ Progression first last step bit := by
  constructor
  · rintro ⟨first', last', step', proper', mem⟩
    obtain ⟨rfl, rfl, rfl⟩ : first = first' ∧ last = last' ∧ step = step' := by
      simpa using proper.1.symm.trans proper'.1
    exact mem
  · exact fun mem => ⟨first, last, step, proper, mem⟩

theorem parseTokens_spec (fits : max < 2 ^ 31) (toks : List (List Char))
    (safe : ∀ tok ∈ toks, TokSafe max tok) (array : Bitstr) (size : array.bits = max) :
    ∃ valid after, parseTokens max toks array = some (valid, after) ∧
      (valid = true ↔ ∀ tok ∈ toks, ∃ first last step, Proper max tok first last step) ∧
      (valid = true → Writes true (fun bit => ∃ tok ∈ toks, Denotes max tok bit) array after) := by
  induction toks generalizing array with
  | nil =>
    refine ⟨true, array, rfl, by simp, fun _ => ?_⟩
    exact (Writes.refl true array).congr fun bit => by simp
  | cons tok toks ih =>
    have right := (safe tok List.mem_cons_self).right fits size
    rw [parseTokens]
    by_cases denotes : ∃ first last step, Proper max tok first last step
    · obtain ⟨first, last, step, proper⟩ := denotes
      obtain ⟨next, run, writes⟩ := right.accept first last step proper
      obtain ⟨valid, after, runs, iff, union⟩ :=
        ih (fun tok mem => safe tok (List.mem_cons_of_mem _ mem)) next (writes.bits.trans size)
      rw [run]
      refine ⟨valid, after, runs, ?_, fun isValid => ?_⟩
      · rw [List.forall_mem_cons]
        exact ⟨fun isValid => ⟨⟨first, last, step, proper⟩, iff.mp isValid⟩,
          fun both => iff.mpr both.2⟩
      · refine (writes.trans (union isValid)).congr fun bit => ?_
        rw [List.exists_mem_cons_iff, proper.denotes_iff]
    · rw [right.reject denotes]
      refine ⟨false, array, rfl, ?_, fun isValid => absurd isValid (by decide)⟩
      refine ⟨fun isValid => absurd isValid (by decide), fun all => ?_⟩
      exact absurd (all tok List.mem_cons_self) denotes

theorem parseArrayTok_inside {after : Bitstr} (size : array.bits = max)
    (run : parseArrayTok tok array max = .accepted after) :
    after.bits = max ∧ ∀ i, max ≤ i → bitTest after i = bitTest array i := by
  rw [parseArrayTok_eq] at run
  split at run
  · cases run
  · rename_i first last step _
    split_ifs at run with outside
    have room := array.bits_le_room
    have pos : 0 < step.toNat := by omega
    rcases setLoop_cases (i := first.toNat) pos
      (by omega : last.toNat < array.room) with ⟨after', run', writes, -⟩ | ⟨run', -⟩
    · obtain rfl : after' = after := by simpa [run'] using run
      refine ⟨writes.bits.trans size, fun i behind => writes.outside i ?_⟩
      rintro ⟨-, le⟩
      omega
    · rw [run'] at run
      cases run

theorem parseTokens_inside {toks : List (List Char)} {after : Bitstr} {valid : Bool}
    (size : array.bits = max) (run : parseTokens max toks array = some (valid, after)) :
    after.bits = max ∧ ∀ i, max ≤ i → bitTest after i = bitTest array i := by
  induction toks generalizing array with
  | nil =>
    obtain ⟨-, rfl⟩ : true = valid ∧ array = after := by simpa [parseTokens] using run
    exact ⟨size, fun _ _ => rfl⟩
  | cons tok toks ih =>
    rw [parseTokens] at run
    split at run
    · obtain ⟨-, rfl⟩ : false = valid ∧ array = after := by simpa using run
      exact ⟨size, fun _ _ => rfl⟩
    · rename_i next accepted
      obtain ⟨nextSize, same⟩ := parseArrayTok_inside size accepted
      obtain ⟨afterSize, sames⟩ := ih nextSize run
      exact ⟨afterSize, fun i behind => (sames i behind).trans (same i behind)⟩
    · cases run

theorem validArrayInx_right (pos : 1 ≤ max) (fits : max < 2 ^ 31) (maxTaskCnt : Nat)
    (desc : JobDesc) (safe : ∀ tok ∈ tokens (desc.arrayInx.getD []), TokSafe max tok) :
    ∃ valid after, validArrayInx max maxTaskCnt desc = some (valid, after) ∧
      RequestRight max maxTaskCnt desc valid after := by
  rw [validArrayInx]
  by_cases noArray : blank desc.arrayInx = true
  · refine ⟨true, { desc with arrayBitmap := none }, if_pos noArray, ?_, ?_⟩
    · intro _ some
      rw [noArray] at some
      cases some
    · simp [noArray]
  · by_cases noScript : blank desc.script = true
    · refine ⟨false, { desc with arrayBitmap := none }, ?_, by simp, ?_⟩
      · rw [if_neg noArray, if_pos noScript]
      · simp [noArray, noScript]
    · obtain ⟨valid, array, run, iff, union⟩ :=
        parseTokens_spec fits _ safe (bitAlloc max) rfl
      have zero : max ≠ 0 := by omega
      simp only [noArray, noScript, zero, run, Bool.false_eq_true, if_false]
      refine ⟨_, _, rfl, ?_, ?_⟩
      · intro isValid _
        have writes := union (by simpa using (Bool.and_eq_true_iff.mp isValid).1)
        refine ⟨array, rfl, writes.bits, fun bit => ?_⟩
        by_cases inside : ∃ tok ∈ tokens (desc.arrayInx.getD []), Denotes max tok bit
        · simp only [inside, writes.inside bit inside]
        · rw [writes.outside bit inside, bitTest_bitAlloc]
          simp only [inside, Bool.false_eq_true]
      · rw [Bool.and_eq_true_iff, iff]
        simp only [noArray, noScript, Bool.false_eq_true, Option.some.injEq,
          forall_eq', false_or, true_and, Bool.not_eq_true', decide_eq_false_iff_not, not_and, not_lt]

/-- Tokens are treated as they should be exactly when the numbers in them are safe to be
read as `int`, and the bitmap of a request of such tokens is the union of their sets. -/
theorem arrayExpressions_right_iff (max : Nat) (positive : 1 ≤ max) (fits : max < 2 ^ 31) :
    (∀ tok, (∀ array, array.bits = max → TokRight max tok array) ↔ TokSafe max tok) ∧
    ∀ maxTaskCnt desc, (∀ tok ∈ tokens (desc.arrayInx.getD []), TokSafe max tok) →
      ∃ valid after, validArrayInx max maxTaskCnt desc = some (valid, after) ∧
        RequestRight max maxTaskCnt desc valid after := by
  refine ⟨fun tok => ⟨fun right => ?_, fun safe array size => safe.right fits size⟩, ?_⟩
  · exact (right (bitAlloc max) rfl).safe fits
  · exact fun maxTaskCnt desc safe => validArrayInx_right positive fits maxTaskCnt desc safe

theorem arrayExpressions_right_iff_thousand :
    1 ≤ 1001 ∧ 1001 < 2 ^ 31 ∧ ∀ tok,
      (∀ array, array.bits = 1001 → TokRight 1001 tok array) ↔ TokSafe 1001 tok :=
  ⟨by decide, by decide, (arrayExpressions_right_iff 1001 (by decide) (by decide)).1⟩

/-- A limit without a task id, `%5`, is accepted and sets bit 0. -/
theorem arrayExpressions_right_fails : ¬∀ max, 1 ≤ max → max < 2 ^ 31 →
    ∀ tok array, array.bits = max → TokRight max tok array := by
  intro all
  have safe := (all 1001 (by decide) (by decide) ['%', '5'] (bitAlloc 1001) rfl).safe (by decide)
  have none : denoted ['%', '5'] = none := by decide
  have out := safe.improper (fun ⟨_, _, _, proper⟩ => by simp [proper.1] at none) 0 0 1 (by decide)
  exact absurd out (by simp [OutOfRange])

end SlurmSim.Controller.ArrayExpr
