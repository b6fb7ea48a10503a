import SlurmSim.Hostlist.RangedText

/-!
# Reading back what is written

The text of a host list is cut into one token for every block, and the ranges that are read
from a block stand for the names of the block in their order.
-/

namespace SlurmSim.Hostlist

open SlurmSim.Lib.CText SlurmSim.Lib.Numerals HostRange
open List (append_assoc append_nil cons_append cons_ne_nil drop_zero forall_mem_cons mapM_cons
  mem_append mem_cons mem_cons_self mem_map not_mem_nil)

/-! ## Cutting the text into tokens -/

/-- Behind a token there is nothing or a comma. -/
def Behind (back : Name) : Prop :=
  back = [] ∨ ∃ rest, back = ',' :: rest

variable {c : Char} {front back : Name}

theorem strchr_append (none_ : c ∉ front) (back : Name) :
    strchr (front ++ c :: back) 0 c = some front.length := by
  have before : front.findIdx? (· = c) = none :=
    List.findIdx?_eq_none_iff.mpr fun x mem => decide_eq_false fun same => none_ (same ▸ mem)
  rw [strchr, drop_zero, List.findIdx?_append, before, List.findIdx?_cons]
  simp

theorem skipTok_append {start : Nat} (le : start ≤ front.length)
    (none_ : ∀ c ∈ front.drop start, isSep c = false) (behind : Behind back) :
    skipTok (front ++ back) start = front.length := by
  have stop : back.takeWhile (fun c => !isSep c) = [] := by
    rcases behind with rfl | ⟨rest, rfl⟩
    · rfl
    · rfl
  rw [skipTok, List.drop_append_of_le_length le,
    List.takeWhile_append_of_pos fun c mem => by simp [none_ c mem], stop, append_nil,
    List.length_drop]
  omega

theorem skipTok_cases {tok back : Name} (behind : Behind back) :
    skipTok (tok ++ back) 0 < tok.length ∨ skipTok (tok ++ back) 0 = tok.length := by
  rcases Nat.lt_or_ge (skipTok (tok ++ back) 0) tok.length with less | ge
  · exact .inl less
  · refine .inr (skipTok_append (Nat.zero_le _) ?_ behind)
    rw [skipTok, Nat.zero_add, drop_zero] at ge
    have whole : tok <+: (tok ++ back).takeWhile fun c => !isSep c :=
      List.prefix_of_prefix_length_le (List.prefix_append tok back) (List.takeWhile_prefix _) ge
    intro c mem
    simpa using List.mem_takeWhile_imp (whole.subset mem)

theorem tokEnd_closed {tok back : Name} {parse : Nat} (none_ : '[' ∉ tok.drop parse)
    (behind : Behind back) : tokEnd (tok ++ back) parse tok.length = tok.length := by
  rw [tokEnd]
  split
  · rfl
  · rename_i openBracket opening
    obtain ⟨le, mem, here⟩ := strchr_spec opening
    rw [if_pos]
    rcases Nat.lt_trichotomy openBracket tok.length with less | rfl | less
    · rw [List.getElem_append_left less] at here
      exact absurd (List.mem_drop_iff_getElem.mpr ⟨openBracket - parse, by omega, by
        rw [← here]
        congr 1
        omega⟩) none_
    · rcases behind with rfl | ⟨rest, rfl⟩
      · rw [append_nil] at mem
        exact absurd mem (lt_irrefl _)
      · simp at here
    · exact less

theorem tokEnd_open {tok : Name} {parse str openBracket closeBracket : Nat}
    (opening : strchr tok parse '[' = some openBracket)
    (closing : strchr tok parse ']' = some closeBracket) (reached : openBracket ≤ str)
    (order : openBracket ≤ closeBracket) : tokEnd tok parse str =
      if closeBracket < str then tokEnd tok (closeBracket + 1) str
      else tokEnd tok parse (skipTok tok closeBracket) := by
  rw [tokEnd]
  simp only [opening]
  rw [if_neg (Nat.not_lt_of_le reached)]
  split
  · rename_i none_
    exact absurd (none_.symm.trans closing) (by simp)
  · rename_i found here
    obtain rfl := Option.some.inj (here.symm.trans closing)
    rw [if_neg (Nat.not_lt_of_le order)]

/-- What is cut from a text that starts with it. -/
structure Token (tok : Name) : Prop where
  starts : ∃ c rest, tok = c :: rest ∧ isSep c = false
  ends : ∀ back, Behind back → tokEnd (tok ++ back) 0 (skipTok (tok ++ back) 0) = tok.length

theorem token_plain {tok : Name} (some_ : tok ≠ []) (noSep : ∀ c ∈ tok, isSep c = false)
    (noBracket : '[' ∉ tok) : Token tok := by
  obtain ⟨c, rest, rfl⟩ := List.exists_cons_of_ne_nil some_
  refine ⟨⟨c, rest, rfl, noSep c mem_cons_self⟩, fun back behind => ?_⟩
  rw [skipTok_append (Nat.zero_le _) noSep behind]
  exact tokEnd_closed noBracket behind

theorem token_bracketed {front body : Name} (noSep : ∀ c ∈ front, isSep c = false)
    (noOpen : '[' ∉ front ++ body) (noClose : ']' ∉ front ++ body) :
    Token (front ++ '[' :: body ++ [']']) := by
  have length : (front ++ '[' :: body ++ [']']).length = front.length + body.length + 2 := by
    simp only [List.length_append, List.length_cons, List.length_nil]
    omega
  rw [mem_append, not_or] at noOpen noClose
  have within : ']' ∉ front ++ '[' :: body := by
    simp only [mem_append, mem_cons, not_or]
    exact ⟨noClose.1, by decide, noClose.2⟩
  refine ⟨?_, fun back behind => ?_⟩
  · cases front with
    | nil => exact ⟨'[', _, rfl, rfl⟩
    | cons c front => exact ⟨c, _, rfl, noSep c mem_cons_self⟩
  · have opening : strchr (front ++ '[' :: body ++ [']'] ++ back) 0 '[' = some front.length := by
      rw [append_assoc, append_assoc, cons_append]
      exact strchr_append noOpen.1 _
    have closing : strchr (front ++ '[' :: body ++ [']'] ++ back) 0 ']' =
        some (front.length + body.length + 1) := by
      rw [append_assoc, List.singleton_append, strchr_append within, List.length_append,
        List.length_cons, Nat.add_assoc]
    have beyond : front.length < skipTok (front ++ '[' :: body ++ [']'] ++ back) 0 := by
      rw [skipTok, drop_zero, append_assoc, append_assoc,
        List.takeWhile_append_of_pos fun c mem => by simp [noSep c mem], cons_append,
        List.takeWhile_cons_of_pos (by rfl), List.length_append, List.length_cons]
      omega
    have last : tokEnd (front ++ '[' :: body ++ [']'] ++ back) 0
        (front ++ '[' :: body ++ [']']).length = (front ++ '[' :: body ++ [']']).length := by
      rw [tokEnd_open opening closing (by omega) (by omega), if_pos (by omega)]
      refine tokEnd_closed ?_ behind
      rw [List.drop_of_length_le (by omega)]
      exact not_mem_nil
    rcases @skipTok_cases (front ++ '[' :: body ++ [']']) back behind with less | whole
    · rw [tokEnd_open opening closing (by omega) (by omega), if_neg (by omega), skipTok_append
        (by omega) ?_ behind]
      · exact last
      · intro c mem
        rw [List.drop_append_of_le_length (by simp), List.drop_of_length_le (by simp; omega),
          List.nil_append, List.mem_singleton] at mem
        rw [mem]
        rfl
    · rw [whole]
      exact last

theorem tokens_cut {tok : Name} (starts : ∃ c rest, tok = c :: rest ∧ isSep c = false)
    (last : tokEnd (tok ++ back) 0 (skipTok (tok ++ back) 0) = tok.length) :
    tokens (tok ++ back) = tok :: tokens back := by
  obtain ⟨c, rest, isTok, noSep⟩ := starts
  have start : (tok ++ back).dropWhile isSep = c :: (rest ++ back) := by
    rw [isTok, cons_append, List.dropWhile_cons_of_neg (by simp [noSep])]
  rw [tokens]
  split
  · rename_i nothing
    exact absurd (start.symm.trans nothing) (cons_ne_nil _ _)
  · rename_i c' rest' found
    obtain ⟨rfl, rfl⟩ := List.cons.inj (start.symm.trans found)
    rw [← cons_append, ← isTok]
    dsimp only
    rw [last, List.take_left, List.drop_left]

theorem tokens_append {tok : Name} (token : Token tok) (behind : Behind back) :
    tokens (tok ++ back) = tok :: tokens back :=
  tokens_cut token.starts (token.ends back behind)

theorem tokens_congr {str other : Name} (same : str.dropWhile isSep = other.dropWhile isSep) :
    tokens str = tokens other := by
  rw [tokens, tokens]
  split
  · rename_i nothing
    split
    · rfl
    · rename_i some_
      exact absurd (some_.symm.trans (same.symm.trans nothing)) (cons_ne_nil _ _)
  · rename_i c rest some_
    split
    · rename_i nothing
      exact absurd (some_.symm.trans (same.trans nothing)) (cons_ne_nil _ _)
    · rename_i c' rest' some_'
      obtain ⟨rfl, rfl⟩ := List.cons.inj (some_.symm.trans (same.trans some_'))
      rfl

theorem tokens_comma (back : Name) : tokens (',' :: back) = tokens back :=
  tokens_congr (List.dropWhile_cons_of_pos rfl)

theorem tokens_intercalate {toks : List Name} (all : ∀ tok ∈ toks, Token tok) :
    tokens ([','].intercalate toks) = toks := by
  induction toks with
  | nil =>
    rw [tokens]
    rfl
  | cons tok toks ih =>
    obtain ⟨here, others⟩ := forall_mem_cons.mp all
    cases toks with
    | nil =>
      have whole := tokens_append here (.inl rfl)
      rw [append_nil] at whole
      rw [intercalate_one, whole]
      exact congrArg _ (ih others)
    | cons next toks =>
      rw [intercalate_cons_cons, append_assoc, List.singleton_append,
        tokens_append here (.inr ⟨_, rfl⟩), tokens_comma, ih others]

/-! ## Reading a block -/

theorem cutAt_append (none_ : c ∉ front) (back : Name) :
    cutAt c (front ++ c :: back) = some (front, back) := by
  have before : ∀ x ∈ front, decide (x ≠ c) = true := fun x mem =>
    decide_eq_true fun same => none_ (same ▸ mem)
  rw [cutAt, if_pos (List.mem_append_right _ mem_cons_self),
    List.takeWhile_append_of_pos before, List.dropWhile_append_of_pos before,
    List.takeWhile_cons_of_neg (by simp), List.dropWhile_cons_of_neg (by simp), append_nil]
  rfl

theorem cutAt_none {text : Name} (none_ : c ∉ text) : cutAt c text = none :=
  if_neg none_

theorem cutAtLast_append (front : Name) (none_ : c ∉ back) :
    cutAtLast c (front ++ c :: back) = some (front, back) := by
  have behind : ∀ x ∈ back.reverse, decide (x ≠ c) = true := fun x mem =>
    decide_eq_true fun same => none_ (List.mem_reverse.mp (same ▸ mem))
  rw [cutAtLast, if_pos (List.mem_append_right _ mem_cons_self), List.rdropWhile,
    List.rtakeWhile, List.reverse_append, List.reverse_cons, append_assoc,
    List.takeWhile_append_of_pos behind, List.dropWhile_append_of_pos behind,
    List.singleton_append, List.takeWhile_cons_of_neg (by simp),
    List.dropWhile_cons_of_neg (by simp), append_nil, List.reverse_cons,
    List.reverse_reverse, List.reverse_reverse, List.dropLast_concat]

theorem cutAtLast_none {text : Name} (none_ : c ∉ text) : cutAtLast c text = none :=
  if_neg none_

variable {hr : HostRange}

variable {c : Char} {text : Name} {more : List HostRange}

theorem mem_numberText (mem : c ∈ numberText hr) : c.isDigit = true ∨ c = '-' := by
  rw [numberText] at mem
  split_ifs at mem with single more
  · exact absurd mem not_mem_nil
  · rcases mem_append.mp mem with low | high
    · exact .inl (digits_numText _ _ c low)
    · rcases mem_cons.mp high with dash | high
      · exact .inr dash
      · exact .inl (digits_numText _ _ c high)
  · rw [append_nil] at mem
    exact .inl (digits_numText _ _ c mem)

theorem not_mem_numberText (digit : c.isDigit = false) (dash : c ≠ '-') :
    c ∉ numberText hr := fun mem =>
  (mem_numberText mem).elim (fun isDigit => absurd (digit.symm.trans isDigit) Bool.false_ne_true)
    dash

/-- What is read from the numbers of a range. -/
def readRange (hr : HostRange) : Range :=
  ⟨hr.lo, hr.hi, (numText hr.width hr.lo).length⟩

theorem strtoul_numText (width : Nat) {n : Nat} (small : n < 2 ^ 64) :
    strtoul (numText width n) = (n, []) := by
  rw [strtoul_digits (digits_numText width n), textValue_numText, min_eq_left (by omega)]

theorem check_ok {range : Range} (le : range.lo ≤ range.hi)
    (few : range.hi - range.lo < maxRange) : range.check [] = some range := by
  have within : ¬maxRange < ulongAdd (ulongSub range.hi range.lo) 1 := by
    rw [maxRange] at few ⊢
    rw [ulongAdd, ulongSub]
    omega
  rw [Range.check, if_neg (not_not.mpr rfl), if_neg (Nat.not_lt_of_le le), if_neg within]

theorem parseSingleRange_numberText (ranged : hr.singlehost = false) (ordered : Ordered hr)
    (few : hr.hi - hr.lo < maxRange) : parseSingleRange (numberText hr) = some (readRange hr) := by
  obtain ⟨le, bounded⟩ := ordered ranged
  have check : Range.check (readRange hr) [] = some (readRange hr) := check_ok le few
  have noDash : '-' ∉ numText hr.width hr.lo := fun mem =>
    absurd (digits_numText _ _ _ mem) (by decide)
  have low := strtoul_numText hr.width (show hr.lo < 2 ^ 64 by omega)
  have lowSome := numText_ne_nil hr.width hr.lo
  rw [parseSingleRange, if_neg (not_mem_numberText (by decide) (by decide)), numberText,
    if_neg (by simp [ranged])]
  split_ifs with more
  · have high := strtoul_numText hr.width bounded
    obtain ⟨c, rest, isHigh⟩ := List.exists_cons_of_ne_nil (numText_ne_nil hr.width hr.hi)
    have digit : c ≠ '-' := fun same =>
      absurd (digits_numText hr.width hr.hi c (isHigh ▸ mem_cons_self)) (by rw [same]; decide)
    rw [isHigh] at high
    rw [cutAt_append noDash, isHigh]
    simp only [parseBounds, low, high]
    rw [if_neg (by simpa using digit), if_neg (fun same => lowSome same.symm),
      if_neg (fun same => cons_ne_nil c rest same.symm)]
    exact check
  · have same : hr.hi = hr.lo := by omega
    rw [append_nil, cutAt_none noDash]
    simp only [parseBounds, low]
    rw [if_neg (by simp), if_neg (fun same => lowSome same.symm)]
    rw [readRange, same] at check
    rw [readRange, same]
    exact check

theorem names_readRange (hostPrefix : Name) (ranged : hr.singlehost = false)
    (same : hr.hostPrefix = hostPrefix) :
    (HostRange.create hostPrefix (readRange hr).lo (readRange hr).hi (readRange hr).width).names =
      hr.names := by
  rw [ranged_names ranged, ranged_names rfl]
  simp only [HostRange.create, readRange, same]
  apply numbered_congr
  intro k le
  have longer := length_numeral_mono 10 le
  apply numText_congr
  rw [zeroPadded_eq, zeroPadded_eq, length_numText]
  omega

theorem mapM_some {α β γ : Type} {f : β → Option γ} {g : α → β} {h : α → γ} {xs : List α}
    (all : ∀ x ∈ xs, f (g x) = some (h x)) : (xs.map g).mapM f = some (xs.map h) := by
  induction xs with
  | nil => rfl
  | cons x xs ih =>
    obtain ⟨here, others⟩ := forall_mem_cons.mp all
    rw [List.map_cons, mapM_cons, here, ih others]
    rfl

theorem not_mem_intercalate (comma : c ≠ ',') {texts : List Name} (all : ∀ text ∈ texts, c ∉ text) :
    c ∉ [','].intercalate texts := by
  induction texts with
  | nil => exact not_mem_nil
  | cons text texts ih =>
    obtain ⟨here, others⟩ := forall_mem_cons.mp all
    cases texts with
    | nil =>
      rw [intercalate_one]
      exact here
    | cons next texts =>
      rw [intercalate_cons_cons, mem_append, mem_append, List.mem_singleton, not_or, not_or]
      exact ⟨⟨here, comma⟩, ih others⟩

theorem not_mem_numbersText (digit : c.isDigit = false) (dash : c ≠ '-') (comma : c ≠ ',')
    (block : List HostRange) : c ∉ numbersText block := by
  apply not_mem_intercalate comma
  intro text mem
  obtain ⟨hr, -, rfl⟩ := mem_map.mp mem
  exact not_mem_numberText digit dash

theorem parseRangeList_numbersText {block : List HostRange} (some_ : block ≠ [])
    (ranged : ∀ hr ∈ block, hr.singlehost = false) (ordered : ∀ hr ∈ block, Ordered hr)
    (few : ∀ hr ∈ block, hr.hi - hr.lo < maxRange) (short : block.length ≤ maxRanges) :
    parseRangeList (numbersText block) = some (block.map readRange) := by
  have split : pieces (numbersText block) = block.map numberText := by
    refine List.splitOn_intercalate ',' ?_ (by simpa using some_)
    intro text mem
    obtain ⟨hr, -, rfl⟩ := mem_map.mp mem
    exact not_mem_numberText (by decide) (by decide)
  rw [parseRangeList, split, List.length_map, if_neg (Nat.not_lt_of_le short)]
  exact mapM_some fun hr mem => parseSingleRange_numberText (ranged hr mem) (ordered hr mem)
    (few hr mem)

theorem parseTok_bracketed {front body : Name} {ranges : List Range} (noOpen : '[' ∉ front)
    (noOpen' : '[' ∉ body) (noClose : ']' ∉ body) (read : parseRangeList body = some ranges) :
    parseTok (front ++ '[' :: body ++ [']']) = some (prefixed front ranges) := by
  have last : '[' ∉ body ++ [']'] := by
    rw [mem_append, not_or]
    exact ⟨noOpen', by decide⟩
  have whole : pushRangeList front ranges = some (prefixed front ranges, true) := by
    rw [pushRangeList]
    split
    · rfl
    · rename_i opening
      exact absurd (cutAtLast_none fun mem => noOpen (List.mem_of_mem_take mem))
        (by rw [opening]; simp)
  rw [parseTok, append_assoc, cons_append, cutAtLast_append front last]
  simp only [cutAt_append noClose, read, whole, Option.bind_some, if_pos]
  simp

theorem parseTok_plain {tok : Name} (noOpen : '[' ∉ tok) :
    parseTok tok = some [pushedHost tok] := by
  rw [parseTok, cutAtLast_none noOpen]

/-! ## Lists that are read back -/

/-- A text without white space, commas, brackets and ends. -/
def Plain (text : Name) : Prop :=
  ∀ c ∈ text, isSpace c = false ∧ c ≠ ',' ∧ c ≠ '[' ∧ c ≠ ']' ∧ c ≠ nul

instance (text : Name) : Decidable (Plain text) :=
  List.decidableBAll _ text

/-- What the reader needs of the ranges that are written: plain prefixes, a name for every host,
numbers below the largest one, and no more hosts and ranges than it takes.  A name that is
written without brackets ends with a number below the largest one. -/
structure Readable (ranges : List HostRange) : Prop where
  plain : ∀ hr ∈ ranges, Plain hr.hostPrefix
  named : ∀ hr ∈ ranges, hr.singlehost = true → hr.hostPrefix ≠ []
  bounded : ∀ hr ∈ ranges, hr.hi < 2 ^ 64 - 1
  few : ∀ hr ∈ ranges, hr.hi - hr.lo < maxRange
  short : ∀ block ∈ blocks ranges, block.length ≤ maxRanges
  number : ∀ block ∈ blocks ranges, bracketed block = false →
    textValue ((blockText block).rtakeWhile Char.isDigit) < 2 ^ 64 - 1

theorem Plain.spaceless (plain : Plain text) : Spaceless text :=
  fun c mem => (plain c mem).1

theorem Plain.noSep (plain : Plain text) : ∀ c ∈ text, isSep c = false := by
  intro c mem
  obtain ⟨space, comma, -⟩ := plain c mem
  rw [isSep, decide_eq_false_iff_not]
  rintro (rfl | rfl | rfl)
  · exact absurd space (by decide)
  · exact comma rfl
  · exact absurd space (by decide)

theorem Plain.append {text other : Name} (left : Plain text) (right : Plain other) :
    Plain (text ++ other) :=
  List.forall_mem_append.mpr ⟨left, right⟩

theorem plain_of_digits (digits : Digits text) : Plain text := by
  intro c mem
  have isDigit := digits c mem
  have differ : ∀ d : Char, d.isDigit = false → c ≠ d := fun d none_ same =>
    absurd (none_.symm.trans (same ▸ isDigit)) Bool.false_ne_true
  exact ⟨(not_isSpace_of_isDigit isDigit).1, differ ',' rfl, differ '[' rfl, differ ']' rfl,
    differ nul rfl⟩

theorem blocks_within (ranges : List HostRange) :
    ∀ block ∈ blocks ranges, block.IsChain fun a b => b.withinRange a = true := by
  induction ranges with
  | nil => exact fun block mem => absurd mem not_mem_nil
  | cons hr ranges ih =>
    obtain ⟨more, others, split⟩ := blocks_cons hr ranges
    rw [split]
    cases ranges with
    | nil =>
      obtain ⟨same, rfl⟩ := List.cons.inj split
      rw [← (List.cons.inj same).2]
      exact List.forall_mem_singleton.mpr (List.isChain_singleton hr)
    | cons next ranges =>
      rcases blocks_cases split with ⟨within, rest, rfl, behind⟩ | ⟨-, rfl, behind⟩
      · rw [behind] at ih
        obtain ⟨here, other⟩ := forall_mem_cons.mp ih
        exact forall_mem_cons.mpr ⟨List.IsChain.cons_cons within here, other⟩
      · rw [behind] at ih
        exact forall_mem_cons.mpr ⟨List.isChain_singleton hr, ih⟩

theorem within_facts {next : HostRange} (left : Plain hr.hostPrefix) (right : Plain next.hostPrefix)
    (within : next.withinRange hr = true) :
    hr.singlehost = false ∧ next.singlehost = false ∧ next.hostPrefix = hr.hostPrefix := by
  rw [withinRange] at within
  split_ifs at within with same
  obtain ⟨prefixes, -⟩ :=
    (prefixCmp_eq_zero spaceless_apart right.spaceless left.spaceless).mp same
  simp only [Bool.not_eq_true', Bool.or_eq_false_iff] at within
  exact ⟨within.2, within.1, prefixes⟩

theorem chain_facts (plain : ∀ a ∈ hr :: more, Plain a.hostPrefix)
    (chain : (hr :: more).IsChain fun a b => b.withinRange a = true)
    (ranged : hr.singlehost = false) :
    ∀ a ∈ hr :: more, a.singlehost = false ∧ a.hostPrefix = hr.hostPrefix := by
  induction more generalizing hr with
  | nil => exact List.forall_mem_singleton.mpr ⟨ranged, rfl⟩
  | cons next more ih =>
    obtain ⟨here, others⟩ := forall_mem_cons.mp plain
    obtain ⟨within, rest⟩ := List.isChain_cons_cons.mp chain
    obtain ⟨-, ranged', same⟩ := within_facts here (others next mem_cons_self) within
    refine forall_mem_cons.mpr ⟨⟨ranged, rfl⟩, fun a mem => ?_⟩
    rw [← same]
    exact ih others rest ranged' a mem

theorem ranged_of_bracketed (plain : ∀ a ∈ hr :: more, Plain a.hostPrefix)
    (chain : (hr :: more).IsChain fun a b => b.withinRange a = true)
    (needed : bracketed (hr :: more) = true) : hr.singlehost = false := by
  cases more with
  | nil =>
    have several : 1 < hr.count := by simpa [bracketed] using needed
    by_contra single
    rw [count, if_pos (Bool.not_eq_false _ ▸ single)] at several
    exact absurd several (Nat.lt_irrefl 1)
  | cons next more =>
    obtain ⟨here, others⟩ := forall_mem_cons.mp plain
    exact (within_facts here (others next mem_cons_self) (List.isChain_cons_cons.mp chain).1).1

theorem bare_facts (needed : bracketed (hr :: more) = false) (ordered : Ordered hr)
    (few : hr.hi - hr.lo < maxRange) : more = [] ∧ hr.names = [blockText (hr :: more)] := by
  have one : more = [] ∧ hr.count ≤ 1 := by
    cases more with
    | nil => simpa [bracketed] using needed
    | cons next more => simp [bracketed] at needed
  obtain ⟨rfl, atMost⟩ := one
  refine ⟨rfl, ?_⟩
  rw [blockText, needed, if_neg Bool.false_ne_true, numbersText_one, numberText]
  cases single : hr.singlehost with
  | true =>
    rw [single_names single, if_pos rfl, append_nil]
    rfl
  | false =>
    obtain ⟨le, bounded⟩ := ordered single
    have same : hr.hi = hr.lo := by
      rw [count, if_neg (by simp [single]), ulongAdd, ulongSub] at atMost
      rw [maxRange] at few
      omega
    rw [ranged_names single, same, Nat.add_sub_cancel_left, numbered_one,
      if_neg Bool.false_ne_true, if_neg (lt_irrefl _), append_nil]
    rfl

theorem pushedHost_small {str : Name}
    (small : textValue (str.rtakeWhile Char.isDigit) < 2 ^ 64 - 1) :
    (pushedHost str).hi < 2 ^ 64 - 1 := by
  by_cases plain : str.rtakeWhile Char.isDigit = []
  · rw [pushedHost, hostnameCreate_plain plain]
    exact Nat.sub_pos_of_lt (Nat.one_lt_two_pow (by decide))
  · have split := hostnameCreate_splitAt plain
    rw [← drop_hostPrefixEnd] at small
    simp only [pushedHost, split.suffix, split.num, HostRange.create]
    omega

theorem hostPrefix_pushedHost (str : Name) : (pushedHost str).hostPrefix <+: str := by
  by_cases plain : str.rtakeWhile Char.isDigit = []
  · rw [pushedHost, hostnameCreate_plain plain]
    exact List.prefix_rfl
  · have split := hostnameCreate_splitAt plain
    simp only [pushedHost, split.suffix, split.hostPrefix, HostRange.create]
    exact List.take_prefix _ _

theorem plain_names (plain : Plain hr.hostPrefix)
    (named : hr.singlehost = true → hr.hostPrefix ≠ []) :
    ∀ name ∈ hr.names, Plain name ∧ name ≠ [] := by
  intro name mem
  cases single : hr.singlehost with
  | true =>
    rw [single_names single, List.mem_singleton] at mem
    rw [mem]
    exact ⟨plain, named single⟩
  | false =>
    obtain ⟨n, -, rfl⟩ := (mem_names_iff single).mp mem
    exact ⟨plain.append (plain_of_digits (digits_numText _ _)),
      List.append_ne_nil_of_right_ne_nil _ (numText_ne_nil _ _)⟩

/-- The ranges that are read back. -/
abbrev Fits (ranges : List HostRange) : Prop :=
  ∀ hr ∈ ranges, Fit {p | Spaceless p} (2 ^ 64 - 1) hr

/-- The text of a block is one token, and the ranges that are read from it stand for the names
of the block. -/
structure ReadsBack (block : List HostRange) : Prop where
  token : Token (blockText block)
  unended : nul ∉ blockText block
  parsed : ∃ pushed, parseTok (blockText block) = some pushed ∧ expand pushed = expand block ∧
    Fits pushed

theorem readsBack_name {block : List HostRange} {name : Name} (text : blockText block = name)
    (names : expand block = [name]) (plain : Plain name) (some_ : name ≠ [])
    (small : textValue (name.rtakeWhile Char.isDigit) < 2 ^ 64 - 1) : ReadsBack block := by
  have noOpen : '[' ∉ name := fun mem => (plain _ mem).2.2.1 rfl
  have small := pushedHost_small small
  refine ⟨?_, ?_, [pushedHost name], ?_, ?_, ?_⟩
  · rw [text]
    exact token_plain some_ plain.noSep noOpen
  · rw [text]
    exact fun mem => (plain _ mem).2.2.2.2 rfl
  · rw [text, parseTok_plain noOpen]
  · rw [names, expand_cons, names_pushedHost small]
    rfl
  · refine List.forall_mem_singleton.mpr ⟨sane_pushedHost name small, ?_, small⟩
    exact fun c mem => plain.spaceless c ((hostPrefix_pushedHost name).subset mem)

theorem readsBack_bracketed (needed : bracketed (hr :: more) = true) (plain : Plain hr.hostPrefix)
    (same : ∀ a ∈ hr :: more, a.singlehost = false ∧ a.hostPrefix = hr.hostPrefix)
    (ordered : ∀ a ∈ hr :: more, Ordered a) (bounded : ∀ a ∈ hr :: more, a.hi < 2 ^ 64 - 1)
    (few : ∀ a ∈ hr :: more, a.hi - a.lo < maxRange) (short : (hr :: more).length ≤ maxRanges) :
    ReadsBack (hr :: more) := by
  have read := parseRangeList_numbersText (cons_ne_nil hr more) (fun a mem => (same a mem).1)
    ordered few short
  have text : blockText (hr :: more) =
      hr.hostPrefix ++ '[' :: numbersText (hr :: more) ++ [']'] := by
    rw [blockText, if_pos needed]
    rfl
  have absent : ∀ c : Char, c.isDigit = false → c ≠ '-' → c ≠ ',' →
      c ∉ numbersText (hr :: more) := fun c digit dash comma =>
    not_mem_numbersText digit dash comma _
  have noOpen : '[' ∉ hr.hostPrefix := fun mem => (plain _ mem).2.2.1 rfl
  have noClose : ']' ∉ hr.hostPrefix := fun mem => (plain _ mem).2.2.2.1 rfl
  have noOpen' := absent '[' rfl (by decide) (by decide)
  have noClose' := absent ']' rfl (by decide) (by decide)
  refine ⟨?_, ?_, prefixed hr.hostPrefix ((hr :: more).map readRange), ?_, ?_, ?_⟩
  · rw [text]
    refine token_bracketed plain.noSep ?_ ?_
    · exact fun mem => (mem_append.mp mem).elim noOpen noOpen'
    · exact fun mem => (mem_append.mp mem).elim noClose noClose'
  · rw [text]
    simp only [mem_append, mem_cons, List.mem_nil_iff, or_false, not_or]
    exact ⟨⟨fun mem => (plain _ mem).2.2.2.2 rfl, by decide,
      absent nul rfl (by decide) (by decide)⟩, by decide⟩
  · rw [text]
    exact parseTok_bracketed noOpen noOpen' noClose' read
  · rw [prefixed, expand, expand, List.flatMap_map, List.flatMap_map]
    exact List.flatMap_congr fun a mem => names_readRange _ (same a mem).1 (same a mem).2
  · intro pushed mem
    rw [prefixed, List.map_map] at mem
    obtain ⟨a, inside, rfl⟩ := mem_map.mp mem
    have small : (readRange a).hi < 2 ^ 64 - 1 := bounded a inside
    exact ⟨sane_create _ _ (ordered a inside (same a inside).1).1 small, plain.spaceless, small⟩

variable {ranges : List HostRange}

theorem readsBack_block (readable : Readable ranges) (ordered : ∀ hr ∈ ranges, Ordered hr) :
    ∀ block ∈ blocks ranges, ReadsBack block := by
  intro block inBlocks
  have inside : ∀ hr ∈ block, hr ∈ ranges := fun hr mem => by
    rw [← blocks_flatten ranges]
    exact List.mem_flatten.mpr ⟨block, inBlocks, mem⟩
  obtain ⟨hr, more, rfl⟩ := List.exists_cons_of_ne_nil (blocks_ne_nil ranges block inBlocks)
  have first := inside hr mem_cons_self
  have plain : ∀ a ∈ hr :: more, Plain a.hostPrefix := fun a mem =>
    readable.plain a (inside a mem)
  cases needed : bracketed (hr :: more) with
  | true =>
    have chain := blocks_within ranges _ inBlocks
    exact readsBack_bracketed needed (plain hr mem_cons_self)
      (chain_facts plain chain (ranged_of_bracketed plain chain needed))
      (fun a mem => ordered a (inside a mem)) (fun a mem => readable.bounded a (inside a mem))
      (fun a mem => readable.few a (inside a mem)) (readable.short _ inBlocks)
  | false =>
    obtain ⟨rfl, names⟩ := bare_facts needed (ordered hr first) (readable.few hr first)
    obtain ⟨isPlain, some_⟩ := plain_names (readable.plain hr first)
      (readable.named hr first) _ (by rw [names]; exact mem_cons_self)
    exact readsBack_name rfl (by rw [expand_cons, names]; rfl) isPlain some_
      (readable.number _ inBlocks needed)

theorem parseToks {parts : List (List HostRange)} (all : ∀ block ∈ parts, ReadsBack block) :
    ∃ out, (parts.map blockText).mapM parseTok = some out ∧
      expand out.flatten = expand parts.flatten ∧ Fits out.flatten := by
  induction parts with
  | nil => exact ⟨[], rfl, rfl, fun hr mem => absurd mem not_mem_nil⟩
  | cons block parts ih =>
    obtain ⟨here, others⟩ := forall_mem_cons.mp all
    obtain ⟨pushed, parsed, names, fits⟩ := here.parsed
    obtain ⟨out, rest, names', fits'⟩ := ih others
    refine ⟨pushed :: out, ?_, ?_, ?_⟩
    · rw [List.map_cons, mapM_cons, parsed, rest]
      rfl
    · rw [List.flatten_cons, List.flatten_cons, expand_append, expand_append, names, names']
    · exact List.forall_mem_append.mpr ⟨fits, fits'⟩

theorem create_rangedText (readable : Readable ranges) (ordered : ∀ hr ∈ ranges, Ordered hr) :
    ∃ hl ranges', HostList.create (rangedText (blocks ranges)) = some hl ∧
      hl.hr = ranges'.map some ∧ expand ranges' = expand ranges := by
  have all := readsBack_block readable ordered
  obtain ⟨out, parsed, names, fits⟩ := parseToks all
  have cut : tokens (rangedText (blocks ranges)) = (blocks ranges).map blockText := by
    apply tokens_intercalate
    intro tok mem
    obtain ⟨block, inBlocks, rfl⟩ := mem_map.mp mem
    exact (all block inBlocks).token
  have read : parse (rangedText (blocks ranges)) = some out.flatten := by
    rw [parse, cut, parsed, Option.map_some]
  obtain ⟨hl, pushed', ranges', done, lists, names', -, -⟩ :=
    pushSlots_lists spaceless_apart (Lists.new {p | Spaceless p} (2 ^ 64 - 1)) fits rfl
  refine ⟨hl, ranges', ?_, lists.slots, ?_⟩
  · rw [HostList.create, read, Option.bind_some, done, Option.map_some]
  · rw [names', names, blocks_flatten, expand_nil, List.nil_append]

theorem unended_rangedText (readable : Readable ranges) (ordered : ∀ hr ∈ ranges, Ordered hr) :
    nul ∉ rangedText (blocks ranges) := by
  apply not_mem_intercalate (by decide)
  intro text mem
  obtain ⟨block, inBlocks, rfl⟩ := mem_map.mp mem
  exact (readsBack_block readable ordered block inBlocks).unended

/-- The text in the buffer is read back as a list with the names of the ranges in their order. -/
def Reread (ranges : List HostRange) (buf : List Char) : Prop :=
  ∃ hl ranges', HostList.create (cString buf) = some hl ∧ hl.hr = ranges'.map some ∧
    expand ranges' = expand ranges

/-- `hostlist_ranged_string` writes into the buffer only.  It gives up exactly when there is less
room than the blocks ask for, which is one to five characters behind the text, and otherwise
it leaves the text in the buffer, from which readable lists are read back. -/
theorem rangedString_rereads {hl : HostList} (slots : hl.hr = ranges.map some)
    (ordered : ∀ hr ∈ ranges, Ordered hr) (buf : List Char) :
    ∃ answer after, rangedString hl buf = some (answer, after) ∧ after.length = buf.length ∧
      (answer = none ↔ buf.length < rangedRoom (blocks ranges)) ∧
      (buf.length ≤ (rangedText (blocks ranges)).length → answer = none) ∧
      ((rangedText (blocks ranges)).length + 5 ≤ buf.length → answer ≠ none) ∧
      ∀ len, answer = some len → len = (rangedText (blocks ranges)).length ∧
        rangedText (blocks ranges) ++ [nul] <+: after ∧ (Readable ranges → Reread ranges after) := by
  obtain ⟨answer, after, written, same, rest⟩ := rangedString_spec slots ordered buf
  obtain ⟨above, below⟩ := rangedRoom_bounds ranges
  refine ⟨answer, after, written, same, ?_⟩
  split_ifs at rest with enough
  · obtain ⟨rfl, text⟩ := rest
    refine ⟨⟨fun none_ => absurd none_ (by simp), fun less => absurd enough (by omega)⟩,
      fun less => absurd enough (by omega), fun _ => by simp, ?_⟩
    rintro len isLen
    refine ⟨(Option.some.inj isLen).symm, text, fun readable => ?_⟩
    rw [Reread, cString_of_prefix text (unended_rangedText readable ordered)]
    exact create_rangedText readable ordered
  · obtain rfl := rest
    refine ⟨⟨fun _ => by omega, fun _ => rfl⟩, fun _ => rfl, fun more => by omega, ?_⟩
    exact fun len isLen => absurd isLen (by simp)

/-- Ranges of several widths, in brackets and without. -/
def paddedRanges : List HostRange :=
  [create ['n'] 8 10 2, create ['n'] 12 12 4, createSingle ['x'], create ['m'] 7 7 3]

theorem paddedRanges_readable : Readable paddedRanges := by
  refine ⟨?_, ?_, ?_, ?_, ?_, ?_⟩ <;> decide +kernel

/-- A list with a bracketed list, a name without a number and a padded name is read back. -/
theorem rangedString_rereads_padded :
    ∃ answer after, rangedString ⟨paddedRanges.map some, 6⟩ (List.replicate 40 nul) =
        some (answer, after) ∧ answer ≠ none ∧ Reread paddedRanges after := by
  obtain ⟨answer, after, written, -, -, -, some_, text⟩ :=
    @rangedString_rereads paddedRanges ⟨paddedRanges.map some, 6⟩ rfl
      (by unfold Ordered; decide) (List.replicate 40 nul)
  have fits := some_ (by decide +kernel)
  obtain ⟨len, isLen⟩ := Option.ne_none_iff_exists'.mp fits
  exact ⟨answer, after, written, fits, (text len isLen).2.2 paddedRanges_readable⟩

theorem not_reread {buf : List Char} {hl : HostList} {ranges' : List HostRange}
    (created : HostList.create (cString buf) = some hl) (slots : hl.hr = ranges'.map some)
    (differ : expand ranges' ≠ expand ranges) : ¬Reread ranges buf := by
  rintro ⟨hl', others, created', slots', same⟩
  obtain rfl := Option.some.inj (created.symm.trans created')
  have equal : ranges' = others :=
    List.map_injective_iff.mpr (Option.some_injective _) (slots.symm.trans slots')
  exact differ (equal ▸ same)

/-- Two prefixes that differ in a vertical tab only. -/
def tabbedRanges : List HostRange :=
  [create ['a', '\x0b'] 1 1 1, create ['a'] 3 3 1]

theorem tabbedRanges_not_reread :
    ¬Reread tabbedRanges ['a', '\x0b', '[', '1', ',', '3', ']', nul] := by
  have text : cString ['a', '\x0b', '[', '1', ',', '3', ']', nul] =
      ['a', '\x0b', '[', '1', ',', '3', ']'] := by decide
  have created : HostList.create ['a', '\x0b', '[', '1', ',', '3', ']'] =
      some ⟨[some (create ['a', '\x0b'] 1 1 1), some (create ['a', '\x0b'] 3 3 1)], 2⟩ := by
    decide +kernel
  exact @not_reread tabbedRanges _ _ [create ['a', '\x0b'] 1 1 1, create ['a', '\x0b'] 3 3 1]
    (text ▸ created) rfl (by decide +kernel)

theorem emptyName_not_reread : ¬Reread [createSingle []] (List.replicate 6 nul) := by
  have created : HostList.create (cString (List.replicate 6 nul)) = some ⟨[], 0⟩ := by
    rw [HostList.create, parse, tokens]
    rfl
  exact @not_reread [createSingle []] _ _ [] created rfl (by decide)

/-- A name whose digits stand for a number that is too large. -/
def longName : Name :=
  ['a', '1'] ++ numText 20 5

theorem longName_not_reread :
    ¬Reread [create ['a', '1'] 5 5 20] (longName ++ List.replicate 8 nul) := by
  have text : cString (longName ++ List.replicate 8 nul) = longName := by decide +kernel
  have created : HostList.create longName =
      some ⟨[some (create ['a'] (2 ^ 64 - 1) (2 ^ 64 - 1) 21)], 1⟩ := by
    decide +kernel
  exact @not_reread [create ['a', '1'] 5 5 20] _ _ [create ['a'] (2 ^ 64 - 1) (2 ^ 64 - 1) 21]
    (text.symm ▸ created) rfl (by decide +kernel)

/-- The list of `ab` is refused although it fits with its end; prefixes that are equal up to
white space are written in one bracketed list; an empty name and a number that is too large
are not read back. -/
theorem rangedString_diverges :
    ((rangedText (blocks [createSingle ['a', 'b']])).length + 1 ≤ 3 ∧
        rangedString ⟨[some (createSingle ['a', 'b'])], 1⟩ (List.replicate 3 nul) =
          some (none, ['a', 'b', nul])) ∧
      (rangedString ⟨tabbedRanges.map some, 2⟩ (List.replicate 8 nul) =
          some (some 7, ['a', '\x0b', '[', '1', ',', '3', ']', nul]) ∧
        ¬Reread tabbedRanges ['a', '\x0b', '[', '1', ',', '3', ']', nul]) ∧
      (rangedString ⟨[some (createSingle [])], 1⟩ (List.replicate 6 nul) =
          some (some 0, List.replicate 6 nul) ∧ ¬Reread [createSingle []] (List.replicate 6 nul)) ∧
      rangedString ⟨[some (create ['a', '1'] 5 5 20)], 1⟩ (List.replicate 30 nul) =
          some (some 22, longName ++ List.replicate 8 nul) ∧
        ¬Reread [create ['a', '1'] 5 5 20] (longName ++ List.replicate 8 nul) :=
  ⟨⟨by decide, by decide⟩, ⟨by decide +kernel, tabbedRanges_not_reread⟩,
    ⟨by decide +kernel, emptyName_not_reread⟩, by decide +kernel, longName_not_reread⟩

end SlurmSim.Hostlist
