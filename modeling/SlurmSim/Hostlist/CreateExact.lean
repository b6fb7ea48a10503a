import SlurmSim.Hostlist.Expression
import SlurmSim.Hostlist.Find

/-!
# What `hostlist_create` makes of an expression

The text of an expression is cut into its tokens, whatever stands in the brackets. The tokens
are read one after the other; the program ends with an error at the first that is refused,
and it does not end at a token whose prefix is read without end.
-/

namespace SlurmSim.Hostlist

open SlurmSim.Lib.CText HostRange List

/-! ## Expressions -/

/-- A prefix, which may hold bracketed lists, with a bracketed list behind it. -/
structure HostTok where
  parts : List (Name × Name)
  text : Name
  body : Name
  plainParts : ∀ part ∈ parts, Plain part.1 ∧ Inside part.2
  plainText : Plain text
  inside : Inside body

/-- The text in front of the last list. -/
def HostTok.hostPrefix (tok : HostTok) : Name :=
  partsText tok.parts ++ tok.text

/-- The token as text. -/
def HostTok.toText (tok : HostTok) : Name :=
  partsText (tok.parts ++ [(tok.text, tok.body)])

/-- The texts that the token stands for. -/
def HostTok.expansion (tok : HostTok) : List Name :=
  product (tok.parts ++ [(tok.text, tok.body)])

/-- Every list is well formed and within the limits, and so is a prefix with lists. -/
def HostTok.Good (tok : HostTok) : Prop :=
  (listed tok.body).isSome ∧ (∀ part ∈ tok.parts, PrefixList part.2) ∧
    (tok.parts = [] ∨ tok.hostPrefix.length < 1024)

/-- Tokens with separators in front of each, at least one between two, and at the end. -/
structure HostExpr where
  toks : List (Name × HostTok)
  trailing : Name
  separators : ∀ tok ∈ toks, ∀ c ∈ tok.1, isSep c = true
  trailingSeparators : ∀ c ∈ trailing, isSep c = true
  apart : ∀ tok ∈ toks.tail, tok.1 ≠ []

/-- The expression as text. -/
def HostExpr.toText (e : HostExpr) : Name :=
  (e.toks.flatMap fun tok => tok.1 ++ tok.2.toText) ++ e.trailing

/-! ## Cutting the text into tokens -/

/-- Behind a token there is nothing or a separator. -/
def Separated (back : Name) : Prop :=
  ∀ c, back.head? = some c → isSep c = true

variable {back : Name}

theorem takeWhile_separated (separated : Separated back) :
    back.takeWhile (fun c => !isSep c) = [] := by
  cases back with
  | nil => rfl
  | cons c back => rw [takeWhile_cons_of_neg (by simp [separated c rfl])]

theorem skipTok_of_le {str : Name} {start later : Nat} (le : start ≤ later)
    (before : later ≤ skipTok str start) : skipTok str later = skipTok str start := by
  rw [skipTok] at before
  have whole := takeWhile_append_dropWhile (p := fun c => !isSep c) (l := str.drop start)
  have rest : str.drop later = ((str.drop start).takeWhile fun c => !isSep c).drop (later - start) ++
      (str.drop start).dropWhile fun c => !isSep c := by
    rw [← drop_append_of_le_length (by omega), whole, drop_drop]
    congr 1
    omega
  have stop : ((str.drop start).dropWhile fun c => !isSep c).takeWhile (fun c => !isSep c) = [] := by
    apply takeWhile_separated
    intro c first
    have head := head?_dropWhile_not (fun c => !isSep c) (str.drop start)
    rw [first] at head
    simpa using head
  have pass : ∀ c ∈ ((str.drop start).takeWhile fun c => !isSep c).drop (later - start),
      (!isSep c) = true := fun c mem =>
    @mem_takeWhile_imp _ (fun c => !isSep c) _ _ (mem_of_mem_drop mem)
  rw [skipTok, rest, takeWhile_append_of_pos pass, stop, append_nil, length_drop, skipTok]
  omega

theorem strchr_from {c : Char} {front text : Name} (none_ : c ∉ text) (back : Name) :
    strchr (front ++ (text ++ c :: back)) front.length c = some (front.length + text.length) := by
  have here := strchr_append none_ back
  rw [strchr, drop_zero] at here
  rw [strchr, drop_left]
  cases found : (text ++ c :: back).findIdx? (· = c) with
  | none =>
    rw [found] at here
    cases here
  | some i =>
    rw [found, Option.map_some, Option.some_inj, Nat.zero_add] at here
    rw [Option.map_some, here]

theorem tokEnd_nothing {front : Name} (separated : Separated back) :
    tokEnd (front ++ back) front.length (skipTok (front ++ back) front.length) = front.length := by
  have here : skipTok (front ++ back) front.length = front.length := by
    rw [skipTok, drop_left, takeWhile_separated separated]
    rfl
  rw [here, tokEnd]
  split
  · rfl
  · rename_i openBracket opening
    obtain ⟨le, mem, bracket⟩ := strchr_spec opening
    rcases Nat.eq_or_lt_of_le le with same | less
    · subst same
      rw [getElem_append_right le_rfl] at bracket
      have first : back.head? = some '[' := by
        rw [head?_eq_getElem?, getElem?_eq_some_iff]
        refine ⟨?_, ?_⟩
        · rw [length_append] at mem
          omega
        · rw [← bracket]
          congr 1
          omega
      exact absurd (separated '[' first) (by decide)
    · rw [if_pos less]

theorem tokEnd_part {front text body : Name} (plain : Plain text) (inside : Inside body) :
    tokEnd (front ++ (text ++ '[' :: (body ++ ']' :: back))) front.length
        (skipTok (front ++ (text ++ '[' :: (body ++ ']' :: back))) front.length) =
      tokEnd (front ++ (text ++ '[' :: (body ++ ']' :: back)))
        (front.length + text.length + body.length + 2)
        (skipTok (front ++ (text ++ '[' :: (body ++ ']' :: back)))
          (front.length + text.length + body.length + 2)) := by
  have noOpen : '[' ∉ text := fun mem => (plain _ mem).2.2.1 rfl
  have noClose : ']' ∉ text ++ '[' :: body := by
    rw [mem_append, mem_cons, not_or, not_or]
    exact ⟨fun mem => (plain _ mem).2.2.2.1 rfl, by decide, inside.2.1⟩
  have opening := @strchr_from '[' front text noOpen (body ++ ']' :: back)
  have closing := @strchr_from ']' front (text ++ '[' :: body) noClose back
  rw [append_assoc, cons_append, length_append, length_cons] at closing
  have beyond : front.length + text.length <
      skipTok (front ++ (text ++ '[' :: (body ++ ']' :: back))) front.length := by
    rw [skipTok, drop_left, takeWhile_append_of_pos fun c mem => by simp [plain.noSep c mem],
      takeWhile_cons_of_pos (by rfl), length_append, length_cons]
    omega
  have last : front.length + (text.length + (body.length + 1)) <
      (front ++ (text ++ '[' :: (body ++ ']' :: back))).length := by
    simp only [length_append, length_cons]
    omega
  have bracket : (front ++ (text ++ '[' :: (body ++ ']' :: back)))[front.length +
      (text.length + (body.length + 1))] = ']' := by
    obtain ⟨-, _, here⟩ := strchr_spec closing
    exact here
  have skipped := lt_skipTok last (by rw [bracket]; rfl)
  rw [tokEnd_open opening closing beyond.le (by omega)]
  have next : front.length + (text.length + (body.length + 1)) + 1 =
      front.length + text.length + body.length + 2 := by omega
  split_ifs with reached
  · rw [next, skipTok_of_le (show front.length ≤ front.length + text.length + body.length + 2 by
      omega) (by omega)]
  · rw [tokEnd_open opening closing (by omega) (by omega), if_pos skipped, next,
      skipTok_of_le (show front.length + (text.length + (body.length + 1)) ≤
        front.length + text.length + body.length + 2 by omega) (by omega)]

theorem tokEnd_parts {parts : List (Name × Name)}
    (plain : ∀ part ∈ parts, Plain part.1 ∧ Inside part.2) (front : Name)
    (separated : Separated back) :
    tokEnd (front ++ (partsText parts ++ back)) front.length
        (skipTok (front ++ (partsText parts ++ back)) front.length) =
      front.length + (partsText parts).length := by
  induction parts generalizing front with
  | nil => exact tokEnd_nothing separated
  | cons part parts ih =>
    obtain ⟨text, body⟩ := part
    obtain ⟨⟨isText, isBody⟩, others⟩ := forall_mem_cons.mp plain
    have whole : partsText ((text, body) :: parts) ++ back =
        text ++ '[' :: (body ++ ']' :: (partsText parts ++ back)) := by
      simp [partsText]
    have regroup : front ++ (text ++ '[' :: (body ++ ']' :: (partsText parts ++ back))) =
        (front ++ text ++ '[' :: body ++ [']']) ++ (partsText parts ++ back) := by
      simp
    have length : (front ++ text ++ '[' :: body ++ [']']).length =
        front.length + text.length + body.length + 2 := by
      simp only [length_append, length_cons, length_nil]
      omega
    have rest := ih others (front ++ text ++ '[' :: body ++ [']'])
    rw [length, ← regroup] at rest
    rw [whole, tokEnd_part isText isBody, rest]
    simp only [partsText, flatMap_cons, length_append, length_cons, length_nil]
    omega

theorem HostTok.plain (tok : HostTok) :
    ∀ part ∈ tok.parts ++ [(tok.text, tok.body)], Plain part.1 ∧ Inside part.2 :=
  forall_mem_append.mpr ⟨tok.plainParts, forall_mem_singleton.mpr ⟨tok.plainText, tok.inside⟩⟩

theorem partsText_starts {parts : List (Name × Name)} (plain : ∀ part ∈ parts, Plain part.1)
    (some_ : parts ≠ []) : ∃ c rest, partsText parts = c :: rest ∧ isSep c = false := by
  obtain ⟨part, others, rfl⟩ := exists_cons_of_ne_nil some_
  have first := plain part mem_cons_self
  rw [partsText, flatMap_cons]
  cases text : part.1 with
  | nil => exact ⟨'[', _, rfl, rfl⟩
  | cons c text' =>
    rw [text] at first
    exact ⟨c, _, rfl, first.noSep c mem_cons_self⟩

theorem tokens_separated {gap : Name} (gaps : ∀ c ∈ gap, isSep c = true) (tok : HostTok)
    (separated : Separated back) :
    tokens (gap ++ tok.toText ++ back) = tok.toText :: tokens back := by
  have start : (gap ++ tok.toText ++ back).dropWhile isSep =
      (tok.toText ++ back).dropWhile isSep := by
    rw [append_assoc, dropWhile_append_of_pos gaps]
  have last := tokEnd_parts tok.plain [] separated
  simp only [nil_append, length_nil, Nat.zero_add] at last
  rw [tokens_congr start]
  exact tokens_cut (partsText_starts (fun part mem => (tok.plain part mem).1) (by simp)) last

theorem separated_of_all (all : ∀ c ∈ back, isSep c = true) : Separated back :=
  fun c first => all c (mem_of_mem_head? first)

theorem tokens_toText (e : HostExpr) : tokens e.toText = e.toks.map fun tok => tok.2.toText := by
  obtain ⟨toks, trailing, separators, trailingSeparators, apart⟩ := e
  simp only [HostExpr.toText]
  induction toks with
  | nil =>
    have nothing : trailing.dropWhile isSep = List.dropWhile isSep [] :=
      dropWhile_eq_nil_iff.mpr trailingSeparators
    rw [flatMap_nil, nil_append, tokens_congr nothing, tokens]
    rfl
  | cons tok toks ih =>
    obtain ⟨here, others⟩ := forall_mem_cons.mp separators
    have separated : Separated ((toks.flatMap fun tok => tok.1 ++ tok.2.toText) ++ trailing) := by
      cases toks with
      | nil => exact separated_of_all trailingSeparators
      | cons next toks =>
        obtain ⟨c, gap, isGap⟩ := exists_cons_of_ne_nil (apart next mem_cons_self)
        intro d first
        rw [flatMap_cons, isGap] at first
        obtain rfl := Option.some.inj first
        exact others next mem_cons_self c (by rw [isGap]; exact mem_cons_self)
    rw [flatMap_cons, append_assoc, tokens_separated here tok.2 separated, map_cons,
      ih others fun other mem => apart other (mem_of_mem_tail mem)]

/-! ## Reading with and without an end -/

/-- One token of `_hostlist_create_bracketed`: `none` if the program does not come to an end, and
`some none` for an error. -/
def runTok (tok : Name) : Option (Option (List HostRange)) :=
  match cutAtLast '[' tok with
  | none => some (some [pushedHost tok])
  | some (hostPrefix, p) =>
    match cutAt ']' p with
    | none => some (some [pushedHost (if hostPrefix ≠ [] then hostPrefix ++ [']'] else p)])
    | some (body, q) =>
      if q = [] ∨ q.head? = some ',' then
        match parseRangeList body with
        | none => some none
        | some ranges => (pushRangeList hostPrefix ranges).map fun pushed =>
          if pushed.2 then some pushed.1 else none
      else some none

/-- The tokens one after the other, as far as the first error. -/
def runToks : List Name → Option (Option (List HostRange))
  | [] => some (some [])
  | tok :: toks =>
    match runTok tok with
    | none => none
    | some none => some none
    | some (some pushed) => (runToks toks).map (Option.map (pushed ++ ·))

/-- `hostlist_create`: `none` if it does not return, and `some none` for `NULL`. -/
def createRun (str : Name) : Option (Option HostList) :=
  (runToks (tokens str)).map fun result => result.bind fun ranges =>
    (HostList.new.pushSlots (ranges.map some)).map Prod.fst

theorem append_present {hl : HostList} (present : none ∉ hl.hr) (hr : HostRange) :
    none ∉ (hl.append hr).hr := by
  rw [HostList.append, mem_append, mem_singleton, not_or]
  exact ⟨present, by simp⟩

theorem pushRange_present {hl : HostList} (present : none ∉ hl.hr) (hr : HostRange) :
    ∃ hl' hr', hl.pushRange hr = some (hl', hr') ∧ none ∉ hl'.hr := by
  rw [HostList.pushRange]
  cases last : hl.hr.getLast? with
  | none => exact ⟨_, _, rfl, append_present present hr⟩
  | some slot =>
    cases slot with
    | none => exact absurd (mem_of_getLast? last) present
    | some tail =>
      simp only
      split_ifs
      · cases tail.widthCombine hr with
        | none => exact ⟨_, _, rfl, append_present present hr⟩
        | some both =>
          refine ⟨_, _, rfl, ?_⟩
          simp only [mem_append, mem_singleton, reduceCtorEq, or_false]
          exact fun mem => present (dropLast_subset _ mem)
      · exact ⟨_, _, rfl, append_present present hr⟩

theorem pushSlots_isSome {hl : HostList} (present : none ∉ hl.hr) (ranges : List HostRange) :
    (hl.pushSlots (ranges.map some)).isSome := by
  induction ranges generalizing hl with
  | nil => rfl
  | cons hr ranges ih =>
    obtain ⟨hl', hr', done, present'⟩ := pushRange_present present hr
    rw [map_cons, HostList.pushSlots, done, Option.bind_some, Option.isSome_map]
    exact ih present'

theorem createRun_null_iff (str : Name) :
    createRun str = some none ↔ runToks (tokens str) = some none := by
  rw [createRun]
  cases runToks (tokens str) with
  | none => simp
  | some result =>
    cases result with
    | none => simp
    | some ranges =>
      obtain ⟨lists, done⟩ := Option.isSome_iff_exists.mp
        (@pushSlots_isSome HostList.new not_mem_nil ranges)
      simp [done]

/-! ## Tokens that are refused -/

/-- The lists of the prefix as far as the buffer goes, the last one first. -/
def HostTok.seen (tok : HostTok) : List Name :=
  visible (tok.hostPrefix.take 1023)

/-- The reading of the token comes to an end. -/
def HostTok.Ended (tok : HostTok) : Prop :=
  parseRangeList tok.body = none ∨ Ends tok.seen

/-- The last list is refused, or the last one of the prefix. -/
def HostTok.Refused (tok : HostTok) : Prop :=
  parseRangeList tok.body = none ∨ Ends tok.seen ∧ Refuses tok.seen

variable {tok : HostTok}

theorem runTok_toText (tok : HostTok) : runTok tok.toText =
    match parseRangeList tok.body with
    | none => some none
    | some ranges => (pushRangeList tok.hostPrefix ranges).map fun pushed =>
      if pushed.2 then some pushed.1 else none := by
  have whole : tok.toText = tok.hostPrefix ++ '[' :: (tok.body ++ ']' :: []) := by
    rw [HostTok.toText, partsText_concat, HostTok.hostPrefix]
    simp
  have noOpen : '[' ∉ tok.body ++ [']'] := by
    rw [mem_append, not_or]
    exact ⟨tok.inside.1, by decide⟩
  rw [runTok, whole, cutAtLast_append tok.hostPrefix noOpen]
  simp only [cutAt_append tok.inside.2.1, true_or, if_true]

theorem runTok_eq_none_iff : runTok tok.toText = none ↔ ¬tok.Ended := by
  rw [runTok_toText, HostTok.Ended]
  cases parsed : parseRangeList tok.body with
  | none => simp
  | some ranges =>
    simp only [Option.map_eq_none_iff, pushRangeList_eq_none_iff, reduceCtorEq, false_or]
    rfl

theorem runTok_refused_iff : runTok tok.toText = some none ↔ tok.Refused := by
  rw [runTok_toText, HostTok.Refused]
  cases parsed : parseRangeList tok.body with
  | none => simp
  | some ranges =>
    have refused := @pushRangeList_refused_iff ranges tok.hostPrefix
    simp only [reduceCtorEq, false_or]
    rw [HostTok.seen, ← refused, Option.map_eq_some_iff]
    constructor
    · rintro ⟨⟨pushed, ok⟩, done, isNone⟩
      cases ok with
      | true => cases isNone
      | false => exact ⟨pushed, done⟩
    · rintro ⟨pushed, done⟩
      exact ⟨_, done, rfl⟩

theorem HostTok.Refused.ended (refused : tok.Refused) : tok.Ended :=
  refused.imp_right And.left

theorem runToks_refused_iff {toks : List HostTok} :
    runToks (toks.map HostTok.toText) = some none ↔ ∃ before tok after,
      toks = before ++ tok :: after ∧ tok.Refused ∧ ∀ other ∈ before, other.Ended := by
  induction toks with
  | nil => simp [runToks]
  | cons tok toks ih =>
    rw [map_cons, runToks]
    have ended := @runTok_eq_none_iff tok
    have refused := @runTok_refused_iff tok
    cases run : runTok tok.toText with
    | none =>
      have endless := ended.mp run
      refine iff_of_false (by simp) ?_
      rintro ⟨before, other, after, whole, isRefused, ends⟩
      cases before with
      | nil =>
        obtain ⟨rfl, -⟩ := List.cons.inj whole
        exact endless isRefused.ended
      | cons first before =>
        obtain ⟨rfl, -⟩ := List.cons.inj whole
        exact endless (ends tok mem_cons_self)
    | some result =>
      cases result with
      | none =>
        exact iff_of_true rfl ⟨[], tok, toks, rfl, refused.mp run,
          fun _ mem => absurd mem not_mem_nil⟩
      | some pushed =>
        have goes : tok.Ended := by
          by_contra endless
          rw [ended.mpr endless] at run
          cases run
        have accepted : ¬tok.Refused := by
          intro isRefused
          rw [refused.mpr isRefused] at run
          cases run
        have rest : (runToks (toks.map HostTok.toText)).map (Option.map (pushed ++ ·)) =
            some none ↔ runToks (toks.map HostTok.toText) = some none := by
          cases runToks (toks.map HostTok.toText) with
          | none => simp
          | some result => cases result <;> simp
        simp only [rest, ih]
        constructor
        · rintro ⟨before, other, after, rfl, isRefused, ends⟩
          exact ⟨tok :: before, other, after, rfl, isRefused, forall_mem_cons.mpr ⟨goes, ends⟩⟩
        · rintro ⟨before, other, after, whole, isRefused, ends⟩
          cases before with
          | nil =>
            obtain ⟨rfl, -⟩ := List.cons.inj whole
            exact absurd isRefused accepted
          | cons first before =>
            obtain ⟨rfl, others⟩ := List.cons.inj whole
            exact ⟨before, other, after, others, isRefused, (forall_mem_cons.mp ends).2⟩

/-! ## Tokens that are good -/

theorem fits_of_pushed {ranges : List Range} {pushed : List HostRange}
    (allowed : ∀ range ∈ ranges, range.Allowed) (isPushed : Pushed ranges pushed) : Fits pushed := by
  intro hr mem
  obtain ⟨hostPrefix, range, plain, isRange, rfl⟩ := isPushed hr mem
  obtain ⟨le, below, -⟩ := allowed range isRange
  exact ⟨sane_create _ _ le below, plain.spaceless, below⟩

theorem runTok_good (good : tok.Good) : ∃ pushed, runTok tok.toText = some (some pushed) ∧
    Fits pushed ∧ (expand pushed).Perm tok.expansion := by
  obtain ⟨isSome, lists, short⟩ := good
  obtain ⟨ranges, isList⟩ := Option.isSome_iff_exists.mp isSome
  obtain ⟨-, -, allowed⟩ := listed_spec isList
  obtain ⟨pushed, done, isPushed, names⟩ := @pushRangeList_parts ranges tok.parts tok.plainParts
    lists tok.text tok.plainText (short.imp_right Nat.le_of_lt_succ)
  refine ⟨pushed, ?_, fits_of_pushed allowed isPushed, names.trans (List.Perm.of_eq ?_)⟩
  · rw [runTok_toText, parseRangeList_listed isList, HostTok.hostPrefix]
    simp only [done, Option.map_some, if_true]
  · rw [HostTok.expansion, product_concat, bodyNumbers, isList]
    apply flatMap_congr
    intro front _
    exact expand_prefixed _ _

theorem runToks_good {toks : List HostTok} (good : ∀ tok ∈ toks, tok.Good) :
    ∃ pushed, runToks (toks.map HostTok.toText) = some (some pushed) ∧ Fits pushed ∧
      (expand pushed).Perm (toks.flatMap HostTok.expansion) := by
  induction toks with
  | nil => exact ⟨[], rfl, fun hr mem => absurd mem not_mem_nil, List.Perm.refl _⟩
  | cons tok toks ih =>
    obtain ⟨here, others⟩ := forall_mem_cons.mp good
    obtain ⟨pushed, run, fits, names⟩ := runTok_good here
    obtain ⟨more, rest, fits', names'⟩ := ih others
    refine ⟨pushed ++ more, ?_, forall_mem_append.mpr ⟨fits, fits'⟩, ?_⟩
    · rw [map_cons, runToks, run, rest]
      rfl
    · rw [expand_append, flatMap_cons]
      exact names.append names'

/-! ## `hostlist_create` -/

/-- Every token is good. -/
def HostExpr.Good (e : HostExpr) : Prop :=
  ∀ tok ∈ e.toks, tok.2.Good

/-- The names that the expression stands for. -/
def HostExpr.expansion (e : HostExpr) : List Name :=
  e.toks.flatMap fun tok => tok.2.expansion

/-- A good expression is made a list of its names, and every other one gives `NULL`. -/
structure HostExpr.Exact (e : HostExpr) : Prop where
  names : e.Good → ∃ hl ranges, createRun e.toText = some (some hl) ∧ hl.hr = ranges.map some ∧
    (expand ranges).Perm e.expansion
  null : ¬e.Good → createRun e.toText = some none

/-- A token is refused, and the reading of those before it comes to an end. -/
def HostExpr.Refused (e : HostExpr) : Prop :=
  ∃ before tok after, (e.toks.map fun tok => tok.2) = before ++ tok :: after ∧ tok.Refused ∧
    ∀ other ∈ before, other.Ended

variable {e : HostExpr}

theorem runToks_toText (e : HostExpr) :
    tokens e.toText = (e.toks.map fun tok => tok.2).map HostTok.toText := by
  rw [tokens_toText, map_map]
  rfl

theorem create_good (good : e.Good) : ∃ hl ranges, createRun e.toText = some (some hl) ∧
    hl.hr = ranges.map some ∧ (expand ranges).Perm e.expansion := by
  obtain ⟨pushed, run, fits, names⟩ := @runToks_good (e.toks.map fun tok => tok.2) (by
    intro tok mem
    obtain ⟨other, isTok, rfl⟩ := mem_map.mp mem
    exact good other isTok)
  obtain ⟨hl, pushed', ranges, done, lists, names', -, -⟩ :=
    pushSlots_lists spaceless_apart (Lists.new {p | Spaceless p} (2 ^ 64 - 1)) fits rfl
  refine ⟨hl, ranges, ?_, lists.slots, ?_⟩
  · rw [createRun, runToks_toText, run]
    simp only [Option.map_some, Option.bind_some, done]
  · rw [names', expand_nil, nil_append]
    rw [flatMap_map] at names
    exact names

/-- `hostlist_create` does what is expected of it exactly on good expressions and on those in
which a last list, or the last list of a prefix, is refused. -/
theorem create_exact_iff (e : HostExpr) : e.Exact ↔ e.Good ∨ e.Refused := by
  have refused : createRun e.toText = some none ↔ e.Refused := by
    rw [createRun_null_iff, runToks_toText, runToks_refused_iff]
    rfl
  constructor
  · intro exact_
    by_cases good : e.Good
    · exact Or.inl good
    · exact Or.inr (refused.mp (exact_.null good))
  · rintro (good | isRefused)
    · exact ⟨fun _ => create_good good, fun bad => absurd good bad⟩
    · refine ⟨create_good, fun _ => refused.mpr isRefused⟩

/-- The token `a[x]b[1]c[2]`. -/
def lostTok : HostTok where
  parts := [(['a'], ['x']), (['b'], ['1'])]
  text := ['c']
  body := ['2']
  plainParts := by decide
  plainText := by decide
  inside := by decide

/-- The first list of `a[x]b[1]c[2]` is malformed, and the program makes an empty list. -/
theorem create_exact_fails : ¬∀ e : HostExpr, e.Exact := by
  intro all
  have exact_ := all ⟨[([], lostTok)], [], by simp, by simp, by simp⟩
  have bad : ¬HostExpr.Good ⟨[([], lostTok)], [], by simp, by simp, by simp⟩ := by
    intro good
    obtain ⟨-, lists, -⟩ := good ([], lostTok) mem_cons_self
    obtain ⟨ranges, isList, -⟩ := lists (['a'], ['x']) mem_cons_self
    have malformed : listed ['x'] = none := by decide +kernel
    rw [malformed] at isList
    cases isList
  have made : createRun "a[x]b[1]c[2]".toList = some (some ⟨[], 0⟩) := by decide +kernel
  have text : HostExpr.toText ⟨[([], lostTok)], [], by simp, by simp, by simp⟩ =
      "a[x]b[1]c[2]".toList := by
    decide +kernel
  have null := exact_.null bad
  rw [text, made] at null
  cases null

end SlurmSim.Hostlist
