import SlurmSim.Hostlist.PrefixLists

/-!
# Host expressions

A token of a host expression is text with bracketed lists of numbers, and it stands for the
texts with a number of each list in its place.
-/

namespace SlurmSim.Hostlist

open SlurmSim.Lib.CText SlurmSim.Lib.Numerals HostRange List
open Option (some.inj)

/-! ## Well-formed lists -/

/-- Digits, at least one. -/
def IsNumber (text : Name) : Prop :=
  text ≠ [] ∧ Digits text

instance (text : Name) : Decidable (Digits text) :=
  List.decidableBAll (fun c : Char => c.isDigit = true) text

instance (text : Name) : Decidable (IsNumber text) :=
  inferInstanceAs (Decidable (text ≠ [] ∧ Digits text))

/-- One number, or two with a dash between them. -/
def listItem (piece : Name) : Option Range :=
  match cutAt '-' piece with
  | none =>
    if IsNumber piece then some ⟨textValue piece, textValue piece, piece.length⟩ else none
  | some (lo, hi) =>
    if IsNumber lo ∧ IsNumber hi then some ⟨textValue lo, textValue hi, lo.length⟩ else none

/-- The numbers of a range are in order, below the largest `unsigned long`, and no more than
`MAX_RANGE`. -/
def Range.Allowed (range : Range) : Prop :=
  range.lo ≤ range.hi ∧ range.hi < 2 ^ 64 - 1 ∧ range.hi - range.lo < maxRange

instance (range : Range) : Decidable range.Allowed :=
  inferInstanceAs (Decidable (_ ∧ _ ∧ _))

/-- The ranges of a list that is well formed and has at most `MAX_RANGES` of them. -/
def listed (body : Name) : Option (List Range) :=
  ((pieces body).mapM listItem).filter fun ranges =>
    ranges.length ≤ maxRanges ∧ ∀ range ∈ ranges, range.Allowed

/-- The numbers of ranges as text. -/
def numberTexts (ranges : List Range) : List Name :=
  ranges.flatMap fun range => range.values.map (numText range.width)

variable {piece body : Name} {range : Range} {ranges : List Range}

theorem IsNumber.strtoul (number : IsNumber piece) (small : textValue piece < 2 ^ 64) :
    strtoul piece = (textValue piece, []) := by
  rw [strtoul_digits number.2, min_eq_left (by omega)]

theorem IsNumber.not_mem {c : Char} (number : IsNumber piece) (digit : c.isDigit = false) :
    c ∉ piece :=
  fun mem => Bool.false_ne_true (digit.symm.trans (number.2 c mem))

theorem cutAt_spec {c : Char} {text front back : Name} (cut : cutAt c text = some (front, back)) :
    text = front ++ c :: back := by
  rw [cutAt] at cut
  split_ifs at cut with mem
  obtain ⟨rfl, rfl⟩ := Prod.mk.inj (some.inj cut)
  have nonempty : text.dropWhile (· ≠ c) ≠ [] := by
    rw [Ne, dropWhile_eq_nil_iff]
    intro all
    simpa using all c mem
  have first := head_dropWhile_not (fun x => decide (x ≠ c)) nonempty
  rw [decide_eq_false_iff_not, not_not] at first
  conv_lhs => rw [← takeWhile_append_dropWhile (p := fun x => decide (x ≠ c)) (l := text),
    ← cons_head_tail nonempty, first]

theorem parseSingleRange_listItem (item : listItem piece = some range) (allowed : range.Allowed) :
    parseSingleRange piece = some range := by
  obtain ⟨le, below, few⟩ := allowed
  rw [listItem] at item
  rw [parseSingleRange]
  cases cut : cutAt '-' piece with
  | none =>
    simp only [cut] at item ⊢
    split_ifs at item with number
    obtain rfl := some.inj item
    rw [if_neg (number.not_mem (by decide))]
    simp only [parseBounds, number.strtoul (by simp only at below; omega)]
    rw [if_neg (by simp), if_neg (fun same => number.1 same.symm)]
    exact check_ok le few
  | some sides =>
    simp only [cut] at item ⊢
    split_ifs at item with numbers
    obtain rfl := some.inj item
    obtain ⟨left, right⟩ := numbers
    have whole := cutAt_spec cut
    have noBox : 'x' ∉ piece := by
      rw [whole, mem_append, mem_cons, not_or, not_or]
      exact ⟨left.not_mem (by decide), by decide, right.not_mem (by decide)⟩
    obtain ⟨c, rest, isHigh⟩ := exists_cons_of_ne_nil right.1
    have low := left.strtoul (by simp only at below le; omega)
    have high := right.strtoul (by simp only at below; omega)
    have noDash : c ≠ '-' := fun same =>
      right.not_mem (c := '-') (by decide) (by rw [isHigh, same]; exact mem_cons_self)
    rw [isHigh] at high
    rw [if_neg noBox, isHigh]
    simp only [parseBounds, low, high]
    rw [if_neg (by simpa using noDash), if_neg (fun same => left.1 same.symm),
      if_neg (fun same => cons_ne_nil c rest same.symm), ← isHigh]
    exact check_ok le few

variable {α β : Type}

theorem mapM_of_forall₂ {f : α → Option β} {xs : List α} {ys : List β}
    (all : List.Forall₂ (fun x y => f x = some y) xs ys) : xs.mapM f = some ys := by
  induction all with
  | nil => rfl
  | cons here _ ih =>
    rw [mapM_cons, here, ih]
    rfl

theorem forall₂_of_mapM {f : α → Option β} {xs : List α} {ys : List β} (all : xs.mapM f = some ys) :
    List.Forall₂ (fun x y => f x = some y) xs ys := by
  induction xs generalizing ys with
  | nil =>
    obtain rfl := some.inj all
    exact List.Forall₂.nil
  | cons x xs ih =>
    rw [mapM_cons] at all
    obtain ⟨y, here, all⟩ := Option.bind_eq_some_iff.mp all
    obtain ⟨ys', rest, all⟩ := Option.bind_eq_some_iff.mp all
    obtain rfl := some.inj all
    exact List.Forall₂.cons here (ih rest)

theorem listed_spec (isList : listed body = some ranges) :
    List.Forall₂ (fun piece range => listItem piece = some range) (pieces body) ranges ∧
      ranges.length ≤ maxRanges ∧ ∀ range ∈ ranges, range.Allowed := by
  rw [listed, Option.filter_eq_some_iff, decide_eq_true_iff] at isList
  exact ⟨forall₂_of_mapM isList.1, isList.2⟩

theorem parseRangeList_listed (isList : listed body = some ranges) :
    parseRangeList body = some ranges := by
  obtain ⟨items, short, allowed⟩ := listed_spec isList
  rw [parseRangeList, items.length_eq, if_neg (Nat.not_lt_of_le short)]
  apply mapM_of_forall₂
  rw [forall₂_iff_get] at items ⊢
  refine ⟨items.1, fun i left right => ?_⟩
  exact parseSingleRange_listItem (items.2 i left right) (allowed _ (get_mem ranges ⟨i, right⟩))

theorem length_le_intercalate {texts : List Name} {text : Name} (mem : text ∈ texts) :
    text.length ≤ ([','].intercalate texts).length := by
  induction texts with
  | nil => exact absurd mem not_mem_nil
  | cons first texts ih =>
    cases texts with
    | nil =>
      rw [mem_singleton.mp mem, intercalate_one]
    | cons next texts =>
      rw [intercalate_cons_cons, length_append, length_append]
      rcases mem_cons.mp mem with rfl | mem
      · omega
      · have rest := ih mem
        omega

theorem length_numeral_textValue (number : IsNumber piece) :
    (numeral 10 (textValue piece)).length ≤ piece.length := by
  have small : ∀ digit ∈ piece.map fun c => c.toNat - 48, digit < 10 := by
    intro digit mem
    obtain ⟨c, isDigit, rfl⟩ := mem_map.mp mem
    exact (digit_of_isDigit (number.2 c isDigit)).1
  have value := read_lt_pow (by omega) small
  rw [length_map] at value
  exact length_numeral_le (by omega) (length_pos_of_ne_nil number.1) value

theorem length_numText_item (item : listItem piece = some range) {j : Nat} (le : j ≤ range.hi) :
    (numText range.width j).length ≤ piece.length := by
  have longer := length_numeral_mono 10 le
  rw [length_numText]
  rw [listItem] at item
  cases cut : cutAt '-' piece with
  | none =>
    simp only [cut] at item
    split_ifs at item with number
    obtain rfl := some.inj item
    have high := length_numeral_textValue number
    exact max_le le_rfl (longer.trans high)
  | some sides =>
    simp only [cut] at item
    split_ifs at item with numbers
    obtain rfl := some.inj item
    have high := length_numeral_textValue numbers.2
    rw [cutAt_spec cut, length_append, length_cons]
    simp only at longer ⊢
    exact max_le (by omega) (by omega)

theorem length_numText_listed (isList : listed body = some ranges) (mem : range ∈ ranges) {j : Nat}
    (le : j ≤ range.hi) : (numText range.width j).length ≤ body.length := by
  obtain ⟨items, -⟩ := listed_spec isList
  obtain ⟨i, inside, rfl⟩ := mem_iff_getElem.mp mem
  have here := (forall₂_iff_get.mp items).2 i (by rw [items.length_eq]; exact inside) inside
  have within := length_numText_item here le
  have whole : [','].intercalate (pieces body) = body := intercalate_splitOn ','
  have part := length_le_intercalate (get_mem (pieces body) ⟨i, by rw [items.length_eq]; exact inside⟩)
  rw [whole] at part
  exact within.trans part

/-! ## The product of the lists -/

/-- Texts with bracketed lists behind them. -/
def partsText (parts : List (Name × Name)) : Name :=
  parts.flatMap fun part => part.1 ++ '[' :: part.2 ++ [']']

/-- The numbers of a list, none if it is not well formed. -/
def bodyNumbers (body : Name) : List Name :=
  ((listed body).map numberTexts).getD []

/-- The texts with a number of each list in its place. -/
def product : List (Name × Name) → List Name
  | [] => [[]]
  | part :: parts =>
    (bodyNumbers part.2).flatMap fun number =>
      (product parts).map fun rest => part.1 ++ number ++ rest

theorem product_concat (parts : List (Name × Name)) (text body : Name) :
    product (parts ++ [(text, body)]) = (product parts).flatMap fun front =>
      (bodyNumbers body).map fun number => front ++ text ++ number := by
  induction parts with
  | nil => simp [product, map_eq_flatMap]
  | cons part parts ih =>
    rw [cons_append, product, ih, product, flatMap_assoc]
    apply flatMap_congr
    intro number _
    rw [flatMap_map, map_flatMap]
    apply flatMap_congr
    intro front _
    rw [map_map]
    apply map_congr_left
    intro last _
    simp only [Function.comp_apply, append_assoc]

theorem partsText_concat (parts : List (Name × Name)) (text body : Name) :
    partsText (parts ++ [(text, body)]) = partsText parts ++ text ++ '[' :: body ++ [']'] := by
  rw [partsText, flatMap_append, flatMap_singleton]
  simp only [partsText, append_assoc]

theorem flatMap_comm_perm {γ : Type} (xs : List α) (ys : List β) (f : α → β → List γ) :
    (xs.flatMap fun x => ys.flatMap fun y => f x y).Perm
      (ys.flatMap fun y => xs.flatMap fun x => f x y) := by
  rw [← Multiset.coe_eq_coe]
  simp only [← Multiset.coe_bind]
  exact Multiset.bind_bind _ _

/-- A list in a prefix that is well formed and has at most `MAX_PREFIX_CNT` numbers. -/
def PrefixList (body : Name) : Prop :=
  ∃ ranges, listed body = some ranges ∧ (numberTexts ranges).length ≤ maxPrefixCnt

theorem length_values (range : Range) : range.values.length = range.hi + 1 - range.lo :=
  length_range'

theorem size_of_allowed (allowed : range.Allowed) : range.size = range.values.length := by
  obtain ⟨le, below, few⟩ := allowed
  rw [length_values, Range.size, ulongAdd, ulongSub]
  omega

theorem entered_of_allowed {prefixCnt : Nat} (allowed : ∀ range ∈ ranges, range.Allowed)
    (few : prefixCnt + (numberTexts ranges).length ≤ maxPrefixCnt) :
    entered prefixCnt ranges = ranges := by
  induction ranges generalizing prefixCnt with
  | nil => rfl
  | cons range ranges ih =>
    obtain ⟨here, others⟩ := forall_mem_cons.mp allowed
    rw [numberTexts, flatMap_cons, length_append, length_map,
      ← size_of_allowed here, ← numberTexts] at few
    have bound : maxPrefixCnt = 65536 := rfl
    have count : ulongAdd prefixCnt range.size = prefixCnt + range.size := by
      rw [ulongAdd]
      omega
    rw [entered_cons, count, if_neg (by omega), ih others (by omega)]

theorem expand_prefixed (hostPrefix : Name) (ranges : List Range) :
    expand (prefixed hostPrefix ranges) =
      (numberTexts ranges).map fun number => hostPrefix ++ number := by
  rw [prefixed, expand, flatMap_map, numberTexts, map_flatMap]
  apply flatMap_congr
  intro range _
  rw [ranged_names rfl, numbered, map_map]
  rfl

/-- What is between the brackets. -/
def Inside (body : Name) : Prop :=
  '[' ∉ body ∧ ']' ∉ body ∧ nul ∉ body

instance (body : Name) : Decidable (Inside body) :=
  inferInstanceAs (Decidable (_ ∧ _ ∧ _))

/-- The ranges are those of the last list behind plain prefixes. -/
def Pushed (ranges : List Range) (pushed : List HostRange) : Prop :=
  ∀ hr ∈ pushed, ∃ hostPrefix range, Plain hostPrefix ∧ range ∈ ranges ∧
    hr = HostRange.create hostPrefix range.lo range.hi range.width

theorem pushed_prefixed {hostPrefix : Name} (plain : Plain hostPrefix) :
    Pushed ranges (prefixed hostPrefix ranges) := by
  intro hr mem
  obtain ⟨range, isRange, rfl⟩ := mem_map.mp mem
  exact ⟨hostPrefix, range, plain, isRange, rfl⟩

theorem pushNumber_eq {front q : Name} {width j : Nat} {pushed : List HostRange} (noOpen : '[' ∉ q)
    (done : pushRangeList (newPrefix front q width j) ranges = some (pushed, true)) :
    pushNumber front q ranges width j = some pushed := by
  rw [pushNumber]
  split_ifs with nested
  · rw [done]
    rfl
  · have bare : '[' ∉ (newPrefix front q width j).take 1023 := by
      intro mem
      have inside := mem_of_mem_take (mem_of_mem_take mem)
      rcases mem_append.mp inside with inside | inside
      · rcases mem_append.mp inside with inside | inside
        · exact nested inside
        · exact absurd (digits_numText width j _ inside) (by decide)
      · exact noOpen inside
    rw [pushRangeList_bare (visible_eq_nil bare)] at done
    exact congrArg some (Prod.mk.inj (some.inj done)).1

theorem expand_flatMap (xs : List α) (f : α → List HostRange) :
    expand (xs.flatMap f) = xs.flatMap fun x => expand (f x) :=
  flatMap_assoc

/-- What is pushed for every number of a list is pushed for the list. -/
theorem prefixLoop_numbers {push : Nat → Nat → Option (List HostRange)} {lists : List Range}
    {names : Name → List Name} (isList : listed body = some lists)
    (few : (numberTexts lists).length ≤ maxPrefixCnt)
    (all : ∀ range ∈ lists, ∀ j ∈ range.values, ∃ pushed, push range.width j = some pushed ∧
      Pushed ranges pushed ∧ (expand pushed).Perm (names (numText range.width j))) :
    ∃ pushed, prefixLoop push 0 lists = some (pushed, true) ∧ Pushed ranges pushed ∧
      (expand pushed).Perm ((numberTexts lists).flatMap names) := by
  obtain ⟨-, -, allowed⟩ := listed_spec isList
  have value : ∀ range ∈ lists, ∀ j ∈ range.values,
      push range.width j = some ((push range.width j).getD []) ∧
        Pushed ranges ((push range.width j).getD []) ∧
        (expand ((push range.width j).getD [])).Perm (names (numText range.width j)) := by
    intro range mem j inside
    obtain ⟨pushed, done, isPushed, perm⟩ := all range mem j inside
    rw [done]
    exact ⟨rfl, isPushed, perm⟩
  have count := @entered_of_allowed lists 0 allowed (by omega)
  have below : ∀ range ∈ lists, range.hi ≠ 2 ^ 64 - 1 := fun range mem => (allowed range mem).2.1.ne
  have looped := @prefixLoop_eq_some push lists 0 (fun width j => (push width j).getD []) count
    below fun range mem j inside => (value range mem j inside).1
  refine ⟨_, looped, ?_, ?_⟩
  · intro hr mem
    obtain ⟨range, isRange, mem⟩ := mem_flatMap.mp mem
    obtain ⟨j, inside, mem⟩ := mem_flatMap.mp mem
    exact (value range isRange j inside).2.1 hr mem
  · rw [expand_flatMap, numberTexts, flatMap_assoc]
    refine List.Perm.flatMap_left _ fun range mem => ?_
    rw [expand_flatMap, flatMap_map]
    exact List.Perm.flatMap_left _ fun j inside => (value range mem j inside).2.2

theorem newPrefix_of_short {front q : Name} {width j : Nat}
    (within : (front ++ '[' :: (body ++ ']' :: q)).length ≤ 1023)
    (shorter : (numText width j).length ≤ body.length) :
    newPrefix front q width j = front ++ numText width j ++ q ∧
      (front ++ numText width j ++ q).length ≤ 1023 := by
  have fits : (front ++ numText width j ++ q).length ≤ 1023 := by
    simp only [length_append, length_cons] at within ⊢
    omega
  exact ⟨take_of_length_le fits, fits⟩

/-- Well-formed lists in a prefix that fits into the buffer are multiplied out. -/
theorem pushRangeList_parts {parts : List (Name × Name)}
    (plain : ∀ part ∈ parts, Plain part.1 ∧ Inside part.2)
    (lists : ∀ part ∈ parts, PrefixList part.2) {text : Name} (isPlain : Plain text)
    (short : parts = [] ∨ (partsText parts ++ text).length ≤ 1023) :
    ∃ pushed, pushRangeList (partsText parts ++ text) ranges = some (pushed, true) ∧
      Pushed ranges pushed ∧ (expand pushed).Perm ((product parts).flatMap fun front =>
        expand (prefixed (front ++ text) ranges)) := by
  induction parts using List.reverseRecOn generalizing text with
  | nil =>
    have noOpen : '[' ∉ text := fun mem => (isPlain _ mem).2.2.1 rfl
    refine ⟨prefixed text ranges, ?_, pushed_prefixed isPlain, ?_⟩
    · exact pushRangeList_bare (visible_eq_nil fun mem => noOpen (mem_of_mem_take mem))
    · simp [product]
  | append_singleton parts part ih =>
    obtain ⟨before, body⟩ := part
    obtain ⟨plains, last⟩ := forall_mem_append.mp plain
    obtain ⟨others, lastList⟩ := forall_mem_append.mp lists
    obtain ⟨isBefore, noOpen, noClose, -⟩ := forall_mem_singleton.mp last
    obtain ⟨prefixRange, isList, few⟩ := forall_mem_singleton.mp lastList
    have within := short.resolve_left (by simp)
    have openText : '[' ∉ text := fun mem => (isPlain _ mem).2.2.1 rfl
    have closeText : ']' ∉ text := fun mem => (isPlain _ mem).2.2.2.1 rfl
    have whole : partsText (parts ++ [(before, body)]) ++ text =
        (partsText parts ++ before) ++ '[' :: (body ++ ']' :: text) := by
      rw [partsText_concat]
      simp
    rw [whole] at within ⊢
    have opening : cutAtLast '[' (((partsText parts ++ before) ++
        '[' :: (body ++ ']' :: text)).take 1023) =
          some (partsText parts ++ before, body ++ ']' :: text) := by
      rw [take_of_length_le within]
      apply cutAtLast_append
      simp [noOpen, openText]
    rw [pushRangeList_cut opening (cutAtLast_append body closeText), parseRangeList_listed isList]
    have perm := flatMap_comm_perm (numberTexts prefixRange) (product parts) fun number front =>
      expand (prefixed (front ++ (before ++ number ++ text)) ranges)
    obtain ⟨pushed, done, isPushed, names⟩ := @prefixLoop_numbers body ranges
      (pushNumber (partsText parts ++ before) text ranges) prefixRange
      (fun number => (product parts).flatMap fun front =>
        expand (prefixed (front ++ (before ++ number ++ text)) ranges)) isList few (by
          intro range mem j inside
          have le : j ≤ range.hi := by
            have bounds := mem_range'_1.mp inside
            omega
          have shorter : (numText range.width j).length ≤ body.length :=
            length_numText_listed isList mem le
          have digits := plain_of_digits (digits_numText range.width j)
          obtain ⟨place, fits⟩ := newPrefix_of_short within shorter
          rw [append_assoc, append_assoc, ← append_assoc before] at place fits
          obtain ⟨pushed, done, isPushed, names⟩ := ih plains others
            ((isBefore.append digits).append isPlain) (Or.inr fits)
          rw [← place] at done
          exact ⟨pushed, pushNumber_eq openText done, isPushed, names⟩)
    refine ⟨pushed, done, isPushed, (names.trans perm).trans (List.Perm.of_eq ?_)⟩
    rw [product_concat, flatMap_assoc]
    apply flatMap_congr
    intro front _
    rw [flatMap_map, bodyNumbers, isList]
    simp only [Option.map_some, Option.getD_some, append_assoc]

end SlurmSim.Hostlist
