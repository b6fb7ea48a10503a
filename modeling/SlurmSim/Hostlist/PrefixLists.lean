import SlurmSim.Hostlist.RangedRoundTrip

/-!
# Lists in the prefix

A prefix may hold bracketed lists itself. The last of them is read first, and every number of
it is put in its place before the one in front of it is read. Only the outermost reading tells
its caller that a list is refused, and a list that reaches the largest number is read without
end.
-/

namespace SlurmSim.Hostlist

open SlurmSim.Lib.Numerals HostRange List
open Option (some.inj)

/-! ## Numbers of a list -/

/-- How many numbers a range has, as an `unsigned long`. -/
def Range.size (range : Range) : Nat :=
  ulongAdd (ulongSub range.hi range.lo) 1

/-- The numbers of a range. -/
def Range.values (range : Range) : List Nat :=
  List.range' range.lo (range.hi + 1 - range.lo)

/-- The ranges that are come to before the count of numbers is more than `MAX_PREFIX_CNT`. -/
def entered : Nat → List Range → List Range
  | _, [] => []
  | prefixCnt, range :: ranges =>
    let prefixCnt := ulongAdd prefixCnt range.size
    if maxPrefixCnt < prefixCnt then [] else range :: entered prefixCnt ranges

variable {push : Nat → Nat → Option (List HostRange)} {ranges : List Range} {prefixCnt : Nat}

theorem mapM_eq_none_iff {α β : Type} {f : α → Option β} {xs : List α} :
    xs.mapM f = none ↔ ∃ x ∈ xs, f x = none := by
  induction xs with
  | nil => simp
  | cons x xs ih =>
    rw [mapM_cons, exists_mem_cons_iff, ← ih]
    cases here : f x with
    | none => simp
    | some y => cases rest : xs.mapM f <;> simp

theorem prefixLoop_cons (range : Range) : prefixLoop push prefixCnt (range :: ranges) =
    if maxPrefixCnt < ulongAdd prefixCnt range.size then some ([], false)
    else if range.hi = 2 ^ 64 - 1 then none
    else (range.values.mapM (push range.width)).bind fun here =>
      (prefixLoop push (ulongAdd prefixCnt range.size) ranges).map fun more =>
        (here.flatten ++ more.1, more.2) := rfl

theorem entered_cons (range : Range) : entered prefixCnt (range :: ranges) =
    if maxPrefixCnt < ulongAdd prefixCnt range.size then []
    else range :: entered (ulongAdd prefixCnt range.size) ranges := rfl

theorem prefixLoop_eq_none_iff : prefixLoop push prefixCnt ranges = none ↔
    ∃ range ∈ entered prefixCnt ranges,
      range.hi = 2 ^ 64 - 1 ∨ ∃ j ∈ range.values, push range.width j = none := by
  induction ranges generalizing prefixCnt with
  | nil => simp [prefixLoop, entered]
  | cons range ranges ih =>
    rw [prefixLoop_cons, entered_cons]
    split_ifs with large last
    · simp
    · exact iff_of_true rfl ⟨range, mem_cons_self, Or.inl last⟩
    · rw [exists_mem_cons_iff, or_iff_right last, ← ih, ← mapM_eq_none_iff]
      cases here : range.values.mapM (push range.width) with
      | none => simp
      | some lists => simp

theorem prefixLoop_finished {result : List HostRange × Bool}
    (done : prefixLoop push prefixCnt ranges = some result) :
    result.2 = true ↔ entered prefixCnt ranges = ranges := by
  induction ranges generalizing prefixCnt result with
  | nil =>
    obtain rfl := some.inj done
    exact iff_of_true rfl rfl
  | cons range ranges ih =>
    rw [prefixLoop_cons] at done
    rw [entered_cons]
    split_ifs at done ⊢
    · obtain rfl := some.inj done
      simp
    · obtain ⟨here, -, done⟩ := Option.bind_eq_some_iff.mp done
      obtain ⟨more, rest, rfl⟩ := Option.map_eq_some_iff.mp done
      rw [ih rest, cons_inj_right]

theorem prefixLoop_eq_some {out : Nat → Nat → List HostRange}
    (all : entered prefixCnt ranges = ranges) (below : ∀ range ∈ ranges, range.hi ≠ 2 ^ 64 - 1)
    (pushed : ∀ range ∈ ranges, ∀ j ∈ range.values, push range.width j = some (out range.width j)) :
    prefixLoop push prefixCnt ranges =
      some (ranges.flatMap fun range => range.values.flatMap (out range.width), true) := by
  induction ranges generalizing prefixCnt with
  | nil => rfl
  | cons range ranges ih =>
    obtain ⟨here, others⟩ := forall_mem_cons.mp below
    obtain ⟨first, rest⟩ := forall_mem_cons.mp pushed
    rw [entered_cons] at all
    split_ifs at all with large
    have lists := @mapM_some _ _ _ (push range.width) id (out range.width) range.values first
    rw [map_id] at lists
    rw [prefixLoop_cons, if_neg large, if_neg here, lists, Option.bind_some,
      ih (List.cons.inj all).2 others rest, Option.map_some, flatMap_cons, ← flatMap_def]

/-! ## Lists that are seen -/

variable {c : Char} {text : Name}

theorem length_lt_of_cut {front back : Name} (cut : cutAtLast c text = some (front, back)) :
    front.length < text.length := by
  rw [(cutAtLast_spec cut).1, length_append, length_cons]
  omega

/-- The bracketed lists that are read in a prefix, the last one first. -/
def visible (text : Name) : List Name :=
  match opening : cutAtLast '[' text with
  | none => []
  | some (front, p) =>
    match cutAtLast ']' p with
    | none => []
    | some (body, _) => body :: visible front
termination_by text.length
decreasing_by
  exact length_lt_of_cut opening

/-- The lists are read to their end: none that is come to reaches the largest number. -/
def Ends : List Name → Prop
  | [] => True
  | body :: bodies =>
    ∀ ranges, parseRangeList body = some ranges →
      (∀ range ∈ entered 0 ranges, range.hi ≠ 2 ^ 64 - 1) ∧ Ends bodies

/-- The first list that is read is refused, or has more numbers than allowed. -/
def Refuses : List Name → Prop
  | [] => False
  | body :: _ => ∀ ranges, parseRangeList body = some ranges → entered 0 ranges ≠ ranges

theorem visible_of_cut {text front p body q : Name} (opening : cutAtLast '[' text = some (front, p))
    (closing : cutAtLast ']' p = some (body, q)) : visible text = body :: visible front := by
  rw [visible]
  split
  · rename_i none_
    exact absurd (none_.symm.trans opening) (by simp)
  · rename_i found
    obtain ⟨rfl, rfl⟩ := Prod.mk.inj (some.inj (found.symm.trans opening))
    simp only [closing]

theorem visible_of_none {text : Name} (opening : cutAtLast '[' text = none) :
    visible text = [] := by
  rw [visible]
  split
  · rfl
  · rename_i found
    exact absurd (found.symm.trans opening) (by simp)

theorem visible_of_open {text front p : Name} (opening : cutAtLast '[' text = some (front, p))
    (closing : cutAtLast ']' p = none) : visible text = [] := by
  rw [visible]
  split
  · rfl
  · rename_i found
    obtain ⟨rfl, rfl⟩ := Prod.mk.inj (some.inj (found.symm.trans opening))
    simp only [closing]

theorem cutAtLast_eq_none : cutAtLast c text = none ↔ c ∉ text := by
  rw [cutAtLast]
  split_ifs with mem <;> simp [mem]

theorem cutAtLast_more {front back more : Name} (cut : cutAtLast c text = some (front, back))
    (none_ : c ∉ more) : cutAtLast c (text ++ more) = some (front, back ++ more) := by
  obtain ⟨whole, absent⟩ := cutAtLast_spec cut
  rw [whole, append_assoc, cons_append]
  exact cutAtLast_append front fun mem => (mem_append.mp mem).elim absent none_

theorem visible_append {text more : Name} (noOpen : '[' ∉ more) (noClose : ']' ∉ more) :
    visible (text ++ more) = visible text := by
  cases opening : cutAtLast '[' text with
  | none =>
    have absent := cutAtLast_eq_none.mp opening
    rw [visible_of_none opening, visible_of_none (cutAtLast_none fun mem =>
      (mem_append.mp mem).elim absent noOpen)]
  | some cut =>
    obtain ⟨front, p⟩ := cut
    have further := cutAtLast_more opening noOpen
    cases closing : cutAtLast ']' p with
    | none =>
      have absent := cutAtLast_eq_none.mp closing
      rw [visible_of_open opening closing, visible_of_open further (cutAtLast_none fun mem =>
        (mem_append.mp mem).elim absent noClose)]
    | some cut =>
      rw [visible_of_cut opening closing, visible_of_cut further (cutAtLast_more closing noClose)]

/-! ## `_push_range_list` -/

/-- The prefix with a number in the place of its last list, as far as the buffer goes. -/
def newPrefix (front q : Name) (width j : Nat) : Name :=
  (front ++ numText width j ++ q).take 1023

/-- What is pushed for one number of the last list of the prefix. -/
def pushNumber (front q : Name) (ranges : List Range) (width j : Nat) : Option (List HostRange) :=
  if '[' ∈ front then (pushRangeList (newPrefix front q width j) ranges).map (·.1)
  else some (prefixed (newPrefix front q width j) ranges)

variable {hostPrefix front p body q : Name}

theorem pushRangeList_cut (opening : cutAtLast '[' (hostPrefix.take 1023) = some (front, p))
    (closing : cutAtLast ']' p = some (body, q)) : pushRangeList hostPrefix ranges =
      match parseRangeList body with
      | none => some ([], false)
      | some prefixRange => prefixLoop (pushNumber front q ranges) 0 prefixRange := by
  rw [pushRangeList]
  split
  · rename_i none_
    exact absurd (none_.symm.trans opening) (by simp)
  · rename_i found
    obtain ⟨rfl, rfl⟩ := Prod.mk.inj (some.inj (found.symm.trans opening))
    split
    · rename_i none_
      exact absurd (none_.symm.trans closing) (by simp)
    · rename_i found
      obtain ⟨rfl, rfl⟩ := Prod.mk.inj (some.inj (found.symm.trans closing))
      rfl

theorem pushRangeList_bare (nothing : visible (hostPrefix.take 1023) = []) :
    pushRangeList hostPrefix ranges = some (prefixed hostPrefix ranges, true) := by
  rw [pushRangeList]
  split
  · rfl
  · rename_i opening
    split
    · rfl
    · rename_i closing
      rw [visible_of_cut opening closing] at nothing
      exact absurd nothing (cons_ne_nil _ _)

theorem visible_newPrefix (opening : cutAtLast '[' (hostPrefix.take 1023) = some (front, p))
    (closing : cutAtLast ']' p = some (body, q)) (width j : Nat) :
    visible ((newPrefix front q width j).take 1023) = visible front := by
  obtain ⟨whole, noOpen⟩ := cutAtLast_spec opening
  obtain ⟨inner, noClose⟩ := cutAtLast_spec closing
  have length := length_lt_of_cut opening
  rw [length_take] at length
  have digits := digits_numText width j
  rw [newPrefix, take_take, min_self, append_assoc, take_append, take_of_length_le (by omega)]
  apply visible_append
  · intro mem
    rcases mem_append.mp (mem_of_mem_take mem) with mem | mem
    · exact absurd (digits _ mem) (by decide)
    · apply noOpen
      rw [inner]
      exact mem_append_right _ (mem_cons_of_mem _ mem)
  · intro mem
    rcases mem_append.mp (mem_of_mem_take mem) with mem | mem
    · exact absurd (digits _ mem) (by decide)
    · exact noClose mem

theorem visible_eq_nil (noOpen : '[' ∉ front) : visible front = [] :=
  visible_of_none (cutAtLast_none noOpen)

theorem check_eq_some {range result : Range} {rest : Name}
    (ok : range.check rest = some result) : result.lo ≤ result.hi ∧ result.size ≤ maxRange := by
  rw [Range.check] at ok
  split_ifs at ok with _ order large
  obtain rfl := some.inj ok
  exact ⟨Nat.le_of_not_lt order, Nat.le_of_not_lt large⟩

theorem exists_check {str : Name} {range : Range} (ok : parseSingleRange str = some range) :
    ∃ found rest, Range.check found rest = some range := by
  have bounds : ∀ (str : Name) (p : Option Name), parseBounds str p = some range →
      ∃ found rest, Range.check found rest = some range := by
    intro str p ok
    simp only [parseBounds] at ok
    split_ifs at ok
    cases p with
    | none => exact ⟨_, _, ok⟩
    | some p =>
      cases p with
      | nil => exact ⟨_, _, ok⟩
      | cons c p =>
        simp only at ok
        split_ifs at ok
        exact ⟨_, _, ok⟩
  rw [parseSingleRange] at ok
  split_ifs at ok
  cases cut : cutAt '-' str with
  | none =>
    rw [cut] at ok
    exact bounds _ _ ok
  | some sides =>
    rw [cut] at ok
    exact bounds _ _ ok

theorem exists_entered (parsed : parseRangeList body = some ranges) :
    ∃ range ∈ entered 0 ranges, ∃ j, j ∈ range.values := by
  rw [parseRangeList] at parsed
  split_ifs at parsed
  obtain ⟨piece, more, split⟩ := exists_cons_of_ne_nil (splitOn_ne_nil ',' body)
  rw [pieces, split, mapM_cons] at parsed
  obtain ⟨range, here, parsed⟩ := Option.bind_eq_some_iff.mp parsed
  obtain ⟨others, -, parsed⟩ := Option.bind_eq_some_iff.mp parsed
  obtain rfl := some.inj parsed
  obtain ⟨found, rest, ok⟩ := exists_check here
  obtain ⟨le, few⟩ := check_eq_some ok
  have size : ulongAdd 0 range.size = range.size := by
    rw [ulongAdd, Range.size, ulongAdd, Nat.zero_add, Nat.mod_mod]
  refine ⟨range, ?_, range.lo, mem_range'_1.mpr ⟨le_rfl, by omega⟩⟩
  have within : ¬maxPrefixCnt < range.size := Nat.not_lt_of_le few
  rw [entered_cons, size, if_neg within]
  exact mem_cons_self

theorem visible_cases (text : Name) : visible text = [] ∨ ∃ front p body q,
    cutAtLast '[' text = some (front, p) ∧ cutAtLast ']' p = some (body, q) ∧
      visible text = body :: visible front := by
  cases opening : cutAtLast '[' text with
  | none => exact Or.inl (visible_of_none opening)
  | some cut =>
    obtain ⟨front, p⟩ := cut
    cases closing : cutAtLast ']' p with
    | none => exact Or.inl (visible_of_open opening closing)
    | some cut =>
      obtain ⟨body, q⟩ := cut
      exact Or.inr ⟨front, p, body, q, rfl, closing, visible_of_cut opening closing⟩

theorem ends_cons {bodies : List Name} (parsed : parseRangeList body = some ranges) :
    Ends (body :: bodies) ↔ (∀ range ∈ entered 0 ranges, range.hi ≠ 2 ^ 64 - 1) ∧ Ends bodies := by
  constructor
  · exact fun all => all ranges parsed
  · intro both others parsed'
    obtain rfl := some.inj (parsed.symm.trans parsed')
    exact both

theorem ends_of_refused {bodies : List Name} (refused : parseRangeList body = none) :
    Ends (body :: bodies) :=
  fun _ parsed => absurd (refused.symm.trans parsed) (by simp)

theorem pushRangeList_eq_none_iff :
    pushRangeList hostPrefix ranges = none ↔ ¬Ends (visible (hostPrefix.take 1023)) := by
  induction count : hostPrefix.count '[' using Nat.strong_induction_on generalizing hostPrefix with
  | h n ih =>
    subst count
    rcases visible_cases (hostPrefix.take 1023) with bare | ⟨front, p, body, q, opening, closing, seen⟩
    · rw [pushRangeList_bare bare, bare]
      exact iff_of_false (by simp) (not_not_intro trivial)
    · rw [pushRangeList_cut opening closing, seen]
      have number : ∀ width j, pushNumber front q ranges width j = none ↔
          ¬Ends (visible front) := by
        intro width j
        rw [pushNumber]
        split_ifs with nested
        · have fewer : (newPrefix front q width j).count '[' < hostPrefix.count '[' :=
            count_newPrefix _ (digits_numText width j) opening closing
          rw [Option.map_eq_none_iff, ih _ fewer rfl, ← visible_newPrefix opening closing width j]
        · rw [visible_eq_nil nested]
          exact iff_of_false (by simp) (not_not_intro trivial)
      cases parsed : parseRangeList body with
      | none => exact iff_of_false (by simp) (not_not_intro (ends_of_refused parsed))
      | some prefixRange =>
        rw [prefixLoop_eq_none_iff, ends_cons parsed]
        constructor
        · rintro ⟨range, mem, last | ⟨j, -, none_⟩⟩ ⟨below, ends⟩
          · exact below range mem last
          · exact (number _ _).mp none_ ends
        · intro not
          by_cases below : ∀ range ∈ entered 0 prefixRange, range.hi ≠ 2 ^ 64 - 1
          · obtain ⟨range, mem, j, inside⟩ := exists_entered parsed
            exact ⟨range, mem, Or.inr ⟨j, inside, (number _ _).mpr fun ends => not ⟨below, ends⟩⟩⟩
          · simp only [not_forall, not_not] at below
            obtain ⟨range, mem, last⟩ := below
            exact ⟨range, mem, Or.inl last⟩

theorem pushRangeList_refused_iff : (∃ pushed, pushRangeList hostPrefix ranges = some (pushed, false)) ↔
    Ends (visible (hostPrefix.take 1023)) ∧ Refuses (visible (hostPrefix.take 1023)) := by
  have ends := @pushRangeList_eq_none_iff ranges hostPrefix
  rcases visible_cases (hostPrefix.take 1023) with bare | ⟨front, p, body, q, opening, closing, seen⟩
  · rw [pushRangeList_bare bare, bare]
    exact iff_of_false (by simp) fun both => both.2
  · rw [pushRangeList_cut opening closing] at ends ⊢
    rw [seen] at ends ⊢
    cases parsed : parseRangeList body with
    | none =>
      refine iff_of_true ⟨[], rfl⟩ ⟨ends_of_refused parsed, ?_⟩
      exact fun _ parsed' => absurd (parsed.symm.trans parsed') (by simp)
    | some prefixRange =>
      rw [parsed] at ends
      have refuses : Refuses (body :: visible front) ↔ entered 0 prefixRange ≠ prefixRange := by
        constructor
        · exact fun all => all prefixRange parsed
        · intro differ others parsed'
          obtain rfl := some.inj (parsed.symm.trans parsed')
          exact differ
      rw [refuses]
      constructor
      · rintro ⟨pushed, done⟩
        have finished := prefixLoop_finished done
        refine ⟨by_contra fun not => ?_, fun all => Bool.false_ne_true (finished.mpr all)⟩
        rw [ends.mpr not] at done
        cases done
      · rintro ⟨end_, more⟩
        obtain ⟨result, done⟩ := Option.ne_none_iff_exists'.mp fun none_ => ends.mp none_ end_
        obtain ⟨pushed, ok⟩ := result
        have finished := prefixLoop_finished done
        cases ok with
        | true => exact absurd (finished.mp rfl) more
        | false => exact ⟨pushed, done⟩

end SlurmSim.Hostlist
