import SlurmSim.Common.BitFmt

/-!
# The job ids of a pack job as text

The ids of the components are inserted in a host set, whose ranges are printed in brackets;
the brackets are taken off and the rest is kept in every component.  A job id is a host name
without a prefix and without leading zeros, so the ranges are ranges of numbers.
-/

namespace SlurmSim.Backfill

open SlurmSim.Common.Bitmap List

/-- `hostrange_t` of job ids -/
structure IdRange where
  lo : Nat
  hi : Nat
  le : lo ≤ hi

namespace IdRange

/-- The range of `hostlist_create` for one id. -/
def single (id : Nat) : IdRange := ⟨id, id, le_refl id⟩

def toPair (range : IdRange) : Nat × Nat := (range.lo, range.hi)

/-- `hostrange_join`; `none` if the ranges are apart. -/
def join (h1 h2 : IdRange) : Option IdRange :=
  if perfect : h1.hi + 1 = h2.lo then
    some ⟨h1.lo, h2.hi, h1.le.trans ((Nat.le_succ _).trans (perfect.le.trans h2.le))⟩
  else if h2.lo ≤ h1.hi then some ⟨h1.lo, max h1.hi h2.hi, h1.le.trans (le_max_left _ _)⟩
  else none

end IdRange

/-- A range is joined with the one that stands where it is inserted. -/
def joinBehind (hr : IdRange) : List IdRange → List IdRange
  | [] => [hr]
  | range :: rest =>
    match hr.join range with
    | some joined => joined :: rest
    | none => hr :: range :: rest

/-- `_attempt_range_join` of the inserted range with the one in front of it. -/
def joinFront (front : List IdRange) : List IdRange → List IdRange
  | [] => front
  | hr :: rest =>
    match front.getLast? with
    | none => hr :: rest
    | some last =>
      match last.join hr with
      | some joined => front.dropLast ++ joined :: rest
      | none => front ++ hr :: rest

/-- `hostset_insert_range` -/
def hostsetInsert (ranges : List IdRange) (hr : IdRange) : List IdRange :=
  joinFront (ranges.takeWhile fun range => range.lo < hr.lo)
    (joinBehind hr (ranges.dropWhile fun range => range.lo < hr.lo))

/-- `hostset_ranged_string`: a bracket is needed for more than one host. -/
def hostsetRangedString : List IdRange → List Char
  | [] => []
  | range :: rest =>
    let text := runText range.lo range.hi ++ moreText (rest.map IdRange.toPair)
    if range.lo < range.hi ∨ rest ≠ [] then '[' :: (text ++ [']']) else text

/-- The text behind an opening bracket, up to the closing one. -/
def stripBrackets : List Char → List Char
  | [] => []
  | c :: text => if c = '[' then text.takeWhile fun c => c ≠ ']' else c :: text

/-! ## The ids of ranges -/

/-- The ids in the ranges. -/
def covers (ranges : List IdRange) (id : Nat) : Prop :=
  ∃ range ∈ ranges, range.lo ≤ id ∧ id ≤ range.hi

theorem covers_cons (range : IdRange) (rest : List IdRange) (id : Nat) :
    covers (range :: rest) id ↔ (range.lo ≤ id ∧ id ≤ range.hi) ∨ covers rest id := by
  simp [covers]

theorem covers_append (front back : List IdRange) (id : Nat) :
    covers (front ++ back) id ↔ covers front id ∨ covers back id := by
  simp [covers, or_and_right, exists_or]

theorem covers_single (id id' : Nat) : covers [IdRange.single id] id' ↔ id' = id := by
  simp [covers, IdRange.single, le_antisymm_iff, and_comm]

theorem IdRange.join_eq_some {h1 h2 joined : IdRange} (first : h1.lo ≤ h2.lo)
    (isJoined : h1.join h2 = some joined) (id : Nat) :
    (joined.lo ≤ id ∧ id ≤ joined.hi) ↔ (h1.lo ≤ id ∧ id ≤ h1.hi) ∨ (h2.lo ≤ id ∧ id ≤ h2.hi) := by
  have le2 := h2.le
  unfold IdRange.join at isJoined
  split_ifs at isJoined with perfect overlap
  · obtain rfl := Option.some.inj isJoined
    dsimp only
    omega
  · obtain rfl := Option.some.inj isJoined
    dsimp only
    omega

theorem joinBehind_spec (hr : IdRange) {ranges : List IdRange}
    (behind : ∀ range ∈ ranges.head?, hr.lo ≤ range.lo) :
    ∃ inserted rest, joinBehind hr ranges = inserted :: rest ∧ inserted.lo = hr.lo ∧
      ∀ id, covers (inserted :: rest) id ↔ (hr.lo ≤ id ∧ id ≤ hr.hi) ∨ covers ranges id := by
  cases ranges with
  | nil => exact ⟨hr, [], rfl, rfl, covers_cons hr []⟩
  | cons range rest =>
    have first := behind range rfl
    rw [joinBehind]
    cases isJoined : hr.join range with
    | none => exact ⟨hr, range :: rest, rfl, rfl, covers_cons hr _⟩
    | some joined =>
      refine ⟨joined, rest, rfl, ?_, fun id => ?_⟩
      · unfold IdRange.join at isJoined
        split_ifs at isJoined <;> rw [← Option.some.inj isJoined]
      · rw [covers_cons, covers_cons, IdRange.join_eq_some first isJoined, or_assoc]

theorem joinFront_spec {front : List IdRange} (inserted : IdRange) (rest : List IdRange)
    (inFront : ∀ range ∈ front, range.lo < inserted.lo) (id : Nat) :
    covers (joinFront front (inserted :: rest)) id ↔
      covers front id ∨ covers (inserted :: rest) id := by
  rw [joinFront]
  cases isLast : front.getLast? with
  | none =>
    obtain rfl := getLast?_eq_none_iff.mp isLast
    simp [covers]
  | some last =>
    obtain ⟨shorter, rfl⟩ := getLast?_eq_some_iff.mp isLast
    have first := (inFront last (by simp)).le
    dsimp only
    cases isJoined : last.join inserted with
    | none => exact covers_append _ _ id
    | some joined =>
      rw [dropLast_concat, covers_append, covers_append, covers_cons, covers_cons,
        covers_cons, IdRange.join_eq_some first isJoined]
      simp only [covers, not_mem_nil, false_and, exists_false, or_false]
      rw [or_assoc, or_assoc]

theorem covers_hostsetInsert (ranges : List IdRange) (hr : IdRange) (id : Nat) :
    covers (hostsetInsert ranges hr) id ↔ (hr.lo ≤ id ∧ id ≤ hr.hi) ∨ covers ranges id := by
  have behind : ∀ range ∈ (ranges.dropWhile fun range => range.lo < hr.lo).head?,
      hr.lo ≤ range.lo := by
    intro range isHead
    have fails := head?_dropWhile_not (fun range : IdRange => decide (range.lo < hr.lo)) ranges
    rw [Option.mem_def.mp isHead] at fails
    simpa using fails
  obtain ⟨inserted, rest, isRest, start, ids⟩ := joinBehind_spec hr behind
  have inFront : ∀ range ∈ ranges.takeWhile (fun range => range.lo < hr.lo),
      range.lo < inserted.lo := by
    intro range taken
    have less := mem_takeWhile_imp taken
    exact start ▸ of_decide_eq_true less
  rw [hostsetInsert, isRest, joinFront_spec inserted rest inFront, ids, or_left_comm, ← covers_append,
    takeWhile_append_dropWhile]

/-! ## The text -/

/-- The ids that lie in the pairs of an array. -/
def InPairs : List Int → Nat → Prop
  | lo :: hi :: rest, id => (lo ≤ id ∧ (id : Int) ≤ hi) ∨ InPairs rest id
  | _, _ => False

/-- The ids that a text of ranges stands for, as `bitfmt2int` reads it. -/
def TextIds (text : List Char) (id : Nat) : Prop := InPairs (parseText text) id

theorem inPairs_pairs (ranges : List IdRange) (id : Nat) :
    InPairs (pairs (ranges.map IdRange.toPair)) id ↔ covers ranges id := by
  induction ranges with
  | nil => simp [pairs, InPairs, covers]
  | cons range rest ih =>
    rw [covers_cons, ← ih]
    refine or_congr ?_ Iff.rfl
    simp [IdRange.toPair]

theorem runText_chars (start bit : Nat) :
    ∀ c ∈ runText start bit, ('0' ≤ c ∧ c ≤ '9') ∨ c = '-' := by
  have digits : ∀ n, ∀ c ∈ decimal n, '0' ≤ c ∧ c ≤ '9' := by
    intro n c mem
    obtain ⟨digit, isDigit, rfl⟩ := mem_map.mp mem
    exact (digitChar_spec (Lib.Numerals.lt_of_mem_numeral (by omega) isDigit)).1
  intro c mem
  rw [runText] at mem
  split_ifs at mem
  · exact .inl (digits _ c mem)
  · rcases mem_append.mp mem with front | back
    · exact .inl (digits _ c front)
    · exact (mem_cons.mp back).symm.imp_left (digits _ c)

theorem rangeText_chars (run : Nat × Nat) (runs : List (Nat × Nat)) :
    ∀ c ∈ runText run.1 run.2 ++ moreText runs, c ≠ '[' ∧ c ≠ ']' := by
  have plain : ∀ {c : Char}, (('0' ≤ c ∧ c ≤ '9') ∨ c = '-') → c ≠ '[' ∧ c ≠ ']' := by
    rintro c (⟨_, le⟩ | rfl)
    · refine ⟨?_, ?_⟩
      · rintro rfl
        exact absurd le (by decide)
      · rintro rfl
        exact absurd le (by decide)
    · decide
  intro c mem
  rcases mem_append.mp mem with front | back
  · exact plain (runText_chars _ _ c front)
  · obtain ⟨run, _, inRun⟩ := mem_flatMap.mp back
    rcases mem_cons.mp inRun with rfl | inText
    · decide
    · exact plain (runText_chars _ _ c inText)

theorem stripBrackets_rangedString (range : IdRange) (rest : List IdRange) :
    stripBrackets (hostsetRangedString (range :: rest)) =
      runText range.lo range.hi ++ moreText (rest.map IdRange.toPair) := by
  have chars : ∀ c ∈ runText range.lo range.hi ++ moreText (rest.map IdRange.toPair),
      c ≠ '[' ∧ c ≠ ']' := rangeText_chars range.toPair (rest.map IdRange.toPair)
  rw [hostsetRangedString]
  split_ifs
  · rw [stripBrackets, if_pos rfl, takeWhile_append_of_pos fun c mem =>
      decide_eq_true (chars c mem).2, takeWhile_cons_of_neg (by simp), append_nil]
  · obtain ⟨c, str, _, isText⟩ := runText_cons range.lo range.hi
    have notBracket : c ≠ '[' := (chars c (mem_append_left _ (isText ▸ mem_cons_self))).1
    rw [isText, cons_append, stripBrackets, if_neg notBracket]

theorem textIds_rangedString {ranges : List IdRange} (some : ranges ≠ []) (id : Nat) :
    TextIds (stripBrackets (hostsetRangedString ranges)) id ↔ covers ranges id := by
  obtain ⟨range, rest, rfl⟩ := exists_cons_of_ne_nil some
  have text := parseText_text range.toPair (rest.map IdRange.toPair)
  rw [TextIds, stripBrackets_rangedString, ← inPairs_pairs, map_cons, ← text]
  rfl

end SlurmSim.Backfill
