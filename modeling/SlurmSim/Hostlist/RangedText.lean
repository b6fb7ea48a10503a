import SlurmSim.Hostlist.Refine
import SlurmSim.Lib.CText

/-!
# Writing host lists

`hostlist_ranged_string` writes the ranges of a list into a buffer, those with one prefix in
one bracketed list.  A bracketed list gives up when it is short of room for what may still
follow, which is more than what does follow when it ends without a bracket.
-/

namespace SlurmSim.Hostlist

open SlurmSim.Lib.CText HostRange
open List (append_assoc length_append length_cons length_nil map_cons)
open Option (bind_some map_some)

/-! ## The writer -/

/-- `hostrange_numstr` without a common padding, from a position of the buffer on: the number
of characters, `none` for `-1`. -/
def numstr (hr : HostRange) (n : Nat) (buf : List Char) (pos : Nat) :
    Option (Option Nat × List Char) :=
  if hr.singlehost = true ∨ n = 0 then some (some 0, buf)
  else if n ≤ 1 then some (none, buf)
  else
    (snprintfAt buf pos n (numText hr.width hr.lo)).bind fun buf =>
      let len := (numText hr.width hr.lo).length
      if n ≤ len then some (none, buf)
      else if hr.lo < hr.hi then
        if n < len + 3 then some (none, buf)
        else
          (snprintfAt buf (pos + len) (n - len) ('-' :: numText hr.width hr.hi)).map fun buf =>
            let len := len + ('-' :: numText hr.width hr.hi).length
            (if n ≤ len then none else some len, buf)
      else some (some len, buf)

/-- `_is_bracket_needed` for a range and the slots behind it. -/
def bracketNeeded (hr : HostRange) (slots : List (Option HostRange)) : Bool :=
  decide (1 < hr.count) || slots.head?.any fun slot => slot.any hr.withinRange

/-- The loop of `_get_bracketed_list` from a range on: the number of characters and the slots
that are left, `none` for a list that is cut off. -/
def numbersLoop (n pos : Nat) : Bool → HostRange → List (Option HostRange) → Nat → List Char →
    Option (Option (Nat × List (Option HostRange)) × List Char)
  | first, hr, slots, len, buf =>
    (putIf (!first) buf (pos + len) ',').bind fun buf =>
      let len := len + (!first).toNat
      (numstr hr (n - len) buf (pos + len)).bind fun (m, buf) =>
        match m with
        | none => some (none, buf)
        | some m =>
          if n ≤ len + m + 1 then some (none, buf)
          else
            match slots with
            | some next :: slots =>
              if next.withinRange hr then numbersLoop n pos false next slots (len + m) buf
              else some (some (len + m, some next :: slots), buf)
            | slots => some (some (len + m, slots), buf)

/-- `_get_bracketed_list`, with a common padding only on Cray systems. -/
def getBracketedList (brackets : Bool) (n pos : Nat) (hr : HostRange)
    (slots : List (Option HostRange)) (buf : List Char) :
    Option (Option (Nat × List (Option HostRange)) × List Char) :=
  let needed := brackets && bracketNeeded hr slots
  (snprintfAt buf pos n hr.hostPrefix).bind fun buf =>
    let len := hr.hostPrefix.length
    if n ≤ len + 4 then some (none, buf)
    else
      (putIf needed buf (pos + len) '[').bind fun buf =>
        (numbersLoop n pos true hr slots (len + needed.toNat) buf).bind fun (answer, buf) =>
          match answer with
          | none => some (none, buf)
          | some (len, slots) =>
            (putIf needed buf (pos + len) ']').bind fun buf =>
              let len := len + needed.toNat
              (writeAt buf (pos + len) [nul]).map fun buf => (some (len, slots), buf)

/-- The loop of `hostlist_ranged_string_dims` for one dimension, with a bound on its turns. -/
def rangedLoop (brackets : Bool) (n : Nat) : Nat → Bool → List (Option HostRange) → Nat →
    List Char → Option (Nat × List Char)
  | 0, _, _, _, _ => none
  | _ + 1, _, [], len, buf => some (len, buf)
  | turns + 1, first, slot :: slots, len, buf =>
    if n ≤ len then some (len, buf)
    else
      slot.bind fun hr =>
        (putIf (!first) buf len ',').bind fun buf =>
          let len := len + (!first).toNat
          (getBracketedList brackets (n - len) len hr slots buf).bind fun (answer, buf) =>
            match answer with
            | none => some (n, buf)
            | some (m, slots) => rangedLoop brackets n turns false slots (len + m) buf

/-- `hostlist_ranged_string_dims` for one dimension: its answer, `none` for `-1`, and the
buffer.  Without a result it has written behind the buffer or read through an empty slot. -/
def rangedStringDims (brackets : Bool) (hl : HostList) (buf : List Char) :
    Option (Option Nat × List Char) :=
  let n := buf.length
  (rangedLoop brackets n (hl.hr.length + 1) true hl.hr 0 buf).bind fun (len, buf) =>
    if n ≤ len then
      (if 0 < n then writeAt buf (n - 1) [nul] else some buf).map fun buf => (none, buf)
    else (writeAt buf len [nul]).map fun buf => (some len, buf)

/-- `hostlist_ranged_string` -/
def rangedString (hl : HostList) (buf : List Char) : Option (Option Nat × List Char) :=
  rangedStringDims true hl buf

/-- The numbers of a range are ordered. -/
def Ordered (hr : HostRange) : Prop :=
  hr.singlehost = false → hr.lo ≤ hr.hi ∧ hr.hi < 2 ^ 64

/-! ## The text that is written -/

/-- The numbers of a range. -/
def numberText (hr : HostRange) : Name :=
  if hr.singlehost then []
  else numText hr.width hr.lo ++ if hr.lo < hr.hi then '-' :: numText hr.width hr.hi else []

/-- Neighbours that are written in one bracketed list. -/
def blocks : List HostRange → List (List HostRange)
  | [] => []
  | hr :: ranges =>
    match blocks ranges with
    | (next :: more) :: others =>
      if next.withinRange hr then (hr :: next :: more) :: others
      else [hr] :: (next :: more) :: others
    | others => [hr] :: others

/-- The ranges of a block need brackets. -/
def bracketed (block : List HostRange) : Bool :=
  decide (1 < block.length) || block.any fun hr => decide (1 < hr.count)

/-- The prefix of a block. -/
def blockPrefix (block : List HostRange) : Name :=
  (block.head?.map HostRange.hostPrefix).getD []

/-- The numbers of a block. -/
def numbersText (block : List HostRange) : Name :=
  [','].intercalate (block.map numberText)

def blockText (block : List HostRange) : Name :=
  if bracketed block then blockPrefix block ++ '[' :: numbersText block ++ [']']
  else blockPrefix block ++ numbersText block

def rangedText (parts : List (List HostRange)) : Name :=
  [','].intercalate (parts.map blockText)

/-- The room that a block asks for: four characters behind its prefix, and one behind its
numbers for a bracket. -/
def blockRoom (block : List HostRange) : Nat :=
  if bracketed block then (blockText block).length + 1
  else max ((blockPrefix block).length + 5) ((blockText block).length + 2)

/-- The room that all blocks ask for, each behind those before it. -/
def rangedRoom : List (List HostRange) → Nat
  | [] => 1
  | [block] => blockRoom block
  | block :: parts => max (blockRoom block) ((blockText block).length + 1 + rangedRoom parts)

theorem intercalate_cons_cons (sep a b : Name) (rest : List Name) :
    sep.intercalate (a :: b :: rest) = a ++ sep ++ sep.intercalate (b :: rest) := by
  simp [List.intercalate]

theorem intercalate_one (sep a : Name) : sep.intercalate [a] = a := by
  simp [List.intercalate]

theorem numbersText_cons (hr next : HostRange) (more : List HostRange) :
    numbersText (hr :: next :: more) = numberText hr ++ [','] ++ numbersText (next :: more) :=
  intercalate_cons_cons _ _ _ _

theorem numbersText_one (hr : HostRange) : numbersText [hr] = numberText hr :=
  intercalate_one _ _

theorem blocks_cons (hr : HostRange) (ranges : List HostRange) :
    ∃ more others, blocks (hr :: ranges) = (hr :: more) :: others := by
  rw [blocks]
  split
  · split_ifs
    · exact ⟨_, _, rfl⟩
    · exact ⟨_, _, rfl⟩
  · exact ⟨_, _, rfl⟩

theorem blocks_cases {hr next : HostRange} {ranges more : List HostRange}
    {others : List (List HostRange)}
    (split : blocks (hr :: next :: ranges) = (hr :: more) :: others) :
    (next.withinRange hr = true ∧
      ∃ rest, more = next :: rest ∧ blocks (next :: ranges) = (next :: rest) :: others) ∨
    (next.withinRange hr = false ∧ more = [] ∧ blocks (next :: ranges) = others) := by
  obtain ⟨rest, behind, isNext⟩ := blocks_cons next ranges
  rw [blocks, isNext] at split
  dsimp only at split
  split_ifs at split with within
  · obtain ⟨same, rfl⟩ := List.cons.inj split
    exact .inl ⟨within, rest, (List.cons.inj same).2.symm, isNext⟩
  · obtain ⟨same, rfl⟩ := List.cons.inj split
    exact .inr ⟨Bool.eq_false_iff.mpr within, (List.cons.inj same).2.symm, isNext⟩

/-! ## What the writer leaves in the buffer -/

section Writer

variable {buf front : List Char} {n : Nat} {hr : HostRange}

theorem length_numText_pos (width n : Nat) : 0 < (numText width n).length :=
  List.length_pos_of_ne_nil (numText_ne_nil width n)

theorem numstr_spec (starts : front <+: buf) (fits : front.length + n ≤ buf.length)
    (some_ : 0 < n) (hr : HostRange) :
    ∃ after, numstr hr n buf front.length =
        some (if (numberText hr).length < n then some (numberText hr).length else none, after) ∧
      after.length = buf.length ∧
      ((numberText hr).length < n → front ++ numberText hr <+: after) := by
  by_cases single : hr.singlehost = true
  · have none_ : numberText hr = [] := by rw [numberText, if_pos single]
    refine ⟨buf, ?_, rfl, fun _ => ?_⟩
    · rw [numstr, if_pos (.inl single), none_, length_nil, if_pos some_]
    · rw [none_, List.append_nil]
      exact starts
  · have low := length_numText_pos hr.width hr.lo
    have high := length_numText_pos hr.width hr.hi
    have text : numberText hr =
        numText hr.width hr.lo ++ if hr.lo < hr.hi then '-' :: numText hr.width hr.hi else [] := by
      rw [numberText, if_neg single]
    have length := congrArg List.length text
    rw [length_append] at length
    rw [numstr, if_neg (by simp only [not_or]; exact ⟨single, by omega⟩)]
    by_cases tiny : n ≤ 1
    · refine ⟨buf, ?_, rfl, fun short => by omega⟩
      rw [if_pos tiny, if_neg (by omega)]
    · obtain ⟨first, written, same, _, begins⟩ :=
        snprintfAt_spec starts fits (numText hr.width hr.lo)
      rw [if_neg tiny, written, bind_some]
      dsimp only
      by_cases noLow : n ≤ (numText hr.width hr.lo).length
      · refine ⟨first, ?_, same, fun short => by omega⟩
        rw [if_pos noLow, if_neg (by omega)]
      · have lowWritten := begins (by omega)
        rw [if_neg noLow]
        by_cases more : hr.lo < hr.hi
        · rw [if_pos more] at text length ⊢
          rw [length_cons] at length
          by_cases noHigh : n < (numText hr.width hr.lo).length + 3
          · refine ⟨first, ?_, same, fun short => by omega⟩
            rw [if_pos noHigh, if_neg (by omega)]
          · rw [if_neg noHigh]
            obtain ⟨second, written', same', _, begins'⟩ :=
              @snprintfAt_spec first (front ++ numText hr.width hr.lo)
                (n - (numText hr.width hr.lo).length) lowWritten
                (by rw [length_append]; omega) ('-' :: numText hr.width hr.hi)
            rw [length_append] at written'
            refine ⟨second, ?_, same'.trans same, fun short => ?_⟩
            · rw [written', map_some, length_cons, ← length]
              by_cases room : (numberText hr).length < n
              · rw [if_neg (by omega), if_pos room]
              · rw [if_pos (by omega), if_neg room]
            · rw [text, ← append_assoc]
              exact begins' (by rw [length_cons]; omega)
        · rw [if_neg more, length_nil, Nat.add_zero] at length
          rw [if_neg more, List.append_nil] at text
          refine ⟨first, ?_, same, fun _ => text ▸ lowWritten⟩
          rw [if_neg more, length, if_pos (by omega)]

theorem numbersLoop_turn (slots : List (Option HostRange)) (first : Bool) {t wrote : Name}
    (isWrote : wrote = t ++ charIf (!first) ',') (starts : front ++ t <+: buf)
    (fits : front.length + n ≤ buf.length) (room : wrote.length < n) :
    ∃ after, after.length = buf.length ∧
      if (wrote ++ numberText hr).length + 1 < n then
        front ++ (wrote ++ numberText hr) <+: after ∧
        numbersLoop n front.length first hr slots t.length buf =
          match slots with
          | some next :: slots =>
            if next.withinRange hr then
              numbersLoop n front.length false next slots (wrote ++ numberText hr).length after
            else some (some ((wrote ++ numberText hr).length, some next :: slots), after)
          | slots => some (some ((wrote ++ numberText hr).length, slots), after)
      else numbersLoop n front.length first hr slots t.length buf = some (none, after) := by
  have position : t.length + (!first).toNat = wrote.length := by
    rw [isWrote, length_append, length_charIf]
  obtain ⟨led, leads, sameLed, ledStarts⟩ := putIf_spec (!first) ',' starts (by omega)
  rw [← isWrote] at ledStarts
  obtain ⟨after, written, same, begins⟩ := @numstr_spec led (front ++ wrote) (n - wrote.length)
    ledStarts (by rw [length_append]; omega) (by omega) hr
  rw [@List.length_append _ front] at written
  rw [append_assoc] at begins
  refine ⟨after, same.trans sameLed, ?_⟩
  rw [numbersLoop, leads, bind_some]
  simp only [position, written, bind_some]
  rw [length_append]
  by_cases short : (numberText hr).length < n - wrote.length
  · simp only [if_pos short]
    split_ifs with enough full
    · omega
    · exact ⟨begins short, rfl⟩
    · rfl
    · omega
  · simp only [if_neg short]
    rw [if_neg (by omega)]
    trivial

theorem numbersLoop_spec {ranges more : List HostRange} {others : List (List HostRange)}
    (split : blocks (hr :: ranges) = (hr :: more) :: others) (first : Bool) {t wrote : Name}
    (isWrote : wrote = t ++ charIf (!first) ',') (starts : front ++ t <+: buf)
    (fits : front.length + n ≤ buf.length) (room : wrote.length < n) :
    ∃ answer after,
      numbersLoop n front.length first hr (ranges.map some) t.length buf = some (answer, after) ∧
        after.length = buf.length ∧
        if (wrote ++ numbersText (hr :: more)).length + 1 < n then
          front ++ (wrote ++ numbersText (hr :: more)) <+: after ∧
          ∃ left, blocks left = others ∧
            answer = some ((wrote ++ numbersText (hr :: more)).length, left.map some)
        else answer = none := by
  induction ranges generalizing hr more first t wrote buf with
  | nil =>
    obtain ⟨rfl, rfl⟩ : more = [] ∧ others = [] := by
      obtain ⟨one, rfl⟩ := List.cons.inj split
      exact ⟨(List.cons.inj one).2.symm, rfl⟩
    obtain ⟨after, same, turn⟩ := @numbersLoop_turn buf front n hr [] first t wrote isWrote starts
      fits room
    rw [numbersText_one]
    split_ifs at turn with enough
    · refine ⟨_, after, turn.2, same, ?_⟩
      rw [if_pos enough]
      exact ⟨turn.1, [], rfl, rfl⟩
    · refine ⟨_, after, turn, same, ?_⟩
      rw [if_neg enough]
  | cons next ranges ih =>
    obtain ⟨after, same, turn⟩ := @numbersLoop_turn buf front n hr
      (some next :: ranges.map some) first t wrote isWrote starts fits room
    rcases blocks_cases split with ⟨within, rest, rfl, behind⟩ | ⟨apart, rfl, behind⟩
    · have text : wrote ++ numbersText (hr :: next :: rest) =
          wrote ++ numberText hr ++ charIf true ',' ++ numbersText (next :: rest) := by
        rw [numbersText_cons]
        simp [charIf]
      split_ifs at turn with enough
      · dsimp only at turn
        rw [if_pos within] at turn
        obtain ⟨answer, last, loop, sameLast, rest_⟩ := ih behind false rfl turn.1
          (by rw [same]; exact fits) (by
            rw [length_append]
            exact enough)
        refine ⟨answer, last, turn.2.trans loop, sameLast.trans same, ?_⟩
        rw [text]
        exact rest_
      · refine ⟨none, after, turn, same, ?_⟩
        rw [if_neg]
        rw [text]
        simp only [length_append] at enough ⊢
        omega
    · rw [numbersText_one]
      split_ifs at turn with enough
      · dsimp only at turn
        rw [if_neg (by rw [apart]; exact Bool.false_ne_true)] at turn
        refine ⟨_, after, turn.2, same, ?_⟩
        rw [if_pos enough]
        exact ⟨turn.1, next :: ranges, behind, rfl⟩
      · refine ⟨_, after, turn, same, ?_⟩
        rw [if_neg enough]

theorem withinRange_comm (a b : HostRange) : a.withinRange b = b.withinRange a := by
  have exchanged := strnatcmp_swap a.hostPrefix b.hostPrefix
  have same : a.prefixCmp b = 0 ↔ b.prefixCmp a = 0 := by
    rw [prefixCmp, prefixCmp, exchanged]
    split_ifs <;> omega
  rw [withinRange, withinRange, Bool.or_comm]
  simp only [same]

variable {ranges more : List HostRange} {others : List (List HostRange)}

theorem bracketNeeded_eq (split : blocks (hr :: ranges) = (hr :: more) :: others) :
    bracketNeeded hr (ranges.map some) = bracketed (hr :: more) := by
  cases ranges with
  | nil =>
    obtain rfl : more = [] := by
      exact (List.cons.inj (List.cons.inj split).1).2.symm
    simp [bracketNeeded, bracketed]
  | cons next ranges =>
    have swap := withinRange_comm hr next
    rcases blocks_cases split with ⟨within, rest, rfl, -⟩ | ⟨apart, rfl, -⟩
    · simp [bracketNeeded, bracketed, swap, within]
    · simp [bracketNeeded, bracketed, swap, apart]

theorem blockText_eq (hr : HostRange) (more : List HostRange) :
    blockText (hr :: more) = hr.hostPrefix ++ charIf (bracketed (hr :: more)) '[' ++
      numbersText (hr :: more) ++ charIf (bracketed (hr :: more)) ']' := by
  rw [blockText]
  cases bracketed (hr :: more) with
  | false => simp [blockPrefix, charIf]
  | true => simp [blockPrefix, charIf]

theorem length_numberText_pos (ranged : hr.singlehost = false) : 0 < (numberText hr).length := by
  have low := length_numText_pos hr.width hr.lo
  rw [numberText, if_neg (by simp [ranged]), length_append]
  omega

theorem length_numberText_le (hr : HostRange) (more : List HostRange) :
    (numberText hr).length ≤ (numbersText (hr :: more)).length := by
  cases more with
  | nil => rw [numbersText_one]
  | cons next more =>
    rw [numbersText_cons, append_assoc, length_append]
    exact Nat.le_add_right _ _

theorem three_le_numbersText (ordered : Ordered hr)
    (split : blocks (hr :: ranges) = (hr :: more) :: others)
    (needed : bracketed (hr :: more) = true) : 3 ≤ (numbersText (hr :: more)).length := by
  rcases more with _ | ⟨next, rest⟩
  · have several : 1 < hr.count := by simpa [bracketed] using needed
    have ranged : hr.singlehost = false := by
      by_contra single
      rw [count, if_pos (Bool.not_eq_false _ ▸ single)] at several
      exact absurd several (Nat.lt_irrefl 1)
    obtain ⟨le, bounded⟩ := ordered ranged
    have less : hr.lo < hr.hi := by
      rw [count, if_neg (by simp [ranged]), ulongAdd, ulongSub] at several
      omega
    have low := length_numText_pos hr.width hr.lo
    have high := length_numText_pos hr.width hr.hi
    rw [numbersText_one, numberText, if_neg (by simp [ranged]), if_pos less, length_append,
      length_cons]
    omega
  · obtain ⟨next', ranges', rfl⟩ : ∃ next' ranges', ranges = next' :: ranges' := by
      cases ranges with
      | nil =>
        exact absurd (List.cons.inj (List.cons.inj split).1).2.symm (List.cons_ne_nil _ _)
      | cons next' ranges' => exact ⟨next', ranges', rfl⟩
    rcases blocks_cases split with ⟨within, rest', same, -⟩ | ⟨-, none_, -⟩
    · obtain ⟨rfl, -⟩ := List.cons.inj same
      rw [withinRange] at within
      split_ifs at within
      simp only [Bool.not_eq_true', Bool.or_eq_false_iff] at within
      have here := length_numberText_pos within.2
      have behind := length_numberText_pos within.1
      have le := length_numberText_le next rest
      rw [numbersText_cons, length_append, length_append, List.length_singleton]
      omega
    · exact absurd none_ (List.cons_ne_nil _ _)

theorem length_blockText (hr : HostRange) (more : List HostRange) :
    (blockText (hr :: more)).length = hr.hostPrefix.length + (bracketed (hr :: more)).toNat +
      (numbersText (hr :: more)).length + (bracketed (hr :: more)).toNat := by
  rw [blockText_eq]
  simp only [length_append, length_charIf]

theorem blockRoom_le_iff (ordered : Ordered hr)
    (split : blocks (hr :: ranges) = (hr :: more) :: others) :
    blockRoom (hr :: more) ≤ n ↔ ¬n ≤ hr.hostPrefix.length + 4 ∧
      hr.hostPrefix.length + (bracketed (hr :: more)).toNat +
        (numbersText (hr :: more)).length + 1 < n := by
  have length := length_blockText hr more
  rw [blockRoom]
  cases needed : bracketed (hr :: more) with
  | true =>
    have three := three_le_numbersText ordered split needed
    rw [needed] at length
    rw [if_pos rfl, length, Bool.toNat_true]
    omega
  | false =>
    rw [needed] at length
    rw [if_neg Bool.false_ne_true, length, Bool.toNat_false]
    simp only [blockPrefix, List.head?_cons, map_some, Option.getD_some]
    omega

theorem getBracketedList_spec {ranges more : List HostRange} {others : List (List HostRange)}
    (ordered : Ordered hr)
    (split : blocks (hr :: ranges) = (hr :: more) :: others) (starts : front <+: buf)
    (fits : front.length + n ≤ buf.length) :
    ∃ answer after,
      getBracketedList true n front.length hr (ranges.map some) buf = some (answer, after) ∧
        after.length = buf.length ∧
        if blockRoom (hr :: more) ≤ n then
          front ++ blockText (hr :: more) <+: after ∧
          ∃ left, blocks left = others ∧
            answer = some ((blockText (hr :: more)).length, left.map some)
        else answer = none := by
  have text := blockText_eq hr more
  have length := length_blockText hr more
  obtain ⟨first, written, same, -, begins⟩ := snprintfAt_spec starts fits hr.hostPrefix
  rw [getBracketedList, bracketNeeded_eq split, Bool.true_and, written, bind_some]
  simp only [blockRoom_le_iff ordered split]
  generalize bracketed (hr :: more) = needed at text length ⊢
  by_cases small : n ≤ hr.hostPrefix.length + 4
  · refine ⟨none, first, if_pos small, same, ?_⟩
    rw [if_neg fun both => both.1 small]
  have bracket : needed.toNat ≤ 1 := Bool.toNat_le needed
  obtain ⟨opened, isOpened, sameOpened, opens⟩ := putIf_spec needed '[' (begins (by omega))
    (by omega)
  obtain ⟨answer, numbers, loop, sameNumbers, rest⟩ := @numbersLoop_spec opened front n hr ranges
    more others split true _ (hr.hostPrefix ++ charIf needed '[') (by simp [charIf]) opens
    (by omega) (by rw [length_append, length_charIf]; omega)
  rw [length_append, length_charIf] at loop
  rw [if_neg small, isOpened, bind_some, loop, bind_some]
  simp only [length_append, length_charIf] at rest
  split_ifs at rest with enough
  · obtain ⟨numbersWritten, left, isLeft, rfl⟩ := rest
    obtain ⟨closed, isClosed, sameClosed, closes⟩ := putIf_spec needed ']' numbersWritten
      (by simp only [length_append, length_charIf]; omega)
    obtain ⟨after, isAfter, sameAfter, ends⟩ := @writeAt_spec closed _ [nul] closes (by
        rw [← text, length_append, List.length_singleton]
        omega)
    rw [← text, length_append] at isAfter
    simp only [length_append, length_charIf] at isClosed
    refine ⟨some ((blockText (hr :: more)).length, left.map some), after, ?_, by omega, ?_⟩
    · simp only [isClosed, bind_some, ← length, isAfter, map_some]
    · rw [if_pos ⟨small, enough⟩, text]
      exact ⟨(List.prefix_append _ _).trans ends, left, isLeft, rfl⟩
  · obtain rfl := rest
    refine ⟨none, numbers, rfl, by omega, ?_⟩
    rw [if_neg fun both => enough both.2]

theorem blocks_flatten (ranges : List HostRange) : (blocks ranges).flatten = ranges := by
  induction ranges with
  | nil => rfl
  | cons hr ranges ih =>
    rw [blocks]
    split
    · rename_i isNext
      rw [isNext] at ih
      split_ifs
      · rw [← ih]
        rfl
      · rw [← ih]
        rfl
    · rw [List.flatten_cons, ih]
      rfl

theorem length_lt_blockRoom (hr : HostRange) (more : List HostRange) :
    (blockText (hr :: more)).length < blockRoom (hr :: more) := by
  rw [blockRoom]
  split_ifs
  · exact Nat.lt_succ_self _
  · exact lt_of_lt_of_le (Nat.lt_add_of_pos_right (by decide)) (le_max_right _ _)

/-- What is written behind other blocks. -/
def restText (first : Bool) : List (List HostRange) → Name
  | [] => []
  | parts => charIf (!first) ',' ++ rangedText parts

/-- The room that is asked for behind other blocks. -/
def restRoom (first : Bool) : List (List HostRange) → Nat
  | [] => 1
  | parts => (!first).toNat + rangedRoom parts

theorem restText_cons (first : Bool) (block : List HostRange) (parts : List (List HostRange)) :
    restText first (block :: parts) =
      charIf (!first) ',' ++ blockText block ++ restText false parts := by
  cases parts with
  | nil => simp [restText, rangedText, List.intercalate]
  | cons next parts =>
    rw [restText, restText, rangedText, map_cons, map_cons, intercalate_cons_cons, ← map_cons]
    · simp [rangedText, charIf]
    · simp
    · simp

theorem restRoom_cons (first : Bool) (hr : HostRange) (more : List HostRange)
    (parts : List (List HostRange)) :
    restRoom first ((hr :: more) :: parts) = (!first).toNat +
      max (blockRoom (hr :: more)) ((blockText (hr :: more)).length + restRoom false parts) := by
  have long := length_lt_blockRoom hr more
  cases parts with
  | nil =>
    simp only [restRoom, rangedRoom]
    omega
  | cons next parts =>
    simp only [restRoom, rangedRoom, Bool.not_false, Bool.toNat_true]
    omega

/-- The loop writes the rest of the list when there is as much room as it asks for. -/
theorem rangedLoop_spec {turns : Nat} {ranges : List HostRange} {parts : List (List HostRange)}
    (isParts : blocks ranges = parts)
    (ordered : ∀ hr ∈ ranges, Ordered hr) (enough : ranges.length < turns) (first : Bool) {t : Name}
    (starts : t <+: buf) (inside : t.length < buf.length) :
    ∃ len after,
      rangedLoop true buf.length turns first (ranges.map some) t.length buf = some (len, after) ∧
        after.length = buf.length ∧
        if t.length + restRoom first parts ≤ buf.length then
          t ++ restText first parts <+: after ∧ len = (t ++ restText first parts).length ∧
            len < buf.length
        else buf.length ≤ len := by
  induction turns generalizing ranges parts first t buf with
  | zero => exact absurd enough (Nat.not_lt_zero _)
  | succ turns ih =>
    cases ranges with
    | nil =>
      obtain rfl : [] = parts := isParts
      refine ⟨t.length, buf, rfl, rfl, ?_⟩
      rw [if_pos (by rw [restRoom]; omega), restText, List.append_nil]
      exact ⟨starts, rfl, inside⟩
    | cons hr ranges =>
      obtain ⟨more, others, split⟩ := blocks_cons hr ranges
      obtain rfl : (hr :: more) :: others = parts := split.symm.trans isParts
      have whole := blocks_flatten (hr :: ranges)
      rw [split, List.flatten_cons, List.cons_append, List.cons.injEq] at whole
      obtain ⟨led, leads, sameLed, ledStarts⟩ := @putIf_spec buf [] t (!first) ',' starts (by
          have := Bool.toNat_le (!first)
          rw [length_nil]
          omega)
      rw [length_nil, Nat.zero_add] at leads
      obtain ⟨answer, written, block, sameWritten, rest⟩ :=
        @getBracketedList_spec led (t ++ charIf (!first) ',')
          (buf.length - (t ++ charIf (!first) ',').length) hr ranges more others
          (ordered hr List.mem_cons_self) split ledStarts
          (by
            have := Bool.toNat_le (!first)
            rw [length_append, length_charIf]
            omega)
      rw [length_append, length_charIf] at block rest
      rw [restRoom_cons, restText_cons, map_cons, rangedLoop, if_neg (by omega),
        bind_some, leads, bind_some]
      simp only [block, bind_some]
      split_ifs at rest with enoughRoom
      · obtain ⟨text, left, isLeft, rfl⟩ := rest
        obtain rfl : left = others.flatten := by rw [← isLeft, blocks_flatten]
        have inside' : ∀ other ∈ others.flatten, other ∈ hr :: ranges := fun other mem =>
          List.mem_cons_of_mem _ (whole.2 ▸ List.mem_append_right _ mem)
        have shorter := congrArg List.length whole.2
        rw [length_append] at shorter
        rw [length_cons] at enough
        have bounded := length_lt_blockRoom hr more
        have position : (t ++ charIf (!first) ',' ++ blockText (hr :: more)).length =
            t.length + (!first).toNat + (blockText (hr :: more)).length := by
          rw [length_append, length_append, length_charIf]
        obtain ⟨len, after, loop, same, rest⟩ := @ih written others.flatten others isLeft
          (fun other mem => ordered other (inside' other mem)) (by omega) false _ text
          (by omega)
        rw [position, sameWritten, sameLed] at loop rest
        refine ⟨len, after, loop, by omega, ?_⟩
        simp only [← append_assoc]
        split_ifs at rest with all
        · rw [if_pos (by omega)]
          exact rest
        · rw [if_neg (by omega)]
          exact rest
      · obtain rfl := rest
        refine ⟨buf.length, written, rfl, by omega, ?_⟩
        rw [if_neg]
        omega

theorem restRoom_true (parts : List (List HostRange)) : restRoom true parts = rangedRoom parts := by
  cases parts with
  | nil => rfl
  | cons block parts => exact Nat.zero_add _

theorem restText_true (parts : List (List HostRange)) : restText true parts = rangedText parts := by
  cases parts with
  | nil => rfl
  | cons block parts => rfl

theorem rangedLoop_nothing (turns : Nat) (slots : List (Option HostRange)) :
    rangedLoop true 0 (turns + 1) true slots 0 buf = some (0, buf) := by
  cases slots with
  | nil => rfl
  | cons slot slots => rw [rangedLoop, if_pos le_rfl]

theorem blocks_ne_nil (ranges : List HostRange) : ∀ block ∈ blocks ranges, block ≠ [] := by
  induction ranges with
  | nil => exact fun block mem => absurd mem List.not_mem_nil
  | cons hr ranges ih =>
    obtain ⟨more, others, split⟩ := blocks_cons hr ranges
    rw [split]
    refine List.forall_mem_cons.mpr ⟨List.cons_ne_nil hr more, ?_⟩
    intro block mem
    cases ranges with
    | nil =>
      rw [← (List.cons.inj split).2] at mem
      exact absurd mem List.not_mem_nil
    | cons next ranges =>
      rcases blocks_cases split with ⟨-, rest, -, behind⟩ | ⟨-, -, behind⟩
      · exact ih block (behind ▸ List.mem_cons_of_mem _ mem)
      · exact ih block (behind ▸ mem)

theorem blockRoom_le (hr : HostRange) (more : List HostRange) :
    blockRoom (hr :: more) ≤ (blockText (hr :: more)).length + 5 := by
  have length := length_blockText hr more
  rw [blockRoom]
  split_ifs
  · omega
  · simp only [blockPrefix, List.head?_cons, map_some, Option.getD_some]
    omega

theorem restRoom_bounds (first : Bool) {parts : List (List HostRange)}
    (some_ : ∀ block ∈ parts, block ≠ []) :
    (restText first parts).length < restRoom first parts ∧
      restRoom first parts ≤ (restText first parts).length + 5 := by
  induction parts generalizing first with
  | nil => exact ⟨Nat.one_pos, Nat.le_add_left 1 4⟩
  | cons block parts ih =>
    obtain ⟨here, others⟩ := List.forall_mem_cons.mp some_
    obtain ⟨hr, more, rfl⟩ := List.exists_cons_of_ne_nil here
    have upper := blockRoom_le hr more
    obtain ⟨less, le⟩ := ih false others
    rw [restText_cons, restRoom_cons, length_append, length_append, length_charIf]
    omega

theorem rangedRoom_bounds (ranges : List HostRange) :
    (rangedText (blocks ranges)).length < rangedRoom (blocks ranges) ∧
      rangedRoom (blocks ranges) ≤ (rangedText (blocks ranges)).length + 5 := by
  have bounds := restRoom_bounds true (blocks_ne_nil ranges)
  rwa [restRoom_true, restText_true] at bounds

/-- `hostlist_ranged_string` stays inside the buffer, and it writes the whole text when there
is as much room as the blocks ask for. -/
theorem rangedString_spec {hl : HostList} (slots : hl.hr = ranges.map some)
    (ordered : ∀ hr ∈ ranges, Ordered hr) (buf : List Char) :
    ∃ answer after, rangedString hl buf = some (answer, after) ∧ after.length = buf.length ∧
      if rangedRoom (blocks ranges) ≤ buf.length then
        answer = some (rangedText (blocks ranges)).length ∧
          rangedText (blocks ranges) ++ [nul] <+: after
      else answer = none := by
  have positive := Nat.zero_lt_of_lt (rangedRoom_bounds ranges).1
  rw [rangedString, rangedStringDims, slots]
  rcases Nat.eq_zero_or_pos buf.length with nothing | inside
  · refine ⟨none, buf, ?_, rfl, ?_⟩
    · simp only [nothing, rangedLoop_nothing, bind_some, if_pos le_rfl,
        if_neg (lt_irrefl 0), map_some]
    · rw [if_neg (by omega)]
  · obtain ⟨len, written, loop, same, rest⟩ := @rangedLoop_spec buf ((ranges.map some).length + 1)
      ranges _ rfl ordered (by rw [List.length_map]; exact Nat.lt_succ_self _) true []
      List.nil_prefix inside
    rw [length_nil] at loop
    rw [length_nil, Nat.zero_add, restRoom_true, restText_true, List.nil_append] at rest
    simp only [loop, bind_some]
    split_ifs at rest with enough
    · obtain ⟨text, rfl, short⟩ := rest
      obtain ⟨after, isAfter, sameAfter, ends⟩ := @writeAt_spec written _ [nul] text (by
          rw [List.length_singleton]
          omega)
      refine ⟨some (rangedText (blocks ranges)).length, after, ?_, sameAfter.trans same, ?_⟩
      · simp only [if_neg (Nat.not_le_of_lt short), isAfter, map_some]
      · rw [if_pos enough]
        exact ⟨rfl, ends⟩
    · obtain ⟨after, isAfter, sameAfter, -⟩ := @writeAt_spec written (written.take (buf.length - 1))
        [nul] (List.take_prefix _ _)
        (by
          rw [List.length_take, List.length_singleton]
          omega)
      rw [List.length_take, min_eq_left (by omega)] at isAfter
      refine ⟨none, after, ?_, sameAfter.trans same, ?_⟩
      · simp only [if_pos rest, if_pos inside, isAfter, map_some]
      · rw [if_neg enough]

end Writer

end SlurmSim.Hostlist
