import SlurmSim.Hostlist.Within

/-!
# Removing hosts by position and by name
-/

namespace SlurmSim.Hostlist

open SlurmSim.Common.Bitmap HostRange List
open Option (bind_some map_some)

variable {prefixes : Set Name} {hl : HostList} {ranges : List HostRange} {hr : HostRange}

/-! ## By position -/

/-- What a range is replaced by when one of its hosts is deleted. -/
def remainder (parts : HostRange × Option HostRange) : List HostRange :=
  match parts.2 with
  | some upper => [parts.1, upper.copy]
  | none => kept parts.1

theorem numbered_eraseIdx (hostPrefix : Name) (width lo front back : Nat) :
    (numbered hostPrefix width lo (front + 1 + back)).eraseIdx front =
      numbered hostPrefix width lo front ++ numbered hostPrefix width (lo + front + 1) back := by
  have length := length_numbered hostPrefix width lo front
  rw [numbered_append, numbered_append, numbered_one, append_assoc,
    eraseIdx_append_of_length_le (by omega), length, Nat.sub_self, Nat.add_assoc]
  rfl

theorem kept_sub (proper : Proper hr) (ranged : hr.singlehost = false) (lo hi : Nat)
    (le : hi ≤ hr.hi) :
    (∀ left ∈ kept { hr with lo := lo, hi := hi }, Proper left ∧
      left.hostPrefix = hr.hostPrefix ∧ left.hi ≤ hr.hi) ∧
      expand (kept { hr with lo := lo, hi := hi }) =
        numbered hr.hostPrefix hr.width lo (hi + 1 - lo) := by
  by_cases ordered : lo ≤ hi
  · have left := proper.ranged ranged ordered le
    rw [expand_kept left, sub_names ranged, kept_self left]
    exact ⟨forall_mem_singleton.mpr ⟨left, rfl, le⟩, rfl⟩
  · have empty : ({ hr with lo := lo, hi := hi } : HostRange).empty = true := by
      rw [empty, decide_eq_true_iff]
      exact Or.inl (Nat.lt_of_not_le ordered)
    rw [kept_nil empty, Nat.sub_eq_zero_of_le (by omega)]
    exact ⟨fun _ mem => absurd mem not_mem_nil, rfl⟩

/-- `hostrange_delete_host` removes one name. -/
theorem rangeDelete_spec (proper : Proper hr) (ranged : hr.singlehost = false) {n : Nat}
    (lower : hr.lo ≤ n) (upper : n ≤ hr.hi) : ∃ parts, hr.deleteHost n = some parts ∧
      (∀ left ∈ remainder parts, Proper left ∧ left.hostPrefix = hr.hostPrefix ∧
        left.hi ≤ hr.hi) ∧
      expand (remainder parts) = hr.names.eraseIdx (n - hr.lo) := by
  have bounded := proper.bounded
  have length : hr.hi + 1 - hr.lo = (n - hr.lo) + 1 + (hr.hi - n) := by omega
  have middle : hr.lo + (n - hr.lo) + 1 = n + 1 := by omega
  have erased : hr.names.eraseIdx (n - hr.lo) = numbered hr.hostPrefix hr.width hr.lo (n - hr.lo) ++
        numbered hr.hostPrefix hr.width (n + 1) (hr.hi - n) := by
    rw [ranged_names ranged, length, numbered_eraseIdx, middle]
  rw [HostRange.deleteHost, if_pos ⟨lower, upper⟩, erased]
  split_ifs with first last
  · obtain ⟨proper, names⟩ := kept_sub proper ranged (hr.lo + 1) hr.hi le_rfl
    refine ⟨_, rfl, ?_, ?_⟩
    · rw [remainder, ulongAdd, Nat.mod_eq_of_lt (by omega)]
      exact proper
    · rw [remainder, ulongAdd, Nat.mod_eq_of_lt (by omega), names, first, Nat.sub_self,
        Nat.add_sub_add_right]
      rfl
  · have down : ulongSub hr.hi 1 = n - 1 := by
      rw [ulongSub]
      omega
    obtain ⟨proper, names⟩ := kept_sub proper ranged hr.lo (n - 1) (by omega)
    refine ⟨_, rfl, ?_, ?_⟩
    · rw [remainder, down]
      exact proper
    · rw [remainder, down, names, last, Nat.sub_self, Nat.sub_add_cancel (by omega)]
      exact (append_nil _).symm
  · have down : ulongSub n 1 = n - 1 := by
      rw [ulongSub]
      omega
    have up : ulongAdd n 1 = n + 1 := by
      rw [ulongAdd]
      omega
    have properLow : Proper { hr with hi := n - 1 } := proper.ranged ranged (by omega) (by omega)
    have properHigh : Proper { hr with lo := n + 1 } := proper.ranged ranged (by omega) le_rfl
    have parts : remainder ({ hr with hi := n - 1 }, some { hr with lo := n + 1 }) =
        [{ hr with hi := n - 1 }, { hr with lo := n + 1 }] := by
      simp only [remainder, properHigh.copy]
    refine ⟨({ hr with hi := n - 1 }, some { hr with lo := n + 1 }), ?_, ?_, ?_⟩
    · rw [proper.copy, down, up]
    · rw [parts]
      exact forall_mem_cons.mpr ⟨⟨properLow, rfl, by simp only; omega⟩,
        forall_mem_singleton.mpr ⟨properHigh, rfl, le_rfl⟩⟩
    · rw [parts, expand_cons, expand_cons, expand_nil, sub_names ranged, sub_names ranged,
        append_nil, Nat.add_sub_add_right, Nat.sub_add_cancel (by omega)]

theorem remainder_slots (parts : HostRange × Option HostRange) (slots : List HostRange) :
    (match parts.2 with
      | some upper => some parts.1 :: some upper.copy :: slots.map some
      | none => if parts.1.empty then slots.map some else some parts.1 :: slots.map some) =
    (remainder parts ++ slots).map some := by
  obtain ⟨lower, upper⟩ := parts
  cases upper with
  | some upper => rfl
  | none =>
    simp only [remainder, kept]
    split_ifs <;> rfl

variable {count : Nat} {name : Name} {names : List Name}

theorem deleteNthSlots_spec (admitted : Admitted prefixes ranges) {n : Nat} (start : count ≤ n)
    (inside : n - count < (expand ranges).length) (fits : (expand ranges).length < 2 ^ 31) :
    ∃ ranges', HostList.deleteNthSlots n count (ranges.map some) = some (ranges'.map some) ∧
      Admitted prefixes ranges' ∧ expand ranges' = (expand ranges).eraseIdx (n - count) := by
  induction ranges generalizing count with
  | nil => exact absurd inside (Nat.not_lt_zero _)
  | cons hr ranges ih =>
    obtain ⟨fit, others⟩ := forall_mem_cons.mp admitted
    have proper := fit.proper
    have length := proper.length_names
    rw [expand_cons, length_append] at inside fits
    have number : toInt32 hr.count = hr.names.length := by
      rw [← length, toInt32_of_small (by omega) (by omega)]
    rw [map_cons, HostList.deleteNthSlots, number, expand_cons]
    split_ifs with here single
    · have only : hr.names.length = 1 := by rw [single_names single]; rfl
      refine ⟨ranges, rfl, others, ?_⟩
      rw [show n - count = 0 by omega, single_names single]
      rfl
    · have ranged := Bool.eq_false_iff.mpr single
      have ordered := proper.ordered ranged
      have small := fit.small
      have width : hr.names.length = hr.hi + 1 - hr.lo := by
        rw [ranged_names ranged, length_numbered]
      have num : ((hr.lo + n - count : Int) % 2 ^ 64).toNat = hr.lo + (n - count) := by omega
      obtain ⟨parts, deleted, left, names⟩ := rangeDelete_spec proper ranged
        (show hr.lo ≤ hr.lo + (n - count) by omega) (show _ ≤ hr.hi by omega)
      rw [Nat.add_sub_cancel_left] at names
      refine ⟨remainder parts ++ ranges, ?_, ?_, ?_⟩
      · rw [num, deleted, map_some]
        exact congrArg some (remainder_slots parts ranges)
      · refine forall_mem_append.mpr ⟨fun other mem => ?_, others⟩
        obtain ⟨proper, same, le⟩ := left other mem
        exact ⟨proper, by rw [same]; exact fit.inside, lt_of_le_of_lt le fit.small⟩
      · rw [expand_append, names, eraseIdx_append_of_lt_length (by omega)]
    · obtain ⟨ranges', rest, admitted', names⟩ := ih others
        (show count + hr.names.length ≤ n by omega) (by omega) (by omega)
      refine ⟨hr :: ranges', ?_, forall_mem_cons.mpr ⟨fit, admitted'⟩, ?_⟩
      · have next : ((count : Int) + hr.names.length) = ((count + hr.names.length : Nat) : Int) := by
          omega
        rw [next, rest, map_some, map_cons]
      · rw [expand_cons, names, eraseIdx_append_of_length_le (by omega), Nat.sub_sub]

theorem deleteNth_spec (holds : Holds prefixes hl ranges) {n : Nat}
    (mem : n < (expand ranges).length) :
    ∃ hl' ranges', hl.deleteNth n = some hl' ∧ Holds prefixes hl' ranges' ∧
      expand ranges' = (expand ranges).eraseIdx n := by
  have nhosts := holds.nhosts
  have fits := holds.fits
  obtain ⟨ranges', deleted, admitted, names⟩ :=
    deleteNthSlots_spec holds.admitted (Nat.zero_le n) mem fits
  rw [Nat.sub_zero] at names
  have holds' := holds.remove admitted [[]] (by
    rw [names, length_eraseIdx_of_lt mem, length_singleton]
    omega)
  refine ⟨_, ranges', ?_, holds', names⟩
  rw [HostList.deleteNth, if_pos ⟨by omega, by omega⟩, holds.slots]
  rw [show ((0 : Nat) : Int) = 0 from rfl] at deleted
  rw [deleted]
  rfl

/-! ## By name -/

/-- A name is looked for where it is found first: no range before the first one with the name
has a longer prefix that ends with digits and fits into the name, and the name itself is no
prefix of a range that starts with an unpadded zero. -/
def Findable (ranges : List HostRange) (name : Name) : Prop :=
  name.rtakeWhile Char.isDigit ≠ [] →
    ∀ before hr after, ranges = before ++ hr :: after → (∀ other ∈ before, name ∉ other.names) →
      ¬Bare hr name ∧ (name ∈ hr.names → ∀ other ∈ before, Shadows other name →
        other.hostPrefix.length ≤ hr.hostPrefix.length)

theorem rdropWhile_digits (text : Name) {digits : Name} (all : Digits digits) :
    (text ++ digits).rdropWhile Char.isDigit = text.rdropWhile Char.isDigit := by
  rw [List.rdropWhile, List.rdropWhile, reverse_append, dropWhile_append_of_pos]
  exact fun c mem => all c (mem_reverse.mp mem)

theorem stem_of_mem (ranged : hr.singlehost = false) (mem : name ∈ hr.names) :
    name.rdropWhile Char.isDigit = hr.hostPrefix.rdropWhile Char.isDigit ∧
      name.rtakeWhile Char.isDigit ≠ [] := by
  obtain ⟨n, -, rfl⟩ := (mem_names_iff ranged).mp mem
  exact ⟨rdropWhile_digits _ (digits_numText hr.width n),
    rtakeWhile_ne_nil _ (digits_numText hr.width n) (numText_ne_nil hr.width n)⟩

theorem names_nodup (hr : HostRange) : hr.names.Nodup := by
  rw [names]
  split_ifs
  · exact nodup_singleton _
  · refine List.Nodup.map ?_ nodup_range'
    intro n m same
    have text := congrArg textValue (append_cancel_left same)
    rwa [textValue_numText, textValue_numText] at text

theorem idxOf_names (ranged : hr.singlehost = false) (mem : name ∈ hr.names) :
    hr.lo ≤ textValue (name.drop hr.hostPrefix.length) ∧
      hr.names.idxOf name = textValue (name.drop hr.hostPrefix.length) - hr.lo := by
  obtain ⟨n, bounds, rfl⟩ := (mem_names_iff ranged).mp mem
  rw [drop_left, textValue_numText]
  have length : hr.names.length = hr.hi + 1 - hr.lo := by
    rw [ranged_names ranged, length_numbered]
  have inside : n - hr.lo < hr.names.length := by omega
  have here : hr.names[n - hr.lo] = hr.hostPrefix ++ numText hr.width n := by
    simp only [ranged_names ranged, numbered, getElem_map, getElem_range']
    congr 2
    omega
  refine ⟨bounds.1, ?_⟩
  rw [← here]
  exact (names_nodup hr).idxOf_getElem _ _

/-- Where a name is, counted from a number on. -/
def position (count : Nat) (names : List Name) (name : Name) : Int :=
  if name ∈ names then count + names.idxOf name else -1

theorem position_append_left {others : List Name} (mem : name ∈ names) :
    position count (names ++ others) name = count + names.idxOf name := by
  rw [position, if_pos (mem_append_left _ mem), idxOf_append_of_mem mem]

theorem position_append_right {others : List Name} (out : name ∉ names) :
    position count (names ++ others) name = position (count + names.length) others name := by
  rw [position, position]
  by_cases mem : name ∈ others
  · rw [if_pos (mem_append_right _ mem), if_pos mem, idxOf_append_of_notMem out]
    omega
  · rw [if_neg (fun both => (mem_append.mp both).elim out mem), if_neg mem]

theorem widened_of_looks {k : Nat} {answer : Bool × HostRange × Hostname}
    (looks : Looks hr name k answer) (ranged : hr.singlehost = false) : Widened hr answer.2.1 := by
  obtain ⟨width, same, names⟩ := looks.widened
  rw [same]
  exact widened_width ranged names

theorem findSlots_spec (number : name.rtakeWhile Char.isDigit ≠ [])
    (admitted : Admitted prefixes ranges) {hn : Hostname} {k : Nat} (split : SplitAt hn name k)
    (fits : count + (expand ranges).length < 2 ^ 31)
    (findable : ∀ before hr after, ranges = before ++ hr :: after →
      (∀ other ∈ before, name ∉ other.names) → ¬Bare hr name ∧ (name ∈ hr.names →
      k ≤ hr.hostPrefix.length ∧ ∀ other ∈ before, Shadows other name →
      other.hostPrefix.length ≤ hr.hostPrefix.length)) :
    ∃ ranges', HostList.findSlots hn count (ranges.map some) =
        some (position count (expand ranges) name, ranges'.map some) ∧
      List.Forall₂ Widened ranges ranges' := by
  induction ranges generalizing hn k count with
  | nil => exact ⟨[], rfl, List.Forall₂.nil⟩
  | cons hr ranges ih =>
    obtain ⟨fit, others⟩ := forall_mem_cons.mp admitted
    have proper := fit.proper
    rw [expand_cons, length_append] at fits
    obtain ⟨bare, first⟩ := findable [] hr ranges rfl (fun _ mem => absurd mem not_mem_nil)
    have looks := hnWithin_looks proper fit.small split number bare
    have widened : Widened hr (hnWithin hr hn).2.1 := by
      rcases Bool.eq_false_or_eq_true hr.singlehost with single | ranged
      · rw [hnWithin, if_pos single]
        exact Widened.refl hr
      · exact widened_of_looks looks ranged
    rw [map_cons, HostList.findSlots, expand_cons]
    generalize hnWithin hr hn = answer at looks widened
    obtain ⟨found, hr', hn'⟩ := answer
    simp only at widened ⊢
    by_cases mem : name ∈ hr.names
    · have isFound : found = true := looks.complete mem (first mem).1
      obtain ⟨ranged, -, num⟩ := looks.sound isFound
      obtain ⟨lower, index⟩ := idxOf_names ranged mem
      have bound := idxOf_lt_length_of_mem mem
      have suffix : hn'.suffix.isSome = true := by
        rw [looks.split.suffix]
        rfl
      refine ⟨hr' :: ranges, ?_, List.Forall₂.cons widened
        (forall₂_same.mpr fun other _ => Widened.refl other)⟩
      rw [if_pos isFound, if_pos suffix, position_append_left mem, num, widened.lo, index,
        toInt32_of_small (by omega) (by omega), Nat.cast_sub lower]
      congr 2
      omega
    · have notFound : ¬found = true := fun isFound => mem (looks.sound isFound).2.1
      have length : hr'.count = hr.names.length := by
        rw [← (widened.proper proper).length_names, widened.names]
      obtain ⟨ranges', rest, widenedRest⟩ := ih others looks.split
        (show count + hr.names.length + (expand ranges).length < 2 ^ 31 by omega) (by
          intro before other after whole out
          obtain ⟨bare, reach⟩ := findable (hr :: before) other after
            (by rw [whole, cons_append]) (forall_mem_cons.mpr ⟨mem, out⟩)
          refine ⟨bare, fun isMem => ?_⟩
          obtain ⟨le, shadowed⟩ := reach isMem
          obtain ⟨here, before⟩ := forall_mem_cons.mp shadowed
          refine ⟨?_, before⟩
          split_ifs with shadows
          · exact max_le le (here shadows)
          · exact le)
      refine ⟨hr' :: ranges', ?_, List.Forall₂.cons widened widenedRest⟩
      have next : toInt32 ((count : Int) + hr'.count) =
          ((count + hr.names.length : Nat) : Int) := by
        rw [length, toInt32_of_small (by omega) (by omega)]
        omega
      rw [if_neg notFound, next, rest, map_some, position_append_right mem, map_cons]

theorem findSlots_plain {name : Name} (plain : name.rtakeWhile Char.isDigit = [])
    (counted : ∀ hr ∈ ranges, hr.names.length = hr.count) {count : Nat}
    (fits : count + (expand ranges).length < 2 ^ 31) :
    HostList.findSlots ⟨name, name, 0, none⟩ count (ranges.map some) =
      some (position count (expand ranges) name, ranges.map some) := by
  induction ranges generalizing count with
  | nil => rfl
  | cons hr ranges ih =>
    obtain ⟨length, others⟩ := forall_mem_cons.mp counted
    rw [expand_cons, length_append] at fits
    rw [map_cons, HostList.findSlots, hnWithin_plain plain, expand_cons]
    by_cases mem : name ∈ hr.names
    · have single : hr.singlehost = true := by
        by_contra ranged
        exact (stem_of_mem (Bool.eq_false_iff.mpr ranged) mem).2 plain
      have first : hr.names.idxOf name = 0 := by
        rw [single_names single] at mem ⊢
        rw [mem_singleton.mp mem, idxOf_cons_self]
      simp only [decide_eq_true mem, if_true, Option.isSome_none, Bool.false_eq_true, if_false]
      rw [position_append_left mem, first, toInt32_of_small (by omega) (by omega), Nat.cast_zero,
        add_zero]
    · have next : toInt32 ((count : Int) + hr.count) = ((count + hr.names.length : Nat) : Int) := by
        rw [← length, toInt32_of_small (by omega) (by omega)]
        omega
      simp only [decide_eq_false mem, Bool.false_eq_true, if_false]
      rw [next, ih others (by omega), map_some, position_append_right mem]

/-- `hostlist_find` answers with the position of the first name that is equal. -/
theorem find_spec (holds : Holds prefixes hl ranges) (findable : Findable ranges name) :
    ∃ hl' ranges', hl.find name = some (position 0 (expand ranges) name, hl') ∧
      Holds prefixes hl' ranges' ∧ expand ranges' = expand ranges := by
  have fits := holds.fits
  by_cases plain : name.rtakeWhile Char.isDigit = []
  · refine ⟨hl, ranges, ?_, holds, rfl⟩
    have found := findSlots_plain plain (fun hr mem => (holds.proper hr mem).length_names)
      (show 0 + _ < 2 ^ 31 by omega)
    rw [Nat.cast_zero] at found
    rw [HostList.find, hostnameCreate_plain plain, holds.slots, found, map_some, ← holds.slots]
  · have split := hostnameCreate_splitAt plain
    obtain ⟨ranges', found, widened⟩ := findSlots_spec plain holds.admitted split
      (show 0 + _ < 2 ^ 31 by omega) (by
        intro before hr after whole out
        obtain ⟨bare, shadowed⟩ := findable plain before hr after whole out
        refine ⟨bare, fun mem => ⟨?_, shadowed mem⟩⟩
        rcases Bool.eq_false_or_eq_true hr.singlehost with single | ranged
        · have isProper := holds.proper hr (by rw [whole]; simp)
          rw [single_names single, mem_singleton] at mem
          exact absurd mem (single_not_mem isProper single plain)
        · rw [hostPrefixEnd, (stem_of_mem ranged mem).1]
          exact ( rdropWhile_prefix Char.isDigit hr.hostPrefix).length_le)
    rw [Nat.cast_zero] at found
    refine ⟨⟨ranges'.map some, hl.nhosts⟩, ranges', ?_, holds.widen widened, expand_widened widened⟩
    rw [HostList.find, holds.slots, found, map_some]

theorem deleteHost_spec (holds : Holds prefixes hl ranges) (findable : Findable ranges name) :
    ∃ answer hl' ranges', hl.deleteHost name = some (answer, hl') ∧
      Holds prefixes hl' ranges' ∧ expand ranges' = (expand ranges).erase name := by
  obtain ⟨hl', ranges', found, holds', names⟩ := find_spec holds findable
  rw [HostList.deleteHost, found, bind_some]
  by_cases mem : name ∈ expand ranges
  · have index : position 0 (expand ranges) name = ((expand ranges).idxOf name : Int) := by
      rw [position, if_pos mem, Nat.cast_zero, zero_add]
    obtain ⟨hl'', ranges'', deleted, holds'', names''⟩ :=
      @deleteNth_spec _ _ _ holds' ((expand ranges).idxOf name)
        (by rw [names]; exact idxOf_lt_length_of_mem mem)
    refine ⟨1, hl'', ranges'', ?_, holds'', ?_⟩
    · simp only [index]
      rw [if_pos (Int.natCast_nonneg _), deleted, map_some]
    · rw [names'', names, eraseIdx_idxOf_eq_erase]
  · refine ⟨0, hl', ranges', ?_, holds', ?_⟩
    · simp only [position, if_neg mem]
      rfl
    · rw [names, erase_of_not_mem mem]

theorem drain_spec {fuel : Nat} (holds : Holds prefixes hl ranges)
    (enough : (expand ranges).length < fuel) :
    HostList.drain fuel hl = some (expand ranges).reverse := by
  induction fuel generalizing hl ranges with
  | zero => exact absurd enough (Nat.not_lt_zero _)
  | succ fuel ih =>
    rw [HostList.drain]
    by_cases nothing : expand ranges = []
    · rw [pop_nothing holds nothing, nothing]
      rfl
    · obtain ⟨name, hl', ranges', popped, holds', names⟩ := pop_spec holds nothing
      rw [names, length_append, length_singleton] at enough
      simp only [popped, bind_some]
      rw [ih holds' (by omega), names, reverse_append]
      rfl

/-- Every name can be found when its turn comes. -/
def AllFindable : HostList → List Name → Prop
  | _, [] => True
  | hl, name :: names =>
    Findable hl.hr.reduceOption name ∧
      ∀ answer, hl.deleteHost name = some answer → AllFindable answer.2 names

theorem reduceOption_slots (ranges : List HostRange) : (ranges.map some).reduceOption = ranges :=
  (filterMap_map ..).trans filterMap_some

theorem Holds.reduceOption (holds : Holds prefixes hl ranges) : hl.hr.reduceOption = ranges := by
  rw [holds.slots]
  exact reduceOption_slots ranges

theorem deleteHosts_spec (holds : Holds prefixes hl ranges) (findable : AllFindable hl names) :
    ∃ answer hl' ranges', hl.deleteHosts names = some (answer, hl') ∧
      Holds prefixes hl' ranges' ∧ expand ranges' = (expand ranges).diff names := by
  induction names generalizing hl ranges with
  | nil => exact ⟨0, hl, ranges, rfl, holds, rfl⟩
  | cons name names ih =>
    obtain ⟨here, rest⟩ := findable
    rw [holds.reduceOption] at here
    obtain ⟨answer, hl₁, ranges₁, first, holds₁, names₁⟩ := deleteHost_spec holds here
    obtain ⟨more, hl₂, ranges₂, others, holds₂, names₂⟩ := ih holds₁ (rest _ first)
    refine ⟨answer + more, hl₂, ranges₂, ?_, holds₂, ?_⟩
    · rw [HostList.deleteHosts, first, bind_some, others, map_some]
    · rw [names₂, names₁, diff_cons]

/-- `hostlist_delete` removes the first of the names that are equal, for every host of the
text. -/
theorem delete_spec (apart : Apart prefixes) {hosts : Name} {deleted : List HostRange}
    (holds : Holds prefixes hl ranges) (parsed : parse hosts = some deleted)
    (admitted : Admitted prefixes deleted) (fits : (expand deleted).length < 2 ^ 31)
    (findable : AllFindable hl (expand deleted).reverse) :
    ∃ answer hl' ranges', hl.delete hosts = some (answer, hl') ∧
      Holds prefixes hl' ranges' ∧ expand ranges' = (expand ranges).diff (expand deleted) := by
  obtain ⟨hltmp, others, created, holdsTmp, namesTmp⟩ := create_spec apart parsed admitted fits
  obtain ⟨answer, hl', ranges', done, holds', names⟩ := deleteHosts_spec holds findable
  refine ⟨answer, hl', ranges', ?_, holds', ?_⟩
  · have drained := drain_spec holdsTmp (show _ < hltmp.nhosts.toNat + 1 by
      rw [holdsTmp.nhosts]
      omega)
    rw [namesTmp] at drained
    simp only [HostList.delete, created]
    rw [drained, bind_some, done]
  · rw [names]
    exact (reverse_perm _).diff_left _

theorem delete_of_error {hosts : Name} (error : parse hosts = none) :
    hl.delete hosts = some (0, hl) := by
  rw [HostList.delete, HostList.create, error, Option.bind_none]

end SlurmSim.Hostlist
