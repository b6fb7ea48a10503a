import SlurmSim.Hostlist.Removal

/-!
# Bracketed lists at the ends of a host list

`hostlist_pop_range` and `hostlist_shift_range` push the ranges of one bracketed list onto a
temporary list and take as many ranges off the host list as the temporary list has. These are
the ranges that were pushed unless neighbours among them merge.
-/

namespace SlurmSim.Hostlist

open SlurmSim.Common.Bitmap HostRange List

variable {prefixes : Set Name} {hl : HostList} {ranges : List HostRange} {hr tail : HostRange}

/-! ## Blocks of names -/

/-- Two names with numbers behind one prefix. -/
def sameBlock (name other : Name) : Bool :=
  name.rtakeWhile Char.isDigit ≠ [] ∧ other.rtakeWhile Char.isDigit ≠ [] ∧
    name.rdropWhile Char.isDigit = other.rdropWhile Char.isDigit

/-- The names without the last block with one prefix. -/
def popBlock (names : List Name) : List Name :=
  match names.getLast? with
  | none => []
  | some last => names.dropLast.rdropWhile (sameBlock last)

/-- The names without the first block with one prefix. -/
def shiftBlock : List Name → List Name
  | [] => []
  | first :: names => names.dropWhile (sameBlock first)

variable {block front : List HostRange} {last name other : Name}

theorem popBlock_append {names block : List Name}
    (inside : ∀ name ∈ block, sameBlock last name = true)
    (outside : ∀ name ∈ names.getLast?, sameBlock last name = false) :
    popBlock (names ++ (block ++ [last])) = names := by
  have ends : (names ++ (block ++ [last])).getLast? = some last := by simp
  have dropped : (names ++ (block ++ [last])).dropLast = names ++ block := by
    rw [← append_assoc, dropLast_concat]
  simp only [popBlock, ends, dropped]
  rw [List.rdropWhile, reverse_append, dropWhile_append_of_pos
    (fun name mem => inside name (mem_reverse.mp mem))]
  rcases eq_nil_or_concat names with rfl | ⟨front, name, rfl⟩
  · rfl
  · have stop : sameBlock last name = false := outside name (by simp)
    simp [stop]

theorem shiftBlock_append {names block : List Name} {first : Name}
    (mem : ∀ name ∈ block, sameBlock first name = true)
    (outside : ∀ name ∈ names.head?, sameBlock first name = false) :
    shiftBlock (first :: (block ++ names)) = names := by
  rw [shiftBlock, dropWhile_append_of_pos mem]
  cases names with
  | nil => rfl
  | cons name names =>
    have stop : sameBlock first name = false := outside name rfl
    rw [dropWhile_cons, if_neg (by simp [stop])]

theorem withinRange_iff (apart : Apart prefixes) (left : tail.hostPrefix ∈ prefixes)
    (right : hr.hostPrefix ∈ prefixes) : tail.withinRange hr = true ↔
      tail.hostPrefix = hr.hostPrefix ∧ tail.singlehost = false ∧ hr.singlehost = false := by
  rw [withinRange, ← Bool.not_eq_true, ← Bool.not_eq_true]
  by_cases cmp : tail.prefixCmp hr = 0
  · obtain ⟨same, -⟩ := (prefixCmp_eq_zero apart left right).mp cmp
    rw [if_pos cmp]
    simp [same]
  · rw [if_neg cmp]
    constructor
    · exact fun absurd => nomatch absurd
    · rintro ⟨same, ranged, rangedHr⟩
      refine absurd ((prefixCmp_eq_zero apart left right).mpr ⟨same, ?_⟩) cmp
      rw [Bool.eq_false_iff.mpr ranged, Bool.eq_false_iff.mpr rangedHr]

theorem sameBlock_of_mem (ranged : tail.singlehost = false) (rangedHr : hr.singlehost = false)
    (mem : name ∈ tail.names) (memHr : other ∈ hr.names) :
    sameBlock name other = true ↔
      tail.hostPrefix.rdropWhile Char.isDigit = hr.hostPrefix.rdropWhile Char.isDigit := by
  obtain ⟨stem, number⟩ := stem_of_mem ranged mem
  obtain ⟨stemHr, numberHr⟩ := stem_of_mem rangedHr memHr
  rw [sameBlock, decide_eq_true_iff, stem, stemHr]
  exact ⟨fun same => same.2.2, fun same => ⟨number, numberHr, same⟩⟩

theorem sameBlock_single (proper : Proper tail) (single : tail.singlehost = true)
    (mem : name ∈ tail.names) : sameBlock name other = false := by
  rw [single_names single, mem_singleton] at mem
  rw [sameBlock, decide_eq_false_iff_not, mem]
  exact fun same => same.1 (proper.single single).2

theorem sameBlock_comm (name other : Name) : sameBlock name other = sameBlock other name := by
  rw [sameBlock, sameBlock, decide_eq_decide]
  exact ⟨fun ⟨a, b, c⟩ => ⟨b, a, c.symm⟩, fun ⟨a, b, c⟩ => ⟨b, a, c.symm⟩⟩

/-! ## Pushing without merging -/

/-- No two neighbours are merged when the ranges are pushed. -/
def Unmerged (ranges : List HostRange) : Prop :=
  ranges.IsChain fun tail hr => ¬Mergeable tail hr

theorem pushRange_unmerged (slots : hl.hr = front.map some)
    (unmerged : ∀ tail ∈ front.getLast?, ¬Mergeable tail hr) :
    hl.pushRange hr = some (hl.append hr, hr) := by
  rw [HostList.pushRange, slots, getLast?_map]
  cases last : front.getLast? with
  | none => rfl
  | some tail =>
    simp only [Option.map_some]
    split_ifs with near
    · cases combined : tail.widthCombine hr with
      | none => rfl
      | some both =>
        exact absurd ⟨near.1, near.2, by rw [combined]; rfl⟩ (unmerged tail last)
    · rfl

theorem Holds.append (holds : Holds prefixes hl ranges) (fit : Fit prefixes (2 ^ 31) hr)
    (fits : (expand ranges).length + hr.names.length < 2 ^ 31) :
    Holds prefixes (hl.append hr) (ranges ++ [hr]) := by
  refine ⟨holds.toLists.append fit, ?_, by simpa using fits⟩
  rw [HostList.append, holds.nhosts, ← fit.proper.length_names,
    toInt32_of_small (by omega) (by omega)]
  simp

theorem pushSlots_unmerged (holds : Holds prefixes hl front) (admitted : Admitted prefixes block)
    (unmerged : Unmerged (front ++ block))
    (fits : (expand front).length + (expand block).length < 2 ^ 31) :
    ∃ hl', hl.pushSlots (block.map some) = some (hl', block.map some) ∧
      Holds prefixes hl' (front ++ block) := by
  induction block generalizing hl front with
  | nil => exact ⟨hl, rfl, by rwa [append_nil]⟩
  | cons hr block ih =>
    obtain ⟨fit, others⟩ := forall_mem_cons.mp admitted
    rw [expand_cons, length_append] at fits
    have apart := (isChain_append.mp unmerged).2.2
    have pushed := pushRange_unmerged holds.slots fun tail last => apart tail last hr rfl
    have whole : front ++ hr :: block = front ++ [hr] ++ block := by simp
    obtain ⟨hl', rest, holds'⟩ := ih (holds.append fit (by omega)) others (whole ▸ unmerged)
      (by simp; omega)
    refine ⟨hl', ?_, whole ▸ holds'⟩
    simp only [map_cons, HostList.pushSlots, pushed, Option.bind_some, rest, Option.map_some]

/-! ## The last block -/

/-- Two ranges give names of two blocks. -/
def Distinct (hr other : HostRange) : Prop :=
  hr.singlehost = false → other.singlehost = false →
    hr.hostPrefix.rdropWhile Char.isDigit ≠ other.hostPrefix.rdropWhile Char.isDigit

/-- The last bracketed list is a block of names, and none of its ranges merge. -/
def PopClear (ranges : List HostRange) : Prop :=
  ∀ front tail, ranges = front ++ [tail] →
    Unmerged (front.rtakeWhile tail.withinRange ++ [tail]) ∧
      ∀ hr ∈ (front.rdropWhile tail.withinRange).getLast?, Distinct tail hr

/-- The first bracketed list is a block of names, and none of its ranges merge. -/
def ShiftClear (ranges : List HostRange) : Prop :=
  ∀ first back, ranges = first :: back →
    Unmerged (first :: back.takeWhile first.withinRange) ∧
      ∀ hr ∈ (back.dropWhile first.withinRange).head?, Distinct first hr

theorem sameBlock_distinct (proper : Proper tail) (properHr : Proper hr)
    (distinct : Distinct tail hr) (mem : name ∈ tail.names) (memHr : other ∈ hr.names) :
    sameBlock name other = false := by
  rcases Bool.eq_false_or_eq_true tail.singlehost with single | ranged
  · exact sameBlock_single proper single mem
  · rcases Bool.eq_false_or_eq_true hr.singlehost with singleHr | rangedHr
    · rw [sameBlock_comm]
      exact sameBlock_single properHr singleHr memHr
    · rw [← Bool.not_eq_true, sameBlock_of_mem ranged rangedHr mem memHr]
      exact distinct ranged rangedHr

theorem last_expand (proper : ∀ hr ∈ ranges, Proper hr) (last : name ∈ (expand ranges).getLast?) :
    ∃ hr ∈ ranges.getLast?, name ∈ hr.names := by
  rcases eq_nil_or_concat ranges with rfl | ⟨front, hr, rfl⟩
  · exact nomatch last
  · rw [concat_eq_append] at *
    have nonempty := (proper hr (mem_append_right _ mem_cons_self)).names_ne_nil
    refine ⟨hr, by simp, ?_⟩
    rw [expand_append, expand_cons, expand_nil, append_nil,
      getLast?_append_of_ne_nil _ nonempty] at last
    exact mem_of_getLast? last

theorem head_expand (proper : ∀ hr ∈ ranges, Proper hr) (first : name ∈ (expand ranges).head?) :
    ∃ hr ∈ ranges.head?, name ∈ hr.names := by
  cases ranges with
  | nil => exact nomatch first
  | cons hr ranges =>
    have nonempty := (proper hr mem_cons_self).names_ne_nil
    refine ⟨hr, rfl, ?_⟩
    rw [expand_cons, head?_append_of_ne_nil _ nonempty] at first
    exact mem_of_mem_head? first

theorem sameBlock_within (apart : Apart prefixes) (admitted : Admitted prefixes block)
    (inside : tail.hostPrefix ∈ prefixes) (within : ∀ hr ∈ block, tail.withinRange hr = true)
    (mem : last ∈ tail.names) (memBlock : name ∈ expand block) : sameBlock last name = true := by
  obtain ⟨hr, isBlock, memHr⟩ := mem_flatMap.mp memBlock
  obtain ⟨same, ranged, rangedHr⟩ :=
    (withinRange_iff apart inside (admitted hr isBlock).inside).mp (within hr isBlock)
  rw [sameBlock_of_mem ranged rangedHr mem memHr, same]

theorem sameBlock_same (mem : last ∈ hr.names) (memHr : name ∈ hr.names) (differ : name ≠ last) :
    sameBlock last name = true := by
  rcases Bool.eq_false_or_eq_true hr.singlehost with single | ranged
  · rw [single_names single, mem_singleton] at mem memHr
    exact absurd (memHr.trans mem.symm) differ
  · rw [sameBlock_of_mem ranged ranged mem memHr]

theorem popBlock_expand (apart : Apart prefixes)
    (admitted : Admitted prefixes (front ++ (block ++ [tail])))
    (within : ∀ hr ∈ block, tail.withinRange hr = true)
    (distinct : ∀ hr ∈ front.getLast?, Distinct tail hr) :
    popBlock (expand (front ++ (block ++ [tail]))) = expand front := by
  simp only [Admitted, forall_mem_append, forall_mem_singleton] at admitted
  obtain ⟨fitFront, fitBlock, fit⟩ := admitted
  obtain ⟨init, last, names⟩ : ∃ init last, tail.names = init ++ [last] := by
    rcases eq_nil_or_concat tail.names with nothing | ⟨init, last, names⟩
    · exact absurd nothing fit.proper.names_ne_nil
    · exact ⟨init, last, by rw [names, concat_eq_append]⟩
  have mem : last ∈ tail.names := by
    rw [names]
    exact mem_append_right _ mem_cons_self
  have expanded : expand (front ++ (block ++ [tail])) =
      expand front ++ (expand block ++ init ++ [last]) := by
    simp [names]
  rw [expanded]
  apply popBlock_append
  · intro name isName
    rcases mem_append.mp isName with isBlock | isInit
    · exact sameBlock_within apart fitBlock fit.inside within mem isBlock
    · refine sameBlock_same mem (by rw [names]; exact mem_append_left _ isInit) ?_
      rintro rfl
      have nodup := names_nodup tail
      rw [names, nodup_append] at nodup
      exact nodup.2.2 name isInit name mem_cons_self rfl
  · intro name isLast
    obtain ⟨hr, isHr, memHr⟩ := last_expand (fun hr mem => (fitFront hr mem).proper) isLast
    exact sameBlock_distinct fit.proper (fitFront hr (mem_of_getLast? isHr)).proper
      (distinct hr isHr) mem memHr

theorem shiftBlock_expand (apart : Apart prefixes) {back : List HostRange}
    (admitted : Admitted prefixes (hr :: (block ++ back)))
    (within : ∀ other ∈ block, hr.withinRange other = true)
    (distinct : ∀ other ∈ back.head?, Distinct hr other) :
    shiftBlock (expand (hr :: (block ++ back))) = expand back := by
  simp only [Admitted, forall_mem_append, forall_mem_cons] at admitted
  obtain ⟨fit, fitBlock, fitBack⟩ := admitted
  obtain ⟨first, rest, names⟩ : ∃ first rest, hr.names = first :: rest :=
    exists_cons_of_ne_nil fit.proper.names_ne_nil
  have mem : first ∈ hr.names := by
    rw [names]
    exact mem_cons_self
  have expanded : expand (hr :: (block ++ back)) =
      first :: (rest ++ expand block ++ expand back) := by
    simp [names]
  rw [expanded]
  apply shiftBlock_append
  · intro name isName
    rcases mem_append.mp isName with isRest | isBlock
    · refine sameBlock_same mem (by rw [names]; exact mem_cons_of_mem _ isRest) ?_
      rintro rfl
      have nodup := names_nodup hr
      rw [names, nodup_cons] at nodup
      exact nodup.1 isRest
    · exact sameBlock_within apart fitBlock fit.inside within mem isBlock
  · intro name isFirst
    obtain ⟨other, isOther, memOther⟩ := head_expand (fun hr mem => (fitBack hr mem).proper) isFirst
    exact sameBlock_distinct fit.proper (fitBack other (mem_of_mem_head? isOther)).proper
      (distinct other isOther) mem memOther

/-! ## The operations -/

theorem rdropWhile_inBlock (front : List HostRange) :
    (front.map some).rdropWhile (HostList.inBlock tail) =
      (front.rdropWhile tail.withinRange).map some := by
  rw [List.rdropWhile, ← map_reverse, dropWhile_map, ← map_reverse]
  rfl

theorem rtakeWhile_inBlock (front : List HostRange) :
    (front.map some).rtakeWhile (HostList.inBlock tail) =
      (front.rtakeWhile tail.withinRange).map some := by
  rw [List.rtakeWhile, ← map_reverse, takeWhile_map, ← map_reverse]
  rfl

theorem Admitted.parts {back : List HostRange} (admitted : Admitted prefixes (front ++ back)) :
    Admitted prefixes front ∧ Admitted prefixes back :=
  forall_mem_append.mp admitted

/-- `hostlist_pop_range` removes the last block of names. -/
theorem popRange_spec (apart : Apart prefixes) (holds : Holds prefixes hl ranges)
    (clear : PopClear ranges) :
    ∃ taken hl' ranges', hl.popRange = some (taken, hl') ∧ Holds prefixes hl' ranges' ∧
      expand ranges' = popBlock (expand ranges) := by
  rcases eq_nil_or_concat ranges with rfl | ⟨before, tail, rfl⟩
  · refine ⟨none, hl, [], ?_, holds, rfl⟩
    rw [HostList.popRange, holds.slots]
    rfl
  · rw [concat_eq_append] at *
    obtain ⟨unmerged, distinct⟩ := clear before tail rfl
    have last : hl.hr.getLast? = some (some tail) := by simp [holds.slots]
    have dropped : hl.hr.dropLast = before.map some := by simp [holds.slots]
    have within : ∀ hr ∈ before.rtakeWhile tail.withinRange, tail.withinRange hr = true :=
      fun hr mem => mem_rtakeWhile_imp mem
    have whole : before.rdropWhile tail.withinRange ++ before.rtakeWhile tail.withinRange =
        before := rdropWhile_append_rtakeWhile
    rw [HostList.popRange]
    simp only [last, dropped, rdropWhile_inBlock, rtakeWhile_inBlock]
    generalize before.rdropWhile tail.withinRange = front at whole distinct
    generalize before.rtakeWhile tail.withinRange = block at whole within unmerged
    obtain rfl := whole
    rw [append_assoc] at holds ⊢
    have fits := holds.fits
    obtain ⟨admittedFront, admittedBlock⟩ := holds.admitted.parts
    rw [expand_append, length_append] at fits
    obtain ⟨hltmp, pushed, holdsTmp⟩ := pushSlots_unmerged (Holds.new prefixes) admittedBlock
      unmerged (by simpa using Nat.lt_of_le_of_lt (Nat.le_add_left _ _) fits)
    have holds' := holds.remove admittedFront (expand (block ++ [tail]))
      (by rw [expand_append front, length_append])
    refine ⟨some hltmp, _, front, ?_, holds',
      (popBlock_expand apart holds.admitted within distinct).symm⟩
    have slots : block.map some ++ [some tail] = (block ++ [tail]).map some := by simp
    rw [slots, pushed, Option.map_some, holdsTmp.nhosts, holdsTmp.slots, holds.slots]
    simp

/-- `hostlist_shift_range` removes the first block of names. -/
theorem shiftRange_spec (apart : Apart prefixes) (holds : Holds prefixes hl ranges)
    (clear : ShiftClear ranges) :
    ∃ taken hl' ranges', hl.shiftRange = some (taken, hl') ∧ Holds prefixes hl' ranges' ∧
      expand ranges' = shiftBlock (expand ranges) := by
  cases ranges with
  | nil =>
    refine ⟨none, hl, [], ?_, holds, rfl⟩
    rw [HostList.shiftRange, holds.slots]
    rfl
  | cons hr behind =>
    obtain ⟨unmerged, distinct⟩ := clear hr behind rfl
    have slots : hl.hr = some hr :: behind.map some := holds.slots
    have within : ∀ other ∈ behind.takeWhile hr.withinRange, hr.withinRange other = true :=
      fun other mem => mem_takeWhile_imp mem
    have whole : behind.takeWhile hr.withinRange ++ behind.dropWhile hr.withinRange = behind :=
      takeWhile_append_dropWhile
    have taken : (behind.map some).takeWhile (HostList.inBlock hr) =
        (behind.takeWhile hr.withinRange).map some := takeWhile_map
    have left : (behind.map some).dropWhile (HostList.inBlock hr) =
        (behind.dropWhile hr.withinRange).map some := dropWhile_map
    rw [HostList.shiftRange]
    simp only [slots, taken, left]
    generalize behind.takeWhile hr.withinRange = block at whole within unmerged
    generalize behind.dropWhile hr.withinRange = back at whole distinct
    obtain rfl := whole
    have fits := holds.fits
    have admitted : Admitted prefixes ((hr :: block) ++ back) := holds.admitted
    obtain ⟨admittedBlock, admittedBack⟩ := admitted.parts
    have expanded : expand (hr :: (block ++ back)) = expand (hr :: block) ++ expand back := by
      simp
    rw [expanded, length_append] at fits
    obtain ⟨hltmp, pushed, holdsTmp⟩ := pushSlots_unmerged (Holds.new prefixes) admittedBlock
      unmerged (by simpa using Nat.lt_of_le_of_lt (Nat.le_add_right _ _) fits)
    have holds' := holds.remove admittedBack (expand (hr :: block))
      (by rw [expanded, length_append, Nat.add_comm])
    refine ⟨some hltmp, _, back, ?_, holds',
      (shiftBlock_expand apart holds.admitted within distinct).symm⟩
    rw [map_cons] at pushed
    rw [pushed, Option.map_some, holdsTmp.nhosts, holdsTmp.slots]
    simp

end SlurmSim.Hostlist
