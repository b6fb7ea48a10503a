import SlurmSim.Hostlist.Blocks

/-!
# Histories of host lists

Host lists go through histories of operations, and a plain list of names goes through the
same operations beside each of them.
-/

namespace SlurmSim.Hostlist

open HostRange
open Option (map_some some.inj)

/-! ## Operations -/

/-- The operations on one host list. -/
inductive Op where
  | push (hosts : Name)
  | pushHost (str : Name)
  | pop
  | shift
  | popRange
  | popRangeValues
  | shiftRange
  | delete (hosts : Name)
  | deleteHost (hostname : Name)
  | deleteNth (n : Int)
  | copy

/-- An operation on the list, with the numbers that `hostlist_pop_range_values` gives. -/
def HostList.step (hl : HostList) : Op → Option (Option (Nat × Nat) × HostList)
  | .push hosts => (hl.push hosts).map fun hl => (none, hl)
  | .pushHost str => (hl.pushHost str).map fun hl => (none, hl)
  | .pop => hl.pop.map fun popped => (none, popped.2)
  | .shift => hl.shift.map fun shifted => (none, shifted.2)
  | .popRange => hl.popRange.map fun taken => (none, taken.2)
  | .popRangeValues => some hl.popRangeValues
  | .shiftRange => hl.shiftRange.map fun taken => (none, taken.2)
  | .delete hosts => (hl.delete hosts).map fun answer => (none, answer.2)
  | .deleteHost hostname => (hl.deleteHost hostname).map fun answer => (none, answer.2)
  | .deleteNth n => (hl.deleteNth n).map fun hl => (none, hl)
  | .copy => hl.copy.map fun hl => (none, hl)

/-- The hosts that a text names. -/
def hostsOf (str : Name) : List Name :=
  ((parse str).map expand).getD []

/-- The operation on a plain list of names. -/
def Op.plain (values : Option (Nat × Nat)) (names : List Name) : Op → List Name
  | .push hosts => names ++ hostsOf hosts
  | .pushHost str => names ++ [str]
  | .pop => names.dropLast
  | .shift => names.tail
  | .popRange => popBlock names
  | .popRangeValues =>
    values.elim names fun numbers => names.take (names.length - (numbers.2 - numbers.1 + 1))
  | .shiftRange => shiftBlock names
  | .delete hosts => names.diff (hostsOf hosts)
  | .deleteHost hostname => names.erase hostname
  | .deleteNth n => names.eraseIdx n.toNat
  | .copy => names

/-- What is required of a history: of the text that a list is made from, of every step, and
of lists of which one is pushed onto the other. -/
structure Guard where
  start : List HostRange → Prop
  step : HostList → Op → Prop
  join : HostList → HostList → Prop

/-- A list and the plain list of names, after a history. -/
inductive Reached (guard : Guard) : HostList → List Name → Prop where
  | create {str : Name} {ranges : List HostRange} {hl : HostList}
      (parsed : parse str = some ranges) (start : guard.start ranges)
      (created : HostList.create str = some hl) : Reached guard hl (expand ranges)
  | step {hl hl' : HostList} {names : List Name} {op : Op} {values : Option (Nat × Nat)}
      (reached : Reached guard hl names) (allowed : guard.step hl op)
      (done : hl.step op = some (values, hl')) : Reached guard hl' (op.plain values names)
  | pushList {hl hl' other other' : HostList} {names others : List Name}
      (reached : Reached guard hl names) (pushed : Reached guard other others)
      (allowed : guard.join hl other) (done : hl.pushList other = some (hl', other')) :
      Reached guard hl' (names ++ others)
  | pushed {hl hl' other other' : HostList} {names others : List Name}
      (reached : Reached guard hl names) (pushed : Reached guard other others)
      (allowed : guard.join hl other) (done : hl.pushList other = some (hl', other')) :
      Reached guard other' others

/-- The list is what it should be: the number of hosts is that of its ranges, no range is
missing or empty, and the ranges stand for the names. -/
structure Sound (hl : HostList) (names : List Name) : Prop where
  counted : hl.nhosts = ((hl.hr.map fun slot => slot.elim 0 count).sum : Nat)
  present : ∀ slot ∈ hl.hr, ∃ hr, slot = some hr ∧ hr.empty = false
  expanded : hl.hr.flatMap (fun slot => slot.elim [] HostRange.names) = names

/-! ## What the histories need -/

/-- Numbers below `2 ^ 31` in the texts of an operation. -/
def Op.Small : Op → Prop
  | .push hosts | .delete hosts =>
    ∀ ranges, parse hosts = some ranges → ∀ hr ∈ ranges, hr.hi < 2 ^ 31
  | .pushHost str => (pushedHost str).hi < 2 ^ 31
  | _ => True

/-- Every history with numbers below `2 ^ 31`. -/
def Guard.small : Guard where
  start ranges := ∀ hr ∈ ranges, hr.hi < 2 ^ 31
  step _ op := op.Small
  join _ _ := True

/-- The ranges have small numbers and prefixes of the set. -/
def Pushable (prefixes : Set Name) (ranges : List HostRange) : Prop :=
  ∀ hr ∈ ranges, hr.hi < 2 ^ 31 ∧ hr.hostPrefix ∈ prefixes

/-- What a step needs of the list before it. -/
def Op.Fine (prefixes : Set Name) (hl : HostList) : Op → Prop
  | .push hosts => ∀ ranges, parse hosts = some ranges →
      Pushable prefixes ranges ∧ hl.nhosts + (expand ranges).length < 2 ^ 31
  | .pushHost str => Pushable prefixes [pushedHost str] ∧ hl.nhosts + 1 < 2 ^ 31
  | .popRange => PopClear hl.hr.reduceOption
  | .shiftRange => ShiftClear hl.hr.reduceOption
  | .delete hosts => ∀ ranges, parse hosts = some ranges →
      Pushable prefixes ranges ∧ (expand ranges).length < 2 ^ 31 ∧
        AllFindable hl (expand ranges).reverse
  | .deleteHost hostname => Findable hl.hr.reduceOption hostname
  | .deleteNth n => 0 ≤ n ∧ n < hl.nhosts
  | _ => True

/-- Histories of steps that have what they need. -/
def Guard.fine (prefixes : Set Name) : Guard where
  start ranges := Pushable prefixes ranges ∧ (expand ranges).length < 2 ^ 31
  step hl op := op.Fine prefixes hl
  join hl other := hl.nhosts + other.nhosts < 2 ^ 31

variable {prefixes : Set Name} {hl : HostList} {ranges : List HostRange} {names : List Name}

theorem Pushable.admitted {str : Name} (pushable : Pushable prefixes ranges)
    (parsed : parse str = some ranges) : Admitted prefixes ranges := by
  intro hr mem
  obtain ⟨small, inside⟩ := pushable hr mem
  exact ⟨sane_parse parsed hr mem (by omega), inside, small⟩

theorem Holds.sound (holds : Holds prefixes hl ranges) : Sound hl (expand ranges) := by
  have total : ∀ ranges : List HostRange, (∀ hr ∈ ranges, Proper hr) →
      ((ranges.map some).map fun slot => slot.elim 0 count).sum = (expand ranges).length := by
    intro ranges proper
    induction ranges with
    | nil => rfl
    | cons hr ranges ih =>
      obtain ⟨here, rest⟩ := List.forall_mem_cons.mp proper
      rw [List.map_cons, List.map_cons, List.sum_cons, ih rest, expand_cons, List.length_append,
        here.length_names]
      rfl
  refine ⟨?_, ?_, ?_⟩
  · rw [holds.nhosts, holds.slots, total ranges holds.proper]
  · intro slot mem
    rw [holds.slots] at mem
    obtain ⟨hr, isRange, rfl⟩ := List.mem_map.mp mem
    exact ⟨hr, rfl, (holds.proper hr isRange).not_empty⟩
  · rw [holds.slots, List.flatMap_map]
    rfl

/-! ## Steps and histories -/

/-- A step that has what it needs returns, and does to the names what it does to a plain
list. -/
theorem step_spec (apart : Apart prefixes) (holds : Holds prefixes hl ranges) {op : Op}
    (fine : op.Fine prefixes hl) :
    ∃ values hl' ranges', hl.step op = some (values, hl') ∧ Holds prefixes hl' ranges' ∧
      expand ranges' = op.plain values (expand ranges) := by
  have nhosts := holds.nhosts
  cases op with
  | push hosts =>
    cases parsed : parse hosts with
    | none =>
      refine ⟨none, hl, ranges, ?_, holds, ?_⟩
      · rw [HostList.step, push_of_error parsed, map_some]
      · rw [Op.plain, hostsOf, parsed]
        exact (List.append_nil _).symm
    | some pushed =>
      obtain ⟨pushable, fits⟩ := fine pushed parsed
      obtain ⟨hl', ranges', done, holds', names⟩ :=
        push_spec apart holds parsed (pushable.admitted parsed) (by omega)
      refine ⟨none, hl', ranges', ?_, holds', ?_⟩
      · rw [HostList.step, done, map_some]
      · rw [names, Op.plain, hostsOf, parsed]
        rfl
  | pushHost str =>
    obtain ⟨pushable, fits⟩ := fine
    obtain ⟨small, mem⟩ := pushable _ List.mem_cons_self
    have admitted : Admitted prefixes [pushedHost str] :=
      List.forall_mem_singleton.mpr ⟨sane_pushedHost str (by omega), mem, small⟩
    obtain ⟨hl', ranges', done, holds', names⟩ := pushHost_spec apart holds admitted (by omega)
    exact ⟨none, hl', ranges', by rw [HostList.step, done, map_some], holds', names⟩
  | pop =>
    by_cases nothing : expand ranges = []
    · refine ⟨none, hl, ranges, ?_, holds, by rw [Op.plain, nothing]; rfl⟩
      rw [HostList.step, pop_nothing holds nothing, map_some]
    · obtain ⟨name, hl', ranges', done, holds', names⟩ := pop_spec holds nothing
      refine ⟨none, hl', ranges', ?_, holds', ?_⟩
      · rw [HostList.step, done, map_some]
      · rw [Op.plain, names, List.dropLast_concat]
  | shift =>
    by_cases nothing : expand ranges = []
    · refine ⟨none, hl, ranges, ?_, holds, by rw [Op.plain, nothing]; rfl⟩
      rw [HostList.step, shift_nothing holds nothing, map_some]
    · obtain ⟨name, hl', ranges', done, holds', names⟩ := shift_spec holds nothing
      refine ⟨none, hl', ranges', ?_, holds', ?_⟩
      · rw [HostList.step, done, map_some]
      · rw [Op.plain, names, List.tail_cons]
  | popRange =>
    rw [Op.Fine, holds.reduceOption] at fine
    obtain ⟨taken, hl', ranges', done, holds', names⟩ := popRange_spec apart holds fine
    exact ⟨none, hl', ranges', by rw [HostList.step, done, map_some], holds', names⟩
  | popRangeValues =>
    by_cases nothing : expand ranges = []
    · refine ⟨none, hl, ranges, ?_, holds, rfl⟩
      rw [HostList.step, popRangeValues_nothing holds nothing]
    · obtain ⟨lo, hi, hl', ranges', removed, done, holds', names, length⟩ :=
        popRangeValues_spec holds nothing
      refine ⟨some (lo, hi), hl', ranges', by rw [HostList.step, done], holds', ?_⟩
      simp only [Op.plain, Option.elim_some]
      rw [← length, names, List.length_append, Nat.add_sub_cancel, List.take_left]
  | shiftRange =>
    rw [Op.Fine, holds.reduceOption] at fine
    obtain ⟨taken, hl', ranges', done, holds', names⟩ := shiftRange_spec apart holds fine
    exact ⟨none, hl', ranges', by rw [HostList.step, done, map_some], holds', names⟩
  | delete hosts =>
    cases parsed : parse hosts with
    | none =>
      refine ⟨none, hl, ranges, ?_, holds, ?_⟩
      · rw [HostList.step, delete_of_error parsed, map_some]
      · rw [Op.plain, hostsOf, parsed]
        rfl
    | some deleted =>
      obtain ⟨pushable, fits, findable⟩ := fine deleted parsed
      obtain ⟨answer, hl', ranges', done, holds', names⟩ :=
        delete_spec apart holds parsed (pushable.admitted parsed) fits findable
      refine ⟨none, hl', ranges', ?_, holds', ?_⟩
      · rw [HostList.step, done, map_some]
      · rw [names, Op.plain, hostsOf, parsed]
        rfl
  | deleteHost hostname =>
    rw [Op.Fine, holds.reduceOption] at fine
    obtain ⟨answer, hl', ranges', done, holds', names⟩ := deleteHost_spec holds fine
    exact ⟨none, hl', ranges', by rw [HostList.step, done, map_some], holds', names⟩
  | deleteNth n =>
    obtain ⟨nonneg, mem⟩ := fine
    obtain ⟨m, rfl⟩ := Int.eq_ofNat_of_zero_le nonneg
    obtain ⟨hl', ranges', done, holds', names⟩ :=
      deleteNth_spec holds (show m < (expand ranges).length by omega)
    exact ⟨none, hl', ranges', by rw [HostList.step, done, map_some], holds', names⟩
  | copy =>
    refine ⟨none, hl, ranges, ?_, holds, rfl⟩
    rw [HostList.step, copy_spec holds, map_some]

theorem Reached.holds (apart : Apart prefixes) (reached : Reached (Guard.fine prefixes) hl names) :
    ∃ ranges, Holds prefixes hl ranges ∧ expand ranges = names := by
  induction reached with
  | create parsed start created =>
    obtain ⟨hl, ranges', created', holds, names⟩ :=
      create_spec apart parsed (start.1.admitted parsed) start.2
    obtain rfl := some.inj (created'.symm.trans created)
    exact ⟨ranges', holds, names⟩
  | step _ allowed done ih =>
    obtain ⟨ranges, holds, rfl⟩ := ih
    obtain ⟨values, hl', ranges', done', holds', names⟩ := step_spec apart holds allowed
    obtain ⟨rfl, rfl⟩ := Prod.mk.inj (some.inj (done'.symm.trans done))
    exact ⟨ranges', holds', names⟩
  | pushList _ _ allowed done ih ihOther =>
    obtain ⟨ranges, holds, rfl⟩ := ih
    obtain ⟨others, holdsOther, rfl⟩ := ihOther
    simp only [Guard.fine, holds.nhosts, holdsOther.nhosts] at allowed
    obtain ⟨hl', other', ranges', others', done', holds', names, -, -⟩ :=
      pushList_spec apart holds holdsOther (by omega)
    obtain ⟨rfl, rfl⟩ := Prod.mk.inj (some.inj (done'.symm.trans done))
    exact ⟨ranges', holds', names⟩
  | pushed _ _ allowed done ih ihOther =>
    obtain ⟨ranges, holds, rfl⟩ := ih
    obtain ⟨others, holdsOther, rfl⟩ := ihOther
    simp only [Guard.fine, holds.nhosts, holdsOther.nhosts] at allowed
    obtain ⟨hl', other', ranges', others', done', -, -, holds', names⟩ :=
      pushList_spec apart holds holdsOther (by omega)
    obtain ⟨rfl, rfl⟩ := Prod.mk.inj (some.inj (done'.symm.trans done))
    exact ⟨others', holds', names⟩

/-- After every history whose steps have what they need the list stands for the plain list of
names, and every further step of this kind returns. -/
theorem histories_refine_names (apart : Apart prefixes)
    (reached : Reached (Guard.fine prefixes) hl names) :
    Sound hl names ∧ (∀ op, (Guard.fine prefixes).step hl op → (hl.step op).isSome) ∧
      ∀ other others, Reached (Guard.fine prefixes) other others →
        (Guard.fine prefixes).join hl other → (hl.pushList other).isSome := by
  obtain ⟨ranges, holds, rfl⟩ := reached.holds apart
  refine ⟨holds.sound, ?_, ?_⟩
  · intro op fine
    obtain ⟨values, hl', ranges', done, -⟩ := step_spec apart holds fine
    rw [done, Option.isSome_some]
  · intro other others reachedOther allowed
    obtain ⟨ranges', holdsOther, rfl⟩ := reachedOther.holds apart
    have fits : hl.nhosts + other.nhosts < 2 ^ 31 := allowed
    rw [holds.nhosts, holdsOther.nhosts] at fits
    obtain ⟨hl', other', ranges', others', done, -⟩ :=
      pushList_spec apart holds holdsOther (by omega)
    rw [done, Option.isSome_some]

theorem findable_of_unshadowed {name : Name}
    (unshadowed : ∀ hr ∈ ranges, endsDigit hr.hostPrefix = false) : Findable ranges name := by
  intro number before hr after whole out
  have mem : hr ∈ ranges := by rw [whole]; simp
  refine ⟨?_, ?_⟩
  · rintro ⟨-, rfl, -⟩
    have ends := unshadowed hr mem
    rw [Ne, List.rtakeWhile_eq_nil_iff, not_forall] at number
    obtain ⟨nonempty, digit⟩ := number
    rw [endsDigit, List.getLast?_eq_some_getLast nonempty] at ends
    exact digit (by rw [show Char.isDigit _ = false from ends]; exact Bool.false_ne_true)
  · intro isMem other isOther shadows
    have isRange : other ∈ ranges := by rw [whole]; exact List.mem_append_left _ isOther
    exact absurd (shadows.2.1.symm.trans (unshadowed other isRange)).symm Bool.false_ne_true

/-- The text `a[1-3],b` is made a list, and the host `a2` is deleted. -/
theorem histories_refine_names_delete :
    Reached (Guard.fine {p | Spaceless p})
      ⟨[some (create ['a'] 1 1 1), some (create ['a'] 3 3 1), some (createSingle ['b'])], 3⟩
      [['a', '1'], ['a', '3'], ['b']] ∧
    Sound ⟨[some (create ['a'] 1 1 1), some (create ['a'] 3 3 1), some (createSingle ['b'])], 3⟩
      [['a', '1'], ['a', '3'], ['b']] := by
  have parsed : parse "a[1-3],b".toList = some [create ['a'] 1 3 1, createSingle ['b']] := by
    decide +kernel
  have made : HostList.create "a[1-3],b".toList =
      some ⟨[some (create ['a'] 1 3 1), some (createSingle ['b'])], 4⟩ := by
    decide +kernel
  have start : (Guard.fine {p | Spaceless p}).start [create ['a'] 1 3 1, createSingle ['b']] := by
    have letters : Spaceless ['a'] ∧ Spaceless ['b'] := by decide
    refine ⟨?_, by decide⟩
    exact List.forall_mem_cons.mpr ⟨⟨by decide, letters.1⟩,
      List.forall_mem_singleton.mpr ⟨by decide, letters.2⟩⟩
  have deleted : HostList.step ⟨[some (create ['a'] 1 3 1), some (createSingle ['b'])], 4⟩
      (.deleteHost ['a', '2']) = some (none,
        ⟨[some (create ['a'] 1 1 1), some (create ['a'] 3 3 1), some (createSingle ['b'])], 3⟩) := by
    decide +kernel
  have allowed : (Guard.fine {p | Spaceless p}).step
      ⟨[some (create ['a'] 1 3 1), some (createSingle ['b'])], 4⟩ (.deleteHost ['a', '2']) :=
    findable_of_unshadowed (by decide)
  have reached := Reached.step (Reached.create parsed start made) allowed deleted
  exact ⟨reached, (histories_refine_names spaceless_apart reached).1⟩

/-- The text `a[1-2],a5,a[3-4]` is made a list, `a5` is deleted, and the last bracketed list is
popped: a slot below `nranges` is left without a range. -/
theorem histories_refine_names_fails :
    ¬∀ hl names, Reached Guard.small hl names → Sound hl names := by
  intro all
  have parsed : parse "a[1-2],a5,a[3-4]".toList =
      some [create ['a'] 1 2 1, create ['a'] 5 5 1, create ['a'] 3 4 1] := by
    decide +kernel
  have made : HostList.create "a[1-2],a5,a[3-4]".toList = some
      ⟨[some (create ['a'] 1 2 1), some (create ['a'] 5 5 1), some (create ['a'] 3 4 1)], 5⟩ := by
    decide +kernel
  have deleted : HostList.step
      ⟨[some (create ['a'] 1 2 1), some (create ['a'] 5 5 1), some (create ['a'] 3 4 1)], 5⟩
      (.deleteHost ['a', '5']) = some (none,
        ⟨[some (create ['a'] 1 2 1), some (create ['a'] 3 4 1)], 4⟩) := by
    decide +kernel
  have popped : HostList.step ⟨[some (create ['a'] 1 2 1), some (create ['a'] 3 4 1)], 4⟩
      .popRange = some (none, ⟨[none], 0⟩) := by
    decide +kernel
  have small : Guard.small.start [create ['a'] 1 2 1, create ['a'] 5 5 1, create ['a'] 3 4 1] := by
    simp [Guard.small, create]
  have allowed : ∀ hl hostname, Guard.small.step hl (.deleteHost hostname) := fun _ _ => trivial
  have allowedPop : ∀ hl, Guard.small.step hl .popRange := fun _ => trivial
  have reached := Reached.step (Reached.step (Reached.create parsed small made) (allowed _ _) deleted)
    (allowedPop _) popped
  obtain ⟨hr, present, -⟩ := (all _ _ reached).present none List.mem_cons_self
  cases present

end SlurmSim.Hostlist
