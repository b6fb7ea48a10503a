import SlurmSim.Hostlist.Ops

/-!
# Host lists as lists of names

Every operation on the ranges of a list is an operation on the names that the ranges stand
for. Prefixes are taken from a set in which only equal ones compare as equal; texts
without white space are such a set.
-/

namespace SlurmSim.Hostlist

open SlurmSim.Common.Bitmap HostRange List
open Option (map_some)

/-- The hosts of ranges. -/
def expand (ranges : List HostRange) : List Name :=
  ranges.flatMap names

@[simp] theorem expand_nil : expand [] = [] := rfl

@[simp] theorem expand_cons (hr : HostRange) (ranges : List HostRange) :
    expand (hr :: ranges) = hr.names ++ expand ranges := rfl

@[simp] theorem expand_append (ranges others : List HostRange) :
    expand (ranges ++ others) = expand ranges ++ expand others :=
  flatMap_append

/-- Only equal prefixes compare as equal. -/
def Apart (prefixes : Set Name) : Prop :=
  ∀ p ∈ prefixes, ∀ q ∈ prefixes, strnatcmp p q = 0 → p = q

theorem spaceless_apart : Apart {p | Spaceless p} :=
  fun _ left _ right => (strnatcmp_eq_zero left right).mp

theorem toInt32_of_small {n : Int} (nonneg : 0 ≤ n) (small : n < 2 ^ 31) : toInt32 n = n := by
  rw [toInt32]
  omega

theorem strnatcmp_of_dropWhile {a b : Name} (same : a.dropWhile isSpace = b.dropWhile isSpace) :
    strnatcmp a b = 0 := by
  induction a generalizing b with
  | nil => rw [strnatcmp, ← same, dropWhile_nil, if_pos rfl]
  | cons c a ih =>
    rw [strnatcmp]
    rw [dropWhile_cons] at same
    split_ifs at same ⊢ with space
    · exact ih same
    · rw [← same]
      simp [compareDigits_self, ih rfl]

/-- A range with another width for the same names. -/
structure Widened (hr other : HostRange) : Prop where
  names : other.names = hr.names
  hostPrefix : other.hostPrefix = hr.hostPrefix
  lo : other.lo = hr.lo
  hi : other.hi = hr.hi
  singlehost : other.singlehost = hr.singlehost
  single : hr.singlehost = true → other = hr

theorem Widened.refl (hr : HostRange) : Widened hr hr :=
  ⟨rfl, rfl, rfl, rfl, rfl, fun _ => rfl⟩

theorem Widened.proper {hr other : HostRange} (widened : Widened hr other) (proper : Proper hr) :
    Proper other := by
  refine ⟨?_, ?_, ?_⟩
  · intro single
    rw [widened.singlehost] at single
    rw [widened.single single]
    exact proper.single single
  · intro ranged
    rw [widened.lo, widened.hi]
    exact proper.ordered (widened.singlehost ▸ ranged)
  · rw [widened.hi]
    exact proper.bounded

theorem widened_width {hr : HostRange} (ranged : hr.singlehost = false) {width : Nat}
    (same : ∀ len, numbered hr.hostPrefix width hr.lo len =
      numbered hr.hostPrefix hr.width hr.lo len) : Widened hr { hr with width := width } := by
  refine ⟨?_, rfl, rfl, rfl, rfl, fun single => absurd (ranged ▸ single) Bool.false_ne_true⟩
  rw [names, names, ranged, if_neg Bool.false_ne_true, if_neg Bool.false_ne_true, same]

theorem expand_widened {ranges others : List HostRange} (widened : List.Forall₂ Widened ranges others) :
    expand others = expand ranges := by
  induction widened with
  | nil => rfl
  | cons here _ ih => rw [expand_cons, expand_cons, here.names, ih]

variable {prefixes : Set Name} {hl : HostList} {ranges : List HostRange} {hr tail : HostRange}

theorem single_names (single : hr.singlehost = true) : hr.names = [hr.hostPrefix] := by
  rw [names, if_pos single]

theorem ranged_names (ranged : hr.singlehost = false) :
    hr.names = numbered hr.hostPrefix hr.width hr.lo (hr.hi + 1 - hr.lo) := by
  rw [names, if_neg (by simp [ranged])]

theorem sub_names (ranged : hr.singlehost = false) {lo hi : Nat} :
    names { hr with lo := lo, hi := hi } = numbered hr.hostPrefix hr.width lo (hi + 1 - lo) :=
  ranged_names ranged

theorem prefixCmp_eq_zero (apart : Apart prefixes) (left : tail.hostPrefix ∈ prefixes)
    (right : hr.hostPrefix ∈ prefixes) : tail.prefixCmp hr = 0 ↔
      tail.hostPrefix = hr.hostPrefix ∧ tail.singlehost = hr.singlehost := by
  rw [prefixCmp]
  constructor
  · intro same
    split_ifs at same with natural
    · refine ⟨apart _ left _ right natural, ?_⟩
      revert same
      cases tail.singlehost <;> cases hr.singlehost <;> decide
    · exact absurd same natural
  · rintro ⟨same, single⟩
    have natural : strnatcmp tail.hostPrefix hr.hostPrefix = 0 :=
      strnatcmp_of_dropWhile (congrArg _ same)
    rw [if_pos natural, single, sub_self]

/-- A proper range with a prefix of the set and numbers below a bound. -/
structure Fit (prefixes : Set Name) (bound : Nat) (hr : HostRange) : Prop where
  proper : Proper hr
  inside : hr.hostPrefix ∈ prefixes
  small : hr.hi < bound

/-- The slots of the list are the ranges, and all of them fit. -/
structure Lists (prefixes : Set Name) (bound : Nat) (hl : HostList) (ranges : List HostRange) :
    Prop where
  slots : hl.hr = ranges.map some
  fit : ∀ hr ∈ ranges, Fit prefixes bound hr

/-- The ranges may be in a list whose names are looked for. -/
abbrev Admitted (prefixes : Set Name) (ranges : List HostRange) : Prop :=
  ∀ hr ∈ ranges, Fit prefixes (2 ^ 31) hr

/-- The list holds the ranges and counts their hosts. -/
structure Holds (prefixes : Set Name) (hl : HostList) (ranges : List HostRange) : Prop extends
    Lists prefixes (2 ^ 31) hl ranges where
  nhosts : hl.nhosts = (expand ranges).length
  fits : (expand ranges).length < 2 ^ 31

theorem Lists.new (prefixes : Set Name) (bound : Nat) : Lists prefixes bound HostList.new [] :=
  ⟨rfl, fun _ mem => absurd mem not_mem_nil⟩

theorem Holds.new (prefixes : Set Name) : Holds prefixes HostList.new [] :=
  ⟨Lists.new prefixes (2 ^ 31), rfl, Nat.two_pow_pos 31⟩

theorem Holds.admitted (holds : Holds prefixes hl ranges) : Admitted prefixes ranges :=
  holds.fit

theorem Holds.proper (holds : Holds prefixes hl ranges) : ∀ hr ∈ ranges, Proper hr :=
  fun hr mem => (holds.fit hr mem).proper

/-! ## Pushing -/

/-- `hostlist_push_range` merges the second range into the first. -/
def Mergeable (tail hr : HostRange) : Prop :=
  tail.hi = ulongSub hr.lo 1 ∧ tail.prefixCmp hr = 0 ∧ (tail.widthCombine hr).isSome

theorem Lists.append {bound : Nat} (lists : Lists prefixes bound hl ranges)
    (fit : Fit prefixes bound hr) : Lists prefixes bound (hl.append hr) (ranges ++ [hr]) := by
  refine ⟨?_, forall_mem_append.mpr ⟨lists.fit, forall_mem_singleton.mpr fit⟩⟩
  rw [HostList.append, lists.slots, fit.proper.copy, map_append, map_singleton]

theorem names_merge {width : Nat} (ordered : tail.lo ≤ tail.hi) (next : hr.lo = tail.hi + 1)
    (others : hr.lo ≤ hr.hi) (ranged : tail.singlehost = false) (ranges : hr.singlehost = false)
    (same : tail.hostPrefix = hr.hostPrefix)
    (left : ∀ len, numbered tail.hostPrefix width tail.lo len =
      numbered tail.hostPrefix tail.width tail.lo len)
    (right : ∀ len, numbered hr.hostPrefix width hr.lo len =
      numbered hr.hostPrefix hr.width hr.lo len) :
    names { tail with width := width, hi := hr.hi } = tail.names ++ hr.names := by
  have length : hr.hi + 1 - tail.lo = (tail.hi + 1 - tail.lo) + (hr.hi + 1 - hr.lo) := by omega
  have start : tail.lo + (tail.hi + 1 - tail.lo) = hr.lo := by omega
  simp only [names, ranged, ranges, if_neg Bool.false_ne_true]
  rw [length, numbered_append, start, left, same, right]

theorem mergeable_facts (apart : Apart prefixes) (proper : Proper tail) (others : Proper hr)
    (left : tail.hostPrefix ∈ prefixes) (right : hr.hostPrefix ∈ prefixes)
    (mergeable : Mergeable tail hr) :
    tail.singlehost = false ∧ hr.singlehost = false ∧ tail.hostPrefix = hr.hostPrefix ∧
      hr.lo = tail.hi + 1 := by
  obtain ⟨next, cmp, -⟩ := mergeable
  obtain ⟨same, single⟩ := (prefixCmp_eq_zero apart left right).mp cmp
  have bounded := proper.bounded
  have small := others.bounded
  have ordered : hr.lo ≤ hr.hi := by
    cases isSingle : hr.singlehost with
    | true =>
      rw [(others.single isSingle).1]
      exact le_rfl
    | false => exact others.ordered isSingle
  rw [ulongSub] at next
  have pos : 0 < hr.lo := by
    by_contra zero
    rw [Nat.eq_zero_of_not_pos zero] at next
    omega
  have ranged : hr.singlehost = false := by
    cases isSingle : hr.singlehost with
    | true =>
      rw [(others.single isSingle).1] at pos
      exact absurd pos (lt_irrefl 0)
    | false => rfl
  exact ⟨single.trans ranged, ranged, same, by omega⟩

variable {front pushed others : List HostRange} {bound : Nat} {other : HostRange} {str : Name}

theorem expand_concat {merged : HostRange} (names : merged.names = tail.names ++ hr.names) :
    expand (front ++ [merged]) = expand (front ++ [tail]) ++ hr.names := by
  simp [names]

theorem Lists.replaceLast {merged : HostRange} {nhosts : Int}
    (lists : Lists prefixes bound hl (front ++ [tail])) (fit : Fit prefixes bound merged) :
    Lists prefixes bound ⟨hl.hr.dropLast ++ [some merged], nhosts⟩ (front ++ [merged]) := by
  have fitFront : ∀ hr ∈ front, Fit prefixes bound hr := fun hr mem =>
    lists.fit hr (mem_append_left _ mem)
  refine ⟨?_, forall_mem_append.mpr ⟨fitFront, forall_mem_singleton.mpr fit⟩⟩
  simp [lists.slots]

theorem pushRange_lists (apart : Apart prefixes) (lists : Lists prefixes bound hl ranges)
    (fit : Fit prefixes bound hr) :
    ∃ hl' hr' ranges', hl.pushRange hr = some (hl', hr') ∧ Lists prefixes bound hl' ranges' ∧
      expand ranges' = expand ranges ++ hr.names ∧ Widened hr hr' ∧
      hl'.nhosts = toInt32 (hl.nhosts + hr.names.length) := by
  have proper := fit.proper
  have appended : ∃ hl' hr' ranges', some (hl.append hr, hr) = some (hl', hr') ∧
      Lists prefixes bound hl' ranges' ∧ expand ranges' = expand ranges ++ hr.names ∧
      Widened hr hr' ∧ hl'.nhosts = toInt32 (hl.nhosts + hr.names.length) :=
    ⟨_, _, _, rfl, lists.append fit, by simp, Widened.refl hr, by rw [proper.length_names]; rfl⟩
  rw [HostList.pushRange]
  rcases eq_nil_or_concat ranges with rfl | ⟨front, tail, rfl⟩
  · rw [lists.slots]
    exact appended
  · have last : hl.hr.getLast? = some (some tail) := by
      rw [lists.slots, concat_eq_append, map_append, map_singleton,
        getLast?_append_of_ne_nil _ (cons_ne_nil _ _), getLast?_singleton]
    rw [concat_eq_append] at *
    simp only [last]
    split_ifs with near
    · cases combined : tail.widthCombine hr with
      | none => exact appended
      | some both =>
        obtain ⟨tail', hr'⟩ := both
        have fitTail := lists.fit tail (mem_append_right _ mem_cons_self)
        obtain ⟨ranged, rangedHr, same, next⟩ := mergeable_facts apart fitTail.proper proper
          fitTail.inside fit.inside ⟨near.1, near.2, by rw [combined]; rfl⟩
        obtain ⟨width, rfl, rfl, left, right⟩ := widthCombine_spec combined
        have ordered := proper.ordered rangedHr
        have orderedTail := fitTail.proper.ordered ranged
        have merged := names_merge orderedTail next ordered ranged rangedHr same left right
        have properMerged : Proper { tail with width := width, hi := hr.hi } :=
          ⟨fun single => absurd (ranged ▸ single) Bool.false_ne_true,
            fun _ => by simp only; omega, proper.bounded⟩
        refine ⟨_, _, _, rfl, lists.replaceLast ⟨properMerged, fitTail.inside, fit.small⟩,
          by rw [expand_concat merged], widened_width rangedHr right, ?_⟩
        rw [proper.length_names]
        rfl
    · exact appended

theorem pushRange_spec (apart : Apart prefixes) (holds : Holds prefixes hl ranges)
    (fit : Fit prefixes (2 ^ 31) hr) (fits : (expand ranges).length + hr.names.length < 2 ^ 31) :
    ∃ hl' hr' ranges', hl.pushRange hr = some (hl', hr') ∧ Holds prefixes hl' ranges' ∧
      expand ranges' = expand ranges ++ hr.names ∧ Widened hr hr' := by
  obtain ⟨hl', hr', ranges', done, lists, names, widened, nhosts⟩ :=
    pushRange_lists apart holds.toLists fit
  refine ⟨hl', hr', ranges', done, ⟨lists, ?_, ?_⟩, names, widened⟩
  · rw [nhosts, holds.nhosts, names, length_append, toInt32_of_small (by omega) (by omega)]
    rfl
  · rwa [names, length_append]

theorem toInt32_add (n m : Int) : toInt32 (toInt32 n + m) = toInt32 (n + m) := by
  rw [toInt32, toInt32, toInt32]
  omega

theorem toInt32_idem (n : Int) : toInt32 (toInt32 n) = toInt32 n := by
  rw [toInt32, toInt32]
  omega

theorem pushSlots_lists (apart : Apart prefixes) (lists : Lists prefixes bound hl ranges)
    (fit : ∀ hr ∈ pushed, Fit prefixes bound hr) (wrapped : toInt32 hl.nhosts = hl.nhosts) :
    ∃ hl' pushed' ranges', hl.pushSlots (pushed.map some) = some (hl', pushed'.map some) ∧
      Lists prefixes bound hl' ranges' ∧ expand ranges' = expand ranges ++ expand pushed ∧
      List.Forall₂ Widened pushed pushed' ∧
      hl'.nhosts = toInt32 (hl.nhosts + (expand pushed).length) := by
  induction pushed generalizing hl ranges with
  | nil => exact ⟨hl, [], ranges, rfl, lists, by simp, List.Forall₂.nil, by simp [wrapped]⟩
  | cons hr pushed ih =>
    obtain ⟨here, others⟩ := forall_mem_cons.mp fit
    obtain ⟨hl₁, hr', ranges₁, first, lists₁, names₁, widened, nhosts₁⟩ :=
      pushRange_lists apart lists here
    obtain ⟨hl₂, pushed', ranges₂, rest, lists₂, names₂, widenedRest, nhosts₂⟩ :=
      ih lists₁ others (by rw [nhosts₁, toInt32_idem])
    refine ⟨hl₂, hr' :: pushed', ranges₂, ?_, lists₂, ?_, List.Forall₂.cons widened widenedRest, ?_⟩
    · simp only [map_cons, HostList.pushSlots, first, Option.bind_some, rest, map_some]
    · rw [names₂, names₁, expand_cons, append_assoc]
    · rw [nhosts₂, nhosts₁, toInt32_add, expand_cons, length_append, Nat.cast_add, add_assoc]

theorem Holds.wrapped (holds : Holds prefixes hl ranges) : toInt32 hl.nhosts = hl.nhosts := by
  have fits := holds.fits
  rw [holds.nhosts, toInt32_of_small (by omega) (by omega)]

theorem pushSlots_spec (apart : Apart prefixes) (holds : Holds prefixes hl ranges)
    (admitted : Admitted prefixes pushed)
    (fits : (expand ranges).length + (expand pushed).length < 2 ^ 31) :
    ∃ hl' pushed' ranges', hl.pushSlots (pushed.map some) = some (hl', pushed'.map some) ∧
      Holds prefixes hl' ranges' ∧ expand ranges' = expand ranges ++ expand pushed ∧
      List.Forall₂ Widened pushed pushed' := by
  obtain ⟨hl', pushed', ranges', done, lists, names, widened, nhosts⟩ :=
    pushSlots_lists apart holds.toLists admitted holds.wrapped
  refine ⟨hl', pushed', ranges', done, ⟨lists, ?_, ?_⟩, names, widened⟩
  · rw [nhosts, holds.nhosts, names, length_append, toInt32_of_small (by omega) (by omega)]
    rfl
  · rwa [names, length_append]

theorem Widened.fit (widened : Widened hr other) (fit : Fit prefixes bound hr) :
    Fit prefixes bound other :=
  ⟨widened.proper fit.proper, by rw [widened.hostPrefix]; exact fit.inside,
    by rw [widened.hi]; exact fit.small⟩

theorem widened_admitted (widened : List.Forall₂ Widened ranges others)
    (admitted : Admitted prefixes ranges) : Admitted prefixes others := by
  induction widened with
  | nil => exact admitted
  | cons here _ ih =>
    obtain ⟨fit, rest⟩ := forall_mem_cons.mp admitted
    exact forall_mem_cons.mpr ⟨here.fit fit, ih rest⟩

theorem Holds.widen (holds : Holds prefixes hl ranges)
    (widened : List.Forall₂ Widened ranges others) :
    Holds prefixes ⟨others.map some, hl.nhosts⟩ others := by
  refine ⟨⟨rfl, widened_admitted widened holds.admitted⟩, ?_, ?_⟩
  · rw [expand_widened widened]
    exact holds.nhosts
  · rw [expand_widened widened]
    exact holds.fits

theorem pushList_spec (apart : Apart prefixes) {other : HostList}
    (holds : Holds prefixes hl ranges) (pushed : Holds prefixes other others)
    (fits : (expand ranges).length + (expand others).length < 2 ^ 31) :
    ∃ hl' other' ranges' others', hl.pushList other = some (hl', other') ∧
      Holds prefixes hl' ranges' ∧ expand ranges' = expand ranges ++ expand others ∧
      Holds prefixes other' others' ∧ expand others' = expand others := by
  obtain ⟨hl', others', ranges', done, holds', names, widened⟩ :=
    pushSlots_spec apart holds pushed.admitted fits
  refine ⟨hl', ⟨others'.map some, other.nhosts⟩, ranges', others', ?_, holds', names,
    pushed.widen widened, expand_widened widened⟩
  rw [HostList.pushList, pushed.slots, done, map_some]

theorem create_spec (apart : Apart prefixes) (parsed : parse str = some ranges)
    (admitted : Admitted prefixes ranges) (fits : (expand ranges).length < 2 ^ 31) :
    ∃ hl ranges', HostList.create str = some hl ∧ Holds prefixes hl ranges' ∧
      expand ranges' = expand ranges := by
  obtain ⟨hl, pushed', ranges', done, holds, names, -⟩ :=
    pushSlots_spec apart (Holds.new prefixes) admitted (by simpa using fits)
  refine ⟨hl, ranges', ?_, holds, names⟩
  rw [HostList.create, parsed, Option.bind_some, done, map_some]

theorem push_spec (apart : Apart prefixes) {hosts : Name} (holds : Holds prefixes hl ranges)
    (parsed : parse hosts = some pushed) (admitted : Admitted prefixes pushed)
    (fits : (expand ranges).length + (expand pushed).length < 2 ^ 31) :
    ∃ hl' ranges', hl.push hosts = some hl' ∧ Holds prefixes hl' ranges' ∧
      expand ranges' = expand ranges ++ expand pushed := by
  obtain ⟨added, others, created, holdsAdded, namesAdded⟩ :=
    create_spec apart parsed admitted (by omega)
  obtain ⟨hl', other', ranges', others', done, holds', names, -, -⟩ :=
    pushList_spec apart holds holdsAdded (by rw [namesAdded]; exact fits)
  refine ⟨hl', ranges', ?_, holds', by rw [names, namesAdded]⟩
  simp only [HostList.push, created, done, map_some]

theorem push_of_error {hosts : Name} (error : parse hosts = none) : hl.push hosts = some hl := by
  rw [HostList.push, HostList.create, error, Option.bind_none]

theorem names_pushedHost (bounded : (pushedHost str).hi < 2 ^ 64 - 1) :
    (pushedHost str).names = [str] := by
  by_cases plain : str.rtakeWhile Char.isDigit = []
  · rw [pushedHost, hostnameCreate_plain plain]
    rfl
  · have split := hostnameCreate_splitAt plain
    have nonempty : str.drop (hostPrefixEnd str) ≠ [] := by rwa [drop_hostPrefixEnd]
    simp only [pushedHost, split.suffix, split.num, split.hostPrefix] at bounded ⊢
    have value : min (textValue (str.drop (hostPrefixEnd str))) (2 ^ 64 - 1) =
        textValue (str.drop (hostPrefixEnd str)) := by
      simp only [HostRange.create] at bounded
      omega
    rw [value]
    rw [ranged_names rfl]
    simp only [HostRange.create]
    rw [Nat.add_sub_cancel_left, numbered_one, numText_textValue split.digits nonempty,
      take_append_drop]

theorem pushHost_spec (apart : Apart prefixes) (holds : Holds prefixes hl ranges)
    (admitted : Admitted prefixes [pushedHost str]) (fits : (expand ranges).length + 1 < 2 ^ 31) :
    ∃ hl' ranges', hl.pushHost str = some hl' ∧ Holds prefixes hl' ranges' ∧
      expand ranges' = expand ranges ++ [str] := by
  have fit := forall_mem_singleton.mp admitted
  have names := names_pushedHost fit.proper.bounded
  obtain ⟨hl', hr', ranges', done, holds', names', -⟩ :=
    pushRange_spec apart holds fit (by rw [names]; exact fits)
  exact ⟨hl', ranges', by rw [HostList.pushHost, done, map_some], holds', by rw [names', names]⟩

theorem copy_spec (holds : Holds prefixes hl ranges) : hl.copy = some hl := by
  have copied : ∀ ranges : List HostRange, (∀ hr ∈ ranges, Proper hr) →
      (ranges.map some).mapM (fun slot : Option HostRange => slot.map fun hr => some hr.copy) =
        some (ranges.map some) := by
    intro ranges proper
    induction ranges with
    | nil => rfl
    | cons hr ranges ih =>
      obtain ⟨here, rest⟩ := forall_mem_cons.mp proper
      rw [map_cons, mapM_cons, ih rest, map_some, here.copy]
      rfl
  rw [HostList.copy, holds.slots, copied ranges holds.proper, map_some, ← holds.slots]

/-! ## Removing the first and the last host -/

/-- The range, unless it is empty. -/
def kept (hr : HostRange) : List HostRange :=
  if hr.empty then [] else [hr]

theorem kept_slots (hr : HostRange) : (if hr.empty then [] else [some hr]) = (kept hr).map some := by
  rw [kept]
  split_ifs <;> rfl

/-- What is left of a range: nothing, or a range with the same prefix. -/
structure Remains (hr other : HostRange) : Prop where
  proper : ∀ left ∈ kept other, Proper left
  hostPrefix : other.hostPrefix = hr.hostPrefix
  le : Proper other → other.hi ≤ hr.hi

theorem kept_nil (empty : other.empty = true) : kept other = [] := by
  rw [kept, if_pos empty]

theorem kept_self (proper : Proper other) : kept other = [other] := by
  rw [kept, if_neg (by simp [proper.not_empty])]

theorem remains_of_empty (empty : other.empty = true) (same : other.hostPrefix = hr.hostPrefix) :
    Remains hr other :=
  ⟨by rw [kept_nil empty]; exact fun _ mem => absurd mem not_mem_nil, same,
    fun proper => absurd (empty.symm.trans proper.not_empty) (by decide)⟩

theorem remains_of_proper (proper : Proper other) (same : other.hostPrefix = hr.hostPrefix)
    (le : other.hi ≤ hr.hi) : Remains hr other :=
  ⟨by rw [kept_self proper]; exact forall_mem_singleton.mpr proper, same, fun _ => le⟩

theorem expand_kept (proper : Proper other) : expand (kept other) = other.names := by
  rw [kept_self proper]
  simp

theorem HostRange.Proper.ranged (proper : Proper hr) {lo hi : Nat} (ranged : hr.singlehost = false)
    (ordered : lo ≤ hi) (le : hi ≤ hr.hi) : Proper { hr with lo := lo, hi := hi } :=
  ⟨fun single => absurd (ranged ▸ single) Bool.false_ne_true, fun _ => ordered,
    lt_of_le_of_lt le proper.bounded⟩

theorem rangePop_spec (proper : Proper hr) : ∃ name other, hr.pop = (some name, other) ∧
    Remains hr other ∧ hr.names = expand (kept other) ++ [name] := by
  have bounded := proper.bounded
  rw [HostRange.pop]
  rcases Bool.eq_false_or_eq_true hr.singlehost with single | ranged
  · have empty : ({ hr with lo := ulongAdd hr.lo 1 } : HostRange).empty = true := by
      rw [(proper.single single).1]
      rfl
    rw [if_pos single]
    refine ⟨_, _, rfl, remains_of_empty empty rfl, ?_⟩
    rw [single_names single, kept_nil empty]
    rfl
  · have ordered := proper.ordered ranged
    have pos : 0 < hr.count := by
      rw [← proper.length_names]
      exact length_pos_of_ne_nil proper.names_ne_nil
    rw [if_neg (by simp [ranged]), if_pos pos]
    rcases Nat.eq_or_lt_of_le ordered with last | more
    · have empty : ({ hr with hi := ulongSub hr.hi 1 } : HostRange).empty = true := by
        rw [empty, decide_eq_true_iff, ulongSub]
        simp only
        omega
      refine ⟨_, _, rfl, remains_of_empty empty rfl, ?_⟩
      rw [ranged_names ranged, kept_nil empty, last, Nat.add_sub_cancel_left]
      rfl
    · have down : ulongSub hr.hi 1 = hr.hi - 1 := by
        rw [ulongSub]
        omega
      have left : Proper { hr with hi := ulongSub hr.hi 1 } :=
        proper.ranged ranged (by omega) (by omega)
      refine ⟨_, _, rfl, remains_of_proper left rfl (by simp only; omega), ?_⟩
      have length : hr.hi + 1 - hr.lo = (hr.hi - 1 + 1 - hr.lo) + 1 := by omega
      have position : hr.lo + (hr.hi - 1 + 1 - hr.lo) = hr.hi := by omega
      rw [expand_kept left, ranged_names ranged, sub_names ranged]
      simp only [down]
      rw [length, numbered_append, numbered_one, position]

theorem rangeShift_spec (proper : Proper hr) : ∃ name other, hr.shift = (some name, other) ∧
    Remains hr other ∧ hr.names = name :: expand (kept other) := by
  have bounded := proper.bounded
  rw [HostRange.shift]
  rcases Bool.eq_false_or_eq_true hr.singlehost with single | ranged
  · have empty : ({ hr with lo := ulongAdd hr.lo 1 } : HostRange).empty = true := by
      rw [(proper.single single).1]
      rfl
    rw [if_pos single]
    refine ⟨_, _, rfl, remains_of_empty empty rfl, ?_⟩
    rw [single_names single, kept_nil empty]
    rfl
  · have ordered := proper.ordered ranged
    have pos : 0 < hr.count := by
      rw [← proper.length_names]
      exact length_pos_of_ne_nil proper.names_ne_nil
    have up : ulongAdd hr.lo 1 = hr.lo + 1 := by
      rw [ulongAdd]
      omega
    rw [if_neg (by simp [ranged]), if_pos pos]
    rcases Nat.eq_or_lt_of_le ordered with last | more
    · have empty : ({ hr with lo := ulongAdd hr.lo 1 } : HostRange).empty = true := by
        rw [empty, decide_eq_true_iff]
        simp only
        omega
      refine ⟨_, _, rfl, remains_of_empty empty rfl, ?_⟩
      rw [ranged_names ranged, kept_nil empty, last, Nat.add_sub_cancel_left]
      rfl
    · have left : Proper { hr with lo := ulongAdd hr.lo 1 } :=
        proper.ranged ranged (by omega) le_rfl
      refine ⟨_, _, rfl, remains_of_proper left rfl le_rfl, ?_⟩
      have length : hr.hi + 1 - hr.lo = 1 + (hr.hi + 1 - (hr.lo + 1)) := by omega
      rw [expand_kept left, ranged_names ranged, sub_names ranged]
      simp only [up]
      rw [length, numbered_append, numbered_one]
      rfl

theorem Holds.remove {ranges' : List HostRange} (holds : Holds prefixes hl ranges)
    (admitted : Admitted prefixes ranges') (removed : List Name)
    (length : (expand ranges').length + removed.length = (expand ranges).length) :
    Holds prefixes ⟨ranges'.map some, toInt32 (hl.nhosts - removed.length)⟩ ranges' := by
  have fits := holds.fits
  have nhosts := holds.nhosts
  refine ⟨⟨rfl, admitted⟩, ?_, by omega⟩
  change toInt32 (hl.nhosts - removed.length) = _
  rw [toInt32_of_small (by omega) (by omega)]
  omega

theorem Admitted.remains {back : List HostRange}
    (admitted : Admitted prefixes (front ++ hr :: back)) (remains : Remains hr other) :
    Admitted prefixes (front ++ (kept other ++ back)) := by
  have fit := admitted hr (mem_append_right _ mem_cons_self)
  have left : ∀ left ∈ kept other, Fit prefixes (2 ^ 31) left := by
    intro left mem
    have proper := remains.proper left mem
    rw [kept] at mem
    split_ifs at mem
    · exact absurd mem not_mem_nil
    · rw [mem_singleton.mp mem] at proper ⊢
      refine ⟨proper, ?_, lt_of_le_of_lt (remains.le proper) fit.small⟩
      rw [remains.hostPrefix]
      exact fit.inside
  simp only [Admitted, forall_mem_append, forall_mem_cons] at admitted ⊢
  exact ⟨admitted.1, left, admitted.2.2⟩

theorem expand_eq_nil (proper : ∀ hr ∈ ranges, Proper hr) (nothing : expand ranges = []) :
    ranges = [] := by
  cases ranges with
  | nil => rfl
  | cons hr ranges =>
    rw [expand_cons, append_eq_nil_iff] at nothing
    exact absurd nothing.1 (proper hr mem_cons_self).names_ne_nil

theorem pop_nothing (holds : Holds prefixes hl ranges) (nothing : expand ranges = []) :
    hl.pop = some (none, hl) := by
  rw [HostList.pop, if_neg]
  rw [holds.nhosts, nothing]
  exact lt_irrefl 0

theorem pop_spec (holds : Holds prefixes hl ranges) (some' : expand ranges ≠ []) :
    ∃ name hl' ranges', hl.pop = some (some name, hl') ∧ Holds prefixes hl' ranges' ∧
      expand ranges = expand ranges' ++ [name] := by
  rcases eq_nil_or_concat ranges with rfl | ⟨front, hr, rfl⟩
  · exact absurd rfl some'
  · rw [concat_eq_append] at *
    obtain ⟨name, other, popped, remains, names⟩ :=
      rangePop_spec (holds.proper hr (mem_append_right _ mem_cons_self))
    have last : hl.hr.getLast? = some (some hr) := by simp [holds.slots]
    have pos : 0 < hl.nhosts := by
      rw [holds.nhosts]
      exact_mod_cast length_pos_of_ne_nil some'
    have expanded : expand (front ++ [hr]) = expand (front ++ (kept other ++ [])) ++ [name] := by
      simp [names]
    have holds' := holds.remove (holds.admitted.remains remains) [name]
      (by rw [expanded, length_append])
    refine ⟨name, _, _, ?_, holds', expanded⟩
    rw [HostList.pop, if_pos pos]
    simp only [last, popped, kept_slots]
    simp only [holds.slots, append_nil, map_append, map_singleton,
      dropLast_concat, length_singleton, Nat.cast_one]

theorem shift_nothing (holds : Holds prefixes hl ranges) (nothing : expand ranges = []) :
    hl.shift = some (none, hl) := by
  rw [HostList.shift, if_neg]
  rw [holds.nhosts, nothing]
  exact lt_irrefl 0

theorem shift_spec (holds : Holds prefixes hl ranges) (some' : expand ranges ≠ []) :
    ∃ name hl' ranges', hl.shift = some (some name, hl') ∧ Holds prefixes hl' ranges' ∧
      expand ranges = name :: expand ranges' := by
  cases ranges with
  | nil => exact absurd rfl some'
  | cons hr back =>
    obtain ⟨name, other, shifted, remains, names⟩ :=
      rangeShift_spec (holds.proper hr mem_cons_self)
    have first : hl.hr = some hr :: back.map some := holds.slots
    have pos : 0 < hl.nhosts := by
      rw [holds.nhosts]
      exact_mod_cast length_pos_of_ne_nil some'
    have expanded : expand (hr :: back) = name :: expand (kept other ++ back) := by
      simp [names]
    have admitted : Admitted prefixes ([] ++ hr :: back) := holds.admitted
    have holds' := holds.remove (admitted.remains remains) [name] (by rw [expanded]; simp)
    refine ⟨name, _, _, ?_, holds', expanded⟩
    rw [HostList.shift, if_pos pos]
    simp only [first, shifted, kept_slots, nil_append, map_append, length_singleton, Nat.cast_one]

/-- `hostlist_pop_range_values` removes as many names as it gives numbers. -/
theorem popRangeValues_spec (holds : Holds prefixes hl ranges) (some' : expand ranges ≠ []) :
    ∃ lo hi hl' ranges' removed, hl.popRangeValues = (some (lo, hi), hl') ∧
      Holds prefixes hl' ranges' ∧ expand ranges = expand ranges' ++ removed ∧
      removed.length = hi - lo + 1 := by
  rcases eq_nil_or_concat ranges with rfl | ⟨front, tail, rfl⟩
  · exact absurd rfl some'
  · rw [concat_eq_append] at *
    have proper := holds.proper tail (mem_append_right _ mem_cons_self)
    have last : hl.hr.getLast? = some (some tail) := by simp [holds.slots]
    have expanded : expand (front ++ [tail]) = expand front ++ tail.names := by simp
    have admitted : Admitted prefixes front := fun hr mem =>
      holds.fit hr (mem_append_left _ mem)
    have holds' := holds.remove admitted tail.names (by rw [expanded, length_append])
    refine ⟨tail.lo, tail.hi, _, front, tail.names, ?_, holds', expanded, ?_⟩
    · rw [HostList.popRangeValues, proper.length_names]
      simp only [last]
      simp only [holds.slots, map_append, map_singleton, dropLast_concat]
    · rcases Bool.eq_false_or_eq_true tail.singlehost with single | ranged
      · rw [single_names single, (proper.single single).1]
        rfl
      · have ordered := proper.ordered ranged
        rw [ranged_names ranged, length_numbered]
        omega

theorem popRangeValues_nothing (holds : Holds prefixes hl ranges) (nothing : expand ranges = []) :
    hl.popRangeValues = (none, hl) := by
  rw [expand_eq_nil holds.proper nothing] at holds
  simp [HostList.popRangeValues, holds.slots]

end SlurmSim.Hostlist
