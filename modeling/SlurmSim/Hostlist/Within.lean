import SlurmSim.Hostlist.Refine

/-!
# A name in a range

The tests of `hostrange_hn_within` on a name with a number: where the name is split, what the
number behind the prefix is taken for, and which names are misread.
-/

namespace SlurmSim.Hostlist

open SlurmSim.Lib.Numerals SlurmSim.Common.Bitmap HostRange List

/-- A range as the operations on host lists leave it. -/
structure Formed (hr : HostRange) : Prop where
  single : hr.singlehost = true →
    hr = createSingle hr.hostPrefix ∧ hr.hostPrefix.rtakeWhile Char.isDigit = []
  ordered : hr.singlehost = false → hr.lo ≤ hr.hi
  bounded : hr.hi < 2 ^ 64

variable {hr : HostRange} {name : Name}

theorem HostRange.Proper.formed (proper : Proper hr) : Formed hr :=
  ⟨proper.single, proper.ordered, proper.bounded.trans (by decide)⟩

/-! ## The number of a name in a range -/

/-- The number behind the prefix of a range, as `strtoul` reads it. -/
def suffixNumber (hr : HostRange) (name : Name) : Nat :=
  min (textValue (name.drop hr.hostPrefix.length)) (2 ^ 64 - 1)

/-- A number is kept in an `int` and compared as an `unsigned long`. -/
def cutNumber (num : Nat) : Nat :=
  (toInt32 num % 2 ^ 64).toNat

/-- The name starts with the prefix of a range with numbers. -/
def Starts (hr : HostRange) (name : Name) : Prop :=
  hr.singlehost = false ∧ hr.hostPrefix = name.take hr.hostPrefix.length

/-- The number of the name passes the tests of `hostrange_hn_within` behind the prefix. -/
def Taken (hr : HostRange) (name : Name) : Prop :=
  hr.lo ≤ suffixNumber hr name ∧ suffixNumber hr name ≤ hr.hi ∧
    (widthEquiv hr.lo hr.width (cutNumber (suffixNumber hr name))
      (name.drop hr.hostPrefix.length).length).isSome

/-- The tests go wrong: the whole name is the prefix of a range from an unpadded zero on, the
`int` for the number answers otherwise than the number, or the number is none of type
`unsigned long` and the largest one is in the range. -/
def Misread (hr : HostRange) (name : Name) : Prop :=
  let suffix := name.drop hr.hostPrefix.length
  let value := textValue suffix
  (suffix = [] ∧ hr.lo = 0 ∧ hr.width ≤ 1) ∨
  (2 ^ 31 ≤ value ∧ hr.lo ≤ value ∧ value ≤ hr.hi ∧
    ¬((widthEquiv hr.lo hr.width (cutNumber value) suffix.length).isSome ↔
      numText hr.width value = suffix)) ∨
  (2 ^ 64 ≤ value ∧ hr.hi = 2 ^ 64 - 1 ∧ numText hr.width hr.hi = numText suffix.length hr.hi)

theorem cutNumber_small {num : Nat} (small : num < 2 ^ 31) : cutNumber num = num := by
  rw [cutNumber, toInt32]
  omega

theorem mem_names_of_starts (starts : Starts hr name) : name ∈ hr.names ↔
    (hr.lo ≤ textValue (name.drop hr.hostPrefix.length) ∧
      textValue (name.drop hr.hostPrefix.length) ≤ hr.hi) ∧
      numText hr.width (textValue (name.drop hr.hostPrefix.length)) =
        name.drop hr.hostPrefix.length := by
  have whole : hr.hostPrefix ++ name.drop hr.hostPrefix.length = name := by
    conv_lhs =>
      arg 1
      rw [starts.2]
    exact take_append_drop _ _
  have mem := @append_mem_names_iff hr starts.1 (name.drop hr.hostPrefix.length)
  rw [whole] at mem
  rw [mem, eq_comm (a := numText hr.width _)]

theorem taken_bare (suffix : name.drop hr.hostPrefix.length = []) :
    Taken hr name ↔ hr.lo = 0 ∧ hr.width ≤ 1 := by
  have zero : suffixNumber hr name = 0 := by
    rw [suffixNumber, suffix]
    rfl
  rw [Taken, zero, suffix, cutNumber_small (by omega), length_nil]
  constructor
  · rintro ⟨lower, -, equiv⟩
    have same := (widthEquiv_isSome_iff lower).mp equiv
    rw [numText_eq_iff, zeroPadded_eq, zeroPadded_eq, numeral_of_lt (by omega),
      length_singleton] at same
    exact ⟨by omega, by omega⟩
  · rintro ⟨lower, narrow⟩
    refine ⟨lower.le, Nat.zero_le _, (widthEquiv_isSome_iff lower.le).mpr ?_⟩
    rw [numText_eq_iff, zeroPadded_eq, zeroPadded_eq, numeral_of_lt (by omega), length_singleton]
    omega

theorem taken_beyond (formed : Formed hr) (ranged : hr.singlehost = false)
    (large : 2 ^ 64 ≤ textValue (name.drop hr.hostPrefix.length)) :
    Taken hr name ↔ hr.hi = 2 ^ 64 - 1 ∧
      numText hr.width hr.hi = numText (name.drop hr.hostPrefix.length).length hr.hi := by
  have bounded := formed.bounded
  have ordered := formed.ordered ranged
  have number : suffixNumber hr name = 2 ^ 64 - 1 := min_eq_right (by omega)
  have cut : cutNumber (2 ^ 64 - 1) = 2 ^ 64 - 1 := by
    rw [cutNumber, toInt32]
    omega
  have equiv := @widthEquiv_isSome_iff hr.lo hr.width (2 ^ 64 - 1)
    (name.drop hr.hostPrefix.length).length (by omega)
  rw [Taken, number, cut, equiv]
  constructor
  · rintro ⟨-, le, same⟩
    have last : hr.hi = 2 ^ 64 - 1 := by omega
    rw [last]
    exact ⟨rfl, same⟩
  · rintro ⟨last, same⟩
    rw [last] at same
    exact ⟨by omega, last.ge, same⟩

theorem taken_iff (formed : Formed hr) (starts : Starts hr name)
    (digits : Digits (name.drop hr.hostPrefix.length)) :
    ¬Misread hr name ↔ (Taken hr name ↔ name ∈ hr.names) := by
  have bounded := formed.bounded
  rw [mem_names_of_starts starts, Misread]
  by_cases suffix : name.drop hr.hostPrefix.length = []
  · rw [taken_bare suffix]
    have zero : textValue [] = 0 := rfl
    have written : numText hr.width 0 ≠ [] := numText_ne_nil _ _
    simp only [suffix, zero, written, and_false, iff_false, true_and]
    constructor
    · exact fun right bare => right (Or.inl bare)
    · rintro right (bare | ⟨large, -⟩ | ⟨large, -⟩)
      · exact right bare
      · omega
      · omega
  · have text := numText_textValue digits suffix
    simp only [suffix, false_and, false_or]
    generalize value : textValue (name.drop hr.hostPrefix.length) = v at text
    by_cases large : 2 ^ 64 ≤ v
    · rw [taken_beyond formed starts.1 (by rw [value]; exact large)]
      have out : ¬((hr.lo ≤ v ∧ v ≤ hr.hi) ∧
          numText hr.width v = name.drop hr.hostPrefix.length) := by omega
      simp only [out, iff_false]
      constructor
      · exact fun right last => right (Or.inr ⟨large, last⟩)
      · rintro right (⟨-, -, le, -⟩ | ⟨-, last⟩)
        · omega
        · exact right last
    · have number : suffixNumber hr name = v := by
        rw [suffixNumber, value]
        omega
      have beyond : ¬2 ^ 64 ≤ v := large
      rw [Taken, number]
      simp only [beyond, false_and, or_false]
      by_cases small : v < 2 ^ 31
      · rw [cutNumber_small small]
        have notLarge : ¬2 ^ 31 ≤ v := by omega
        simp only [notLarge, false_and, not_false_eq_true, true_iff]
        constructor
        · rintro ⟨lower, upper, equiv⟩
          exact ⟨⟨lower, upper⟩, by rw [← text, (widthEquiv_isSome_iff lower).mp equiv, text]⟩
        · rintro ⟨⟨lower, upper⟩, same⟩
          exact ⟨lower, upper, (widthEquiv_isSome_iff lower).mpr (by rw [same, text])⟩
      · have isLarge : 2 ^ 31 ≤ v := by omega
        simp only [isLarge, true_and]
        constructor
        · intro right
          by_cases inside : hr.lo ≤ v ∧ v ≤ hr.hi
          · have same := not_not.mp fun wrong => right ⟨inside.1, inside.2, wrong⟩
            rw [← and_assoc, same]
          · exact ⟨fun taken => absurd ⟨taken.1, taken.2.1⟩ inside, fun mem => absurd mem.1 inside⟩
        · rintro same ⟨lower, upper, wrong⟩
          apply wrong
          constructor
          · exact fun equiv => (same.mp ⟨lower, upper, equiv⟩).2
          · exact fun written => (same.mpr ⟨⟨lower, upper⟩, written⟩).2.2

/-! ## One range -/

/-- What `hostrange_hn_within` does to a name with a number that is split behind `k`
characters. -/
structure Tested (hr : HostRange) (name : Name) (k : Nat)
    (answer : Bool × HostRange × Hostname) : Prop where
  widened : ∃ width, answer.2.1 = { hr with width := width } ∧
    (hr.singlehost = true → width = hr.width) ∧
    ∀ len, numbered hr.hostPrefix width hr.lo len = numbered hr.hostPrefix hr.width hr.lo len
  split : SplitAt answer.2.2 name (if Shadows hr name then max k hr.hostPrefix.length else k)
  found : answer.1 = true ↔ Starts hr name ∧ k ≤ hr.hostPrefix.length ∧ Taken hr name
  num : answer.1 = true → answer.2.2.num = suffixNumber hr name

variable {k : Nat} {hn : Hostname}

theorem Tested.isWidened {answer : Bool × HostRange × Hostname} (tested : Tested hr name k answer) :
    Widened hr answer.2.1 := by
  obtain ⟨width, same, single, names⟩ := tested.widened
  rw [same]
  rcases Bool.eq_false_or_eq_true hr.singlehost with isSingle | ranged
  · rw [single isSingle]
    exact Widened.refl hr
  · exact widened_width ranged names

theorem split_of_starts (starts : Starts hr name) (le : k ≤ hr.hostPrefix.length)
    (digits : Digits (name.drop k)) :
    (if Shadows hr name then max k hr.hostPrefix.length else k) = hr.hostPrefix.length := by
  rcases Nat.eq_or_lt_of_le le with here | before
  · rw [here, max_self, ite_self]
  · have within : hr.hostPrefix.length ≤ name.length := by
      rw [starts.2]
      exact length_take_le' _ _
    have digit := endsDigit_take before within digits
    rw [← starts.2] at digit
    rw [if_pos ⟨starts.1, digit, within⟩, max_eq_right le]

theorem numWithin_tested {hn : Hostname} {k : Nat} (starts : Starts hr name)
    (le : k ≤ hr.hostPrefix.length) (digits : Digits (name.drop k))
    (split : SplitAt hn name hr.hostPrefix.length) :
    Tested hr name k (numWithin hr hn (name.drop hr.hostPrefix.length)) := by
  have reached := split_of_starts starts le digits
  have number : hn.num = suffixNumber hr name := split.num
  have taken : Taken hr name ↔ (hn.num ≤ hr.hi ∧ hr.lo ≤ hn.num) ∧
      (widthEquiv hr.lo hr.width (toInt32 hn.num % 2 ^ 64).toNat
        (name.drop hr.hostPrefix.length).length).isSome := by
    rw [number, Taken, cutNumber]
    tauto
  rw [numWithin]
  split_ifs with mem
  · cases widths : widthEquiv hr.lo hr.width (toInt32 hn.num % 2 ^ 64).toNat
        (name.drop hr.hostPrefix.length).length with
    | none =>
      rw [widths] at taken
      simp only [widths]
      refine ⟨⟨hr.width, rfl, fun _ => rfl, fun _ => rfl⟩, by rw [reached]; exact split, ?_,
        fun found => absurd found Bool.false_ne_true⟩
      simp [taken]
    | some widths' =>
      obtain ⟨width, other⟩ := widths'
      rw [widths] at taken
      have names := fun len =>
        numbered_congr hr.hostPrefix len (widthEquiv_spec widths).2.1
      simp only [widths]
      refine ⟨⟨width, rfl, fun single => absurd (starts.1.symm.trans single) Bool.false_ne_true,
        names⟩, by rw [reached]; exact split, ?_, fun _ => number⟩
      simp [taken, mem, starts, le]
  · refine ⟨⟨hr.width, rfl, fun _ => rfl, fun _ => rfl⟩, by rw [reached]; exact split, ?_,
      fun found => absurd found Bool.false_ne_true⟩
    simp [taken, mem]

theorem hnWithin_single_tested (formed : Formed hr) (single : hr.singlehost = true)
    (split : SplitAt hn name k) (number : name.rtakeWhile Char.isDigit ≠ []) :
    Tested hr name k (hnWithin hr hn) := by
  have differ : name ≠ hr.hostPrefix := by
    rintro rfl
    exact number (formed.single single).2
  have unshadowed : ¬Shadows hr name := fun shadows =>
    Bool.false_ne_true (shadows.1.symm.trans single)
  rw [hnWithin, if_pos single, split.hostname, decide_eq_false differ]
  refine ⟨⟨hr.width, rfl, fun _ => rfl, fun _ => rfl⟩, ?_, ?_, fun found => absurd found Bool.false_ne_true⟩
  · rw [if_neg unshadowed]
    exact split
  · simp [Starts, single]

theorem hnWithin_ranged_tested (ranged : hr.singlehost = false) (split : SplitAt hn name k) :
    Tested hr name k (hnWithin hr hn) := by
  have within := split.within
  have prefixLength : (name.take k).length = k := by
    rw [length_take, min_eq_left within]
  rw [hnWithin, if_neg (by simp [ranged])]
  simp only [split.suffix, split.hostPrefix, prefixLength, length_drop]
  split_ifs with same moves moved
  · have length : hr.hostPrefix.length = k := by rw [same, prefixLength]
    have starts : Starts hr name := ⟨ranged, by rw [length]; exact same⟩
    have tested := @numWithin_tested hr name hn k starts length.ge split.digits
      (by rw [length]; exact split)
    rwa [length] at tested
  · have le : k ≤ hr.hostPrefix.length := by omega
    have inside : hr.hostPrefix.length ≤ name.length := by omega
    have further := split.move le inside
    rw [drop_further le]
    rw [further.hostPrefix] at moved
    exact numWithin_tested ⟨ranged, moved⟩ le split.digits further
  · have le : k ≤ hr.hostPrefix.length := by omega
    have inside : hr.hostPrefix.length ≤ name.length := by omega
    have further := split.move le inside
    refine ⟨⟨hr.width, rfl, fun _ => rfl, fun _ => rfl⟩, ?_, ?_, fun found => absurd found Bool.false_ne_true⟩
    · rw [if_pos ⟨ranged, moves.2.1, inside⟩, max_eq_right le]
      exact further
    · rw [further.hostPrefix] at moved
      exact ⟨fun found => absurd found Bool.false_ne_true, fun found => absurd found.1.2 moved⟩
  · have unmoved : (if Shadows hr name then max k hr.hostPrefix.length else k) = k := by
      split_ifs with shadows
      · have inside := shadows.2.2
        apply max_eq_left
        by_contra less
        exact moves ⟨by omega, shadows.2.1, by omega⟩
      · rfl
    refine ⟨⟨hr.width, rfl, fun _ => rfl, fun _ => rfl⟩, by rw [unmoved]; exact split, ?_,
      fun found => absurd found Bool.false_ne_true⟩
    constructor
    · exact fun found => absurd found Bool.false_ne_true
    · rintro ⟨starts, le, -⟩
      have reached := split_of_starts starts le split.digits
      rw [unmoved] at reached
      exact absurd (by rw [reached]; exact starts.2) same

theorem hnWithin_tested (formed : Formed hr) (split : SplitAt hn name k)
    (number : name.rtakeWhile Char.isDigit ≠ []) : Tested hr name k (hnWithin hr hn) := by
  cases single : hr.singlehost with
  | true => exact hnWithin_single_tested formed single split number
  | false => exact hnWithin_ranged_tested single split

/-! ## A range with small numbers -/

theorem not_misread (starts : Starts hr name) (bounded : hr.hi < 2 ^ 31) (bare : ¬Bare hr name) :
    ¬Misread hr name := by
  rintro (⟨nothing, zero, narrow⟩ | ⟨large, -, within, -⟩ | ⟨-, last, -⟩)
  · apply bare
    refine ⟨starts.1, ?_, zero, narrow⟩
    have whole := take_append_drop hr.hostPrefix.length name
    rwa [← starts.2, nothing, append_nil] at whole
  · omega
  · omega

theorem hnWithin_looks (proper : Proper hr) (bounded : hr.hi < 2 ^ 31) (split : SplitAt hn name k)
    (number : name.rtakeWhile Char.isDigit ≠ []) (bare : ¬Bare hr name) :
    Looks hr name k (hnWithin hr hn) := by
  have tested := hnWithin_tested proper.formed split number
  have right : Starts hr name → k ≤ hr.hostPrefix.length → (Taken hr name ↔ name ∈ hr.names) :=
    fun starts le => (taken_iff proper.formed starts (split.digits_of_le le)).mp
      (not_misread starts bounded bare)
  obtain ⟨width, same, -, names⟩ := tested.widened
  refine ⟨⟨width, same, names⟩, tested.split, ?_, ?_⟩
  · intro found
    obtain ⟨starts, le, taken⟩ := tested.found.mp found
    have mem := (right starts le).mp taken
    have within := ((mem_names_of_starts starts).mp mem).1
    refine ⟨starts.1, mem, ?_⟩
    rw [tested.num found, suffixNumber]
    omega
  · intro mem le
    have ranged : hr.singlehost = false := by
      by_contra single
      rw [Bool.not_eq_false] at single
      rw [single_names single, mem_singleton] at mem
      exact single_not_mem proper single number mem
    have starts : Starts hr name := ⟨ranged, (take_of_mem_names ranged mem).1⟩
    exact tested.found.mpr ⟨starts, le, (right starts le).mpr mem⟩

end SlurmSim.Hostlist
