import SlurmSim.Hostlist.Removal

/-!
# Looking for names

`hostlist_find` answers with a position, and `hostlist_nth` writes the name at a position into
a buffer of fixed size. The lists are those whose slots hold ranges with their numbers in
order, of type `unsigned long`, and whose hosts are counted by an `int`.
-/

namespace SlurmSim.Hostlist

open SlurmSim.Lib.Numerals SlurmSim.Common.Bitmap HostRange
open List (forall_mem_cons getElem?_map length_append length_map length_take map_cons
  mem_singleton not_mem_nil take_of_length_le)
open Option (map_some some.inj some_inj)

/-! ## Lists -/

/-- A host list of any length that the type of `nhosts` can count. -/
structure Hosts where
  ranges : List HostRange
  formed : ∀ hr ∈ ranges, Formed hr
  counted : (expand ranges).length < 2 ^ 31

/-- The list in memory. -/
def Hosts.list (hosts : Hosts) : HostList :=
  ⟨hosts.ranges.map some, (expand hosts.ranges).length⟩

/-- The names that a list denotes. -/
def HostList.names (hl : HostList) : List Name :=
  expand hl.hr.reduceOption

/-! ## The name at a position -/

/-- `_hostrange_string`; `none` is `NULL`. -/
def HostRange.hostrangeString (hr : HostRange) (depth : Int) : Option Name :=
  if 80 ≤ hr.hostPrefix.length + 1 then none
  else if hr.singlehost then some hr.hostPrefix
  else
    let number := numText hr.width ((hr.lo + depth) % 2 ^ 64).toNat
    if 80 ≤ number.length then none else some ((hr.hostPrefix ++ number).take 79)

/-- The loop of `hostlist_nth` from a slot on. -/
def HostList.nthSlots (n : Int) : Int → List (Option HostRange) → Option (Option Name)
  | _, [] => some none
  | _, none :: _ => none
  | count, some hr :: slots =>
    let numInRange := toInt32 hr.count
    if n ≤ numInRange - 1 + count then some (hr.hostrangeString (n - count))
    else nthSlots n (toInt32 (count + numInRange)) slots

/-- `hostlist_nth`; `some none` is `NULL`. -/
def HostList.nth (hl : HostList) (n : Int) : Option (Option Name) :=
  nthSlots n 0 hl.hr

/-- What `hostlist_nth` makes of a name of a range: a name that is too long for the buffer is
cut, or not written. -/
def HostRange.written (hr : HostRange) (name : Name) : Option Name :=
  if 79 ≤ hr.hostPrefix.length ∨ 80 ≤ name.length - hr.hostPrefix.length then none
  else some (name.take 79)

/-- What `hostlist_nth` writes, position by position. -/
def writtenNames (ranges : List HostRange) : List (Option Name) :=
  ranges.flatMap fun hr => hr.names.map hr.written

variable {hr : HostRange} {ranges : List HostRange} {name : Name}

@[simp] theorem writtenNames_cons (hr : HostRange) (ranges : List HostRange) :
    writtenNames (hr :: ranges) = hr.names.map hr.written ++ writtenNames ranges := rfl

@[simp] theorem length_writtenNames (ranges : List HostRange) :
    (writtenNames ranges).length = (expand ranges).length := by
  induction ranges with
  | nil => rfl
  | cons hr ranges ih =>
    rw [writtenNames_cons, expand_cons, length_append, length_append, ih, length_map]

theorem Formed.count (formed : Formed hr) (fits : hr.names.length < 2 ^ 31) :
    hr.count = hr.names.length := by
  cases single : hr.singlehost with
  | true =>
    rw [single_names single, HostRange.count, if_pos single]
    rfl
  | false =>
    have ordered := formed.ordered single
    rw [ranged_names single, length_numbered] at fits ⊢
    rw [HostRange.count, if_neg (by simp [single]), ulongAdd, ulongSub]
    omega

variable {i : Nat} {ret : Int} {hosts : Hosts}

theorem getElem?_names (ranged : hr.singlehost = false) (mem : i < hr.names.length) :
    hr.names[i]? = some (hr.hostPrefix ++ numText hr.width (hr.lo + i)) := by
  rw [ranged_names ranged, length_numbered] at mem
  rw [ranged_names ranged, numbered, getElem?_map, List.getElem?_range' mem, Nat.one_mul,
    map_some]

theorem hostrangeString_names (formed : Formed hr) (mem : i < hr.names.length) :
    hr.hostrangeString i = hr.names[i]?.bind hr.written := by
  cases single : hr.singlehost with
  | true =>
    have zero : i = 0 := by
      rw [single_names single, List.length_singleton] at mem
      omega
    rw [hostrangeString, if_pos single, single_names single, zero, List.getElem?_cons_zero,
      Option.bind_some, HostRange.written, Nat.sub_self]
    split_ifs with long cut cut
    · rfl
    · omega
    · omega
    · rw [take_of_length_le (by omega)]
  | false =>
    have bounded := formed.bounded
    have here := getElem?_names single mem
    have number : (((hr.lo : Int) + i) % 2 ^ 64).toNat = hr.lo + i := by
      rw [ranged_names single, length_numbered] at mem
      omega
    rw [hostrangeString, here, Option.bind_some, number, HostRange.written, length_append,
      Nat.add_sub_cancel_left]
    simp only [single, Bool.false_eq_true, if_false]
    split_ifs <;> first | rfl | omega

theorem nthSlots_spec (formed : ∀ hr ∈ ranges, Formed hr) {count n : Nat} (start : count ≤ n)
    (fits : count + (expand ranges).length < 2 ^ 31) :
    HostList.nthSlots n count (ranges.map some) =
      some ((writtenNames ranges)[n - count]?.join) := by
  induction ranges generalizing count with
  | nil => rfl
  | cons hr ranges ih =>
    obtain ⟨here, others⟩ := forall_mem_cons.mp formed
    rw [expand_cons, length_append] at fits
    have number : toInt32 hr.count = hr.names.length := by
      rw [here.count (by omega), toInt32_of_small (by omega) (by omega)]
    rw [map_cons, HostList.nthSlots, number, writtenNames_cons]
    split_ifs with mem
    · have within : n - count < hr.names.length := by omega
      rw [List.getElem?_append_left (by rwa [length_map]), getElem?_map,
        List.getElem?_eq_getElem within, show (n : Int) - count = (n - count : Nat) by omega,
        hostrangeString_names here within, List.getElem?_eq_getElem within]
      rfl
    · have next : toInt32 ((count : Int) + hr.names.length) =
          ((count + hr.names.length : Nat) : Int) := by
        rw [toInt32_of_small (by omega) (by omega)]
        omega
      rw [next, ih others (by omega) (by omega),
        List.getElem?_append_right (by rw [length_map]; omega), length_map, Nat.sub_sub]

theorem nth_spec (hosts : Hosts) (n : Nat) :
    hosts.list.nth n = some ((writtenNames hosts.ranges)[n]?.join) := by
  have counted := hosts.counted
  have spec := @nthSlots_spec _ hosts.formed 0 n (Nat.zero_le n) (by omega)
  rwa [Nat.sub_zero] at spec

/-! ## The loop over the ranges -/

/-- The digits that earlier ranges have moved, and the first `k` characters, leave the prefix of
the range to be compared with the name. -/
def Reaches (k : Nat) (before : List HostRange) (hr : HostRange) (name : Name) : Prop :=
  k ≤ hr.hostPrefix.length ∧
    ∀ other ∈ before, Shadows other name → other.hostPrefix.length ≤ hr.hostPrefix.length

/-- As far as the first range with the name: this range is compared with the name, and no range
that is compared with it is misread. -/
def Seen (k : Nat) (ranges : List HostRange) (name : Name) : Prop :=
  ∀ before hr after, ranges = before ++ hr :: after → (∀ other ∈ before, name ∉ other.names) →
    (name ∈ hr.names → Reaches k before hr name) ∧
    (Starts hr name → Reaches k before hr name → ¬Misread hr name)

theorem seen_cons {k : Nat} : Seen k (hr :: ranges) name ↔
    (name ∈ hr.names → k ≤ hr.hostPrefix.length) ∧
    (Starts hr name → k ≤ hr.hostPrefix.length → ¬Misread hr name) ∧
    (name ∉ hr.names →
      Seen (if Shadows hr name then max k hr.hostPrefix.length else k) ranges name) := by
  have reaches : ∀ before other, Reaches k (hr :: before) other name ↔
      Reaches (if Shadows hr name then max k hr.hostPrefix.length else k) before other name := by
    intro before other
    rw [Reaches, Reaches, forall_mem_cons, ← and_assoc]
    refine and_congr_left fun _ => ?_
    split_ifs with shadows
    · rw [max_le_iff, forall_prop_of_true shadows]
    · exact and_iff_left fun moved => absurd moved shadows
  constructor
  · intro seen
    obtain ⟨first, right⟩ := seen [] hr ranges rfl (fun _ mem => absurd mem not_mem_nil)
    refine ⟨fun mem => (first mem).1, fun starts le => right starts
      ⟨le, fun _ mem => absurd mem not_mem_nil⟩, ?_⟩
    intro out before other after whole none
    have later := seen (hr :: before) other after (by rw [whole, List.cons_append])
      (forall_mem_cons.mpr ⟨out, none⟩)
    rwa [reaches] at later
  · rintro ⟨first, right, rest⟩ before other after whole none
    cases before with
    | nil =>
      obtain ⟨rfl, rfl⟩ := List.cons.inj whole
      exact ⟨fun mem => ⟨first mem, fun _ mem => absurd mem not_mem_nil⟩,
        fun starts reached => right starts reached.1⟩
    | cons head before =>
      obtain ⟨rfl, others⟩ := List.cons.inj whole
      obtain ⟨out, none⟩ := forall_mem_cons.mp none
      rw [reaches]
      exact rest out before other after others none

/-! ## Names that are cut -/

theorem textValue_append (text more : Name) :
    textValue (text ++ more) = textValue text * 10 ^ more.length + textValue more := by
  rw [textValue, List.map_append, readOn_append, readOn_eq, length_map]
  rfl

theorem zero_of_prefix {text more : Name} {num : Nat} (some : more ≠ [])
    (whole : textValue (text ++ more) = num) (le : num ≤ textValue text) : num = 0 := by
  rw [textValue_append] at whole
  have length := List.length_pos_of_ne_nil some
  have large : 10 ^ 1 ≤ 10 ^ more.length := Nat.pow_le_pow_right (by omega) length
  have grows := Nat.mul_le_mul_left (textValue text) large
  omega

/-- The name that is found is the one at its position, if the buffer makes it the same. -/
theorem found_of_written (taken : Taken hr name)
    (written : hr.written (hr.hostPrefix ++ numText hr.width (suffixNumber hr name)) =
      some name) : hr.hostPrefix ++ numText hr.width (suffixNumber hr name) = name := by
  rw [HostRange.written] at written
  split_ifs at written with long
  have cut := some.inj written
  by_cases short : (hr.hostPrefix ++ numText hr.width (suffixNumber hr name)).length ≤ 79
  · rwa [take_of_length_le short] at cut
  · have lengths : hr.hostPrefix.length < 79 := by omega
    rw [List.take_append, take_of_length_le lengths.le] at cut
    have suffix := congrArg (List.drop hr.hostPrefix.length) cut
    rw [List.drop_left] at suffix
    generalize digits : numText hr.width (suffixNumber hr name) = number at *
    have whole := List.take_append_drop (79 - hr.hostPrefix.length) number
    rw [length_append] at short
    have room : (number.take (79 - hr.hostPrefix.length)).length = 79 - hr.hostPrefix.length := by
      rw [length_take]
      omega
    have value := textValue_numText hr.width (suffixNumber hr name)
    have le : suffixNumber hr name ≤ textValue (name.drop hr.hostPrefix.length) :=
      min_le_left _ _
    have more : number.drop (79 - hr.hostPrefix.length) ≠ [] := by
      apply List.ne_nil_of_length_pos
      rw [List.length_drop]
      omega
    have zero := zero_of_prefix more (by rw [whole, ← digits, value]) (by rw [suffix]; exact le)
    obtain ⟨lower, -, equiv⟩ := taken
    rw [zero] at lower equiv
    rw [cutNumber_small (by omega), ← suffix, room] at equiv
    have same := (widthEquiv_isSome_iff lower).mp equiv
    have wide := congrArg List.length same
    rw [← zero, digits, zero, length_numText, numeral_of_lt (by omega), List.length_singleton] at wide
    omega

theorem written_of_mem {other : HostRange} (formed : Formed hr) (mem : name ∈ hr.names)
    (also : name ∈ other.names) (written : other.written name = some name) :
    hr.written name = some name := by
  rw [HostRange.written] at written ⊢
  split_ifs at written with long
  have length := congrArg List.length (some.inj written)
  rw [length_take] at length
  cases single : hr.singlehost with
  | false =>
    have shorter := (take_of_mem_names single mem).2
    rw [if_neg (by omega), take_of_length_le (by omega)]
  | true =>
    rw [single_names single, mem_singleton] at mem
    cases ranged : other.singlehost with
    | true =>
      rw [single_names ranged, mem_singleton] at also
      have same : hr.hostPrefix = other.hostPrefix := mem.symm.trans also
      rw [same, if_neg long]
      exact written
    | false =>
      have number := (stem_of_mem ranged also).2
      rw [mem] at number
      exact absurd (formed.single single).2 number

/-! ## The loop of `hostlist_find` -/

/-- The answer of the loop: how it is found, and what is written there. -/
structure Answered (ranges : List HostRange) (name : Name) (count : Nat) (ret : Int) : Prop where
  bounds : ret = -1 ∨ ∃ i, i < (expand ranges).length ∧ ret = (count + i : Nat)
  written : ∀ i : Nat, ret = (count + i : Nat) → (writtenNames ranges)[i]? = some (some name) →
    (expand ranges)[i]? = some name

theorem Answered.cons {count : Nat} {ret : Int}
    (answered : Answered ranges name (count + hr.names.length) ret) :
    Answered (hr :: ranges) name count ret := by
  refine ⟨?_, ?_⟩
  · rcases answered.bounds with none | ⟨i, mem, value⟩
    · exact Or.inl none
    · refine Or.inr ⟨hr.names.length + i, ?_, by omega⟩
      rw [expand_cons, length_append]
      omega
  · intro i value written
    rw [writtenNames_cons] at written
    rw [expand_cons]
    by_cases mem : i < hr.names.length
    · rcases answered.bounds with none | ⟨j, -, here⟩ <;> omega
    · rw [List.getElem?_append_right (by rw [length_map]; omega), length_map] at written
      rw [List.getElem?_append_right (by omega)]
      exact answered.written _ (by omega) written

theorem position_eq_iff {count i : Nat} {names : List Name} :
    position count names name = (count + i : Nat) ↔ name ∈ names ∧ names.idxOf name = i := by
  rw [position]
  split_ifs with mem
  · rw [and_iff_right mem]
    omega
  · exact iff_of_false id (fun both => mem both.1)

/-- The range is found: the answer is right if the range has the name. -/
theorem answered_of_taken (formed : Formed hr) {hn : Hostname} {k : Nat}
    (split : SplitAt hn name k) (starts : Starts hr name) (le : k ≤ hr.hostPrefix.length)
    (taken : Taken hr name) (count : Nat) :
    ∃ i, hr.lo + i = suffixNumber hr name ∧ i < hr.names.length ∧
      Answered (hr :: ranges) name count (count + i : Nat) ∧
      ((count + i : Nat) = position count (expand (hr :: ranges)) name ↔
        Seen k (hr :: ranges) name) := by
  obtain ⟨lower, upper, -⟩ := id taken
  have bounded := formed.bounded
  obtain ⟨i, number⟩ := Nat.exists_eq_add_of_le lower
  have inside : i < hr.names.length := by
    rw [ranged_names starts.1, length_numbered]
    omega
  have here := getElem?_names starts.1 inside
  rw [← number] at here
  refine ⟨i, number.symm, inside, ⟨?_, ?_⟩, ?_⟩
  · refine Or.inr ⟨i, ?_, rfl⟩
    rw [expand_cons, length_append]
    omega
  · intro j same written
    have same : j = i := by omega
    rw [same] at written ⊢
    rw [writtenNames_cons, List.getElem?_append_left (by rwa [length_map]), getElem?_map,
      here, map_some, some_inj] at written
    rw [expand_cons, List.getElem?_append_left inside, here, found_of_written taken written]
  · have right := taken_iff formed starts (split.digits_of_le le)
    have whole : Seen k (hr :: ranges) name ↔ name ∈ hr.names := by
      rw [seen_cons]
      constructor
      · rintro ⟨-, read, -⟩
        exact (right.mp (read starts le)).mp taken
      · exact fun mem => ⟨fun _ => le, fun _ _ => right.mpr (iff_of_true taken mem),
          fun out => absurd mem out⟩
    rw [whole, eq_comm, position_eq_iff, expand_cons]
    constructor
    · rintro ⟨mem, index⟩
      by_contra out
      rw [List.idxOf_append_of_notMem out] at index
      omega
    · intro mem
      obtain ⟨-, index⟩ := idxOf_names starts.1 mem
      have value := ((mem_names_of_starts starts).mp mem).1
      refine ⟨List.mem_append_left _ mem, ?_⟩
      rw [List.idxOf_append_of_mem mem, index]
      rw [suffixNumber] at number
      omega

/-- The range is not found: the answer of the ranges behind it is right if theirs is, unless
the range has the name. -/
theorem answered_of_not_taken (formed : Formed hr) (number : name.rtakeWhile Char.isDigit ≠ [])
    {hn : Hostname} {k count : Nat} (split : SplitAt hn name k)
    (missed : ¬(Starts hr name ∧ k ≤ hr.hostPrefix.length ∧ Taken hr name))
    (answered : Answered ranges name (count + hr.names.length) ret)
    (rest : ret = position (count + hr.names.length) (expand ranges) name ↔
      Seen (if Shadows hr name then max k hr.hostPrefix.length else k) ranges name) :
    ret = position count (expand (hr :: ranges)) name ↔ Seen k (hr :: ranges) name := by
  have read : Starts hr name → k ≤ hr.hostPrefix.length → (¬Misread hr name ↔ name ∉ hr.names) := by
    intro starts le
    have out : ¬Taken hr name := fun taken => missed ⟨starts, le, taken⟩
    rw [taken_iff formed starts (split.digits_of_le le)]
    simp only [out, false_iff]
  rw [seen_cons, expand_cons]
  by_cases mem : name ∈ hr.names
  · have ranged : hr.singlehost = false := by
      by_contra single
      rw [Bool.not_eq_false] at single
      rw [single_names single, mem_singleton] at mem
      rw [mem] at number
      exact number (formed.single single).2
    have starts : Starts hr name := ⟨ranged, (take_of_mem_names ranged mem).1⟩
    rw [position_append_left mem]
    have index := List.idxOf_lt_length_of_mem mem
    constructor
    · rcases answered.bounds with none | ⟨i, -, here⟩ <;> omega
    · rintro ⟨le, right, -⟩
      exact absurd mem ((read starts (le mem)).mp (right starts (le mem)))
  · rw [position_append_right mem, rest]
    constructor
    · exact fun seen => ⟨fun inside => absurd inside mem,
        fun starts le => (read starts le).mpr mem, fun _ => seen⟩
    · exact fun seen => seen.2.2 mem

theorem findSlots_answered (number : name.rtakeWhile Char.isDigit ≠ [])
    (formed : ∀ hr ∈ ranges, Formed hr) {hn : Hostname} {k count : Nat}
    (split : SplitAt hn name k) (fits : count + (expand ranges).length < 2 ^ 31) :
    ∃ ret ranges', HostList.findSlots hn count (ranges.map some) = some (ret, ranges'.map some) ∧
      List.Forall₂ Widened ranges ranges' ∧ Answered ranges name count ret ∧
      (ret = position count (expand ranges) name ↔ Seen k ranges name) := by
  induction ranges generalizing hn k count with
  | nil =>
    refine ⟨-1, [], rfl, List.Forall₂.nil, ⟨Or.inl rfl, fun i value => by omega⟩,
      iff_of_true rfl ?_⟩
    intro before hr after whole
    exact absurd (congrArg List.length whole) (by simp)
  | cons hr ranges ih =>
    obtain ⟨here, others⟩ := forall_mem_cons.mp formed
    have lengths := fits
    rw [expand_cons, length_append] at lengths
    have tested := hnWithin_tested here split number
    have widened := tested.isWidened
    have counted := here.count (by omega)
    rw [map_cons, HostList.findSlots]
    generalize hnWithin hr hn = answer at tested widened
    obtain ⟨found, hr', hn'⟩ := answer
    obtain ⟨-, further, isFound, num⟩ := tested
    simp only at widened further isFound num ⊢
    by_cases hit : found = true
    · obtain ⟨starts, le, taken⟩ := isFound.mp hit
      obtain ⟨i, value, mem, answered, right⟩ :=
        @answered_of_taken hr ranges name here hn k split starts le taken count
      refine ⟨(count + i : Nat), hr' :: ranges, ?_, List.Forall₂.cons widened
        (List.forall₂_same.mpr fun other _ => Widened.refl other), answered, right⟩
      have suffix : hn'.suffix.isSome = true := by
        rw [further.suffix]
        rfl
      rw [if_pos hit, if_pos suffix, num hit, widened.lo, ← value,
        toInt32_of_small (by omega) (by omega)]
      congr 2
      omega
    · have same : hr'.count = hr.names.length := by
        rw [← counted, HostRange.count, HostRange.count, widened.singlehost, widened.lo, widened.hi]
      have next : toInt32 ((count : Int) + hr'.count) =
          ((count + hr.names.length : Nat) : Int) := by
        rw [same, toInt32_of_small (by omega) (by omega)]
        omega
      obtain ⟨ret, ranges', rest, widenedRest, answered, right⟩ := ih others further
        (show count + hr.names.length + (expand ranges).length < 2 ^ 31 by omega)
      refine ⟨ret, hr' :: ranges', ?_, List.Forall₂.cons widened widenedRest, answered.cons,
        answered_of_not_taken here number split (fun taken => hit (isFound.mpr taken)) answered
          right⟩
      rw [if_neg hit, next, rest, map_some, map_cons]

/-! ## `hostlist_find` -/

theorem isLeast_getElem? {α : Type} [BEq α] [LawfulBEq α] {l : List α} {a : α} {n : Nat} :
    IsLeast {i : Nat | l[i]? = some a} n ↔ a ∈ l ∧ n = l.idxOf a := by
  have first : a ∈ l → IsLeast {i : Nat | l[i]? = some a} (l.idxOf a) := by
    intro mem
    refine ⟨List.getElem?_idxOf mem, ?_⟩
    intro i here
    obtain ⟨inside, rfl⟩ := List.getElem?_eq_some_iff.mp here
    by_contra before
    have differ := List.not_of_lt_findIdx (Nat.lt_of_not_le before)
    simp at differ
  constructor
  · intro least
    have mem : a ∈ l := List.mem_of_getElem? least.1
    exact ⟨mem, least.unique (first mem)⟩
  · rintro ⟨mem, rfl⟩
    exact first mem

/-! ## Names that have room in the buffer -/

/-- A longer name of the range is cut to this one. -/
def Cuts (hr : HostRange) (name : Name) : Prop :=
  hr.hostPrefix.length < 79 ∧ ∃ other ∈ hr.names,
    79 < other.length ∧ other.length - hr.hostPrefix.length < 80 ∧ other.take 79 = name

/-- As far as the first range with the name: this range has room for it in the buffer, and no
range before has a longer name that is cut to it. -/
def Legible (ranges : List HostRange) (name : Name) : Prop :=
  ∀ before hr after, ranges = before ++ hr :: after → (∀ other ∈ before, name ∉ other.names) →
    (name ∈ hr.names → name.length < 80 ∧ hr.hostPrefix.length < 79) ∧
    (name ∉ hr.names → ¬Cuts hr name)

theorem legible_cons : Legible (hr :: ranges) name ↔
    (name ∈ hr.names → name.length < 80 ∧ hr.hostPrefix.length < 79) ∧
    (name ∉ hr.names → ¬Cuts hr name ∧ Legible ranges name) := by
  constructor
  · intro legible
    obtain ⟨room, uncut⟩ := legible [] hr ranges rfl (fun _ mem => absurd mem not_mem_nil)
    refine ⟨room, fun out => ⟨uncut out, ?_⟩⟩
    intro before other after whole none
    exact legible (hr :: before) other after (by rw [whole, List.cons_append])
      (forall_mem_cons.mpr ⟨out, none⟩)
  · rintro ⟨room, rest⟩ before other after whole none
    cases before with
    | nil =>
      obtain ⟨rfl, rfl⟩ := List.cons.inj whole
      exact ⟨room, fun out => (rest out).1⟩
    | cons head before =>
      obtain ⟨rfl, others⟩ := List.cons.inj whole
      obtain ⟨out, none⟩ := forall_mem_cons.mp none
      exact (rest out).2 before other after others none

theorem length_names_mono {j : Nat} {other : Name} (le : i ≤ j) (here : hr.names[i]? = some other)
    (there : hr.names[j]? = some name) : other.length ≤ name.length := by
  have inside := (List.getElem?_eq_some_iff.mp here).1
  have inside' := (List.getElem?_eq_some_iff.mp there).1
  cases single : hr.singlehost with
  | true =>
    rw [single_names single, List.length_singleton] at inside inside'
    obtain rfl : i = j := by omega
    exact (congrArg List.length (some.inj (here.symm.trans there))).le
  | false =>
    rw [getElem?_names single inside, some_inj] at here
    rw [getElem?_names single inside', some_inj] at there
    have longer := length_numeral_mono 10 (Nat.add_le_add_left le hr.lo)
    rw [← here, ← there, length_append, length_append, length_numText, length_numText]
    omega

theorem prefix_le_of_mem (mem : name ∈ hr.names) : hr.hostPrefix.length ≤ name.length := by
  cases single : hr.singlehost with
  | true =>
    rw [single_names single, mem_singleton] at mem
    rw [mem]
  | false => exact (take_of_mem_names single mem).2.le

theorem written_eq_iff {other : Name} : hr.written other = some name ↔
    hr.hostPrefix.length < 79 ∧ other.length - hr.hostPrefix.length < 80 ∧
      other.take 79 = name := by
  rw [HostRange.written]
  split_ifs with long
  · exact iff_of_false nofun (by omega)
  · rw [some_inj]
    exact ⟨fun cut => ⟨by omega, by omega, cut⟩, fun cut => cut.2.2⟩

theorem idxOf_map_written (mem : name ∈ hr.names) (short : name.length < 80)
    (room : hr.hostPrefix.length < 79) :
    some name ∈ hr.names.map hr.written ∧
      (hr.names.map hr.written).idxOf (some name) = hr.names.idxOf name := by
  have first : IsLeast {i : Nat | hr.names[i]? = some name} (hr.names.idxOf name) :=
    isLeast_getElem?.mpr ⟨mem, rfl⟩
  have whole : name.take 79 = name := take_of_length_le (by omega)
  have written : hr.written name = some name := by
    rw [written_eq_iff]
    exact ⟨room, by omega, whole⟩
  have least : IsLeast {i : Nat | (hr.names.map hr.written)[i]? = some (some name)}
      (hr.names.idxOf name) := by
    refine ⟨?_, ?_⟩
    · change (hr.names.map hr.written)[_]? = _
      rw [getElem?_map, first.1, map_some, written]
    · intro i isWritten
      change (hr.names.map hr.written)[i]? = _ at isWritten
      rw [getElem?_map, Option.map_eq_some_iff] at isWritten
      obtain ⟨other, here, cut⟩ := isWritten
      by_contra before
      have shorter := length_names_mono (Nat.lt_of_not_le before).le here first.1
      have same := (written_eq_iff.mp cut).2.2
      rw [take_of_length_le (by omega)] at same
      exact before (first.2 (same ▸ here))
  obtain ⟨inside, index⟩ := isLeast_getElem?.mp least
  exact ⟨inside, index.symm⟩

theorem notMem_map_written (noRoom : ¬(name.length < 80 ∧ hr.hostPrefix.length < 79)) :
    some name ∉ hr.names.map hr.written := by
  intro mem
  obtain ⟨other, -, written⟩ := List.mem_map.mp mem
  obtain ⟨room, -, cut⟩ := written_eq_iff.mp written
  have length := congrArg List.length cut
  rw [length_take] at length
  omega

theorem mem_map_written_iff (out : name ∉ hr.names) :
    some name ∈ hr.names.map hr.written ↔ Cuts hr name := by
  rw [List.mem_map]
  constructor
  · rintro ⟨other, mem, written⟩
    obtain ⟨room, fits, cut⟩ := written_eq_iff.mp written
    refine ⟨room, other, mem, ?_, fits, cut⟩
    by_contra short
    rw [take_of_length_le (by omega)] at cut
    exact out (cut ▸ mem)
  · rintro ⟨room, other, mem, -, fits, cut⟩
    exact ⟨other, mem, written_eq_iff.mpr ⟨room, fits, cut⟩⟩

theorem idxOf_written_iff : (writtenNames ranges).idxOf (some name) = (expand ranges).idxOf name ↔
    Legible ranges name := by
  induction ranges with
  | nil => exact iff_of_true rfl fun before _ _ whole => absurd whole (by simp)
  | cons hr ranges ih =>
    have length : (hr.names.map hr.written).length = hr.names.length := length_map ..
    rw [legible_cons, writtenNames_cons, expand_cons]
    by_cases here : name ∈ hr.names
    · have before := List.idxOf_lt_length_of_mem here
      rw [List.idxOf_append_of_mem here, forall_prop_of_true here,
        and_iff_left fun out => absurd here out]
      by_cases room : name.length < 80 ∧ hr.hostPrefix.length < 79
      · obtain ⟨inside, index⟩ := idxOf_map_written here room.1 room.2
        rw [List.idxOf_append_of_mem inside]
        exact iff_of_true index room
      · rw [List.idxOf_append_of_notMem (notMem_map_written room), length]
        exact iff_of_false (by omega) room
    · rw [List.idxOf_append_of_notMem here, forall_prop_of_true here,
        and_iff_right fun mem => absurd mem here]
      by_cases cut : Cuts hr name
      · have inside := (mem_map_written_iff here).mpr cut
        have before := List.idxOf_lt_length_of_mem inside
        rw [List.idxOf_append_of_mem inside]
        exact iff_of_false (by omega) fun both => both.1 cut
      · rw [List.idxOf_append_of_notMem (mt (mem_map_written_iff here).mp cut), length,
          Nat.add_left_cancel_iff, ih]
        exact (and_iff_right cut).symm

theorem legible_of_short (short : name.length < 79) : Legible ranges name := by
  intro before hr after _ _
  refine ⟨fun mem => ⟨by omega, (prefix_le_of_mem mem).trans_lt short⟩, ?_⟩
  rintro - ⟨-, other, -, long, -, cut⟩
  have length := congrArg List.length cut
  rw [length_take] at length
  omega

/-! ## What the answer means -/

/-- `hostlist_find` answers with the least position at which `hostlist_nth` writes the name, with
`-1` if the list does not denote it, and the names of the list are as before. -/
def Hosts.Finds (hosts : Hosts) (name : Name) : Prop :=
  ∃ ret hl', hosts.list.find name = some (ret, hl') ∧ hl'.names = hosts.list.names ∧
    (∀ n : Nat, ret = n ↔ IsLeast {n : Nat | hosts.list.nth n = some (some name)} n) ∧
    (ret = -1 ↔ name ∉ hosts.list.names)

theorem names_list (hosts : Hosts) : hosts.list.names = expand hosts.ranges := by
  rw [HostList.names, Hosts.list, reduceOption_slots]

theorem isLeast_nth {n : Nat} :
    IsLeast {n : Nat | hosts.list.nth n = some (some name)} n ↔
      some name ∈ writtenNames hosts.ranges ∧ n = (writtenNames hosts.ranges).idxOf (some name) := by
  have same : {n : Nat | hosts.list.nth n = some (some name)} =
      {n : Nat | (writtenNames hosts.ranges)[n]? = some (some name)} := by
    refine Set.ext fun n => ?_
    change hosts.list.nth n = _ ↔ _
    rw [nth_spec, some_inj, Option.join_eq_some_iff]
    rfl
  rw [same]
  exact isLeast_getElem?

theorem length_names_le (mem : hr ∈ ranges) : hr.names.length ≤ (expand ranges).length := by
  obtain ⟨before, after, rfl⟩ := List.append_of_mem mem
  rw [expand_append, expand_cons, length_append, length_append]
  omega

theorem answered_of_position (value : ret = position 0 (expand ranges) name) :
    Answered ranges name 0 ret := by
  refine ⟨?_, ?_⟩
  · rw [value, position]
    split_ifs with mem
    · exact Or.inr ⟨_, List.idxOf_lt_length_of_mem mem, by omega⟩
    · exact Or.inl rfl
  · intro i same _
    rw [value, position_eq_iff] at same
    rw [← same.2]
    exact List.getElem?_idxOf same.1

theorem exists_range (here : (expand ranges)[i]? = some name) :
    ∃ hr ∈ ranges, name ∈ hr.names ∧ (writtenNames ranges)[i]? = some (hr.written name) := by
  induction ranges generalizing i with
  | nil => cases here
  | cons hr ranges ih =>
    rw [expand_cons] at here
    rw [writtenNames_cons]
    by_cases inside : i < hr.names.length
    · rw [List.getElem?_append_left inside] at here
      refine ⟨hr, List.mem_cons_self, List.mem_of_getElem? here, ?_⟩
      rw [List.getElem?_append_left (by rwa [length_map]), getElem?_map, here, map_some]
    · rw [List.getElem?_append_right (by omega)] at here
      obtain ⟨other, mem, isName, written⟩ := ih here
      refine ⟨other, List.mem_cons_of_mem hr mem, isName, ?_⟩
      rw [List.getElem?_append_right (by rw [length_map]; omega), length_map]
      exact written

theorem written_of_getElem? (formed : ∀ hr ∈ ranges, Formed hr) {j : Nat}
    (here : (expand ranges)[i]? = some name)
    (written : (writtenNames ranges)[i]? = some (some name))
    (also : (expand ranges)[j]? = some name) : (writtenNames ranges)[j]? = some (some name) := by
  obtain ⟨other, -, isOther, writes⟩ := exists_range here
  obtain ⟨hr, isRange, isName, writesHr⟩ := exists_range also
  rw [writes, some_inj] at written
  rw [writesHr, written_of_mem (formed hr isRange) isName isOther written]

theorem find_answered (hosts : Hosts) (name : Name) :
    ∃ ret hl', hosts.list.find name = some (ret, hl') ∧ hl'.names = hosts.list.names ∧
      Answered hosts.ranges name 0 ret ∧
      (ret = position 0 (expand hosts.ranges) name ↔
        (name.rtakeWhile Char.isDigit ≠ [] → Seen (hostPrefixEnd name) hosts.ranges name)) := by
  have counted := hosts.counted
  by_cases plain : name.rtakeWhile Char.isDigit = []
  · have found := @findSlots_plain hosts.ranges name plain
      (fun hr mem => ((hosts.formed hr mem).count (by
        have shorter := length_names_le mem
        omega)).symm) 0 (by omega)
    rw [Nat.cast_zero] at found
    refine ⟨_, hosts.list, ?_, rfl, answered_of_position rfl, iff_of_true rfl (absurd plain)⟩
    rw [HostList.find, hostnameCreate_plain plain, Hosts.list, found, map_some]
  · obtain ⟨ret, ranges', found, widened, answered, right⟩ :=
      @findSlots_answered hosts.ranges name plain hosts.formed _ _ 0 (hostnameCreate_splitAt plain)
        (by omega)
    rw [Nat.cast_zero] at found
    refine ⟨ret, ⟨ranges'.map some, hosts.list.nhosts⟩, ?_, ?_, answered, ?_⟩
    · rw [HostList.find, Hosts.list, found, map_some]
    · rw [names_list, HostList.names, reduceOption_slots]
      exact expand_widened widened
    · rw [right, forall_prop_of_true plain]

theorem finds_of_position (legible : Legible hosts.ranges name)
    (value : ret = position 0 (expand hosts.ranges) name) :
    (∀ n : Nat, ret = n ↔ IsLeast {n : Nat | hosts.list.nth n = some (some name)} n) ∧
      (ret = -1 ↔ name ∉ expand hosts.ranges) := by
  rw [← idxOf_written_iff] at legible
  have mem : some name ∈ writtenNames hosts.ranges ↔ name ∈ expand hosts.ranges := by
    rw [← List.idxOf_lt_length_iff, ← List.idxOf_lt_length_iff, legible, length_writtenNames]
  refine ⟨fun n => ?_, ?_⟩
  · have start := @position_eq_iff name 0 n (expand hosts.ranges)
    rw [Nat.zero_add] at start
    rw [isLeast_nth, value, start, mem, legible, eq_comm (a := n)]
  · rw [value, position]
    split_ifs with inside
    · exact iff_of_false (by omega) (not_not_intro inside)
    · exact iff_of_true rfl inside

theorem position_of_finds (answered : Answered hosts.ranges name 0 ret)
    (least : ∀ n : Nat, ret = n ↔ IsLeast {n : Nat | hosts.list.nth n = some (some name)} n)
    (absent : ret = -1 ↔ name ∉ expand hosts.ranges) :
    Legible hosts.ranges name ∧ ret = position 0 (expand hosts.ranges) name := by
  rcases answered.bounds with none | ⟨i, inside, value⟩
  · have out := absent.mp none
    have unwritten : some name ∉ writtenNames hosts.ranges := by
      intro mem
      have first := (least _).mpr (isLeast_nth.mpr ⟨mem, rfl⟩)
      omega
    rw [← idxOf_written_iff, List.idxOf_eq_length unwritten, List.idxOf_eq_length out, length_writtenNames,
      position, if_neg out]
    exact ⟨rfl, none⟩
  · rw [Nat.zero_add] at value
    obtain ⟨mem, index⟩ := isLeast_nth.mp ((least i).mp value)
    have written : (writtenNames hosts.ranges)[i]? = some (some name) := by
      rw [index]
      exact List.getElem?_idxOf mem
    have here := answered.written i (by rw [Nat.zero_add]; exact value) written
    have isName : name ∈ expand hosts.ranges := List.mem_of_getElem? here
    have first : IsLeast {i : Nat | (expand hosts.ranges)[i]? = some name}
        ((expand hosts.ranges).idxOf name) := isLeast_getElem?.mpr ⟨isName, rfl⟩
    have also := written_of_getElem? hosts.formed here written first.1
    have before : i ≤ (expand hosts.ranges).idxOf name := by
      rw [index]
      exact (isLeast_getElem?.mpr ⟨mem, rfl⟩).2 also
    have same := Nat.le_antisymm before (first.2 here)
    refine ⟨?_, ?_⟩
    · rw [← idxOf_written_iff, ← index, same]
    · rw [value, eq_comm, ← Nat.zero_add i, position_eq_iff]
      exact ⟨isName, same.symm⟩

/-- `hostlist_find` is right exactly if the name is legible and is seen where it is first. -/
theorem find_iff (hosts : Hosts) (name : Name) : hosts.Finds name ↔
    (79 ≤ name.length → Legible hosts.ranges name) ∧
      (name.rtakeWhile Char.isDigit ≠ [] → Seen (hostPrefixEnd name) hosts.ranges name) := by
  obtain ⟨ret, hl', found, names, answered, right⟩ := find_answered hosts name
  rw [← right]
  have legible : (79 ≤ name.length → Legible hosts.ranges name) ↔ Legible hosts.ranges name :=
    ⟨fun long => (Nat.lt_or_ge name.length 79).elim legible_of_short long, fun all _ => all⟩
  rw [legible]
  constructor
  · rintro ⟨ret', hl'', found', -, least, absent⟩
    obtain ⟨rfl, rfl⟩ := Prod.mk.inj (some.inj (found.symm.trans found'))
    rw [names_list] at absent
    exact position_of_finds answered least absent
  · rintro ⟨written, value⟩
    obtain ⟨least, absent⟩ := finds_of_position written value
    rw [← names_list] at absent
    exact ⟨ret, hl', found, names, least, absent⟩

/-- In `n1[5-6],n[10-20]` the host `n12` is looked for in vain: the first range moves the digit
`1` to the prefix, where the second range does not have it. -/
theorem find_fails : ∃ hosts : Hosts, HostList.create "n1[5-6],n[10-20]".toList = some hosts.list ∧
      ¬hosts.Finds "n12".toList := by
  have formed : ∀ hr ∈ [create ['n', '1'] 5 6 1, create ['n'] 10 20 2], Formed hr := by
    refine forall_mem_cons.mpr ⟨⟨nofun, fun _ => ?_, ?_⟩,
      List.forall_mem_singleton.mpr ⟨nofun, fun _ => ?_, ?_⟩⟩ <;> decide
  have counted : (expand [create ['n', '1'] 5 6 1, create ['n'] 10 20 2]).length = 13 := by decide
  obtain ⟨hosts, ranges⟩ : ∃ hosts : Hosts,
      hosts.ranges = [create ['n', '1'] 5 6 1, create ['n'] 10 20 2] :=
    ⟨⟨_, formed, by omega⟩, rfl⟩
  have list : hosts.list = ⟨[create ['n', '1'] 5 6 1, create ['n'] 10 20 2].map some, 13⟩ := by
    rw [Hosts.list, ranges, counted]
    rfl
  have made : HostList.create "n1[5-6],n[10-20]".toList =
      some ⟨[create ['n', '1'] 5 6 1, create ['n'] 10 20 2].map some, 13⟩ := by
    decide +kernel
  have answer : (HostList.find ⟨[create ['n', '1'] 5 6 1, create ['n'] 10 20 2].map some, 13⟩
      "n12".toList).map Prod.fst = some (-1) := by
    decide +kernel
  have inside : "n12".toList ∈ expand [create ['n', '1'] 5 6 1, create ['n'] 10 20 2] := by
    decide +kernel
  refine ⟨hosts, by rw [list, made], ?_⟩
  rintro ⟨ret, hl', found, -, -, absent⟩
  rw [list] at found
  rw [found] at answer
  rw [names_list, ranges] at absent
  exact absent.mp (some.inj answer) inside

end SlurmSim.Hostlist
