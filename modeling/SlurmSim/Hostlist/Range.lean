import SlurmSim.Common.BitFmt
import Mathlib.Data.List.DropRight

/-!
# Host ranges

A host range is a prefix with consecutive numbers, which stands for the names of its
hosts, or one host without a number. Cluster dimension one. Characters are those of
ASCII, and numbers are of type `unsigned long`.
-/

namespace SlurmSim.Hostlist

open SlurmSim.Lib.Numerals SlurmSim.Common.Bitmap List

/-- A host name as text. -/
abbrev Name := List Char

/-! ## Natural order of prefixes -/

/-- `isspace` -/
def isSpace (c : Char) : Bool :=
  c = ' ' ∨ ('\t' ≤ c ∧ c ≤ '\r')

/-- The text starts with a digit. -/
def startsDigit : Name → Bool
  | [] => false
  | c :: _ => c.isDigit

/-- `compare_right` -/
def compareRight (bias : Int) : Name → Name → Int
  | [], b => if startsDigit b then -1 else bias
  | ca :: _, [] => if ca.isDigit then 1 else bias
  | ca :: a, cb :: b =>
    if !ca.isDigit ∧ !cb.isDigit then bias
    else if !ca.isDigit then -1
    else if !cb.isDigit then 1
    else if ca < cb then compareRight (if bias = 0 then -1 else bias) a b
    else if cb < ca then compareRight (if bias = 0 then 1 else bias) a b
    else compareRight bias a b

/-- `compare_left` -/
def compareLeft : Name → Name → Int
  | [], b => if startsDigit b then -1 else 0
  | ca :: _, [] => if ca.isDigit then 1 else 0
  | ca :: a, cb :: b =>
    if !ca.isDigit ∧ !cb.isDigit then 0
    else if !ca.isDigit then -1
    else if !cb.isDigit then 1
    else if ca < cb then -1
    else if cb < ca then 1
    else compareLeft a b

/-- The run of digits that two texts start with, if both do. -/
def compareDigits (a b : Name) : Int :=
  if startsDigit a ∧ startsDigit b then
    if a.head? = some '0' ∨ b.head? = some '0' then compareLeft a b else compareRight 0 a b
  else 0

/-- `strnatcmp` -/
def strnatcmp : Name → Name → Int
  | [], b => if b.dropWhile isSpace = [] then 0 else -1
  | ca :: a, b =>
    if isSpace ca then strnatcmp a b
    else
      match b.dropWhile isSpace with
      | [] => 1
      | cb :: b =>
        let result := compareDigits (ca :: a) (cb :: b)
        if result ≠ 0 then result
        else if ca < cb then -1
        else if cb < ca then 1
        else strnatcmp a b

theorem compareRight_self (a : Name) : compareRight 0 a a = 0 := by
  induction a with
  | nil => rfl
  | cons c a ih =>
    cases digit : c.isDigit <;> simp [compareRight, digit, ih]

theorem compareLeft_self (a : Name) : compareLeft a a = 0 := by
  induction a with
  | nil => rfl
  | cons c a ih =>
    cases digit : c.isDigit <;> simp [compareLeft, digit, ih]

theorem compareDigits_self (a : Name) : compareDigits a a = 0 := by
  rw [compareDigits]
  split_ifs
  · exact compareLeft_self a
  · exact compareRight_self a
  · rfl

/-- The text has no white space. -/
def Spaceless (a : Name) : Prop :=
  ∀ c ∈ a, isSpace c = false

instance (a : Name) : Decidable (Spaceless a) :=
  List.decidableBAll (fun c => isSpace c = false) a

theorem Spaceless.dropWhile {a : Name} (spaceless : Spaceless a) :
    a.dropWhile isSpace = a := by
  cases a with
  | nil => rfl
  | cons c a => rw [dropWhile_cons, if_neg (by simp [spaceless c mem_cons_self])]

theorem Spaceless.tail {c : Char} {a : Name} (spaceless : Spaceless (c :: a)) : Spaceless a :=
  fun d mem => spaceless d (mem_cons_of_mem c mem)

theorem strnatcmp_eq_zero {a b : Name} (spaceless : Spaceless a) (others : Spaceless b) :
    strnatcmp a b = 0 ↔ a = b := by
  induction a generalizing b with
  | nil =>
    rw [strnatcmp, others.dropWhile]
    cases b <;> simp
  | cons ca a ih =>
    rw [strnatcmp, if_neg (by simp [spaceless ca mem_cons_self]), others.dropWhile]
    cases b with
    | nil => simp
    | cons cb b =>
      have rest := ih spaceless.tail others.tail
      constructor
      · intro same
        simp only at same
        split_ifs at same with result below above
        · exact absurd same result
        · exact absurd same (by decide)
        · rw [Char.le_antisymm (Char.not_lt.mp above) (Char.not_lt.mp below), rest.mp same]
      · intro same
        obtain ⟨rfl, rfl⟩ := List.cons.inj same
        simp [compareDigits_self, rest]

/-! ### Exchanging the texts -/

theorem char_cases (c d : Char) : c < d ∧ ¬d < c ∨ c = d ∨ d < c ∧ ¬c < d := by
  by_cases below : c < d
  · exact .inl ⟨below, Char.lt_asymm below⟩
  by_cases above : d < c
  · exact .inr (.inr ⟨above, below⟩)
  · exact .inr (.inl (Char.le_antisymm (Char.not_lt.mp above) (Char.not_lt.mp below)))

theorem compareRight_swap (bias : Int) (a b : Name) :
    compareRight (-bias) b a = -compareRight bias a b := by
  induction a generalizing bias b with
  | nil =>
    cases b with
    | nil => rfl
    | cons cb b => cases digit : cb.isDigit <;> simp [compareRight, startsDigit, digit]
  | cons ca a ih =>
    cases b with
    | nil => cases digit : ca.isDigit <;> simp [compareRight, startsDigit, digit]
    | cons cb b =>
      rw [compareRight, compareRight]
      cases ca.isDigit <;> cases cb.isDigit
      · simp
      · simp
      · simp
      · have below : -(if bias = 0 then (-1 : Int) else bias) =
            if bias = 0 then 1 else -bias := by split_ifs <;> rfl
        have above : -(if bias = 0 then (1 : Int) else bias) =
            if bias = 0 then -1 else -bias := by split_ifs <;> rfl
        have swapped := ih (if bias = 0 then (-1 : Int) else bias) b
        have swapped' := ih (if bias = 0 then (1 : Int) else bias) b
        rw [below] at swapped
        rw [above] at swapped'
        rcases char_cases ca cb with ⟨less, not⟩ | rfl | ⟨less, not⟩
        · simp [less, not, swapped]
        · simp [ih]
        · simp [less, not, swapped']

theorem compareLeft_swap (a b : Name) : compareLeft b a = -compareLeft a b := by
  induction a generalizing b with
  | nil =>
    cases b with
    | nil => rfl
    | cons cb b => cases digit : cb.isDigit <;> simp [compareLeft, startsDigit, digit]
  | cons ca a ih =>
    cases b with
    | nil => cases digit : ca.isDigit <;> simp [compareLeft, startsDigit, digit]
    | cons cb b =>
      rw [compareLeft, compareLeft]
      cases ca.isDigit <;> cases cb.isDigit
      · simp
      · simp
      · simp
      · rcases char_cases ca cb with ⟨less, not⟩ | rfl | ⟨less, not⟩
        · simp [less, not]
        · simp [ih]
        · simp [less, not]

theorem compareDigits_swap (a b : Name) : compareDigits b a = -compareDigits a b := by
  have zero : compareRight 0 b a = -compareRight 0 a b := compareRight_swap 0 a b
  simp only [compareDigits, @and_comm (startsDigit b = true), @or_comm (b.head? = some '0'), zero,
    compareLeft_swap a b]
  split_ifs <;> rfl

theorem strnatcmp_nil_right (a : Name) :
    strnatcmp a [] = if a.dropWhile isSpace = [] then 0 else 1 := by
  induction a with
  | nil => rfl
  | cons c a ih =>
    rw [strnatcmp, dropWhile_cons]
    by_cases space : isSpace c = true
    · rw [if_pos space, if_pos space, ih]
    · rw [if_neg space, if_neg space, dropWhile_nil, if_neg (cons_ne_nil c a)]

theorem strnatcmp_dropWhile_left (a b : Name) :
    strnatcmp (a.dropWhile isSpace) b = strnatcmp a b := by
  induction a with
  | nil => rfl
  | cons c a ih =>
    rw [dropWhile_cons]
    split_ifs with space
    · rw [ih, strnatcmp, if_pos space]
    · rfl

theorem strnatcmp_dropWhile_right (a b : Name) :
    strnatcmp a (b.dropWhile isSpace) = strnatcmp a b := by
  induction a with
  | nil => rw [strnatcmp, strnatcmp, dropWhile_idempotent]
  | cons c a ih => rw [strnatcmp, strnatcmp, dropWhile_idempotent, ih]

theorem strnatcmp_swap (a b : Name) : strnatcmp b a = -strnatcmp a b := by
  induction a generalizing b with
  | nil =>
    rw [strnatcmp_nil_right, strnatcmp]
    split_ifs <;> rfl
  | cons ca a ih =>
    rw [← strnatcmp_dropWhile_right b, dropWhile_cons, strnatcmp]
    split_ifs with space
    · rw [strnatcmp_dropWhile_right, ih]
    · rw [← strnatcmp_dropWhile_left b]
      have head := head?_dropWhile_not isSpace b
      cases rest : b.dropWhile isSpace with
      | nil => rw [strnatcmp, dropWhile_cons, if_neg space, if_neg (cons_ne_nil ca a)]
      | cons cb rest' =>
        rw [rest] at head
        have space' : isSpace cb = false := by simpa using head
        rw [strnatcmp, if_neg (by simp [space']), dropWhile_cons, if_neg space]
        simp only [compareDigits_swap (ca :: a) (cb :: rest'), ih, ne_eq, neg_eq_zero]
        by_cases result : compareDigits (ca :: a) (cb :: rest') = 0
        · rcases char_cases ca cb with ⟨less, not⟩ | rfl | ⟨less, not⟩
          · simp [result, less, not]
          · simp [result]
          · simp [result, less, not]
        · rw [if_pos result, if_pos result]

/-! ## Numbers as text -/

/-- `%0*lu` -/
def numText (width n : Nat) : Name :=
  (padded 10 width n).map digitChar

/-- The loop of `_zero_padded`; it ends before the number is used up. -/
def digitLoop : Nat → Nat → Nat → Nat
  | 0, _, n => n
  | fuel + 1, num, n => if num / 10 = 0 then n else digitLoop fuel (num / 10) (n + 1)

/-- `_zero_padded` -/
def zeroPadded (num width : Nat) : Nat :=
  let n := digitLoop num num 1
  if n < width then width - n else 0

/-- `_width_equiv`: the widths as they are afterwards, `none` if they are not equivalent. -/
def widthEquiv (n wn m wm : Nat) : Option (Nat × Nat) :=
  if wn = wm then some (wn, wm)
  else
    let npad := zeroPadded n wn
    let nmpad := zeroPadded n wm
    let mpad := zeroPadded m wm
    let mnpad := zeroPadded m wn
    if npad ≠ nmpad ∧ mpad ≠ mnpad then none
    else if npad ≠ nmpad then some (wn, wn)
    else some (wm, wm)

theorem digitLoop_eq {fuel num : Nat} (enough : num ≤ fuel) (n : Nat) :
    digitLoop fuel num n + 1 = n + (numeral 10 num).length := by
  induction fuel generalizing num n with
  | zero =>
    rw [numeral_of_lt (by omega)]
    rfl
  | succ fuel ih =>
    rw [digitLoop]
    split_ifs with last
    · rw [numeral_of_lt (by omega), length_singleton]
    · have longer := numeral_of_le (show 1 < 10 by omega) (show 10 ≤ num by omega)
      rw [ih (by omega), longer, length_append, length_singleton]
      omega

theorem zeroPadded_eq (num width : Nat) :
    zeroPadded num width = width - (numeral 10 num).length := by
  have digits := digitLoop_eq (le_refl num) 1
  rw [zeroPadded]
  split_ifs <;> omega

theorem numText_congr {width other n : Nat} (same : zeroPadded n width = zeroPadded n other) :
    numText width n = numText other n := by
  rw [zeroPadded_eq, zeroPadded_eq] at same
  rw [numText, numText, padded, padded, same]

theorem length_numText (width n : Nat) :
    (numText width n).length = max width (numeral 10 n).length := by
  rw [numText, length_map, length_padded]

theorem numText_eq_iff {width other n : Nat} :
    numText width n = numText other n ↔ zeroPadded n width = zeroPadded n other := by
  constructor
  · intro same
    have length := congrArg List.length same
    rw [length_numText, length_numText] at length
    rw [zeroPadded_eq, zeroPadded_eq]
    omega
  · exact numText_congr

theorem numText_of_le {width other n k : Nat} (same : zeroPadded n width = zeroPadded n other)
    (le : n ≤ k) (differ : width ≠ other) : numText width k = numText other k := by
  have longer := length_numeral_mono 10 le
  apply numText_congr
  rw [zeroPadded_eq, zeroPadded_eq] at same ⊢
  omega

theorem widthEquiv_spec {n wn m wm vn vm : Nat} (equiv : widthEquiv n wn m wm = some (vn, vm)) :
    vn = vm ∧ (∀ k, n ≤ k → numText vn k = numText wn k) ∧
      (∀ k, m ≤ k → numText vm k = numText wm k) := by
  simp only [widthEquiv] at equiv
  split_ifs at equiv with same neither left
  · obtain ⟨rfl, rfl⟩ := Prod.mk.inj (Option.some.inj equiv)
    exact ⟨same, fun _ _ => rfl, fun _ _ => rfl⟩
  · obtain ⟨rfl, rfl⟩ := Prod.mk.inj (Option.some.inj equiv)
    have right := not_not.mp fun right => neither ⟨left, right⟩
    exact ⟨rfl, fun _ _ => rfl, fun k le => numText_of_le right.symm le same⟩
  · obtain ⟨rfl, rfl⟩ := Prod.mk.inj (Option.some.inj equiv)
    have left := not_not.mp left
    exact ⟨rfl, fun k le => numText_of_le left.symm le (Ne.symm same), fun _ _ => rfl⟩

theorem widthEquiv_isSome_iff {n wn m wm : Nat} (le : n ≤ m) :
    (widthEquiv n wn m wm).isSome ↔ numText wn m = numText wm m := by
  have longer := length_numeral_mono 10 le
  rw [numText_eq_iff, widthEquiv]
  simp only [zeroPadded_eq]
  split_ifs with same neither left
  · simp only [same, Option.isSome_some]
  · simp only [Option.isSome_none, Bool.false_eq_true, false_iff]
    omega
  · simp only [Option.isSome_some, true_iff]
    omega
  · simp only [Option.isSome_some, true_iff]
    omega

/-! ## Ranges -/

/-- Addition of `unsigned long`. -/
def ulongAdd (a b : Nat) : Nat :=
  (a + b) % 2 ^ 64

/-- Subtraction of `unsigned long`. -/
def ulongSub (a b : Nat) : Nat :=
  (a + 2 ^ 64 - b) % 2 ^ 64

/-- `struct hostrange_components` -/
structure HostRange where
  hostPrefix : Name
  lo : Nat
  hi : Nat
  width : Nat
  singlehost : Bool
deriving DecidableEq, Repr

namespace HostRange

/-- `hostrange_create_single` -/
def createSingle (hostPrefix : Name) : HostRange :=
  ⟨hostPrefix, 0, 0, 0, true⟩

/-- `hostrange_create` -/
def create (hostPrefix : Name) (lo hi width : Nat) : HostRange :=
  ⟨hostPrefix, lo, hi, width, false⟩

/-- `hostrange_copy` -/
def copy (hr : HostRange) : HostRange :=
  if hr.singlehost then createSingle hr.hostPrefix
  else create hr.hostPrefix hr.lo hr.hi hr.width

/-- `hostrange_count` -/
def count (hr : HostRange) : Nat :=
  if hr.singlehost then 1 else ulongAdd (ulongSub hr.hi hr.lo) 1

/-- `hostrange_empty` -/
def empty (hr : HostRange) : Bool :=
  hr.hi < hr.lo ∨ hr.hi = 2 ^ 64 - 1

/-- `hostrange_prefix_cmp` of two ranges. -/
def prefixCmp (h1 h2 : HostRange) : Int :=
  let retval := strnatcmp h1.hostPrefix h2.hostPrefix
  if retval = 0 then (h2.singlehost.toNat : Int) - h1.singlehost.toNat else retval

/-- `hostrange_within_range` -/
def withinRange (h1 h2 : HostRange) : Bool :=
  if prefixCmp h1 h2 = 0 then !(h1.singlehost || h2.singlehost) else false

/-- `hostrange_width_combine`: the ranges as they are afterwards, `none` for `0`. -/
def widthCombine (h0 h1 : HostRange) : Option (HostRange × HostRange) :=
  (widthEquiv h0.lo h0.width h1.lo h1.width).map fun widths =>
    ({ h0 with width := widths.1 }, { h1 with width := widths.2 })

/-- `hostrange_pop` -/
def pop (hr : HostRange) : Option Name × HostRange :=
  if hr.singlehost then (some hr.hostPrefix, { hr with lo := ulongAdd hr.lo 1 })
  else if 0 < hr.count then
    (some (hr.hostPrefix ++ numText hr.width hr.hi), { hr with hi := ulongSub hr.hi 1 })
  else (none, hr)

/-- `hostrange_shift` -/
def shift (hr : HostRange) : Option Name × HostRange :=
  if hr.singlehost then (some hr.hostPrefix, { hr with lo := ulongAdd hr.lo 1 })
  else if 0 < hr.count then
    (some (hr.hostPrefix ++ numText hr.width hr.lo), { hr with lo := ulongAdd hr.lo 1 })
  else (none, hr)

/-- `hostrange_delete_host`: the range and the greater part, `none` for a failed assertion. -/
def deleteHost (hr : HostRange) (n : Nat) : Option (HostRange × Option HostRange) :=
  if hr.lo ≤ n ∧ n ≤ hr.hi then
    if n = hr.lo then some ({ hr with lo := ulongAdd hr.lo 1 }, none)
    else if n = hr.hi then some ({ hr with hi := ulongSub hr.hi 1 }, none)
    else some ({ hr with hi := ulongSub n 1 }, some { hr.copy with lo := ulongAdd n 1 })
  else none

/-- Names with consecutive numbers. -/
def numbered (hostPrefix : Name) (width lo len : Nat) : List Name :=
  (List.range' lo len).map fun n => hostPrefix ++ numText width n

/-- The hosts that a range stands for. -/
def names (hr : HostRange) : List Name :=
  if hr.singlehost then [hr.hostPrefix]
  else numbered hr.hostPrefix hr.width hr.lo (hr.hi + 1 - hr.lo)

theorem numbered_append (hostPrefix : Name) (width lo len more : Nat) :
    numbered hostPrefix width lo (len + more) =
      numbered hostPrefix width lo len ++ numbered hostPrefix width (lo + len) more := by
  rw [numbered, numbered, numbered, ← map_append, ← range'_append_1]

theorem numbered_one (hostPrefix : Name) (width lo : Nat) :
    numbered hostPrefix width lo 1 = [hostPrefix ++ numText width lo] := rfl

theorem length_numbered (hostPrefix : Name) (width lo len : Nat) :
    (numbered hostPrefix width lo len).length = len := by
  rw [numbered, length_map, length_range']

theorem numbered_congr {width other lo : Nat} (hostPrefix : Name) (len : Nat)
    (same : ∀ k, lo ≤ k → numText width k = numText other k) :
    numbered hostPrefix width lo len = numbered hostPrefix other lo len := by
  apply map_congr_left
  intro k mem
  rw [same k (mem_range'_1.mp mem).1]

/-- What holds of the ranges of a list: one host in a range without numbers, whose name
does not end with a digit, and at least one host in every other range. The largest number
marks an empty range. -/
structure Proper (hr : HostRange) : Prop where
  single : hr.singlehost = true →
    hr = createSingle hr.hostPrefix ∧ hr.hostPrefix.rtakeWhile Char.isDigit = []
  ordered : hr.singlehost = false → hr.lo ≤ hr.hi
  bounded : hr.hi < 2 ^ 64 - 1

variable {hr other : HostRange}

theorem Proper.copy (proper : Proper hr) : hr.copy = hr := by
  rw [HostRange.copy]
  split_ifs with single
  · exact (proper.single single).1.symm
  · have single := Bool.eq_false_iff.mpr single
    rw [create, ← single]

theorem Proper.length_names (proper : Proper hr) : hr.names.length = hr.count := by
  rw [names, count]
  split_ifs with single
  · rfl
  · have ordered := proper.ordered (Bool.eq_false_iff.mpr single)
    have bounded := proper.bounded
    rw [length_numbered, ulongAdd, ulongSub]
    omega

theorem Proper.names_ne_nil (proper : Proper hr) : hr.names ≠ [] := by
  rw [names]
  split_ifs with single
  · exact cons_ne_nil _ _
  · have ordered := proper.ordered (Bool.eq_false_iff.mpr single)
    apply ne_nil_of_length_pos
    rw [length_numbered]
    omega

theorem Proper.not_empty (proper : Proper hr) : hr.empty = false := by
  have bounded := proper.bounded
  have ordered : hr.lo ≤ hr.hi := by
    cases single : hr.singlehost with
    | true =>
      rw [(proper.single single).1]
      exact le_rfl
    | false => exact proper.ordered single
  rw [empty, decide_eq_false_iff_not]
  omega

theorem widthCombine_spec {hr' other' : HostRange}
    (combined : widthCombine hr other = some (hr', other')) :
    ∃ width, hr' = { hr with width := width } ∧ other' = { other with width := width } ∧
      (∀ len, numbered hr.hostPrefix width hr.lo len = numbered hr.hostPrefix hr.width hr.lo len) ∧
      (∀ len, numbered other.hostPrefix width other.lo len =
        numbered other.hostPrefix other.width other.lo len) := by
  rw [widthCombine, Option.map_eq_some_iff] at combined
  obtain ⟨⟨vn, vm⟩, equiv, pair⟩ := combined
  obtain ⟨rfl, rfl⟩ := Prod.mk.inj pair
  obtain ⟨rfl, left, right⟩ := widthEquiv_spec equiv
  exact ⟨vn, rfl, rfl, fun len => numbered_congr _ len left, fun len => numbered_congr _ len right⟩

end HostRange

end SlurmSim.Hostlist
