import SlurmSim.Hostlist.Range

/-!
# Host names

A name is taken apart into a prefix and the number behind it, and looked for in ranges. A
range whose prefix ends with digits moves digits of the name from the number to the prefix,
and they stay there for the ranges that are looked at afterwards.
-/

namespace SlurmSim.Hostlist

open SlurmSim.Lib.Numerals SlurmSim.Common.Bitmap List

/-- `strtoul` in base 10: the number and what follows it, after blanks and a sign. -/
def strtoul (str : Name) : Nat × Name :=
  let body := str.dropWhile isSpace
  let (negative, body) : Bool × Name :=
    match body with
    | '-' :: body => (true, body)
    | '+' :: body => (false, body)
    | body => (false, body)
  let digits := body.takeWhile Char.isDigit
  let value := readOn 10 0 (digits.map fun c => c.toNat - 48)
  if digits = [] then (0, str)
  else if 2 ^ 64 ≤ value then (2 ^ 64 - 1, body.drop digits.length)
  else (if negative then ulongSub 0 value else value, body.drop digits.length)

/-- `struct hostname_components` -/
structure Hostname where
  hostname : Name
  hostPrefix : Name
  num : Nat
  suffix : Option Name

/-- `host_prefix_end`: the length of the prefix. -/
def hostPrefixEnd (hostname : Name) : Nat :=
  (hostname.rdropWhile Char.isDigit).length

/-- `hostname_create` -/
def hostnameCreate (hostname : Name) : Hostname :=
  let idx := hostPrefixEnd hostname
  if idx = hostname.length then ⟨hostname, hostname, 0, none⟩
  else
    let suffix := hostname.drop idx
    let (num, p) := strtoul suffix
    if p = [] then ⟨hostname, hostname.take idx, num, some suffix⟩
    else ⟨hostname, hostname, num, none⟩

/-- The text ends with a digit. -/
def endsDigit (text : Name) : Bool :=
  text.getLast?.any Char.isDigit

/-- Digits of the number are moved to the prefix. -/
def Hostname.move (hn : Hostname) (suffix : Name) (ldiff : Nat) : Hostname :=
  { hn with
    hostPrefix := hn.hostPrefix ++ suffix.take ldiff
    suffix := some (suffix.drop ldiff)
    num := (strtoul (suffix.drop ldiff)).1 }

/-- The end of `hostrange_hn_within`: the number of the name is in the range. -/
def numWithin (hr : HostRange) (hn : Hostname) (suffix : Name) : Bool × HostRange × Hostname :=
  if hn.num ≤ hr.hi ∧ hr.lo ≤ hn.num then
    let num := (toInt32 hn.num % 2 ^ 64).toNat
    match widthEquiv hr.lo hr.width num suffix.length with
    | none => (false, hr, hn)
    | some (width, _) => (true, { hr with width := width }, hn)
  else (false, hr, hn)

/-- `hostrange_hn_within`: the answer, and what it makes of the range and the name. -/
def hnWithin (hr : HostRange) (hn : Hostname) : Bool × HostRange × Hostname :=
  if hr.singlehost then (hn.hostname = hr.hostPrefix, hr, hn)
  else
    match hn.suffix with
    | none => (false, hr, hn)
    | some suffix =>
      if hr.hostPrefix = hn.hostPrefix then numWithin hr hn suffix
      else
        let ldiff := hr.hostPrefix.length - hn.hostPrefix.length
        if 0 < ldiff ∧ endsDigit hr.hostPrefix ∧ ldiff ≤ suffix.length then
          let hn := hn.move suffix ldiff
          if hr.hostPrefix = hn.hostPrefix then numWithin hr hn (suffix.drop ldiff)
          else (false, hr, hn)
        else (false, hr, hn)

/-! ## Digits as text -/

/-- The number that digits stand for. -/
def textValue (text : Name) : Nat :=
  readOn 10 0 (text.map fun c => c.toNat - 48)

/-- Text that consists of digits. -/
def Digits (text : Name) : Prop :=
  ∀ c ∈ text, c.isDigit = true

theorem digitChar_isDigit {digit : Nat} (small : digit < 10) :
    (digitChar digit).isDigit = true ∧ (digitChar digit).toNat - 48 = digit := by
  revert digit
  decide

theorem digit_of_isDigit {c : Char} (isDigit : c.isDigit = true) :
    c.toNat - 48 < 10 ∧ digitChar (c.toNat - 48) = c := by
  have bounds : 48 ≤ c.toNat ∧ c.toNat ≤ 57 := by
    rw [Char.isDigit, Bool.and_eq_true, decide_eq_true_iff, decide_eq_true_iff] at isDigit
    exact ⟨UInt32.le_iff_toNat_le.mp isDigit.1, UInt32.le_iff_toNat_le.mp isDigit.2⟩
  refine ⟨by omega, ?_⟩
  rw [digitChar, Nat.add_sub_cancel' bounds.1, Char.ofNat_toNat]

theorem digits_numText (width n : Nat) : Digits (numText width n) := by
  intro c mem
  obtain ⟨digit, isDigit, rfl⟩ := mem_map.mp mem
  exact (digitChar_isDigit (lt_of_mem_padded (by omega) isDigit)).1

theorem numText_ne_nil (width n : Nat) : numText width n ≠ [] := by
  rw [numText, Ne, map_eq_nil_iff]
  exact padded_ne_nil 10 width n

theorem map_digitChar {digits : List Nat} (small : ∀ digit ∈ digits, digit < 10) :
    (digits.map digitChar).map (fun c => c.toNat - 48) = digits := by
  rw [map_map]
  conv_rhs => rw [← map_id digits]
  exact map_congr_left fun digit mem => (digitChar_isDigit (small digit mem)).2

theorem textValue_numText (width n : Nat) : textValue (numText width n) = n := by
  rw [textValue, numText, map_digitChar fun digit => lt_of_mem_padded (by omega), read_padded]

variable {text name : Name}

theorem numText_textValue (digits : Digits text) (some : text ≠ []) :
    numText text.length (textValue text) = text := by
  have back : (text.map fun c => c.toNat - 48).map digitChar = text := by
    rw [map_map]
    conv_rhs => rw [← map_id text]
    exact map_congr_left fun c mem => (digit_of_isDigit (digits c mem)).2
  have nonempty : (text.map fun c => c.toNat - 48) ≠ [] := by rwa [Ne, map_eq_nil_iff]
  have small : ∀ digit ∈ text.map fun c => c.toNat - 48, digit < 10 := by
    intro digit mem
    obtain ⟨c, isDigit, rfl⟩ := mem_map.mp mem
    exact (digit_of_isDigit (digits c isDigit)).1
  have read := padded_read (by omega) nonempty small
  rw [length_map] at read
  rw [numText, textValue, read, back]

theorem not_isSpace_of_isDigit {c : Char} (isDigit : c.isDigit = true) :
    isSpace c = false ∧ c ≠ '-' ∧ c ≠ '+' := by
  obtain ⟨small, back⟩ := digit_of_isDigit isDigit
  rw [← back]
  revert small
  generalize c.toNat - 48 = digit
  revert digit
  decide

theorem takeWhile_digits (digits : Digits text) : text.takeWhile Char.isDigit = text :=
  takeWhile_eq_self_iff.mpr digits

theorem strtoul_digits (digits : Digits text) :
    strtoul text = (min (textValue text) (2 ^ 64 - 1), []) := by
  cases text with
  | nil => rfl
  | cons c text =>
    obtain ⟨space, minus, plus⟩ := not_isSpace_of_isDigit (digits c mem_cons_self)
    have body : (c :: text).dropWhile isSpace = c :: text := by
      rw [dropWhile_cons, if_neg (by simp [space])]
    rw [strtoul, body]
    split
    rename_i negative rest sign
    split at sign
    · rename_i head
      exact absurd (List.cons.inj head).1 minus
    · rename_i head
      exact absurd (List.cons.inj head).1 plus
    · obtain ⟨rfl, rfl⟩ := Prod.mk.inj sign
      rw [takeWhile_digits digits, if_neg (cons_ne_nil c text), drop_length]
      change (if 2 ^ 64 ≤ textValue (c :: text) then _ else (textValue (c :: text), _)) = _
      split_ifs with large
      · rw [min_eq_right (by omega)]
      · rw [min_eq_left (by omega)]

theorem rtakeWhile_ne_nil (text : Name) {digits : Name} (all : Digits digits)
    (some : digits ≠ []) : (text ++ digits).rtakeWhile Char.isDigit ≠ [] := by
  rw [Ne, rtakeWhile_eq_nil_iff]
  intro none
  have nonempty := append_ne_nil_of_right_ne_nil text some
  apply none nonempty
  rw [getLast_append_of_ne_nil nonempty some]
  exact all _ (getLast_mem some)

/-! ## Looking for a name -/

/-- A name that is taken apart behind `k` characters. -/
structure SplitAt (hn : Hostname) (name : Name) (k : Nat) : Prop where
  hostname : hn.hostname = name
  within : k ≤ name.length
  hostPrefix : hn.hostPrefix = name.take k
  suffix : hn.suffix = some (name.drop k)
  num : hn.num = min (textValue (name.drop k)) (2 ^ 64 - 1)
  digits : Digits (name.drop k)

theorem hostnameCreate_plain (plain : name.rtakeWhile Char.isDigit = []) :
    hostnameCreate name = ⟨name, name, 0, none⟩ := by
  have whole : name.rdropWhile Char.isDigit ++ name.rtakeWhile Char.isDigit = name :=
    rdropWhile_append_rtakeWhile
  rw [plain, append_nil] at whole
  rw [hostnameCreate, hostPrefixEnd, whole, if_pos rfl]

theorem drop_hostPrefixEnd (name : Name) :
    name.drop (hostPrefixEnd name) = name.rtakeWhile Char.isDigit := by
  have whole : name.rdropWhile Char.isDigit ++ name.rtakeWhile Char.isDigit = name :=
    rdropWhile_append_rtakeWhile
  calc name.drop (hostPrefixEnd name)
      = (name.rdropWhile Char.isDigit ++ name.rtakeWhile Char.isDigit).drop
          (name.rdropWhile Char.isDigit).length := by rw [whole, hostPrefixEnd]
    _ = name.rtakeWhile Char.isDigit := drop_left

theorem hostPrefixEnd_le (name : Name) : hostPrefixEnd name ≤ name.length :=
  ( rdropWhile_prefix Char.isDigit name).length_le

theorem hostnameCreate_splitAt (numbered : name.rtakeWhile Char.isDigit ≠ []) :
    SplitAt (hostnameCreate name) name (hostPrefixEnd name) := by
  have digits : Digits (name.drop (hostPrefixEnd name)) := by
    rw [drop_hostPrefixEnd]
    exact fun c mem => mem_rtakeWhile_imp mem
  have proper : hostPrefixEnd name ≠ name.length := by
    intro whole
    rw [← drop_hostPrefixEnd, whole, drop_length] at numbered
    exact numbered rfl
  simp only [hostnameCreate, if_neg proper, strtoul_digits digits, if_pos]
  exact ⟨rfl, hostPrefixEnd_le name, rfl, rfl, rfl, digits⟩

theorem drop_further {name : Name} {k l : Nat} (le : k ≤ l) :
    (name.drop k).drop (l - k) = name.drop l := by
  rw [drop_drop, Nat.add_sub_cancel' le]

theorem SplitAt.digits_of_le {hn : Hostname} {k l : Nat} (split : SplitAt hn name k) (le : k ≤ l) :
    Digits (name.drop l) := by
  rw [← drop_further le]
  exact fun c mem => split.digits c (mem_of_mem_drop mem)

theorem SplitAt.move {hn : Hostname} {name : Name} {k l : Nat} (split : SplitAt hn name k) (le : k ≤ l)
    (within : l ≤ name.length) :
    SplitAt (hn.move (name.drop k) (l - k)) name l := by
  have rest := @drop_further name k l le
  have digits := split.digits_of_le le
  refine ⟨split.hostname, within, ?_, ?_, ?_, digits⟩
  · have front : name.take l = name.take (k + (l - k)) := by
      congr 1
      omega
    rw [Hostname.move, split.hostPrefix, front, take_add]
  · rw [Hostname.move, rest]
  · rw [Hostname.move, rest, strtoul_digits digits]

namespace HostRange

variable {hr : HostRange} {name : Name}

theorem mem_names_iff (ranged : hr.singlehost = false) : name ∈ hr.names ↔
    ∃ n, (hr.lo ≤ n ∧ n ≤ hr.hi) ∧ name = hr.hostPrefix ++ numText hr.width n := by
  rw [names, ranged, if_neg Bool.false_ne_true, numbered, mem_map]
  constructor
  · rintro ⟨n, mem, rfl⟩
    have bounds := mem_range'_1.mp mem
    exact ⟨n, ⟨bounds.1, by omega⟩, rfl⟩
  · rintro ⟨n, bounds, rfl⟩
    exact ⟨n, mem_range'_1.mpr ⟨bounds.1, by omega⟩, rfl⟩

theorem append_mem_names_iff (ranged : hr.singlehost = false) {suffix : Name} :
    hr.hostPrefix ++ suffix ∈ hr.names ↔ (hr.lo ≤ textValue suffix ∧ textValue suffix ≤ hr.hi) ∧
        suffix = numText hr.width (textValue suffix) := by
  rw [mem_names_iff ranged]
  constructor
  · rintro ⟨n, bounds, same⟩
    have suffix := append_cancel_left same
    rw [suffix, textValue_numText]
    exact ⟨bounds, rfl⟩
  · rintro ⟨bounds, same⟩
    exact ⟨textValue suffix, bounds, congrArg _ same⟩

/-- The prefix of the range is the whole name, and the range starts with an unpadded zero:
the name is taken for host zero of the range. -/
def Bare (hr : HostRange) (name : Name) : Prop :=
  hr.singlehost = false ∧ hr.hostPrefix = name ∧ hr.lo = 0 ∧ hr.width ≤ 1

/-- The prefix of the range may take digits of the name. -/
def Shadows (hr : HostRange) (name : Name) : Prop :=
  hr.singlehost = false ∧ endsDigit hr.hostPrefix = true ∧ hr.hostPrefix.length ≤ name.length

instance (hr : HostRange) (name : Name) : Decidable (Shadows hr name) :=
  inferInstanceAs (Decidable (_ ∧ _ ∧ _))

theorem take_of_mem_names (ranged : hr.singlehost = false) (mem : name ∈ hr.names) :
    hr.hostPrefix = name.take hr.hostPrefix.length ∧ hr.hostPrefix.length < name.length := by
  obtain ⟨n, -, rfl⟩ := (mem_names_iff ranged).mp mem
  have nonempty := length_pos_of_ne_nil (numText_ne_nil hr.width n)
  rw [take_left, length_append]
  exact ⟨rfl, by omega⟩

theorem endsDigit_take {k l : Nat} (less : k < l) (le : l ≤ name.length)
    (digits : Digits (name.drop k)) : endsDigit (name.take l) = true := by
  have inside : l - 1 < name.length := by omega
  have mem : name[l - 1] ∈ name.drop k :=
    mem_drop_iff_getElem.mpr ⟨l - 1 - k, by omega, by congr 1; omega⟩
  rw [endsDigit, getLast?_take, if_neg (by omega), getElem?_eq_getElem inside]
  exact digits _ mem

theorem single_not_mem (proper : Proper hr) (single : hr.singlehost = true)
    (numbered : name.rtakeWhile Char.isDigit ≠ []) : name ≠ hr.hostPrefix := by
  rintro rfl
  exact numbered (proper.single single).2

/-- What looking at one range does: the range keeps its names, digits may be taken, and the
answer says whether the range has the name unless more digits than the prefix of the range
have been taken before. -/
structure Looks (hr : HostRange) (name : Name) (k : Nat)
    (answer : Bool × HostRange × Hostname) : Prop where
  widened : ∃ width, answer.2.1 = { hr with width := width } ∧
    ∀ len, numbered hr.hostPrefix width hr.lo len = numbered hr.hostPrefix hr.width hr.lo len
  split : SplitAt answer.2.2 name (if Shadows hr name then max k hr.hostPrefix.length else k)
  sound : answer.1 = true → hr.singlehost = false ∧ name ∈ hr.names ∧
    answer.2.2.num = textValue (name.drop hr.hostPrefix.length)
  complete : name ∈ hr.names → k ≤ hr.hostPrefix.length → answer.1 = true

theorem hnWithin_plain (plain : name.rtakeWhile Char.isDigit = []) :
    hnWithin hr ⟨name, name, 0, none⟩ = (decide (name ∈ hr.names), hr, ⟨name, name, 0, none⟩) := by
  rw [hnWithin]
  cases single : hr.singlehost with
  | true =>
    rw [if_pos rfl, names, if_pos single]
    simp only [mem_singleton]
  | false =>
    have out : name ∉ hr.names := by
      intro mem
      obtain ⟨n, -, rfl⟩ := (mem_names_iff single).mp mem
      exact rtakeWhile_ne_nil _ (digits_numText hr.width n) (numText_ne_nil hr.width n) plain
    rw [if_neg Bool.false_ne_true, decide_eq_false out]

end HostRange

end SlurmSim.Hostlist
