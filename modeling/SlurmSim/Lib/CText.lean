import Mathlib.Data.List.TakeWhile

/-!
# Text in a buffer

A buffer is a list of characters, and a write leaves all characters but its own as they were.
A write behind the end of the buffer has no result.
-/

namespace SlurmSim.Lib.CText

open List

/-- The character that ends a text. -/
def nul : Char := Char.ofNat 0

/-- The text of an array of characters. -/
def cString (buff : List Char) : List Char := buff.takeWhile fun c => c ≠ nul

/-- Characters are written from a position on. -/
def writeAt (buf : List Char) (pos : Nat) (text : List Char) : Option (List Char) :=
  if pos + text.length ≤ buf.length then
    some (buf.take pos ++ text ++ buf.drop (pos + text.length))
  else none

/-- `snprintf` of a text into `n` characters from a position on. -/
def snprintfAt (buf : List Char) (pos n : Nat) (text : List Char) : Option (List Char) :=
  if n = 0 then some buf else writeAt buf pos (text.take (n - 1) ++ [nul])

/-- A character is written from a position on, or it is left out. -/
def putIf (present : Bool) (buf : List Char) (pos : Nat) (c : Char) : Option (List Char) :=
  if present then writeAt buf pos [c] else some buf

/-- A character that is written or left out. -/
def charIf (present : Bool) (c : Char) : List Char :=
  if present then [c] else []

variable {buf front text : List Char} {n : Nat}

@[simp] theorem length_charIf (present : Bool) (c : Char) :
    (charIf present c).length = present.toNat := by
  cases present with
  | false => rfl
  | true => rfl

theorem writeAt_spec (starts : front <+: buf) (fits : front.length + text.length ≤ buf.length) :
    ∃ after, writeAt buf front.length text = some after ∧ after.length = buf.length ∧
      front ++ text <+: after := by
  obtain ⟨rest, rfl⟩ := starts
  refine ⟨_, if_pos fits, ?_, ?_⟩
  · rw [length_append] at fits
    simp only [length_append, length_take, length_drop]
    omega
  · rw [take_left]
    exact prefix_append _ _

theorem putIf_spec (present : Bool) (c : Char) (starts : front ++ text <+: buf)
    (fits : front.length + (text.length + present.toNat) ≤ buf.length) :
    ∃ after, putIf present buf (front.length + text.length) c = some after ∧
      after.length = buf.length ∧ front ++ (text ++ charIf present c) <+: after := by
  cases present with
  | false => exact ⟨buf, rfl, rfl, by simpa [charIf] using starts⟩
  | true =>
    obtain ⟨after, written, same, begins⟩ := @writeAt_spec buf (front ++ text) [c] starts (by
        rw [length_append, length_singleton, Nat.add_assoc]
        exact fits)
    rw [length_append] at written
    rw [append_assoc] at begins
    exact ⟨after, written, same, begins⟩

theorem snprintfAt_spec (starts : front <+: buf) (fits : front.length + n ≤ buf.length)
    (text : List Char) :
    ∃ after, snprintfAt buf front.length n text = some after ∧ after.length = buf.length ∧
      front <+: after ∧ (text.length < n → front ++ text <+: after) := by
  rw [snprintfAt]
  split_ifs with none_
  · refine ⟨buf, rfl, rfl, starts, fun short => ?_⟩
    rw [none_] at short
    exact absurd short (Nat.not_lt_zero _)
  · have length : (text.take (n - 1) ++ [nul]).length ≤ n := by
      rw [length_append, length_take, length_singleton]
      omega
    obtain ⟨after, written, same, begins⟩ := writeAt_spec starts
      (Nat.le_trans (Nat.add_le_add_left length front.length) fits)
    refine ⟨after, written, same, (prefix_append _ _).trans begins, fun short => ?_⟩
    rw [take_of_length_le (by omega), ← append_assoc] at begins
    exact (prefix_append _ _).trans begins

theorem cString_of_prefix (ended : text ++ [nul] <+: buf) (plain : nul ∉ text) :
    cString buf = text := by
  obtain ⟨rest, rfl⟩ := ended
  have all : ∀ c ∈ text, decide (c ≠ nul) = true := fun c mem =>
    decide_eq_true fun same => plain (same ▸ mem)
  rw [cString, append_assoc, takeWhile_append_of_pos all, singleton_append,
    takeWhile_cons_of_neg (by simp), append_nil]

end SlurmSim.Lib.CText
