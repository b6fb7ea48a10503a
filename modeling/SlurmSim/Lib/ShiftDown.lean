import Mathlib.Algebra.GroupWithZero.Nat
import Mathlib.Data.List.Basic

/-!
# Entries moved down

A part of an array is removed by moving every later entry to its place; what is behind
the last entry that was moved stays as it was.  A list of bits in blocks loses a block
that way.
-/

namespace SlurmSim.Lib.ShiftDown

open List

variable {α : Type} [Inhabited α]

/-- The entries from `i` on, `count` of them, are replaced by those `gap` further on. -/
def shiftDown (gap : Nat) : Nat → Nat → List α → List α
  | _, 0, a => a
  | i, count + 1, a => shiftDown gap (i + 1) count (a.set i (a.getD (i + gap) default))

theorem length_shiftDown (gap : Nat) {count : Nat} : ∀ (i : Nat) (a : List α),
    (shiftDown gap i count a).length = a.length := by
  induction count with
  | zero => exact fun _ _ => rfl
  | succ count ih =>
    intro i a
    rw [shiftDown, ih, length_set]

theorem getElem?_shiftDown (gap : Nat) (apart : 0 < gap) {count : Nat} :
    ∀ (i : Nat) (a : List α), i + count + gap ≤ a.length → ∀ j,
      (shiftDown gap i count a)[j]? = if i ≤ j ∧ j < i + count then a[j + gap]? else a[j]? := by
  induction count with
  | zero =>
    intro i a _ j
    rw [shiftDown, if_neg (by omega)]
  | succ count ih =>
    intro i a room j
    have here : a.getD (i + gap) default = a.get ⟨i + gap, by omega⟩ := by
      rw [getD_eq_getElem?_getD, getElem?_eq_getElem (by omega), Option.getD_some, get_eq_getElem]
    rw [shiftDown, ih (i + 1) _ (by rw [length_set]; omega) j]
    by_cases first : j = i
    · subst first
      rw [if_neg (by omega), if_pos (by omega), getElem?_set_self (by omega), here,
        get_eq_getElem, getElem?_eq_getElem (by omega)]
    · by_cases later : i + 1 ≤ j ∧ j < i + 1 + count
      · rw [if_pos later, if_pos (by omega), getElem?_set_ne (by omega)]
      · rw [if_neg later, if_neg (by omega), getElem?_set_ne (Ne.symm first)]

theorem take_shiftDown {gap i count : Nat} (apart : 0 < gap) (a : List α)
    (room : i + count + gap ≤ a.length) :
    (shiftDown gap i count a).take (i + count) = a.take i ++ (a.drop (i + gap)).take count := by
  refine ext_getElem? fun j => ?_
  have short : (a.take i).length = i := by rw [length_take]; omega
  by_cases before : j < i
  · rw [getElem?_take_of_lt (by omega), getElem?_shiftDown gap apart i a room, if_neg (by omega),
      getElem?_append_left (by omega), getElem?_take_of_lt before]
  · by_cases mem : j < i + count
    · rw [getElem?_take_of_lt mem, getElem?_shiftDown gap apart i a room, if_pos (by omega),
        getElem?_append_right (by omega), short, getElem?_take_of_lt (by omega),
        getElem?_drop]
      exact congrArg (a[·]?) (by omega)
    · rw [getElem?_eq_none (by rw [length_take]; omega), getElem?_eq_none]
      rw [length_append, length_take, length_take]
      omega

theorem take_shiftDown_one {i n : Nat} (a : List α) (mem : i ≤ n) (room : n + 1 ≤ a.length) :
    (shiftDown 1 i (n - i) a).take n = (a.take (n + 1)).eraseIdx i := by
  have whole := @take_shiftDown α _ 1 i (n - i) Nat.one_pos a (by omega)
  rw [Nat.add_sub_cancel' mem] at whole
  rw [whole, eraseIdx_eq_take_drop_succ, take_take, Nat.min_eq_left (by omega), drop_take]
  congr 2
  omega

/-! ## Blocks -/

/-- The bits in blocks of the given sizes. -/
def blocks : List Nat → List α → List (List α)
  | [], _ => []
  | size :: sizes, a => a.take size :: blocks sizes (a.drop size)

omit [Inhabited α] in
omit [Inhabited α] in
theorem blocks_erase {front back : List Nat} {size : Nat} : ∀ a : List α,
    front.sum ≤ a.length →
      blocks (front ++ back) (a.take front.sum ++ a.drop (front.sum + size)) =
        (blocks (front ++ size :: back) a).eraseIdx front.length := by
  induction front with
  | nil =>
    simp [blocks]
  | cons first front ih =>
    intro a enough
    rw [sum_cons] at enough ⊢
    have split : a.take (first + front.sum) ++ a.drop (first + front.sum + size) =
        a.take first ++ ((a.drop first).take front.sum ++
          (a.drop first).drop (front.sum + size)) := by
      rw [take_add, append_assoc, drop_drop, Nat.add_assoc]
    have short : (a.take first).length = first := by rw [length_take]; omega
    rw [cons_append, cons_append, blocks, blocks, length_cons, eraseIdx_cons_succ,
      split, take_left' short, drop_left' short,
      ih (a.drop first) (by rw [length_drop]; omega)]

end SlurmSim.Lib.ShiftDown
