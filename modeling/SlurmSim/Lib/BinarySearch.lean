import Mathlib.Data.List.Basic

/-!
# Searching a sorted array with a comparator

`bsearch` is the binary search of the C library.  It finds an element when the comparator
tells for each element on which side of it the key belongs.
-/

namespace SlurmSim.Lib

variable {α : Type}

/-- The search between two bounds.  The number of rounds is bounded by `fuel`. -/
def bsearchBetween (compar : α → Int) (base : List α) : Nat → Nat → Nat → Option α
  | 0, _, _ => none
  | fuel + 1, l, u =>
    if l < u then
      match base[(l + u) / 2]? with
      | none => none
      | some p =>
        if compar p < 0 then bsearchBetween compar base fuel l ((l + u) / 2)
        else if 0 < compar p then bsearchBetween compar base fuel ((l + u) / 2 + 1) u
        else some p
    else none

/-- `compar` compares the key with an element. -/
def bsearch (compar : α → Int) (base : List α) : Option α :=
  bsearchBetween compar base base.length 0 base.length

variable {compar : α → Int} {base : List α}

variable {p : α}

theorem bsearchBetween_sound {fuel l u : Nat}
    (found : bsearchBetween compar base fuel l u = some p) : p ∈ base ∧ compar p = 0 := by
  induction fuel generalizing l u with
  | zero => cases found
  | succ fuel ih =>
    unfold bsearchBetween at found
    cases probe : base[(l + u) / 2]? with
    | none => simp [probe] at found
    | some x =>
      simp only [probe] at found
      split_ifs at found with less greater
      · exact ih found
      · exact ih found
      · obtain rfl := Option.some.inj found
        exact ⟨List.mem_of_getElem? probe, by omega⟩

theorem bsearch_sound (found : bsearch compar base = some p) : p ∈ base ∧ compar p = 0 :=
  bsearchBetween_sound found

/-- No element behind one that is too large is small enough, and the other way round. -/
def Parted (compar : α → Int) (base : List α) : Prop :=
  base.Pairwise fun x y => (compar x < 0 → compar y < 0) ∧ (0 < compar y → 0 < compar x)

theorem bsearchBetween_complete (parted : Parted compar base) {fuel l u k : Nat}
    (mem : base[k]? = some p) (equal : compar p = 0) (low : l ≤ k) (high : k < u)
    (within : u ≤ base.length) (enough : u - l ≤ fuel) :
    ∃ q, bsearchBetween compar base fuel l u = some q := by
  induction fuel generalizing l u with
  | zero => omega
  | succ fuel ih =>
    have more : l < u := Nat.lt_of_le_of_lt low high
    have below : (l + u) / 2 < base.length := by omega
    have probe : base[(l + u) / 2]? = some base[(l + u) / 2] := List.getElem?_eq_getElem below
    have keyBelow : k < base.length := Nat.lt_of_lt_of_le high within
    have key : base[k] = p := Option.some.inj ((List.getElem?_eq_getElem keyBelow).symm.trans mem)
    unfold bsearchBetween
    rw [if_pos more, probe]
    dsimp only
    split_ifs with less greater
    · refine ih low ?_ (by omega) (by omega)
      refine Nat.lt_of_not_le fun behind => ?_
      rcases Nat.lt_or_eq_of_le behind with behind | same
      · have later := ((List.pairwise_iff_getElem.mp parted) _ _ below keyBelow behind).1 less
        rw [key, equal] at later
        exact absurd later (by decide)
      · simp only [same, key, equal] at less
        exact absurd less (by decide)
    · refine ih ?_ high within (by omega)
      refine Nat.lt_of_not_le fun before => ?_
      rcases Nat.lt_or_eq_of_le before with before | same
      · have earlier := ((List.pairwise_iff_getElem.mp parted) _ _ keyBelow below before).2 greater
        rw [key, equal] at earlier
        exact absurd earlier (by decide)
      · simp only [← same, key, equal] at greater
        exact absurd greater (by decide)
    · exact ⟨_, rfl⟩

theorem bsearch_complete (parted : Parted compar base) (mem : p ∈ base) (equal : compar p = 0) :
    ∃ q, bsearch compar base = some q := by
  obtain ⟨k, isAt⟩ := List.mem_iff_getElem?.mp mem
  have below : k < base.length := (List.getElem?_eq_some_iff.mp isAt).1
  exact bsearchBetween_complete parted isAt equal (Nat.zero_le k) below (Nat.le_refl _)
    (Nat.le_refl _)

end SlurmSim.Lib
