import Mathlib.Data.List.Sort
import Mathlib.Data.Nat.Choose.Basic

/-!
# The combinations of `_gen_combs`

`_gen_combs` keeps one combination in the array `comb` and makes the next one from it: the
last entry is counted up, and while an entry is too large the one in front of it is counted
up instead.  The test of the index stands in front of the test of an entry, but behind the
increment.  Every index into `comb` is written down, also one that lies outside of it.
-/

namespace SlurmSim.Select.GenCombs

open List

/-- The cells around `comb`, the indices used so far and what went to `comb_list`. -/
structure Work where
  comb : Int → Int
  used : List Int
  combList : List Int

namespace Work

/-- `comb[i]` is read. -/
def reads (w : Work) (i : Int) : Work := { w with used := i :: w.used }

/-- `comb[i] = value` -/
def store (w : Work) (i value : Int) : Work :=
  { w with comb := Function.update w.comb i value, used := i :: w.used }

/-- `++comb[i]` -/
def bump (w : Work) (i : Int) : Work := w.store i (w.comb i + 1)

/-- `comb_list[b + i] = comb[i]`, `b` being the number of entries written before. -/
def copy (w : Work) (i : Int) : Work :=
  { w.reads i with combList := w.combList ++ [w.comb i] }

/-- `comb[i] = comb[i - 1] + 1` -/
def follow (w : Work) (i : Int) : Work := (w.reads (i - 1)).store i (w.comb (i - 1) + 1)

end Work

/-- The loop that backs up, with the number of entries up to the index `i`; the index
behind it comes out. -/
def backUp (n k : Nat) : Nat → Work → Work × Int
  | 0, w => (w, -1)
  | i + 1, w =>
    if (n : Int) - k + 1 + i ≤ w.comb i then backUp n k i ((w.reads i).bump (i - 1))
    else (w.reads i, i)

/-- One turn of the main loop, and whether it was the last one. -/
def turn (n k : Nat) (w : Work) : Work × Bool :=
  let copied := (List.range k).foldl (fun w (i : Nat) => w.copy i) w
  let (w, i) := backUp n k k (copied.bump ((k : Int) - 1))
  let w := w.reads 0
  if (n : Int) - k < w.comb 0 then (w, true)
  else (((List.range k).filter fun j : Nat => i < j).foldl (fun w (j : Nat) => w.follow j) w,
    false)

/-- The main loop; `none` when the turns do not suffice. -/
def run (n k : Nat) : Nat → Work → Option Work
  | 0, _ => none
  | turns + 1, w =>
    match turn n k w with
    | (w, true) => some w
    | (w, false) => run n k turns w

/-- `_gen_combs`, with the cells around `comb` as the memory has them. -/
def genCombs (n k : Nat) (around : Int → Int) (turns : Nat) : Option Work :=
  run n k turns ((List.range k).foldl (fun w (i : Nat) => w.store i i) ⟨around, [], []⟩)

/-- The increasing lists of `k` of the numbers below `n`. -/
def IsComb (n k : Nat) (comb : List Int) : Prop :=
  comb.length = k ∧ comb.Pairwise (· < ·) ∧ ∀ x ∈ comb, 0 ≤ x ∧ x < n

/-- `_gen_combs` ends with all combinations in lexicographic order, and every index into
`comb` is one of its entries. -/
def Generates (n k : Nat) (around : Int → Int) : Prop :=
  ∃ (turns : Nat) (w : Work) (combs : List (List Int)),
    genCombs n k around turns = some w ∧ w.combList = combs.flatten ∧
    w.combList.length = n.choose k * k ∧ combs.Pairwise (List.Lex (· < ·)) ∧
    (∀ comb, comb ∈ combs ↔ IsComb n k comb) ∧ ∀ i ∈ w.used, 0 ≤ i ∧ i < k

/-! ## What stays used -/

namespace Work

/-- The first entry is not too large, or an index in front of the array was used. -/
def Ok (n k : Nat) (w : Work) : Prop := w.comb 0 ≤ (n : Int) - k ∨ -1 ∈ w.used

variable {n k : Nat} {w : Work}

theorem Ok.reads (ok : w.Ok n k) (i : Int) : (w.reads i).Ok n k :=
  ok.imp id fun mem => mem_cons_of_mem i mem

theorem Ok.copy (ok : w.Ok n k) (i : Int) : (w.copy i).Ok n k := ok.reads i

theorem Ok.store (ok : w.Ok n k) {i : Int} (other : i ≠ 0) (value : Int) :
    (w.store i value).Ok n k := by
  rcases ok with small | inside
  · left
    change Function.update w.comb i value 0 ≤ _
    rwa [Function.update_of_ne other.symm]
  · exact Or.inr (mem_cons_of_mem i inside)

theorem Ok.follow (ok : w.Ok n k) {i : Int} (other : i ≠ 0) : (w.follow i).Ok n k :=
  (ok.reads (i - 1)).store other _

end Work

variable {n k : Nat}

theorem backUp_ok {i : Nat} {w : Work} (ok : i + 1 ≠ 1 → w.Ok n k) :
    (backUp n k (i + 1) w).1.Ok n k ∧
      ((backUp n k (i + 1) w).2 < 0 → -1 ∈ (backUp n k (i + 1) w).1.used) := by
  induction i generalizing w with
  | zero =>
    rw [backUp]
    split_ifs with large
    · have used : -1 ∈ ((w.reads (0 : Nat)).bump ((0 : Nat) - 1)).used := mem_cons_self
      exact ⟨Or.inr used, fun _ => used⟩
    · have small : w.comb 0 ≤ (n : Int) - k := by
        rw [Int.natCast_zero] at large
        omega
      exact ⟨Or.inl small, fun negative => absurd negative (by simp)⟩
  | succ i ih =>
    rw [backUp]
    have held := ok (by omega)
    split_ifs with large
    · refine ih fun notFirst => ?_
      exact (held.reads _).store (by omega) _
    · exact ⟨held.reads _, fun negative => absurd negative (by omega)⟩

theorem turn_ok {w : Work} (ok : w.Ok n (k + 1)) : (turn n (k + 1) w).1.Ok n (k + 1) ∧
    ((turn n (k + 1) w).2 = true → -1 ∈ (turn n (k + 1) w).1.used) := by
  have copied : ((List.range (k + 1)).foldl (fun w (i : Nat) => w.copy i) w).Ok n (k + 1) :=
    List.foldlRecOn _ _ ok fun w ok i _ => ok.copy i
  rw [turn]
  generalize (List.range (k + 1)).foldl (fun w (i : Nat) => w.copy i) w = first at copied
  have backed := backUp_ok (n := n) (k := k + 1) (i := k)
    (w := first.bump (((k + 1 : Nat) : Int) - 1)) fun notFirst => copied.store (by omega) _
  generalize backUp n (k + 1) (k + 1) (first.bump (((k + 1 : Nat) : Int) - 1)) = result at backed
  obtain ⟨after, i⟩ := result
  obtain ⟨kept, past⟩ := backed
  simp only
  split_ifs with ended
  · have used : -1 ∈ (after.reads 0).used :=
      mem_cons_of_mem 0 (kept.resolve_left (Int.not_le.mpr ended))
    exact ⟨Or.inr used, fun _ => used⟩
  · refine ⟨?_, fun ended => nomatch ended⟩
    by_cases negative : i < 0
    · right
      refine List.foldlRecOn (motive := fun w : Work => -1 ∈ w.used) _ _
        (mem_cons_of_mem 0 (past negative)) fun w used j _ => ?_
      exact mem_cons_of_mem _ (mem_cons_of_mem _ used)
    · refine List.foldlRecOn _ _ (kept.reads 0) fun w ok j mem => ok.follow ?_
      have later := of_decide_eq_true (mem_filter.mp mem).2
      omega

theorem run_used {turns : Nat} {w last : Work} (ok : w.Ok n (k + 1))
    (ends : run n (k + 1) turns w = some last) : -1 ∈ last.used := by
  induction turns generalizing w with
  | zero => cases ends
  | succ turns ih =>
    have kept := turn_ok ok
    rw [run] at ends
    split at ends
    · next after isTurn =>
      rw [isTurn] at kept
      exact Option.some.inj ends ▸ kept.2 rfl
    · next after isTurn =>
      rw [isTurn] at kept
      exact ih kept.1 ends

theorem initial_ok {around : Int → Int} (fits : k + 1 ≤ n) :
    ((List.range (k + 1)).foldl (fun w (i : Nat) => w.store i i)
      (⟨around, [], []⟩ : Work)).Ok n (k + 1) := by
  rw [range_succ_eq_map, foldl_cons]
  refine List.foldlRecOn _ _ (Or.inl ?_) fun w ok i mem => ok.store ?_ _
  · change Function.update around ((0 : Nat) : Int) ((0 : Nat) : Int) 0 ≤ _
    rw [Int.natCast_zero, Function.update_self]
    omega
  · obtain ⟨j, _, rfl⟩ := mem_map.mp mem
    omega

/-- However many numbers are combined, the last combination ends with an index in front of
the array. -/
theorem not_generates (more k : Nat) (around : Int → Int) :
    ¬Generates (k + 1 + more) (k + 1) around := by
  rintro ⟨turns, w, combs, ends, _, _, _, _, inside⟩
  have used := run_used (initial_ok (Nat.le_add_right (k + 1) more)) ends
  exact absurd (inside (-1) used).1 (by decide)

/-- The two combinations of one out of two numbers. -/
theorem one_of_two_fails : ¬∀ n k around, 1 ≤ k → k ≤ n → Generates n k around := by
  intro generates
  obtain ⟨turns, w, combs, ends, _, _, _, _, inside⟩ :=
    generates 2 1 (fun _ => 0) le_rfl (by decide)
  match turns with
  | 0 => cases ends
  | 1 => cases ends
  | turns + 2 =>
    obtain rfl := Option.some.inj ends
    exact absurd (inside (-1) (by decide)).1 (by decide)

end SlurmSim.Select.GenCombs
