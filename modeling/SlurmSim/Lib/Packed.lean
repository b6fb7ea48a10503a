import Mathlib.Algebra.BigOperators.Group.List.Basic
import Mathlib.Algebra.GroupWithZero.Nat
import Mathlib.Data.Nat.Count

/-!
# Packed arrays

A packed array has one entry for each member of a set of indices, in the order of the
indices.  The entry of a member stands at the number of members below it.  In a packed
bitmap every member has a block of bits of its own width.
-/

namespace SlurmSim.Lib.Packed

open List

variable (s : Finset Nat)

/-- The members below a bound, in order. -/
def members (n : Nat) : List Nat := (List.range n).filter (· ∈ s)

/-- The place of an index. -/
def place (n : Nat) : Nat := Nat.count (· ∈ s) n

theorem members_succ (n : Nat) :
    members s (n + 1) = members s n ++ if n ∈ s then [n] else [] := by
  rw [members, range_succ, filter_append]
  congr 1
  split_ifs with mem
  · simp [mem]
  · simp [mem]

theorem place_succ (n : Nat) : place s (n + 1) = place s n + if n ∈ s then 1 else 0 :=
  Nat.count_succ _ _

theorem length_members (n : Nat) : (members s n).length = place s n := by
  induction n with
  | zero => rfl
  | succ n ih =>
    rw [members_succ, place_succ, length_append, ih]
    split_ifs
    · rfl
    · rfl

variable {s} {i j n : Nat}

theorem place_lt (mem : i ∈ s) (below : i < n) : place s i < place s n :=
  Nat.count_strict_mono (p := (· ∈ s)) mem below

theorem place_le (s : Finset Nat) (n : Nat) : place s n ≤ n := Nat.count_le _

theorem members_prefix (le : i ≤ n) : ∃ back, members s n = members s i ++ back := by
  obtain ⟨d, rfl⟩ := Nat.exists_eq_add_of_le le
  exact ⟨_, by rw [members, range_add, filter_append]; rfl⟩

theorem take_members (le : i ≤ n) : (members s n).take (place s i) = members s i := by
  obtain ⟨back, eq⟩ := members_prefix (s := s) le
  rw [eq, ← length_members, take_left]

theorem getElem?_members (mem : i ∈ s) (below : i < n) :
    (members s n)[place s i]? = some i := by
  obtain ⟨back, eq⟩ := members_prefix (s := s) (Nat.succ_le_of_lt below)
  rw [eq, members_succ, if_pos mem, append_assoc, ← length_members,
    getElem?_append_right le_rfl, Nat.sub_self]
  rfl

theorem idxOf_members (mem : i ∈ s) (below : i < n) : (members s n).idxOf i = place s i := by
  have nodup : (members s n).Nodup := List.nodup_range.filter _
  obtain ⟨bound, at_⟩ := List.getElem?_eq_some_iff.mp (getElem?_members mem below)
  have found := nodup.idxOf_getElem _ bound
  rwa [at_] at found

theorem mem_members : i ∈ members s n ↔ i < n ∧ i ∈ s := by
  simp [members]

/-! ## Blocks -/

variable (s) (width : Nat → Nat)

/-- The first bit of the block of a member. -/
def blockStart (n : Nat) : Nat := ((members s n).map width).sum

theorem blockStart_succ (n : Nat) :
    blockStart s width (n + 1) = blockStart s width n + if n ∈ s then width n else 0 := by
  rw [blockStart, members_succ, map_append, sum_append]
  split_ifs
  · simp [blockStart]
  · simp [blockStart]

variable {s}

theorem blockStart_mono (le : i ≤ n) : blockStart s width i ≤ blockStart s width n := by
  obtain ⟨back, eq⟩ := members_prefix (s := s) le
  rw [blockStart, blockStart, eq, map_append, sum_append]
  exact Nat.le_add_right _ _

theorem blockStart_add_le (mem : i ∈ s) (below : i < n) :
    blockStart s width i + width i ≤ blockStart s width n := by
  have step := blockStart_mono (s := s) width (Nat.succ_le_of_lt below)
  rw [blockStart_succ, if_pos mem] at step
  exact step

theorem block_unique (iInside : i ∈ s) (jInside : j ∈ s) {k l : Nat} (iBit : k < width i)
    (jBit : l < width j) (same : blockStart s width i + k = blockStart s width j + l) :
    i = j ∧ k = l := by
  rcases Nat.lt_trichotomy i j with less | rfl | more
  · have apart := blockStart_add_le width iInside less
    omega
  · exact ⟨rfl, Nat.add_left_cancel same⟩
  · have apart := blockStart_add_le width jInside more
    omega

end SlurmSim.Lib.Packed
