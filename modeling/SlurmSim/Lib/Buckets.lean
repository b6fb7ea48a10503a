import Mathlib.Data.Finset.Card
import SlurmSim.Lib.Chain

/-!
# Chained hash buckets

A table of chain heads over one link field.  The buckets hold a set of cells
under an index when the chain of each bucket visits exactly the cells of that
index.  Pushing a cell on its bucket adds it; writing a link over the one that
leads to a cell removes it when that link is the successor of the cell.
-/

namespace SlurmSim.Lib

open List
open Function (update update_of_ne update_self)

/-- Chain heads by index and the link field of the cells. -/
structure Buckets (α : Type) where
  heads : Nat → Option α
  next : α → Option α

namespace Buckets

variable {α : Type} [DecidableEq α]

def empty : Buckets α := ⟨fun _ => none, fun _ => none⟩

/-- Put a cell in front of a bucket. -/
def push (b : Buckets α) (inx : Nat) (cell : α) : Buckets α where
  heads := update b.heads inx (some cell)
  next := update b.next cell (b.heads inx)

/-- Write the link of a cell, or the head of the bucket. -/
def writeSlot (b : Buckets α) (inx : Nat) (slot link : Option α) : Buckets α :=
  match slot with
  | none => { b with heads := update b.heads inx link }
  | some cell => { b with next := update b.next cell link }

/-- Overwrite the link that leads to a cell. -/
def unlink (b : Buckets α) (fuel inx : Nat) (cell : α) (link : Option α) : Buckets α :=
  b.writeSlot inx (slotBefore b.next cell fuel none (b.heads inx)) link

def setNext (b : Buckets α) (cell : α) (link : Option α) : Buckets α :=
  { b with next := update b.next cell link }

/-- The cells of a bucket in chain order. -/
def cells (b : Buckets α) (fuel inx : Nat) : List α :=
  walk b.next fuel (b.heads inx)

/-- The chain of each bucket visits exactly the members with its index. -/
def Holds (b : Buckets α) (index : α → Nat) (members : Finset α) : Prop :=
  ∀ inx, ∃ cells, Chain b.next (b.heads inx) cells ∧
    ∀ cell, cell ∈ cells ↔ cell ∈ members ∧ index cell = inx

namespace Holds

variable {b : Buckets α} {index : α → Nat} {members : Finset α}

omit [DecidableEq α] in
theorem empty : (Buckets.empty : Buckets α).Holds index ∅ := by
  intro inx
  exact ⟨[], .nil, by simp⟩

omit [DecidableEq α] in
theorem congr {index' : α → Nat} (holds : b.Holds index members)
    (agree : ∀ cell ∈ members, index' cell = index cell) : b.Holds index' members := by
  intro inx
  obtain ⟨cells, chain, exact_⟩ := holds inx
  refine ⟨cells, chain, fun cell => ?_⟩
  rw [exact_ cell]
  constructor
  · rintro ⟨member, same⟩
    exact ⟨member, (agree cell member).trans same⟩
  · rintro ⟨member, same⟩
    exact ⟨member, (agree cell member).symm.trans same⟩

variable {cell : α}

theorem setNext (holds : b.Holds index members) (outside : cell ∉ members) (link : Option α) :
    (b.setNext cell link).Holds index members := by
  intro inx
  obtain ⟨cells, chain, exact_⟩ := holds inx
  refine ⟨cells, chain.update link ?_, exact_⟩
  intro mem
  exact outside ((exact_ cell).mp mem).1

theorem push (holds : b.Holds index members) (outside : cell ∉ members) :
    (b.push (index cell) cell).Holds index (insert cell members) := by
  intro inx
  obtain ⟨cells, chain, exact_⟩ := holds inx
  have absent : cell ∉ cells := fun member => outside ((exact_ cell).mp member).1
  have kept : Chain (b.push (index cell) cell).next (b.heads inx) cells :=
    chain.update (b.heads (index cell)) absent
  by_cases here : index cell = inx
  · subst here
    refine ⟨cell :: cells, ?_, fun other => ?_⟩
    · have headEq : (b.push (index cell) cell).heads (index cell) = some cell :=
        update_self ..
      have nextEq : (b.push (index cell) cell).next cell = b.heads (index cell) :=
        update_self ..
      rw [headEq]
      refine .cons ?_
      rw [nextEq]
      exact kept
    · rw [mem_cons, Finset.mem_insert, exact_ other]
      constructor
      · rintro (rfl | ⟨member, same⟩)
        · exact ⟨Or.inl rfl, rfl⟩
        · exact ⟨Or.inr member, same⟩
      · rintro ⟨rfl | member, same⟩
        · exact Or.inl rfl
        · exact Or.inr ⟨member, same⟩
  · refine ⟨cells, ?_, fun other => ?_⟩
    · have headEq : (b.push (index cell) cell).heads inx = b.heads inx :=
        update_of_ne (fun same => here same.symm) ..
      rw [headEq]
      exact kept
    · rw [exact_ other, Finset.mem_insert]
      constructor
      · rintro ⟨member, same⟩
        exact ⟨Or.inr member, same⟩
      · rintro ⟨rfl | member, same⟩
        · exact absurd same here
        · exact ⟨member, same⟩

/-- Overwriting the link to a member by its own successor removes it. -/
theorem unlink (holds : b.Holds index members) (member : cell ∈ members) {fuel : Nat}
    (enough : members.card ≤ fuel) :
    (b.unlink fuel (index cell) cell (b.next cell)).Holds index (members.erase cell) := by
  obtain ⟨cells, chain, exact_⟩ := holds (index cell)
  obtain ⟨before, after, rfl⟩ := append_of_mem ((exact_ cell).mpr ⟨member, rfl⟩)
  have distinct := chain.nodup
  have tail : Chain b.next (b.next cell) after := (Chain.cons_iff.mp chain.drop).2
  have short : before.length < fuel := by
    have subset : (before ++ cell :: after).toFinset ⊆ members := by
      intro other mem
      exact ((exact_ other).mp (mem_toFinset.mp mem)).1
    have counted := Finset.card_le_card subset
    rw [toFinset_card_of_nodup distinct, length_append, length_cons] at counted
    omega
  have slotEq : slotBefore b.next cell fuel none (b.heads (index cell)) = before.getLast? := by
    rw [chain.slotBefore_eq none short, Option.or_none]
  have remaining : ∀ other, other ∈ before ++ after ↔
      other ∈ members.erase cell ∧ index other = index cell := by
    intro other
    have whole := exact_ other
    have once : cell ∉ before ++ after := by
      have := nodup_middle.mp distinct
      exact (nodup_cons.mp this).1
    rw [Finset.mem_erase]
    simp only [mem_append, mem_cons] at whole once ⊢
    constructor
    · intro mem
      obtain ⟨isMember, same⟩ := whole.mp (by tauto)
      refine ⟨⟨?_, isMember⟩, same⟩
      rintro rfl
      exact once mem
    · tauto
  have others : ∀ inx, inx ≠ index cell → ∃ cells, Chain b.next (b.heads inx) cells ∧
      ∀ other, other ∈ cells ↔ other ∈ members.erase cell ∧ index other = inx := by
    intro inx elsewhere
    obtain ⟨there, thereChain, thereExact⟩ := holds inx
    refine ⟨there, thereChain, fun other => ?_⟩
    rw [thereExact other, Finset.mem_erase]
    constructor
    · rintro ⟨isMember, same⟩
      refine ⟨⟨?_, isMember⟩, same⟩
      rintro rfl
      exact elsewhere same.symm
    · rintro ⟨⟨_, isMember⟩, same⟩
      exact ⟨isMember, same⟩
  rw [Buckets.unlink, slotEq]
  intro inx
  rcases eq_nil_or_concat before with rfl | ⟨front, last, rfl⟩
  · simp only [getLast?_nil, writeSlot]
    by_cases here : inx = index cell
    · subst here
      refine ⟨after, ?_, remaining⟩
      rw [update_self]
      exact tail
    · simp only [update_of_ne here]
      exact others inx here
  · rw [concat_eq_append, getLast?_concat, writeSlot]
    have lastIndex : index last = index cell := by
      refine ((exact_ last).mp ?_).2
      simp
    by_cases here : inx = index cell
    · subst here
      refine ⟨front ++ last :: after, ?_, ?_⟩
      · have relinked : Chain b.next (b.heads (index cell)) (front ++ last :: cell :: after) := by
          simpa using chain
        refine relinked.relink tail ?_
        intro mem
        simp only [concat_eq_append, append_assoc, singleton_append] at distinct
        have := (nodup_append.mp distinct).2.1
        simp [mem] at this
      · simpa using remaining
    · obtain ⟨there, thereChain, thereExact⟩ := others inx here
      refine ⟨there, thereChain.update _ ?_, thereExact⟩
      intro mem
      have := ((thereExact last).mp mem).2
      exact here (this.symm.trans lastIndex)

theorem cells_spec (holds : b.Holds index members) {fuel : Nat} (enough : members.card ≤ fuel)
    (inx : Nat) : (b.cells fuel inx).Nodup ∧
      ∀ cell, cell ∈ b.cells fuel inx ↔ cell ∈ members ∧ index cell = inx := by
  obtain ⟨cells, chain, exact_⟩ := holds inx
  have subset : cells.toFinset ⊆ members := by
    intro other mem
    exact ((exact_ other).mp (mem_toFinset.mp mem)).1
  have counted := Finset.card_le_card subset
  rw [toFinset_card_of_nodup chain.nodup] at counted
  rw [Buckets.cells, chain.walk_eq (Nat.le_trans counted enough)]
  exact ⟨chain.nodup, exact_⟩

end Holds

end Buckets

end SlurmSim.Lib
