import Mathlib.Data.List.Nodup

/-!
# Singly linked chains

Cells of an arbitrary type are linked by a partial successor map.  A chain is
the finite list of cells met from a start cell.  The rules below say how a
chain changes when one link is written, and that a bounded search along the
links is a search of the list.
-/

namespace SlurmSim.Lib

open List

variable {α : Type}

/-- Following `next` from `start` visits exactly `cells` and then ends. -/
inductive Chain (next : α → Option α) : Option α → List α → Prop where
  | nil : Chain next none []
  | cons {cell : α} {rest : List α} (tail : Chain next (next cell) rest) :
      Chain next (some cell) (cell :: rest)

namespace Chain

variable {next other : α → Option α} {start : Option α} {cells : List α}

variable {cell : α}

theorem cons_iff {rest : List α} :
    Chain next start (cell :: rest) ↔ start = some cell ∧ Chain next (next cell) rest := by
  constructor
  · intro chain
    cases chain with
    | cons tail => exact ⟨rfl, tail⟩
  · rintro ⟨rfl, tail⟩
    exact .cons tail

theorem unique {other : List α} (first : Chain next start cells)
    (second : Chain next start other) : cells = other := by
  induction first generalizing other with
  | nil =>
    cases second
    rfl
  | cons tail ih =>
    cases second with
    | cons second => rw [ih second]

theorem drop {before after : List α} (chain : Chain next start (before ++ cell :: after)) :
    Chain next (some cell) (cell :: after) := by
  induction before generalizing start with
  | nil =>
    cases chain with
    | cons tail => exact .cons tail
  | cons first rest ih =>
    cases chain with
    | cons tail => exact ih tail

theorem nodup (chain : Chain next start cells) : cells.Nodup := by
  induction chain with
  | nil => exact nodup_nil
  | @cons cell rest tail ih =>
    refine nodup_cons.mpr ⟨?_, ih⟩
    intro mem
    obtain ⟨before, after, restEq⟩ := append_of_mem mem
    have again : Chain next (some cell) (cell :: after) := by
      rw [restEq] at tail
      exact tail.drop
    have same : cell :: rest = cell :: after := unique (.cons tail) again
    have lengths := congrArg List.length same
    rw [restEq] at lengths
    simp only [length_cons, length_append] at lengths
    omega

theorem congr (chain : Chain next start cells)
    (agree : ∀ cell ∈ cells, other cell = next cell) : Chain other start cells := by
  induction chain with
  | nil => exact .nil
  | @cons cell rest tail ih =>
    refine .cons ?_
    rw [agree cell mem_cons_self]
    exact ih fun later mem => agree later (mem_cons_of_mem _ mem)

theorem update [DecidableEq α] (link : Option α) (chain : Chain next start cells)
    (absent : cell ∉ cells) : Chain (Function.update next cell link) start cells := by
  refine chain.congr fun later mem => ?_
  rw [Function.update_of_ne]
  rintro rfl
  exact absent mem

theorem relink [DecidableEq α] {before after tail : List α} {link : Option α}
    (chain : Chain next start (before ++ cell :: after)) (replacement : Chain next link tail)
    (absent : cell ∉ tail) :
    Chain (Function.update next cell link) start (before ++ cell :: tail) := by
  have distinct := chain.nodup
  induction before generalizing start with
  | nil =>
    obtain ⟨rfl, _⟩ := cons_iff.mp chain
    refine .cons ?_
    rw [Function.update_self]
    exact replacement.update link absent
  | cons first rest ih =>
    obtain ⟨rfl, later⟩ := cons_iff.mp chain
    have firstNe : first ≠ cell := by
      rintro rfl
      simp at distinct
    refine .cons ?_
    rw [Function.update_of_ne firstNe]
    exact ih later (nodup_cons.mp distinct).2

end Chain

/-- The cells met from a start cell, at most `fuel` of them. -/
def walk (next : α → Option α) : Nat → Option α → List α
  | 0, _ => []
  | _ + 1, none => []
  | fuel + 1, some cell => cell :: walk next fuel (next cell)

theorem Chain.walk_eq {next : α → Option α} {start : Option α} {cells : List α}
    (chain : Chain next start cells) {fuel : Nat} (enough : cells.length ≤ fuel) :
    walk next fuel start = cells := by
  induction chain generalizing fuel with
  | nil => cases fuel <;> rfl
  | @cons cell rest tail ih =>
    cases fuel with
    | zero => simp at enough
    | succ fuel =>
      rw [walk, ih (by simpa using enough)]

/-- The cell whose link leads to `cell`, or else the last cell; `previous` when
the walk stops at its start. -/
def slotBefore [DecidableEq α] (next : α → Option α) (cell : α) :
    Nat → Option α → Option α → Option α
  | 0, previous, _ => previous
  | _ + 1, previous, none => previous
  | fuel + 1, previous, some current =>
    if current = cell then previous else slotBefore next cell fuel (some current) (next current)

theorem Chain.slotBefore_eq [DecidableEq α] {next : α → Option α} {start : Option α}
    {before after : List α} {cell : α} (chain : Chain next start (before ++ cell :: after))
    (previous : Option α) {fuel : Nat} (enough : before.length < fuel) :
    slotBefore next cell fuel previous start = before.getLast?.or previous := by
  have distinct := chain.nodup
  induction before generalizing start previous fuel with
  | nil =>
    obtain ⟨rfl, _⟩ := cons_iff.mp chain
    cases fuel with
    | zero => exact absurd enough (Nat.not_lt_zero _)
    | succ fuel => simp [slotBefore]
  | cons first rest ih =>
    obtain ⟨rfl, later⟩ := cons_iff.mp chain
    have firstNe : first ≠ cell := by
      rintro rfl
      simp at distinct
    cases fuel with
    | zero => exact absurd enough (Nat.not_lt_zero _)
    | succ fuel =>
      rw [slotBefore, if_neg firstNe,
        ih later (some first) (by simpa using enough) (nodup_cons.mp distinct).2,
        getLast?_cons]
      cases rest.getLast? <;> rfl

end SlurmSim.Lib
