import Mathlib.Data.List.Perm.Basic
import Mathlib.Data.List.TakeWhile

/-!
# Sorting with a comparator

`qsort` is the merge sort of the C library. The comparator is an arbitrary
function to the integers: nothing is assumed about it in the definition, and
every lemma says what it needs of the comparator on the elements at hand.
-/

namespace SlurmSim.Lib

open List

open scoped List

variable {α : Type}

/-- Two runs are merged. An element of the second run goes first only when the
comparator puts the head of the first run behind it. -/
def mergeRuns (cmp : α → α → Int) : List α → List α → List α
  | [], second => second
  | head :: first, second =>
    second.takeWhile (fun other => 0 < cmp head other) ++
      head :: mergeRuns cmp first (second.dropWhile (fun other => 0 < cmp head other))

/-- The halves are sorted and merged. The number of rounds is bounded by `fuel`. -/
def msort (cmp : α → α → Int) : Nat → List α → List α
  | 0, values => values
  | fuel + 1, values =>
    if values.length ≤ 1 then values
    else
      mergeRuns cmp (msort cmp fuel (values.take (values.length / 2)))
        (msort cmp fuel (values.drop (values.length / 2)))

def qsort (cmp : α → α → Int) (values : List α) : List α :=
  msort cmp values.length values

variable {cmp : α → α → Int}

theorem mergeRuns_perm (first second : List α) :
    (mergeRuns cmp first second).Perm (first ++ second) := by
  induction first generalizing second with
  | nil => exact List.Perm.refl _
  | cons head first ih =>
    have rest := ih (second.dropWhile fun other => decide (0 < cmp head other))
    calc mergeRuns cmp (head :: first) second
        _ = second.takeWhile (fun other => decide (0 < cmp head other)) ++ head ::
              mergeRuns cmp first (second.dropWhile fun other => decide (0 < cmp head other)) := rfl
        _ ~ second.takeWhile (fun other => decide (0 < cmp head other)) ++ head ::
              (first ++ second.dropWhile fun other => decide (0 < cmp head other)) :=
            (rest.cons head).append_left _
        _ ~ head :: (second.takeWhile (fun other => decide (0 < cmp head other)) ++
              (first ++ second.dropWhile fun other => decide (0 < cmp head other))) :=
            perm_middle
        _ ~ head :: (first ++ (second.takeWhile (fun other => decide (0 < cmp head other)) ++
              second.dropWhile fun other => decide (0 < cmp head other))) := by
            refine List.Perm.cons head ?_
            rw [← append_assoc, ← append_assoc]
            exact perm_append_comm.append_right _
        _ = head :: first ++ second := by
            rw [takeWhile_append_dropWhile]
            rfl

theorem msort_perm (fuel : Nat) (values : List α) : (msort cmp fuel values).Perm values := by
  induction fuel generalizing values with
  | zero => exact List.Perm.refl _
  | succ fuel ih =>
    unfold msort
    split
    · exact List.Perm.refl _
    · calc mergeRuns cmp (msort cmp fuel (values.take (values.length / 2)))
            (msort cmp fuel (values.drop (values.length / 2)))
          _ ~ msort cmp fuel (values.take (values.length / 2)) ++
                msort cmp fuel (values.drop (values.length / 2)) := mergeRuns_perm _ _
          _ ~ values.take (values.length / 2) ++ values.drop (values.length / 2) :=
              (ih _).append (ih _)
          _ = values := take_append_drop _ _

theorem qsort_perm (values : List α) : (qsort cmp values).Perm values :=
  msort_perm _ _

variable {values : List α}

theorem mem_qsort {value : α} : value ∈ qsort cmp values ↔ value ∈ values :=
  (qsort_perm values).mem_iff

theorem sublist_mergeRuns (first second : List α) :
    first.Sublist (mergeRuns cmp first second) ∧ second.Sublist (mergeRuns cmp first second) := by
  induction first generalizing second with
  | nil => exact ⟨nil_sublist _, List.Sublist.refl _⟩
  | cons head first ih =>
    obtain ⟨left, right⟩ := ih (second.dropWhile fun other => decide (0 < cmp head other))
    refine ⟨(left.cons_cons head).trans (sublist_append_right _ _), ?_⟩
    calc second
        _ = second.takeWhile (fun other => decide (0 < cmp head other)) ++
              second.dropWhile (fun other => decide (0 < cmp head other)) :=
            takeWhile_append_dropWhile.symm
        List.Sublist _ (mergeRuns cmp (head :: first) second) :=
            (right.cons head).append_left _

theorem pair_sublist_append {a b : α} {first second : List α}
    (pair : [a, b].Sublist (first ++ second)) :
    [a, b].Sublist first ∨ a ∈ first ∧ b ∈ second ∨ [a, b].Sublist second := by
  induction first with
  | nil => exact .inr (.inr pair)
  | cons head first ih =>
    cases pair with
    | cons _ later =>
      rcases ih later with left | ⟨inFirst, inSecond⟩ | right
      · exact .inl (left.cons _)
      · exact .inr (.inl ⟨mem_cons_of_mem _ inFirst, inSecond⟩)
      · exact .inr (.inr right)
    | cons_cons _ later =>
      rcases mem_append.mp (singleton_sublist.mp later) with inFirst | inSecond
      · exact .inl ((singleton_sublist.mpr inFirst).cons_cons _)
      · exact .inr (.inl ⟨mem_cons_self, inSecond⟩)

theorem mergeRuns_of_le {first second : List α} (inOrder : ∀ a ∈ first, ∀ b ∈ second, cmp a b ≤ 0) :
    mergeRuns cmp first second = first ++ second := by
  induction first with
  | nil => rfl
  | cons head first ih =>
    have rest := ih fun a inside => inOrder a (mem_cons_of_mem _ inside)
    cases second with
    | nil =>
      simpa [mergeRuns] using rest
    | cons other second =>
      have below : ¬ 0 < cmp head other :=
        Int.not_lt.mpr (inOrder head mem_cons_self other mem_cons_self)
      simp [mergeRuns, below, rest]

theorem msort_of_pairwise {fuel : Nat} (inOrder : values.Pairwise fun a b => cmp a b ≤ 0) :
    msort cmp fuel values = values := by
  induction fuel generalizing values with
  | zero => rfl
  | succ fuel ih =>
    unfold msort
    split
    · rfl
    · have parts := inOrder
      rw [← take_append_drop (values.length / 2) values, pairwise_append] at parts
      obtain ⟨lower, upper, across⟩ := parts
      rw [ih lower, ih upper, mergeRuns_of_le across, take_append_drop]

/-- A list in order stays as it is, ties included. -/
theorem qsort_of_pairwise (inOrder : values.Pairwise fun a b => cmp a b ≤ 0) :
    qsort cmp values = values :=
  msort_of_pairwise inOrder

/-! ## Comparators that are total and transitive on the elements -/

/-- What a comparator has to satisfy on a set of elements to sort it. -/
structure Orders (cmp : α → α → Int) (inside : α → Prop) : Prop where
  total : ∀ a b, inside a → inside b → 0 < cmp a b → cmp b a ≤ 0
  trans : ∀ a b c, inside a → inside b → inside c → cmp a b ≤ 0 → cmp b c ≤ 0 → cmp a c ≤ 0

namespace Orders

variable {inside : α → Prop}

theorem mergeRuns_pairwise (orders : Orders cmp inside) {first second : List α}
    (allFirst : ∀ a ∈ first, inside a) (allSecond : ∀ a ∈ second, inside a)
    (sortedFirst : first.Pairwise fun a b => cmp a b ≤ 0)
    (sortedSecond : second.Pairwise fun a b => cmp a b ≤ 0) :
    (mergeRuns cmp first second).Pairwise fun a b => cmp a b ≤ 0 := by
  induction first generalizing second with
  | nil => exact sortedSecond
  | cons head first ih =>
    have insideHead := allFirst head mem_cons_self
    have splitSecond := sortedSecond
    rw [← takeWhile_append_dropWhile (l := second)
      (p := fun other => decide (0 < cmp head other)), pairwise_append] at splitSecond
    obtain ⟨lower, upper, across⟩ := splitSecond
    have allUpper : ∀ a ∈ second.dropWhile (fun other => decide (0 < cmp head other)), inside a :=
      fun a kept => allSecond a ((dropWhile_sublist _).subset kept)
    have beforeHead : ∀ a ∈ second.takeWhile (fun other => decide (0 < cmp head other)),
        inside a ∧ cmp a head ≤ 0 := by
      intro a taken
      have insideA := allSecond a ((takeWhile_sublist _).subset taken)
      have above := mem_takeWhile_imp taken
      exact ⟨insideA, orders.total head a insideHead insideA (of_decide_eq_true above)⟩
    have afterHead : ∀ b ∈ second.dropWhile (fun other => decide (0 < cmp head other)),
        cmp head b ≤ 0 := by
      intro b kept
      cases shape : second.dropWhile (fun other => decide (0 < cmp head other)) with
      | nil => simp [shape] at kept
      | cons other rest =>
        have stops : cmp head other ≤ 0 := by
          have fails := head?_dropWhile_not (fun other => decide (0 < cmp head other)) second
          simpa [shape] using fails
        rw [shape] at kept upper allUpper
        rcases mem_cons.mp kept with rfl | later
        · exact stops
        · exact orders.trans head other b insideHead (allUpper other mem_cons_self)
            (allUpper b kept) stops ((pairwise_cons.mp upper).1 b later)
    obtain ⟨headFirst, restFirst⟩ := pairwise_cons.mp sortedFirst
    have restAll : ∀ a ∈ first, inside a :=
      fun a later => allFirst a (mem_cons_of_mem _ later)
    have afterMerge : ∀ b ∈ mergeRuns cmp first
        (second.dropWhile fun other => decide (0 < cmp head other)),
        (inside b ∧ cmp head b ≤ 0) := by
      intro b merged
      rcases mem_append.mp ((mergeRuns_perm _ _).mem_iff.mp merged) with inFirst | inSecond
      · exact ⟨restAll b inFirst, headFirst b inFirst⟩
      · exact ⟨allUpper b inSecond, afterHead b inSecond⟩
    refine pairwise_append.mpr ⟨lower, ?_, ?_⟩
    · exact pairwise_cons.mpr
        ⟨fun b merged => (afterMerge b merged).2, ih restAll allUpper restFirst upper⟩
    · intro a taken b later
      obtain ⟨insideA, belowHead⟩ := beforeHead a taken
      rcases mem_cons.mp later with rfl | merged
      · exact belowHead
      · obtain ⟨insideB, aboveHead⟩ := afterMerge b merged
        exact orders.trans a head b insideA insideHead insideB belowHead aboveHead

variable {values : List α} {a b : α}

theorem msort_pairwise (orders : Orders cmp inside) {fuel : Nat} (all : ∀ a ∈ values, inside a)
    (enough : values.length ≤ fuel) : (msort cmp fuel values).Pairwise fun a b => cmp a b ≤ 0 := by
  induction fuel generalizing values with
  | zero =>
    obtain rfl := length_eq_zero_iff.mp (Nat.le_zero.mp enough)
    exact List.Pairwise.nil
  | succ fuel ih =>
    unfold msort
    split
    · rename_i short
      match values, short with
      | [], _ => exact List.Pairwise.nil
      | [a], _ => exact pairwise_singleton _ a
    · have allTake : ∀ a ∈ values.take (values.length / 2), inside a :=
        fun a taken => all a (mem_of_mem_take taken)
      have allDrop : ∀ a ∈ values.drop (values.length / 2), inside a :=
        fun a dropped => all a (mem_of_mem_drop dropped)
      refine orders.mergeRuns_pairwise ?_ ?_ (ih allTake ?_) (ih allDrop ?_)
      · exact fun a sorted => allTake a ((msort_perm _ _).mem_iff.mp sorted)
      · exact fun a sorted => allDrop a ((msort_perm _ _).mem_iff.mp sorted)
      · simp only [length_take]
        omega
      · simp only [length_drop]
        omega

theorem qsort_pairwise (orders : Orders cmp inside) (all : ∀ a ∈ values, inside a) :
    (qsort cmp values).Pairwise fun a b => cmp a b ≤ 0 :=
  orders.msort_pairwise all le_rfl

/-- An element of the first run stays in front of those of the second that are not before it. -/
theorem pair_sublist_mergeRuns (orders : Orders cmp inside) {first second : List α}
    (allFirst : ∀ a ∈ first, inside a) (allSecond : ∀ a ∈ second, inside a)
    (sortedFirst : first.Pairwise fun a b => cmp a b ≤ 0) (inFirst : a ∈ first)
    (inSecond : b ∈ second) (le : cmp a b ≤ 0) : [a, b].Sublist (mergeRuns cmp first second) := by
  induction first generalizing second with
  | nil => cases inFirst
  | cons head first ih =>
    obtain ⟨headFirst, restFirst⟩ := pairwise_cons.mp sortedFirst
    have headLe : cmp head b ≤ 0 := by
      rcases mem_cons.mp inFirst with rfl | later
      · exact le
      · exact orders.trans head a b (allFirst head mem_cons_self) (allFirst a inFirst)
          (allSecond b inSecond) (headFirst a later) le
    have kept : b ∈ second.dropWhile fun other => decide (0 < cmp head other) := by
      rw [← takeWhile_append_dropWhile (p := fun other => decide (0 < cmp head other))
        (l := second)] at inSecond
      refine (mem_append.mp inSecond).resolve_left fun taken => ?_
      have above := mem_takeWhile_imp taken
      exact Int.not_lt.mpr headLe (of_decide_eq_true above)
    refine List.Sublist.trans ?_ (sublist_append_right _ _)
    rcases mem_cons.mp inFirst with rfl | later
    · exact (singleton_sublist.mpr ((sublist_mergeRuns _ _).2.subset kept)).cons_cons _
    · exact (ih (fun c more => allFirst c (mem_cons_of_mem _ more))
        (fun c more => allSecond c ((dropWhile_sublist _).subset more)) restFirst later
        kept).cons _

theorem pair_sublist_msort (orders : Orders cmp inside) {fuel : Nat}
    (all : ∀ a ∈ values, inside a) (enough : values.length ≤ fuel) (pair : [a, b].Sublist values)
    (le : cmp a b ≤ 0) : [a, b].Sublist (msort cmp fuel values) := by
  induction fuel generalizing values with
  | zero => exact pair
  | succ fuel ih =>
    unfold msort
    split
    · exact pair
    · have allTake : ∀ a ∈ values.take (values.length / 2), inside a :=
        fun a taken => all a (mem_of_mem_take taken)
      have allDrop : ∀ a ∈ values.drop (values.length / 2), inside a :=
        fun a dropped => all a (mem_of_mem_drop dropped)
      have shortTake : (values.take (values.length / 2)).length ≤ fuel := by
        simp only [length_take]
        omega
      have shortDrop : (values.drop (values.length / 2)).length ≤ fuel := by
        simp only [length_drop]
        omega
      obtain ⟨left, right⟩ := @sublist_mergeRuns α cmp
        (msort cmp fuel (values.take (values.length / 2)))
        (msort cmp fuel (values.drop (values.length / 2)))
      rw [← take_append_drop (values.length / 2) values] at pair
      rcases pair_sublist_append pair with inTake | ⟨inTake, inDrop⟩ | inDrop
      · exact (ih allTake shortTake inTake).trans left
      · refine orders.pair_sublist_mergeRuns
          (fun c sorted => allTake c ((msort_perm _ _).mem_iff.mp sorted))
          (fun c sorted => allDrop c ((msort_perm _ _).mem_iff.mp sorted))
          (orders.msort_pairwise allTake shortTake) ?_ ?_ le
        · exact (msort_perm _ _).mem_iff.mpr inTake
        · exact (msort_perm _ _).mem_iff.mpr inDrop
      · exact (ih allDrop shortDrop inDrop).trans right

/-- The sort is stable: elements that stand in order stay so. -/
theorem pair_sublist_qsort (orders : Orders cmp inside) (all : ∀ a ∈ values, inside a)
    (pair : [a, b].Sublist values) (le : cmp a b ≤ 0) : [a, b].Sublist (qsort cmp values) :=
  orders.pair_sublist_msort all le_rfl pair le

/-- Without ties the result does not depend on the order of the input. -/
theorem qsort_eq_of_perm (orders : Orders cmp inside)
    (strict : ∀ a b, inside a → inside b → cmp a b ≤ 0 → cmp b a ≤ 0 → a = b) {others : List α}
    (all : ∀ a ∈ values, inside a) (same : values.Perm others) :
    qsort cmp values = qsort cmp others := by
  have allOthers : ∀ a ∈ others, inside a := fun a kept => all a (same.mem_iff.mpr kept)
  refine List.Perm.eq_of_pairwise ?_ (orders.qsort_pairwise all)
    (orders.qsort_pairwise allOthers) ?_
  · intro a b inA inB
    exact strict a b (all a (mem_qsort.mp inA)) (allOthers b (mem_qsort.mp inB))
  · exact (qsort_perm values).trans (same.trans (qsort_perm others).symm)

end Orders

end SlurmSim.Lib
