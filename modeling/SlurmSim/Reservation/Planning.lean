import Mathlib.Algebra.Order.Group.Nat
import Mathlib.Algebra.Order.BigOperators.Group.List
import Mathlib.Data.UInt
import SlurmSim.Lib.TimeSlots

/-!
# Planning of constraints

The slots of a planning are kept by edits of the list under an iterator, which inserts
before the slot it returned last.  Every edit is a step of the insertion of a slot, so the
slots add up the constraints, in whatever order these come.
-/

namespace SlurmSim.Reservation

open Lib.TimeSlots List

/-- `constraint_slot_t` -/
abbrev ConstraintSlot := Slot Int UInt32

/-- The loop of `_update_constraint_planning`, with the slots that follow. -/
def updateSlots : List ConstraintSlot → ConstraintSlot → List ConstraintSlot
  | [], cstr => [cstr]
  | cur :: rest, cstr =>
    if cstr.stop ≤ cur.start then cstr :: cur :: rest
    else if cstr.start = cur.start ∧ cstr.stop = cur.stop then
      { cur with value := cur.value + cstr.value } :: rest
    else if cur.stop ≤ cstr.start then cur :: updateSlots rest cstr
    else if cur.start ≤ cstr.start then
      let tmp := if cur.start < cstr.start then [{ cur with stop := cstr.start }] else []
      let cur := if cur.start < cstr.start then { cur with start := cstr.start } else cur
      if cstr.stop < cur.stop then
        tmp ++ { cstr with value := cstr.value + cur.value } ::
          { cur with start := cstr.stop } :: rest
      else if cur.stop < cstr.stop then
        tmp ++ { cur with value := cur.value + cstr.value } ::
          updateSlots rest { cstr with start := cur.stop }
      else tmp ++ { cur with value := cur.value + cstr.value } :: rest
    else
      let tmp := { cstr with stop := cur.start }
      if cstr.stop = cur.stop then tmp :: { cur with value := cur.value + cstr.value } :: rest
      else if cstr.stop < cur.stop then
        tmp :: { cstr with start := cur.start, value := cstr.value + cur.value } ::
          { cur with start := cstr.stop } :: rest
      else
        tmp :: { cur with value := cur.value + cstr.value } ::
          updateSlots rest { cstr with start := cur.stop }

/-- `_update_constraint_planning` -/
def updateConstraintPlanning (sched : List ConstraintSlot) (value : UInt32) (start stop : Int) :
    List ConstraintSlot :=
  updateSlots sched { start := start, stop := stop, value := value }

/-- `_max_constraint_planning`, with the period of the first slot that has the maximum. -/
def maxConstraintPlanning (sched : List ConstraintSlot) : UInt32 × Option (Int × Int) :=
  sched.foldl (fun best cur =>
    if best.1 < cur.value then (cur.value, some (cur.start, cur.stop)) else best) (0, none)

/-- The planning of some constraints, one after the other. -/
def planConstraints (constraints : List ConstraintSlot) : List ConstraintSlot :=
  constraints.foldl (fun sched c => updateConstraintPlanning sched c.value c.start c.stop) []

/-! ## One constraint -/

theorem inserts_aligned {cur cstr : ConstraintSlot} {rest tail : List ConstraintSlot}
    (starts : cstr.start = cur.start)
    (later : Inserts rest { cstr with start := cur.stop } tail) :
    Inserts (cur :: rest) cstr
      (if cstr.stop < cur.stop then { cstr with value := cstr.value + cur.value } ::
        { cur with start := cstr.stop } :: rest
      else if cur.stop < cstr.stop then { cur with value := cur.value + cstr.value } :: tail
      else { cur with value := cur.value + cstr.value } :: rest) := by
  split_ifs with shorter longer
  · exact .shorter starts shorter
  · exact .longer starts longer later
  · exact .same starts (le_antisymm (not_lt.mp longer) (not_lt.mp shorter))

/-- Every edit of the list is a step of the insertion. -/
theorem updateSlots_inserts (sched : List ConstraintSlot) (cstr : ConstraintSlot) :
    Inserts sched cstr (updateSlots sched cstr) := by
  induction sched generalizing cstr with
  | nil => exact .last cstr
  | cons cur rest ih =>
    rw [updateSlots]
    by_cases before : cstr.stop ≤ cur.start
    · rw [if_pos before]
      exact .before before
    rw [if_neg before]
    by_cases same : cstr.start = cur.start ∧ cstr.stop = cur.stop
    · rw [if_pos same]
      exact .same same.1 same.2
    rw [if_neg same]
    by_cases after : cur.stop ≤ cstr.start
    · rw [if_pos after]
      exact .after after (ih cstr)
    rw [if_neg after]
    by_cases started : cur.start ≤ cstr.start
    · rw [if_pos started]
      by_cases inner : cur.start < cstr.start
      · have aligned := @inserts_aligned { cur with start := cstr.start } cstr rest _ rfl (ih _)
        have split := Inserts.split inner (not_le.mp after) aligned
        dsimp only
        rw [if_pos inner, if_pos inner]
        split_ifs at split ⊢ <;> exact split
      · rw [if_neg inner, if_neg inner]
        exact inserts_aligned (le_antisymm (not_lt.mp inner) started) (ih _)
    · rw [if_neg started]
      have aligned := @inserts_aligned cur { cstr with start := cur.start } rest _ rfl (ih _)
      have early := Inserts.early (not_le.mp started) (not_le.mp before) aligned
      rcases lt_trichotomy cstr.stop cur.stop with less | equal | more
      · rw [if_neg less.ne, if_pos less]
        rwa [if_pos less] at early
      · rw [if_pos equal]
        rwa [if_neg equal.not_lt, if_neg equal.not_gt] at early
      · rw [if_neg more.ne', if_neg more.asymm]
        rwa [if_neg more.asymm, if_pos more] at early

/-! ## Many constraints -/

/-- Slots that add up some constraints. -/
structure AddsUp (constraints slots : List ConstraintSlot) : Prop where
  ordered : Ordered slots
  ends : ∀ e, Ends slots e ↔ Ends constraints e
  covers : ∀ t, Covers slots t ↔ Covers constraints t
  total_eq : ∀ t, total slots t = total constraints t

namespace AddsUp

variable {constraints slots : List ConstraintSlot}

theorem update (adds : AddsUp constraints slots) {cstr : ConstraintSlot}
    (nonempty : cstr.start < cstr.stop) :
    AddsUp (cstr :: constraints)
      (updateConstraintPlanning slots cstr.value cstr.start cstr.stop) := by
  have inserts := updateSlots_inserts slots cstr
  exact {
    ordered := inserts.ordered adds.ordered nonempty
    ends := fun e => by
      rw [updateConstraintPlanning, inserts.ends, ends_cons, adds.ends]
    covers := fun t => by
      rw [updateConstraintPlanning, inserts.covers adds.ordered nonempty, covers_cons, adds.covers]
    total_eq := fun t => by
      rw [updateConstraintPlanning, inserts.total_eq adds.ordered nonempty, total_cons,
        total_cons, adds.total_eq] }

theorem of_perm {others : List ConstraintSlot} (adds : AddsUp constraints slots)
    (perm : constraints.Perm others) : AddsUp others slots where
  ordered := adds.ordered
  ends := fun e => (adds.ends e).trans (Ends.of_perm perm)
  covers := fun t => (adds.covers t).trans (Covers.of_perm perm)
  total_eq := fun t => (adds.total_eq t).trans (total_perm perm)

theorem unique {others : List ConstraintSlot} (adds : AddsUp constraints slots)
    (adds_others : AddsUp constraints others) : slots = others :=
  adds.ordered.eq_of_same adds_others.ordered
    (fun e => (adds.ends e).trans (adds_others.ends e).symm)
    (fun t => (adds.covers t).trans (adds_others.covers t).symm)
    fun t => (adds.total_eq t).trans (adds_others.total_eq t).symm

end AddsUp

variable {constraints : List ConstraintSlot}

theorem planConstraints_addsUp (nonempty : ∀ c ∈ constraints, c.start < c.stop) :
    AddsUp constraints (planConstraints constraints) := by
  have run : ∀ {before slots : List ConstraintSlot}, AddsUp before slots →
      AddsUp (constraints ++ before) (constraints.foldl
        (fun sched c => updateConstraintPlanning sched c.value c.start c.stop) slots) := by
    induction constraints with
    | nil => exact fun adds => adds
    | cons first rest ih =>
      intro before slots adds
      obtain ⟨first_nonempty, rest_nonempty⟩ := forall_mem_cons.mp nonempty
      exact (ih rest_nonempty (adds.update first_nonempty)).of_perm perm_middle
  have nothing : AddsUp [] [] := {
    ordered := ⟨fun _ mem => absurd mem not_mem_nil, .nil⟩
    ends := fun _ => Iff.rfl
    covers := fun _ => Iff.rfl
    total_eq := fun _ => rfl }
  exact (run nothing).of_perm (by rw [append_nil])

/-! ## The sums -/

/-- The sum of the values. -/
def sumOfValues (constraints : List ConstraintSlot) : Nat :=
  (constraints.map fun c => c.value.toNat).sum

/-- The sum of the values of the constraints that contain an instant. -/
def valueAt (constraints : List ConstraintSlot) (t : Int) : Nat :=
  sumOfValues (constraints.filter fun c => decide (c.At t))

theorem sumOfValues_filter_le (p : ConstraintSlot → Bool) (constraints : List ConstraintSlot) :
    sumOfValues (constraints.filter p) ≤ sumOfValues constraints :=
  (filter_sublist.map _).sum_le_sum fun _ _ => Nat.zero_le _

theorem sumOfValues_filter_mono {p q : ConstraintSlot → Bool}
    (le : ∀ c ∈ constraints, p c = true → q c = true) :
    sumOfValues (constraints.filter p) ≤ sumOfValues (constraints.filter q) := by
  have twice : constraints.filter p = (constraints.filter q).filter p := by
    rw [filter_filter]
    refine filter_congr fun c mem => ?_
    cases holds : p c with
    | false => rfl
    | true => exact (le c mem holds).symm
  rw [twice]
  exact sumOfValues_filter_le p _

theorem sum_toNat (fits : sumOfValues constraints < 2 ^ 32) :
    (constraints.map Slot.value).sum.toNat = sumOfValues constraints := by
  induction constraints with
  | nil => rfl
  | cons first rest ih =>
    have rest_sum := ih (lt_of_le_of_lt (Nat.le_add_left _ _) fits)
    rw [map_cons, sum_cons, UInt32.toNat_add, rest_sum]
    exact Nat.mod_eq_of_lt fits

theorem total_toNat (fits : sumOfValues constraints < 2 ^ 32) (t : Int) :
    (total constraints t).toNat = valueAt constraints t :=
  sum_toNat (lt_of_le_of_lt (sumOfValues_filter_le _ _) fits)

/-- What the planning of some constraints has to be. -/
structure PlanOf (constraints slots : List ConstraintSlot) : Prop where
  ordered : Ordered slots
  covers : ∀ t, Covers slots t ↔ Covers constraints t
  value : ∀ slot ∈ slots, ∀ t, slot.At t → slot.value.toNat = valueAt constraints t
  anyOrder : ∀ others, constraints.Perm others → planConstraints others = slots

theorem planConstraints_planOf (nonempty : ∀ c ∈ constraints, c.start < c.stop)
    (fits : sumOfValues constraints < 2 ^ 32) :
    PlanOf constraints (planConstraints constraints) := by
  have adds := planConstraints_addsUp nonempty
  exact {
    ordered := adds.ordered
    covers := adds.covers
    value := fun slot mem t here => by
      rw [← total_toNat fits t, ← adds.total_eq t, adds.ordered.total_eq mem here]
    anyOrder := fun others perm => by
      have others_nonempty : ∀ c ∈ others, c.start < c.stop := fun c mem =>
        nonempty c (perm.mem_iff.mpr mem)
      exact ((planConstraints_addsUp others_nonempty).of_perm perm.symm).unique adds }

/-! ## The maximum -/

/-- The maximum of a function over a set of instants, 0 if there are none. -/
structure IsPeak (instants : Int → Prop) (f : Int → Nat) (peak : Nat) : Prop where
  le_peak : ∀ t, instants t → f t ≤ peak
  attained : peak = 0 ∨ ∃ t, instants t ∧ f t = peak

theorem maxConstraintPlanning_spec (sched : List ConstraintSlot) :
    (∀ slot ∈ sched, slot.value ≤ (maxConstraintPlanning sched).1) ∧
      ((maxConstraintPlanning sched).1 = 0 ∨
        ∃ slot ∈ sched, slot.value = (maxConstraintPlanning sched).1) := by
  have run : ∀ best : UInt32 × Option (Int × Int),
      let last := sched.foldl (fun best cur =>
        if best.1 < cur.value then (cur.value, some (cur.start, cur.stop)) else best) best
      best.1 ≤ last.1 ∧ (∀ slot ∈ sched, slot.value ≤ last.1) ∧
        (last.1 = best.1 ∨ ∃ slot ∈ sched, slot.value = last.1) := by
    induction sched with
    | nil => exact fun best => ⟨UInt32.le_refl _, fun _ mem => absurd mem not_mem_nil, .inl rfl⟩
    | cons first rest ih =>
      intro best
      rw [foldl_cons]
      split_ifs with larger
      · obtain ⟨first_le, rest_le, from_where⟩ := ih (first.value, some (first.start, first.stop))
        refine ⟨UInt32.le_trans (UInt32.le_of_lt larger) first_le,
          forall_mem_cons.mpr ⟨first_le, rest_le⟩, .inr ?_⟩
        rcases from_where with from_first | ⟨slot, mem, from_slot⟩
        · exact ⟨first, mem_cons_self, from_first.symm⟩
        · exact ⟨slot, mem_cons_of_mem _ mem, from_slot⟩
      · obtain ⟨best_le, rest_le, from_where⟩ := ih best
        have first_le := UInt32.le_trans (UInt32.not_lt.mp larger) best_le
        refine ⟨best_le, forall_mem_cons.mpr ⟨first_le, rest_le⟩, ?_⟩
        rcases from_where with from_best | ⟨slot, mem, from_slot⟩
        · exact .inl from_best
        · exact .inr ⟨slot, mem_cons_of_mem _ mem, from_slot⟩
  exact (run (0, none)).2

theorem maxConstraintPlanning_isPeak (nonempty : ∀ c ∈ constraints, c.start < c.stop)
    (fits : sumOfValues constraints < 2 ^ 32) :
    IsPeak (fun _ => True) (valueAt constraints)
      (maxConstraintPlanning (planConstraints constraints)).1.toNat := by
  have plan := planConstraints_planOf nonempty fits
  obtain ⟨below, from_where⟩ := maxConstraintPlanning_spec (planConstraints constraints)
  refine ⟨fun t _ => ?_, ?_⟩
  · by_cases covered : Covers (planConstraints constraints) t
    · obtain ⟨slot, mem, here⟩ := covered
      rw [← plan.value slot mem t here]
      exact below slot mem
    · rw [plan.covers] at covered
      rw [← total_toNat fits t, total_of_not_covers covered]
      exact Nat.zero_le _
  · rcases from_where with zero | ⟨slot, mem, from_slot⟩
    · exact .inl (congrArg UInt32.toNat zero)
    · refine .inr ⟨slot.start, trivial, ?_⟩
      rw [← from_slot, plan.value slot mem slot.start ⟨le_rfl, plan.ordered.nonempty slot mem⟩]

theorem IsPeak.inside {peak : Nat} {first last : Int}
    (isPeak : IsPeak (fun _ => True) (valueAt constraints) peak) (window : first < last)
    (overlap : ∀ c ∈ constraints, c.start < last ∧ first < c.stop) :
    IsPeak (fun t => first ≤ t ∧ t < last) (valueAt constraints) peak := by
  refine ⟨fun t _ => isPeak.le_peak t trivial, ?_⟩
  rcases isPeak.attained with zero | ⟨t, _, at_peak⟩
  · exact .inl zero
  · refine .inr ⟨max first (min t (last - 1)), ⟨by omega, by omega⟩, le_antisymm ?_ ?_⟩
    · exact isPeak.le_peak _ trivial
    · rw [← at_peak]
      refine sumOfValues_filter_mono fun c mem here => ?_
      obtain ⟨starts, stops⟩ := of_decide_eq_true here
      obtain ⟨before_last, after_first⟩ := overlap c mem
      exact decide_eq_true ⟨by omega, by omega⟩

end SlurmSim.Reservation
