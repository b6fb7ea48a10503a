import Mathlib.Algebra.BigOperators.Group.List.Basic
import Mathlib.Tactic.Order

/-!
# Weighted time slots

A list of slots in the order of time gives a value to every instant.  Another slot is
inserted by cutting it and the slots it overlaps at each other's ends and adding the values
of the common pieces.
-/

namespace SlurmSim.Lib.TimeSlots

open List

/-- A half-open period with a value. -/
structure Slot (T V : Type*) where
  start : T
  stop : T
  value : V
  deriving DecidableEq

variable {T V : Type*}

/-- Some slot begins or ends at the instant. -/
def Ends (slots : List (Slot T V)) (e : T) : Prop :=
  ∃ slot ∈ slots, e = slot.start ∨ e = slot.stop

theorem ends_cons {slot : Slot T V} {slots : List (Slot T V)} {e : T} :
    Ends (slot :: slots) e ↔ (e = slot.start ∨ e = slot.stop) ∨ Ends slots e :=
  exists_mem_cons_iff ..

theorem Ends.of_perm {slots others : List (Slot T V)} {e : T} (perm : slots.Perm others) :
    Ends slots e ↔ Ends others e := by
  simp only [Ends, perm.mem_iff]

variable [LinearOrder T]

namespace Slot

/-- The instants of a slot. -/
def At (slot : Slot T V) (t : T) : Prop :=
  slot.start ≤ t ∧ t < slot.stop

instance (slot : Slot T V) (t : T) : Decidable (slot.At t) :=
  inferInstanceAs (Decidable (_ ∧ _))

end Slot

/-- Some slot contains the instant. -/
def Covers (slots : List (Slot T V)) (t : T) : Prop :=
  ∃ slot ∈ slots, slot.At t

/-- The sum of the values of the slots that contain the instant. -/
def total [AddCommMonoid V] (slots : List (Slot T V)) (t : T) : V :=
  ((slots.filter fun slot => decide (slot.At t)).map Slot.value).sum

/-- The slots are not empty, and each ends before the next begins. -/
structure Ordered (slots : List (Slot T V)) : Prop where
  nonempty : ∀ slot ∈ slots, slot.start < slot.stop
  sorted : slots.Pairwise fun earlier later => earlier.stop ≤ later.start

section Basic

variable {slot : Slot T V} {slots : List (Slot T V)} {t : T}

theorem covers_cons : Covers (slot :: slots) t ↔ slot.At t ∨ Covers slots t :=
  exists_mem_cons_iff ..

theorem Covers.of_perm {others : List (Slot T V)} (perm : slots.Perm others) :
    Covers slots t ↔ Covers others t := by
  simp only [Covers, perm.mem_iff]

variable [AddCommMonoid V]

theorem total_cons :
    total (slot :: slots) t = (if slot.At t then slot.value else 0) + total slots t := by
  rw [total, total, filter_cons]
  split_ifs with decided here here
  · rw [map_cons, sum_cons]
  · exact absurd (of_decide_eq_true decided) here
  · exact absurd (decide_eq_true here) decided
  · rw [zero_add]

theorem total_cons_of_at (here : slot.At t) :
    total (slot :: slots) t = slot.value + total slots t := by
  rw [total_cons, if_pos here]

theorem total_cons_of_not_at (elsewhere : ¬slot.At t) :
    total (slot :: slots) t = total slots t := by
  rw [total_cons, if_neg elsewhere, zero_add]

theorem total_of_not_covers (uncovered : ¬Covers slots t) : total slots t = 0 := by
  induction slots with
  | nil => rfl
  | cons first rest ih =>
    rw [covers_cons, not_or] at uncovered
    rw [total_cons_of_not_at uncovered.1, ih uncovered.2]

theorem total_perm {others : List (Slot T V)} (perm : slots.Perm others) :
    total slots t = total others t :=
  ((perm.filter _).map _).sum_eq

end Basic

namespace Ordered

variable {first : Slot T V} {slots : List (Slot T V)} {t : T}

theorem tail (ordered : Ordered (first :: slots)) : Ordered slots where
  nonempty := fun slot mem => ordered.nonempty slot (mem_cons_of_mem _ mem)
  sorted := (pairwise_cons.mp ordered.sorted).2

theorem head (ordered : Ordered (first :: slots)) : first.start < first.stop :=
  ordered.nonempty first mem_cons_self

theorem later (ordered : Ordered (first :: slots)) : ∀ slot ∈ slots, first.stop ≤ slot.start :=
  (pairwise_cons.mp ordered.sorted).1

theorem cons (nonempty : first.start < first.stop)
    (later : ∀ slot ∈ slots, first.stop ≤ slot.start) (ordered : Ordered slots) :
    Ordered (first :: slots) where
  nonempty := forall_mem_cons.mpr ⟨nonempty, ordered.nonempty⟩
  sorted := pairwise_cons.mpr ⟨later, ordered.sorted⟩

theorem uncovered (ordered : Ordered (first :: slots)) (before : t < first.stop) :
    ¬Covers slots t := by
  rintro ⟨slot, mem, started, _⟩
  exact absurd (before.trans_le ((ordered.later slot mem).trans started)) (lt_irrefl t)

variable {slot : Slot T V}

theorem total_eq [AddCommMonoid V] (ordered : Ordered slots) (mem : slot ∈ slots)
    (here : slot.At t) : total slots t = slot.value := by
  induction slots with
  | nil => exact absurd mem not_mem_nil
  | cons first rest ih =>
    rcases mem_cons.mp mem with rfl | later
    · rw [total_cons_of_at here, total_of_not_covers (ordered.uncovered here.2), add_zero]
    · have elsewhere : ¬first.At t := fun inside =>
        ordered.uncovered inside.2 ⟨slot, later, here⟩
      rw [total_cons_of_not_at elsewhere, ih ordered.tail later]

theorem outside (ordered : Ordered slots) (mem : slot ∈ slots) {e : T} (ends : Ends slots e) :
    e ≤ slot.start ∨ slot.stop ≤ e := by
  obtain ⟨other, other_mem, at_end⟩ := ends
  have apart : other.stop ≤ slot.start ∨ slot.stop ≤ other.start ∨ slot = other := by
    induction slots with
    | nil => exact absurd mem not_mem_nil
    | cons first rest ih =>
      rcases mem_cons.mp mem with rfl | later
      · rcases mem_cons.mp other_mem with rfl | other_later
        · exact .inr (.inr rfl)
        · exact .inr (.inl (ordered.later other other_later))
      · rcases mem_cons.mp other_mem with rfl | other_later
        · exact .inl (ordered.later slot later)
        · exact ih ordered.tail later other_later
  have other_nonempty := ordered.nonempty other other_mem
  grind

/-- A slot is determined by one of its instants, by the ends and by the values. -/
theorem mem_of_same [AddCommMonoid V] {others : List (Slot T V)} (ordered : Ordered slots)
    (others_ordered : Ordered others) (ends : ∀ e, Ends slots e ↔ Ends others e)
    (covered : ∀ t, Covers slots t → Covers others t)
    (valued : ∀ t, total slots t = total others t) (mem : slot ∈ slots) : slot ∈ others := by
  have here : slot.At slot.start := ⟨le_rfl, ordered.nonempty slot mem⟩
  obtain ⟨other, other_mem, started, running⟩ := covered slot.start ⟨slot, mem, here⟩
  have value : slot.value = other.value := by
    rw [← ordered.total_eq mem here, valued, others_ordered.total_eq other_mem ⟨started, running⟩]
  have start_outside : slot.start ≤ other.start ∨ other.stop ≤ slot.start :=
    others_ordered.outside other_mem ((ends _).mp ⟨slot, mem, .inl rfl⟩)
  have stop_outside : slot.stop ≤ other.start ∨ other.stop ≤ slot.stop :=
    others_ordered.outside other_mem ((ends _).mp ⟨slot, mem, .inr rfl⟩)
  have other_outside : other.stop ≤ slot.start ∨ slot.stop ≤ other.stop :=
    ordered.outside mem ((ends _).mpr ⟨other, other_mem, .inr rfl⟩)
  have nonempty := here.2
  have same_start : slot.start = other.start := by grind
  have same_stop : slot.stop = other.stop := by grind
  have same : slot = other := by
    cases slot
    simp_all only
  exact same ▸ other_mem

theorem eq_of_same [AddCommMonoid V] {others : List (Slot T V)} (ordered : Ordered slots)
    (others_ordered : Ordered others) (ends : ∀ e, Ends slots e ↔ Ends others e)
    (covered : ∀ t, Covers slots t ↔ Covers others t)
    (valued : ∀ t, total slots t = total others t) : slots = others := by
  have before : ∀ {list : List (Slot T V)}, Ordered list →
      list.Pairwise fun earlier later => earlier.start < later.start := fun {list} sorted =>
    sorted.sorted.imp_of_mem fun {earlier later} mem _ le =>
      (sorted.nonempty earlier mem).trans_le le
  refine List.Perm.eq_of_pairwise ?_ (before ordered) (before others_ordered) ?_
  · intro a b _ _ less more
    exact absurd (less.trans more) (lt_irrefl _)
  · refine (perm_ext_iff_of_nodup ?_ ?_).mpr fun slot => ⟨?_, ?_⟩
    · exact (before ordered).imp fun less same => absurd (same ▸ less) (lt_irrefl _)
    · exact (before others_ordered).imp fun less same => absurd (same ▸ less) (lt_irrefl _)
    · exact ordered.mem_of_same others_ordered ends (fun t => (covered t).mp) valued
    · exact others_ordered.mem_of_same ordered (fun e => (ends e).symm)
        (fun t => (covered t).mpr) fun t => (valued t).symm

end Ordered

/-- The insertion of a slot, piece by piece in the order of time. -/
inductive Inserts [Add V] : List (Slot T V) → Slot T V → List (Slot T V) → Prop where
  | last (slot : Slot T V) : Inserts [] slot [slot]
  | before {first slot : Slot T V} {rest : List (Slot T V)} (apart : slot.stop ≤ first.start) :
      Inserts (first :: rest) slot (slot :: first :: rest)
  | after {first slot : Slot T V} {rest out : List (Slot T V)} (apart : first.stop ≤ slot.start)
      (inserts : Inserts rest slot out) : Inserts (first :: rest) slot (first :: out)
  | split {first slot : Slot T V} {rest out : List (Slot T V)} (later : first.start < slot.start)
      (overlaps : slot.start < first.stop)
      (inserts : Inserts ({ first with start := slot.start } :: rest) slot out) :
      Inserts (first :: rest) slot ({ first with stop := slot.start } :: out)
  | early {first slot : Slot T V} {rest out : List (Slot T V)} (earlier : slot.start < first.start)
      (overlaps : first.start < slot.stop)
      (inserts : Inserts (first :: rest) { slot with start := first.start } out) :
      Inserts (first :: rest) slot ({ slot with stop := first.start } :: out)
  | same {first slot : Slot T V} {rest : List (Slot T V)} (starts : slot.start = first.start)
      (stops : slot.stop = first.stop) :
      Inserts (first :: rest) slot ({ first with value := first.value + slot.value } :: rest)
  | shorter {first slot : Slot T V} {rest : List (Slot T V)} (starts : slot.start = first.start)
      (stops : slot.stop < first.stop) :
      Inserts (first :: rest) slot ({ slot with value := slot.value + first.value } ::
        { first with start := slot.stop } :: rest)
  | longer {first slot : Slot T V} {rest out : List (Slot T V)} (starts : slot.start = first.start)
      (stops : first.stop < slot.stop)
      (inserts : Inserts rest { slot with start := first.stop } out) :
      Inserts (first :: rest) slot ({ first with value := first.value + slot.value } :: out)

namespace Inserts

variable {slots out : List (Slot T V)} {slot : Slot T V} {t : T}

theorem covers [Add V] (inserts : Inserts slots slot out) (ordered : Ordered slots)
    (nonempty : slot.start < slot.stop) : Covers out t ↔ slot.At t ∨ Covers slots t := by
  induction inserts with
  | last slot => rw [covers_cons]
  | before apart => rw [covers_cons]
  | after apart inserts ih =>
    rw [covers_cons, covers_cons, ih ordered.tail nonempty]
    exact or_left_comm
  | @split first slot rest out later overlaps inserts ih =>
    have cut : Ordered ({ first with start := slot.start } :: rest) :=
      .cons overlaps ordered.later ordered.tail
    rw [covers_cons, covers_cons, ih cut nonempty, covers_cons]
    have pieces : first.At t ↔
        Slot.At { first with stop := slot.start } t ∨ Slot.At { first with start := slot.start } t := by
      grind [Slot.At]
    rw [pieces, or_left_comm, or_assoc]
  | @early first slot rest out earlier overlaps inserts ih =>
    rw [covers_cons, ih ordered overlaps]
    have pieces : slot.At t ↔
        Slot.At { slot with stop := first.start } t ∨ Slot.At { slot with start := first.start } t := by
      grind [Slot.At]
    rw [pieces, or_assoc]
  | @same first slot rest starts stops =>
    rw [covers_cons, covers_cons]
    grind [Slot.At]
  | @shorter first slot rest starts stops =>
    rw [covers_cons, covers_cons, covers_cons]
    grind [Slot.At]
  | @longer first slot rest out starts stops inserts ih =>
    rw [covers_cons, covers_cons, ih ordered.tail stops]
    have := ordered.head
    grind [Slot.At]

theorem ends [Add V] (inserts : Inserts slots slot out) {e : T} :
    Ends out e ↔ (e = slot.start ∨ e = slot.stop) ∨ Ends slots e := by
  induction inserts with
  | last slot => rw [ends_cons]
  | before apart => rw [ends_cons]
  | after apart inserts ih =>
    rw [ends_cons, ends_cons, ih]
    exact or_left_comm
  | split later overlaps inserts ih =>
    rw [ends_cons, ends_cons, ih, ends_cons]
    grind
  | early earlier overlaps inserts ih =>
    rw [ends_cons, ih, ends_cons]
    grind
  | same starts stops =>
    rw [ends_cons, ends_cons, starts, stops]
    grind
  | shorter starts stops =>
    rw [ends_cons, ends_cons, ends_cons, starts]
    grind
  | longer starts stops inserts ih =>
    rw [ends_cons, ends_cons, ih, starts]
    grind

theorem total_eq [AddCommMonoid V] (inserts : Inserts slots slot out) (ordered : Ordered slots)
    (nonempty : slot.start < slot.stop) : total out t = total (slot :: slots) t := by
  induction inserts with
  | last slot => rfl
  | before apart => rfl
  | after apart inserts ih =>
    rw [total_cons, ih ordered.tail nonempty, total_cons, total_cons, total_cons, add_left_comm]
  | @split first slot rest out later overlaps inserts ih =>
    have cut : Ordered ({ first with start := slot.start } :: rest) :=
      .cons overlaps ordered.later ordered.tail
    rw [total_cons, ih cut nonempty, total_cons, total_cons, total_cons, total_cons,
      add_left_comm, ← add_assoc (ite _ _ _) (ite _ _ _) (total rest t)]
    have pieces : (if Slot.At { first with stop := slot.start } t then first.value else 0) +
        (if Slot.At { first with start := slot.start } t then first.value else 0) =
          if first.At t then first.value else 0 := by
      grind [Slot.At]
    rw [pieces]
  | @early first slot rest out earlier overlaps inserts ih =>
    have whole : total (slot :: first :: rest) t =
        (if slot.At t then slot.value else 0) + total (first :: rest) t := total_cons
    rw [whole, total_cons, ih ordered overlaps, total_cons, ← add_assoc]
    have pieces : (if Slot.At { slot with stop := first.start } t then slot.value else 0) +
        (if Slot.At { slot with start := first.start } t then slot.value else 0) =
          if slot.At t then slot.value else 0 := by
      grind [Slot.At]
    rw [pieces]
  | @same first slot rest starts stops =>
    rw [total_cons, total_cons, total_cons, ← add_assoc]
    have pieces : (if Slot.At { first with value := first.value + slot.value } t then
        first.value + slot.value else 0) =
          (if slot.At t then slot.value else 0) + if first.At t then first.value else 0 := by
      grind [Slot.At]
    rw [pieces]
  | @shorter first slot rest starts stops =>
    rw [total_cons, total_cons, total_cons, total_cons, ← add_assoc, ← add_assoc]
    have pieces : (if Slot.At { slot with value := slot.value + first.value } t then
        slot.value + first.value else 0) +
          (if Slot.At { first with start := slot.stop } t then first.value else 0) =
          (if slot.At t then slot.value else 0) + if first.At t then first.value else 0 := by
      grind [Slot.At]
    rw [pieces]
  | @longer first slot rest out starts stops inserts ih =>
    have filled := ordered.head
    rw [total_cons, ih ordered.tail stops, total_cons, total_cons, total_cons, ← add_assoc,
      ← add_assoc]
    have pieces : (if Slot.At { first with value := first.value + slot.value } t then
        first.value + slot.value else 0) +
          (if Slot.At { slot with start := first.stop } t then slot.value else 0) =
          (if slot.At t then slot.value else 0) + if first.At t then first.value else 0 := by
      grind [Slot.At]
    rw [pieces]

/-- No slot begins before the first of those that were there. -/
theorem start_le [Add V] (inserts : Inserts slots slot out) {bound : T} (ordered : Ordered slots)
    (nonempty : slot.start < slot.stop) (slot_after : bound ≤ slot.start)
    (after : ∀ other ∈ slots, bound ≤ other.start) : ∀ other ∈ out, bound ≤ other.start := by
  induction inserts with
  | last slot => exact forall_mem_singleton.mpr slot_after
  | before apart => exact forall_mem_cons.mpr ⟨slot_after, after⟩
  | after apart inserts ih =>
    obtain ⟨first_after, rest_after⟩ := forall_mem_cons.mp after
    exact forall_mem_cons.mpr ⟨first_after, ih ordered.tail nonempty slot_after rest_after⟩
  | @split first slot rest out later overlaps inserts ih =>
    obtain ⟨first_after, rest_after⟩ := forall_mem_cons.mp after
    have cut : Ordered ({ first with start := slot.start } :: rest) :=
      .cons overlaps ordered.later ordered.tail
    exact forall_mem_cons.mpr ⟨first_after, ih cut nonempty slot_after
      (forall_mem_cons.mpr ⟨slot_after, rest_after⟩)⟩
  | @early first slot rest out earlier overlaps inserts ih =>
    exact forall_mem_cons.mpr ⟨slot_after, ih ordered overlaps (after first mem_cons_self) after⟩
  | same starts stops => exact forall_mem_cons.mpr (forall_mem_cons.mp after)
  | shorter starts stops =>
    obtain ⟨first_after, rest_after⟩ := forall_mem_cons.mp after
    exact forall_mem_cons.mpr ⟨slot_after, forall_mem_cons.mpr
      ⟨slot_after.trans nonempty.le, rest_after⟩⟩
  | longer starts stops inserts ih =>
    obtain ⟨first_after, rest_after⟩ := forall_mem_cons.mp after
    exact forall_mem_cons.mpr ⟨first_after, ih ordered.tail stops
      (first_after.trans ordered.head.le) rest_after⟩

theorem ordered [Add V] (inserts : Inserts slots slot out) (before : Ordered slots)
    (nonempty : slot.start < slot.stop) : Ordered out := by
  induction inserts with
  | last slot => exact .cons nonempty (fun _ mem => absurd mem not_mem_nil) before
  | @before first slot rest apart =>
    refine .cons nonempty (forall_mem_cons.mpr ⟨apart, fun other mem => ?_⟩) before
    exact apart.trans (before.head.le.trans (before.later other mem))
  | after apart inserts ih =>
    exact .cons before.head (inserts.start_le before.tail nonempty apart before.later)
      (ih before.tail nonempty)
  | @split first slot rest out later overlaps inserts ih =>
    have cut : Ordered ({ first with start := slot.start } :: rest) :=
      .cons overlaps before.later before.tail
    refine .cons later (inserts.start_le cut nonempty le_rfl ?_) (ih cut nonempty)
    refine forall_mem_cons.mpr ⟨le_rfl, fun other mem => ?_⟩
    exact overlaps.le.trans (before.later other mem)
  | early earlier overlaps inserts ih =>
    refine .cons earlier (inserts.start_le before overlaps le_rfl ?_) (ih before overlaps)
    refine forall_mem_cons.mpr ⟨le_rfl, fun other mem => ?_⟩
    exact before.head.le.trans (before.later other mem)
  | same starts stops => exact .cons before.head before.later before.tail
  | shorter starts stops =>
    refine .cons nonempty (forall_mem_cons.mpr ⟨le_rfl, fun other mem => ?_⟩)
      (.cons stops before.later before.tail)
    exact stops.le.trans (before.later other mem)
  | longer starts stops inserts ih =>
    exact .cons before.head (inserts.start_le before.tail stops le_rfl before.later)
      (ih before.tail stops)

end Inserts

end SlurmSim.Lib.TimeSlots
