import Mathlib.Data.List.Chain
import SlurmSim.Reservation.JobTest

/-!
# Start times move forward

A start time that is given up is followed by the stored end of a reservation.  For a
reservation with fixed times that is later, because it overlaps the run of the job; a
floating reservation may have ended long before, and there may be none with the licenses.
-/

namespace SlurmSim.Reservation

open List

namespace Call

variable (call : Call)

/-- A reservation that overlaps the run of the job and has licenses of the job. -/
def SharesLicense (start : Int) (resv : Resv) : Prop :=
  call.Overlaps start resv ∧
    licenseListOverlap call.details.licenseList resv.licenseList = true

instance (start : Int) (resv : Resv) : Decidable (call.SharesLicense start resv) :=
  inferInstanceAs (Decidable (_ ∧ _))

/-- The stored ends that decide about the next start time satisfy a bound: that of a floating
reservation which excludes the start time, or those of the floating reservations with licenses
of the job, and there is a reservation with such licenses. -/
def EndsWithin (attempt : Attempt) (bound : Int → Prop) : Prop :=
  match attempt.blocker with
  | some resv => resv.flags.timeFloat = true → bound resv.endTime
  | none =>
    attempt.waits = true →
      (∃ resv ∈ attempt.passed, call.SharesLicense attempt.start resv) ∧
        ∀ resv ∈ attempt.passed, call.SharesLicense attempt.start resv →
          resv.flags.timeFloat = true → bound resv.endTime

/-- The start times of a call are strictly increasing, and the time it leaves is not earlier
than the first. -/
structure MovesForward (start : Int) (resvList : List Resv) : Prop where
  increasing : (call.attemptsOf start resvList).IsChain fun one next => one.start < next.start
  not_earlier : start ≤ (call.jobTestResv start resvList).when

/-- No stored end is the 0 that stands for a license time that was not set. -/
def Dated (start : Int) (resvList : List Resv) : Prop :=
  ∀ attempt ∈ call.attemptsOf start resvList, ∀ resv ∈ attempt.passed, resv.endTime ≠ 0

variable {call} {start : Int}

variable {resv : Resv}

theorem Overlaps.before_end (overlaps : call.Overlaps start resv)
    (fixed : resv.flags.timeFloat ≠ true) : start < resv.endTime := by
  have period : (resv.relativePeriod call.now).2 = resv.endTime := by
    rw [Resv.relativePeriod, if_neg fixed]
  rw [← period]
  exact overlaps.2.2

/-! ## The time of the licenses -/

theorem licenseStep_of_shares (shares : call.SharesLicense start resv) (time : Int) :
    call.licenseStep start time resv =
      if time = 0 ∨ resv.endTime < time then resv.endTime else time := by
  rw [licenseStep, if_pos shares.1, freeLicenses, if_pos shares.2]

theorem licenseStep_of_not_shares (apart : ¬call.SharesLicense start resv) (time : Int) :
    call.licenseStep start time resv = time := by
  rw [licenseStep]
  split_ifs with overlaps
  · rw [freeLicenses, if_neg fun shares => apart ⟨overlaps, shares⟩]
  · rfl

/-- A license time that was set becomes the earliest of itself and the stored ends. -/
theorem foldl_licenseStep_set (resvs : List Resv) {time : Int} (set_ : time ≠ 0)
    (dated : ∀ resv ∈ resvs, resv.endTime ≠ 0) :
    let last := resvs.foldl (call.licenseStep start) time
    last ≤ time ∧ (∀ resv ∈ resvs, call.SharesLicense start resv → last ≤ resv.endTime) ∧
      (last = time ∨ ∃ resv ∈ resvs, call.SharesLicense start resv ∧ last = resv.endTime) := by
  induction resvs generalizing time with
  | nil => exact ⟨le_rfl, fun _ mem => absurd mem not_mem_nil, .inl rfl⟩
  | cons first rest ih =>
    obtain ⟨first_dated, rest_dated⟩ := forall_mem_cons.mp dated
    rw [foldl_cons]
    by_cases shares : call.SharesLicense start first
    · by_cases earlier : first.endTime < time
      · rw [licenseStep_of_shares shares, if_pos (.inr earlier)]
        obtain ⟨below, rest_below, from_where⟩ := ih first_dated rest_dated
        refine ⟨below.trans earlier.le, forall_mem_cons.mpr ⟨fun _ => below, rest_below⟩, .inr ?_⟩
        rcases from_where with same | ⟨resv, mem, resv_shares, same⟩
        · exact ⟨first, mem_cons_self, shares, same⟩
        · exact ⟨resv, mem_cons_of_mem _ mem, resv_shares, same⟩
      · rw [licenseStep_of_shares shares, if_neg (not_or.mpr ⟨set_, earlier⟩)]
        obtain ⟨below, rest_below, from_where⟩ := ih set_ rest_dated
        refine ⟨below, forall_mem_cons.mpr
          ⟨fun _ => below.trans (not_lt.mp earlier), rest_below⟩, from_where.imp_right ?_⟩
        rintro ⟨resv, mem, resv_shares, same⟩
        exact ⟨resv, mem_cons_of_mem _ mem, resv_shares, same⟩
    · rw [licenseStep_of_not_shares shares]
      obtain ⟨below, rest_below, from_where⟩ := ih set_ rest_dated
      refine ⟨below, forall_mem_cons.mpr
        ⟨fun first_shares => absurd first_shares shares, rest_below⟩, from_where.imp_right ?_⟩
      rintro ⟨resv, mem, resv_shares, same⟩
      exact ⟨resv, mem_cons_of_mem _ mem, resv_shares, same⟩

theorem foldl_licenseStep_zero (resvs : List Resv) (dated : ∀ resv ∈ resvs, resv.endTime ≠ 0) :
    let last := resvs.foldl (call.licenseStep start) 0
    ((¬∃ resv ∈ resvs, call.SharesLicense start resv) ∧ last = 0) ∨
      ((∃ resv ∈ resvs, call.SharesLicense start resv ∧ last = resv.endTime) ∧
        ∀ resv ∈ resvs, call.SharesLicense start resv → last ≤ resv.endTime) := by
  induction resvs with
  | nil => exact .inl ⟨fun ⟨_, mem, _⟩ => absurd mem not_mem_nil, rfl⟩
  | cons first rest ih =>
    obtain ⟨first_dated, rest_dated⟩ := forall_mem_cons.mp dated
    rw [foldl_cons]
    by_cases shares : call.SharesLicense start first
    · rw [licenseStep_of_shares shares, if_pos (.inl rfl)]
      obtain ⟨below, rest_below, from_where⟩ :=
        @foldl_licenseStep_set call start rest _ first_dated rest_dated
      refine .inr ⟨?_, forall_mem_cons.mpr ⟨fun _ => below, rest_below⟩⟩
      rcases from_where with same | ⟨resv, mem, resv_shares, same⟩
      · exact ⟨first, mem_cons_self, shares, same⟩
      · exact ⟨resv, mem_cons_of_mem _ mem, resv_shares, same⟩
    · rw [licenseStep_of_not_shares shares]
      rcases ih rest_dated with ⟨no_shares, zero⟩ | ⟨⟨resv, mem, resv_shares, same⟩, below⟩
      · refine .inl ⟨?_, zero⟩
        rintro ⟨resv, mem, resv_shares⟩
        rcases mem_cons.mp mem with rfl | later
        · exact shares resv_shares
        · exact no_shares ⟨resv, later, resv_shares⟩
      · exact .inr ⟨⟨resv, mem_cons_of_mem _ mem, resv_shares, same⟩,
          forall_mem_cons.mpr ⟨fun first_shares => absurd first_shares shares, below⟩⟩

/-! ## One start time -/

/-- Where the time to try next comes from. -/
structure Chooses (call : Call) (attempt : Attempt) : Prop where
  blocked : ∀ resv, attempt.blocker = some resv →
    call.Overlaps attempt.start resv ∧ attempt.chosen = some resv.endTime
  free : attempt.blocker = none → attempt.chosen =
    if attempt.waits = true then
      some (attempt.passed.foldl (call.licenseStep attempt.start) 0)
    else none

theorem attemptsOf_chooses (moves : call.moveTime = true) (start : Int) (resvList : List Resv) :
    ∀ attempt ∈ call.attemptsOf start resvList, call.Chooses attempt := by
  rw [attemptsOf]
  split_ifs
  · refine forall_mem_singleton.mpr ⟨fun resv blocked => ?_, fun _ => ?_⟩
    · exact absurd blocked.symm (Option.some_ne_none resv)
    · rw [if_neg Bool.false_ne_true]
  · refine attempts_forall (fun start resvs => ?_) 10 start resvList
    rw [attemptAt]
    cases found : call.blocker start resvs with
    | none => exact ⟨fun resv blocked => absurd blocked.symm (Option.some_ne_none resv), fun _ => rfl⟩
    | some first =>
      refine ⟨fun resv blocked => ?_, fun free => absurd free (Option.some_ne_none first)⟩
      obtain rfl := Option.some.inj blocked
      have blocks := find?_some found
      exact ⟨(of_decide_eq_true blocks).1, by dsimp only; rw [moves, if_pos rfl]⟩

/-- A bound that holds of later times, of times after the start and not of the 0. -/
structure Admits (attempt : Attempt) (bound : Int → Prop) : Prop where
  later : ∀ x y, x ≤ y → bound x → bound y
  after_start : ∀ x, attempt.start < x → bound x

/-- The time chosen satisfies a bound when the stored ends that decide do. -/
theorem EndsWithin.chosen {attempt : Attempt} {bound : Int → Prop}
    (within : call.EndsWithin attempt bound) (chooses : call.Chooses attempt) (admits : Admits attempt bound)
    (dated : ∀ resv ∈ attempt.passed, resv.endTime ≠ 0) {time : Int}
    (chosen : attempt.chosen = some time) : bound time := by
  have of_overlap : ∀ resv, call.Overlaps attempt.start resv →
      (resv.flags.timeFloat = true → bound resv.endTime) → bound resv.endTime := by
    intro resv overlaps floating
    by_cases floats : resv.flags.timeFloat = true
    · exact floating floats
    · exact admits.after_start _ (overlaps.before_end floats)
  unfold EndsWithin at within
  cases blocked : attempt.blocker with
  | some resv =>
    obtain ⟨overlaps, chosen_end⟩ := chooses.blocked resv blocked
    rw [blocked] at within
    obtain rfl := Option.some.inj (chosen.symm.trans chosen_end)
    exact of_overlap resv overlaps within
  | none =>
    rw [blocked] at within
    have free := chooses.free blocked
    rw [chosen] at free
    split_ifs at free with waits
    obtain ⟨⟨shared, mem, shares⟩, floating⟩ := within waits
    have license := Option.some.inj free
    rcases @foldl_licenseStep_zero call attempt.start attempt.passed dated with
      ⟨no_shares, _⟩ | ⟨⟨resv, resv_mem, resv_shares, same⟩, _⟩
    · exact absurd ⟨shared, mem, shares⟩ no_shares
    · rw [license, same]
      exact of_overlap resv resv_shares.1 (floating resv resv_mem resv_shares)

/-- And only then, if the bound does not hold of the 0. -/
theorem Chooses.endsWithin {attempt : Attempt} {bound : Int → Prop} (chooses : call.Chooses attempt)
    (admits : Admits attempt bound) (not_zero : ¬bound 0)
    (dated : ∀ resv ∈ attempt.passed, resv.endTime ≠ 0)
    (bounded : ∀ time, attempt.chosen = some time → bound time) :
    call.EndsWithin attempt bound := by
  unfold EndsWithin
  cases blocked : attempt.blocker with
  | some resv => exact fun _ => bounded _ (chooses.blocked resv blocked).2
  | none =>
    intro waits
    have chosen := chooses.free blocked
    rw [if_pos waits] at chosen
    have license := bounded _ chosen
    rcases @foldl_licenseStep_zero call attempt.start attempt.passed dated with
      ⟨_, zero⟩ | ⟨⟨resv, mem, shares, _⟩, below⟩
    · rw [zero] at license
      exact absurd license not_zero
    · exact ⟨⟨resv, mem, shares⟩, fun other other_mem other_shares _ =>
          admits.later _ _ (below other other_mem other_shares) license⟩

/-! ## The start times -/

/-- The start times increase where every time chosen is later. -/
theorem increasing_iff {abandoned : List Attempt} {final : Attempt}
    (chosen : (abandoned ++ [final]).IsChain fun one next => one.chosen = some next.start) :
    (abandoned ++ [final]).IsChain (fun one next => one.start < next.start) ↔
      ∀ attempt ∈ abandoned, ∀ time, attempt.chosen = some time → attempt.start < time := by
  induction abandoned with
  | nil => exact iff_of_true (.singleton _) fun _ mem => absurd mem not_mem_nil
  | cons first rest ih =>
    rw [cons_append, isChain_cons] at chosen ⊢
    rw [ih chosen.2, forall_mem_cons]
    refine and_congr_left fun _ => ?_
    obtain ⟨next, head⟩ : ∃ next, (rest ++ [final]).head? = some next := by
      cases rest with
      | nil => exact ⟨final, rfl⟩
      | cons next _ => exact ⟨next, rfl⟩
    have chosen_next := chosen.1 next head
    constructor
    · intro less time chosen_time
      obtain rfl := Option.some.inj (chosen_next.symm.trans chosen_time)
      exact less next head
    · intro less other other_head
      obtain rfl := Option.some.inj (head.symm.trans other_head)
      exact less _ chosen_next

theorem attemptsOf_head (start : Int) (resvList : List Resv) :
    ∃ next rest, call.attemptsOf start resvList = next :: rest ∧ next.start = start := by
  rw [attemptsOf]
  split_ifs
  · exact ⟨_, _, rfl, rfl⟩
  · exact attempts_head 10 start resvList

theorem start_le_of_increasing {resvList : List Resv}
    (increasing : (call.attemptsOf start resvList).IsChain fun one next => one.start < next.start) :
    ∀ attempt ∈ call.attemptsOf start resvList, start ≤ attempt.start := by
  obtain ⟨first, rest, tried, first_start⟩ := call.attemptsOf_head start resvList
  rw [tried] at increasing ⊢
  have starts : ((first :: rest).map Attempt.start).IsChain (· < ·) :=
    (isChain_map Attempt.start).mpr increasing
  have pairwise := pairwise_map.mp starts.pairwise
  refine forall_mem_cons.mpr ⟨first_start.ge, fun attempt mem => ?_⟩
  rw [← first_start]
  exact ((pairwise_cons.mp pairwise).1 attempt mem).le

/-- The start times move forward exactly when the stored ends that decide do: after the start
time that is given up, and at the last one not before the first. -/
theorem jobTestResv_forward_iff (moves : call.moveTime = true) (positive : 0 < start)
    (resvList : List Resv) (dated : call.Dated start resvList) (abandoned : List Attempt)
    (final : Attempt) (tried : call.attemptsOf start resvList = abandoned ++ [final]) :
    call.MovesForward start resvList ↔
      (∀ attempt ∈ abandoned, call.EndsWithin attempt (attempt.start < ·)) ∧
        call.EndsWithin final (start ≤ ·) := by
  have tells := call.jobTestResv_tells start resvList
  obtain ⟨_, last, split, busy, time⟩ := tells.last
  obtain ⟨-, same⟩ := append_inj' (tried.symm.trans split) rfl
  obtain rfl : final = last := singleton_inj.mp same
  have chooses := call.attemptsOf_chooses moves start resvList
  have final_mem : final ∈ call.attemptsOf start resvList := by
    rw [tried]
    exact mem_append_right _ mem_cons_self
  have abandoned_mem : ∀ attempt ∈ abandoned, attempt ∈ call.attemptsOf start resvList := by
    intro attempt mem
    rw [tried]
    exact mem_append_left _ mem
  have strict : ∀ attempt : Attempt, Admits attempt (attempt.start < ·) := fun attempt =>
    ⟨fun _ _ le less => less.trans_le le, fun _ less => less⟩
  have chain := tells.chosen
  rw [tried] at chain
  have steps := increasing_iff chain
  rw [← tried] at steps
  constructor
  · rintro ⟨increasing, not_earlier⟩
    have from_start := start_le_of_increasing increasing
    refine ⟨fun attempt mem => ?_, ?_⟩
    · have here := abandoned_mem attempt mem
      refine (chooses attempt here).endsWithin (strict attempt) ?_ (dated attempt here)
        (steps.mp increasing attempt mem)
      exact not_lt.mpr (positive.le.trans (from_start attempt here))
    · have admits : Admits final (start ≤ ·) :=
        ⟨fun _ _ le less => less.trans le, fun _ less => (from_start final final_mem).trans less.le⟩
      refine (chooses final final_mem).endsWithin admits (not_le.mpr positive)
        (dated final final_mem) fun chosen chosen_eq => ?_
      rw [time, chosen_eq, Option.getD_some] at not_earlier
      exact not_earlier
  · rintro ⟨abandoned_within, final_within⟩
    have increasing := steps.mpr fun attempt mem chosen chosen_eq =>
      (abandoned_within attempt mem).chosen (chooses attempt (abandoned_mem attempt mem))
        (strict attempt) (dated attempt (abandoned_mem attempt mem)) chosen_eq
    have from_start := start_le_of_increasing increasing final final_mem
    refine ⟨increasing, ?_⟩
    rw [time]
    cases chosen_eq : final.chosen with
    | none => exact from_start
    | some chosen =>
      have admits : Admits final (start ≤ ·) :=
        ⟨fun _ _ le less => less.trans le, fun _ less => from_start.trans less.le⟩
      exact final_within.chosen (chooses final final_mem) admits (dated final final_mem) chosen_eq

/-- A call of the witnesses: a job of a minute, for nodes that are all reserved. -/
def anyNode : Call where
  zone := stillZone
  now := 1000
  newId := fun _ => none
  nodeRecordCount := 4
  details := ⟨none, 0, none⟩
  duration := 60
  moveTime := true
  licenseJobTest := fun _ resvs => (false, resvs)

/-- A floating reservation of all nodes that begins at once and lasts for an hour. -/
def floatingResv (stop : Int) : Resv :=
  { powerResv "a" { floatingFlags with allNodes := true } 0 stop 0 with
    nodeBitmap := some {0, 1, 2, 3} }

/-- The reservation was made at the current time. -/
theorem jobTestResv_forward_new : anyNode.MovesForward 1000 [floatingResv 4600] := by
  refine (@jobTestResv_forward_iff anyNode 1000 rfl (by decide) [floatingResv 4600] ?_
    [⟨1000, [floatingResv 4600], [], some (floatingResv 4600), false, some 4600⟩]
    ⟨4600, [floatingResv 4600], [floatingResv 4600], none, false, none⟩ rfl).mpr ⟨?_, ?_⟩
  · unfold Dated
    decide
  · exact forall_mem_singleton.mpr fun _ => by decide
  · exact nofun

/-- The reservation was made more than an hour ago. -/
theorem jobTestResv_forward_fails :
    ¬∀ (call : Call) (start : Int) (resvList : List Resv), call.moveTime = true → 0 < start →
      call.Dated start resvList → call.MovesForward start resvList := by
  intro right
  have forward := right anyNode 1000 [floatingResv 950] rfl (by decide) (by unfold Dated; decide)
  have back : (anyNode.jobTestResv 1000 [floatingResv 950]).when = 950 := rfl
  have not_earlier := forward.not_earlier
  rw [back] at not_earlier
  exact absurd not_earlier (by decide)

end Call

end SlurmSim.Reservation
