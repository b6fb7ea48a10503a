import SlurmSim.Reservation.Planning
import SlurmSim.Reservation.Resv

/-!
# Power reservations

The watts that a job may not use are the maximum of a planning of the power reservations
that overlap its run.  The planning takes the stored times of a reservation, also where
these are relative to the current time.
-/

namespace SlurmSim.Reservation

open Lib.TimeSlots List

/-- `part_record`, as far as it is used here; without `maxTime` the time is not limited. -/
structure Partition where
  maxTime : Option Nat
  maxShare : Nat
  deriving DecidableEq, Repr

/-- `job_record`, as far as it is used here.  A job without a time limit has the limit of
its partition. -/
structure Job where
  resvName : Option String
  timeLimit : Duration
  part : Option Partition
  limited : timeLimit = .noVal → part.isSome

/-- `slurmctld_conf.preempt_mode` and `node_features_g_boot_time()` -/
structure Conf where
  preemptMode : Nat
  bootTime : Nat
  deriving DecidableEq, Repr

/-- `PREEMPT_MODE_GANG` -/
def preemptModeGang : Nat := 0x8000

/-- The seconds of the time limit of a job. -/
def Job.limitSeconds (job : Job) : Nat :=
  match limit : job.timeLimit with
  | .infinite => yearSeconds
  | .minutes count => count * 60 % 2 ^ 32
  | .noVal =>
    match (job.part.get (job.limited limit)).maxTime with
    | none => yearSeconds
    | some count => count * 60 % 2 ^ 32

/-- `max_share & ~SHARED_FORCE` -/
def Job.timeSlices (job : Job) : Nat :=
  match job.part with
  | none => 1
  | some part => part.maxShare &&& 0x7fff

/-- `_get_job_duration` -/
def getJobDuration (conf : Conf) (job : Job) (reboot : Bool) : Nat :=
  let limit := job.limitSeconds
  let duration :=
    if limit ≠ yearSeconds ∧ 1 < job.timeSlices ∧ conf.preemptMode &&& preemptModeGang ≠ 0 then
      limit * job.timeSlices % 2 ^ 32
    else limit
  if reboot then (duration + conf.bootTime) % 2 ^ 32 else duration

/-- One round of the loop of `job_test_watts_resv`. -/
def planResv (job : Job) (jobStart jobEnd : Int) (sched : List ConstraintSlot) (resv : Resv) :
    List ConstraintSlot :=
  match resv.resvWatts with
  | none | some 0 => sched
  | some (watts + 1) =>
    if jobEnd ≤ resv.startTime ∨ resv.endTime ≤ jobStart then sched
    else if job.resvName = some resv.name then sched
    else updateConstraintPlanning sched (UInt32.ofNat (watts + 1)) resv.startTime resv.endTime

/-- `job_test_watts_resv`, with the reservations it leaves. -/
def jobTestWattsResv (zone : Zone) (conf : Conf) (now : Int) (newId : Resv → Option Nat) (job : Job)
    (start : Int) (reboot : Bool) (resvList : List Resv) : UInt32 × List Resv :=
  let jobEnd := start + getJobDuration conf job reboot
  let resvs := resvList.map fun resv => advanceIfEnded zone now (newId resv) resv
  ((maxConstraintPlanning (resvs.foldl (planResv job start jobEnd) [])).1, resvs)

/-! ## The constraints -/

/-- The watts of a reservation, 0 if it is not a power reservation. -/
def Resv.watts (resv : Resv) : Nat :=
  resv.resvWatts.getD 0

/-- A power reservation that is not the job's own. -/
def Job.avoids (job : Job) (resv : Resv) : Prop :=
  0 < resv.watts ∧ job.resvName ≠ some resv.name

instance (job : Job) (resv : Resv) : Decidable (job.avoids resv) :=
  inferInstanceAs (Decidable (_ ∧ _))

/-- The stored times of a reservation overlap a period; an empty period is inside. -/
def Resv.Overlaps (resv : Resv) (jobStart jobEnd : Int) : Prop :=
  resv.startTime < jobEnd ∧ jobStart < resv.endTime

instance (resv : Resv) (jobStart jobEnd : Int) : Decidable (resv.Overlaps jobStart jobEnd) :=
  inferInstanceAs (Decidable (_ ∧ _))

/-- The constraint of a power reservation. -/
def Resv.constraint (resv : Resv) : ConstraintSlot where
  start := resv.startTime
  stop := resv.endTime
  value := UInt32.ofNat resv.watts

/-- The reservations that are planned. -/
def Job.planned (job : Job) (jobStart jobEnd : Int) (resvs : List Resv) : List Resv :=
  resvs.filter fun resv => decide (job.avoids resv ∧ resv.Overlaps jobStart jobEnd)

/-- A reservation is active at its stored times, or relative to the current time. -/
def Resv.ActiveAt (now : Int) (resv : Resv) (t : Int) : Prop :=
  if resv.flags.timeFloat then
    (resv.relativePeriod now).1 ≤ t ∧ t < (resv.relativePeriod now).2
  else resv.startTime ≤ t ∧ t < resv.endTime

instance (now : Int) (resv : Resv) (t : Int) : Decidable (resv.ActiveAt now t) :=
  inferInstanceAs (Decidable (ite _ _ _))

/-- The watts of the other power reservations that are active at an instant. -/
def otherWatts (now : Int) (job : Job) (resvs : List Resv) (t : Int) : Nat :=
  ((resvs.filter fun resv => decide (job.avoids resv ∧ resv.ActiveAt now t)).map Resv.watts).sum

section Planned

variable (job : Job) (jobStart jobEnd : Int)

theorem planResv_eq (sched : List ConstraintSlot) (resv : Resv) :
    planResv job jobStart jobEnd sched resv =
      if job.avoids resv ∧ resv.Overlaps jobStart jobEnd then
        updateConstraintPlanning sched resv.constraint.value resv.constraint.start
          resv.constraint.stop
      else sched := by
  have avoids_iff : job.avoids resv ↔ 0 < resv.resvWatts.getD 0 ∧ job.resvName ≠ some resv.name :=
    Iff.rfl
  unfold planResv
  split
  · rename_i no_watts
    have not_avoided : ¬job.avoids resv := by
      rw [avoids_iff, no_watts]
      exact fun avoids => absurd avoids.1 (lt_irrefl 0)
    rw [if_neg fun planned => not_avoided planned.1]
  · rename_i zero_watts
    have not_avoided : ¬job.avoids resv := by
      rw [avoids_iff, zero_watts]
      exact fun avoids => absurd avoids.1 (lt_irrefl 0)
    rw [if_neg fun planned => not_avoided planned.1]
  · rename_i watts some_watts
    have constraint : resv.constraint =
        { start := resv.startTime, stop := resv.endTime, value := UInt32.ofNat (watts + 1) } := by
      rw [Resv.constraint, Resv.watts, some_watts]
      rfl
    have avoided : job.avoids resv ↔ job.resvName ≠ some resv.name := by
      rw [avoids_iff, some_watts]
      exact and_iff_right (Nat.succ_pos watts)
    rw [constraint]
    by_cases planned : job.avoids resv ∧ resv.Overlaps jobStart jobEnd
    · obtain ⟨before_end, after_start⟩ := planned.2
      rw [if_pos planned, if_neg (by omega), if_neg (avoided.mp planned.1)]
    · split_ifs with apart own
      · rfl
      · rfl
      · push Not at apart
        exact absurd ⟨avoided.mpr own, apart⟩ planned

theorem foldl_planResv (resvs : List Resv) (sched : List ConstraintSlot) :
    resvs.foldl (planResv job jobStart jobEnd) sched =
      ((job.planned jobStart jobEnd resvs).map Resv.constraint).foldl
        (fun sched c => updateConstraintPlanning sched c.value c.start c.stop) sched := by
  induction resvs generalizing sched with
  | nil => rfl
  | cons resv rest ih =>
    rw [foldl_cons, ih, planResv_eq]
    unfold Job.planned
    rw [filter_cons]
    split_ifs with here decided decided
    · rfl
    · exact absurd (decide_eq_true here) decided
    · exact absurd (of_decide_eq_true decided) here
    · rfl

theorem planned_planConstraints (resvs : List Resv) :
    resvs.foldl (planResv job jobStart jobEnd) [] =
      planConstraints ((job.planned jobStart jobEnd resvs).map Resv.constraint) :=
  foldl_planResv job jobStart jobEnd resvs []

end Planned

theorem sumOfValues_constraint {resvs : List Resv} (fits : (resvs.map Resv.watts).sum < 2 ^ 32) :
    sumOfValues (resvs.map Resv.constraint) = (resvs.map Resv.watts).sum := by
  induction resvs with
  | nil => rfl
  | cons resv rest ih =>
    rw [sumOfValues, map_cons, map_cons, sum_cons, map_cons, sum_cons]
    have value : resv.constraint.value.toNat = resv.watts :=
      UInt32.toNat_ofNat_of_lt' (lt_of_le_of_lt (Nat.le_add_right _ _) fits)
    rw [value]
    exact congrArg _ (ih (lt_of_le_of_lt (Nat.le_add_left _ _) fits))

/-! ## The answer -/

/-- Inside the run of the job, the floating power reservations are active at their stored
times. -/
def FloatsAgree (now : Int) (job : Job) (jobStart jobEnd : Int) (resvs : List Resv) : Prop :=
  ∀ resv ∈ resvs, job.avoids resv → resv.flags.timeFloat = true →
    ∀ t, jobStart ≤ t → t < jobEnd →
      (resv.startTime ≤ t ∧ t < resv.endTime ↔ resv.ActiveAt now t)

section Answer

variable {now : Int} {job : Job} {jobStart jobEnd : Int} {resvs : List Resv}

theorem activeAt_of_agree (agree : FloatsAgree now job jobStart jobEnd resvs) {resv : Resv}
    (mem : resv ∈ resvs) (avoids : job.avoids resv) {t : Int} (from_start : jobStart ≤ t)
    (before_end : t < jobEnd) :
    resv.startTime ≤ t ∧ t < resv.endTime ↔ resv.ActiveAt now t := by
  cases floats : resv.flags.timeFloat with
  | true => exact agree resv mem avoids floats t from_start before_end
  | false => rw [Resv.ActiveAt, floats, if_neg Bool.false_ne_true]

/-- Inside the run of the job, the planned watts are those of the active reservations. -/
theorem valueAt_planned (agree : FloatsAgree now job jobStart jobEnd resvs)
    (fits : ((job.planned jobStart jobEnd resvs).map Resv.watts).sum < 2 ^ 32) {t : Int}
    (from_start : jobStart ≤ t) (before_end : t < jobEnd) :
    valueAt ((job.planned jobStart jobEnd resvs).map Resv.constraint) t =
      otherWatts now job resvs t := by
  have here_fits : (((job.planned jobStart jobEnd resvs).filter
      fun resv => decide (resv.constraint.At t)).map Resv.watts).sum < 2 ^ 32 :=
    lt_of_le_of_lt ((filter_sublist.map _).sum_le_sum fun _ _ => Nat.zero_le _) fits
  have same : (job.planned jobStart jobEnd resvs).filter
      (fun resv => decide (resv.constraint.At t)) =
        resvs.filter fun resv => decide (job.avoids resv ∧ resv.ActiveAt now t) := by
    rw [Job.planned, filter_filter]
    refine filter_congr fun resv mem => ?_
    rw [← Bool.decide_and, decide_eq_decide]
    constructor
    · rintro ⟨here, avoids, _⟩
      exact ⟨avoids, (activeAt_of_agree agree mem avoids from_start before_end).mp here⟩
    · rintro ⟨avoids, active⟩
      have here := (activeAt_of_agree agree mem avoids from_start before_end).mpr active
      exact ⟨here, avoids, lt_of_le_of_lt here.1 before_end, lt_of_le_of_lt from_start here.2⟩
  rw [valueAt, filter_map, otherWatts, ← same]
  exact sumOfValues_constraint here_fits

/-- Without an instant the maximum is 0, so nothing may be planned. -/
theorem isPeak_empty_iff {peak : Nat} (isPeak : IsPeak (fun _ => True)
      (valueAt ((job.planned jobStart jobStart resvs).map Resv.constraint)) peak)
    (ordered : ∀ resv ∈ job.planned jobStart jobStart resvs, resv.startTime < resv.endTime)
    (fits : ((job.planned jobStart jobStart resvs).map Resv.watts).sum < 2 ^ 32) :
    IsPeak (fun t => jobStart ≤ t ∧ t < jobStart) (otherWatts now job resvs) peak ↔
      ∀ resv ∈ resvs, job.avoids resv → ¬(resv.startTime < jobStart ∧ jobStart < resv.endTime) := by
  constructor
  · intro right resv mem avoids spans
    have zero : peak = 0 := by
      rcases right.attained with zero | ⟨t, ⟨from_start, before_end⟩, _⟩
      · exact zero
      · exact absurd before_end (not_lt.mpr from_start)
    have planned : resv ∈ job.planned jobStart jobStart resvs :=
      mem_filter.mpr ⟨mem, decide_eq_true ⟨avoids, spans⟩⟩
    have value : resv.constraint.value.toNat = resv.watts := by
      refine UInt32.toNat_ofNat_of_lt' (lt_of_le_of_lt ?_ fits)
      exact single_le_sum (fun _ _ => Nat.zero_le _) _ (mem_map_of_mem planned)
    have here : resv.constraint ∈ ((job.planned jobStart jobStart resvs).map Resv.constraint).filter
        fun c => decide (c.At resv.startTime) :=
      mem_filter.mpr ⟨mem_map_of_mem planned,
        decide_eq_true ⟨le_rfl, ordered resv planned⟩⟩
    have some_watts : resv.watts ≤ valueAt
        ((job.planned jobStart jobStart resvs).map Resv.constraint) resv.startTime := by
      rw [← value]
      exact single_le_sum (fun _ _ => Nat.zero_le _) _ (mem_map_of_mem here)
    have none := isPeak.le_peak resv.startTime trivial
    have positive := avoids.1
    omega
  · intro nothing
    have planned : job.planned jobStart jobStart resvs = [] := by
      refine filter_eq_nil_iff.mpr fun resv mem decided => ?_
      obtain ⟨avoids, spans⟩ := of_decide_eq_true decided
      exact nothing resv mem avoids spans
    refine ⟨fun t inside => absurd inside.2 (not_lt.mpr inside.1), ?_⟩
    rcases isPeak.attained with zero | ⟨t, _, at_peak⟩
    · exact .inl zero
    · rw [planned] at at_peak
      exact .inl at_peak.symm

end Answer

/-- The planning adds up the constraints; where the floating power reservations are active at
their stored times, the answer is the maximum over the run of the job, unless the run has no
instant and a reservation spans it. -/
theorem powerReservations_right (zone : Zone) (conf : Conf) (now : Int)
    (newId : Resv → Option Nat) (job : Job) (start : Int) (reboot : Bool)
    (resvList resvs : List Resv) (watts : UInt32) (duration : Nat) :
    (∀ constraints : List ConstraintSlot, (∀ c ∈ constraints, c.start < c.stop) →
      sumOfValues constraints < 2 ^ 32 → PlanOf constraints (planConstraints constraints)) ∧
    (jobTestWattsResv zone conf now newId job start reboot resvList = (watts, resvs) →
      getJobDuration conf job reboot = duration →
      (∀ resv ∈ job.planned start (start + duration) resvs, resv.startTime < resv.endTime) →
      ((job.planned start (start + duration) resvs).map Resv.watts).sum < 2 ^ 32 →
      FloatsAgree now job start (start + duration) resvs →
      (IsPeak (fun t => start ≤ t ∧ t < start + duration) (otherWatts now job resvs) watts.toNat ↔
        0 < duration ∨ ∀ resv ∈ resvs, job.avoids resv →
          ¬(resv.startTime < start ∧ start < resv.endTime))) := by
  refine ⟨fun constraints nonempty fits => planConstraints_planOf nonempty fits, ?_⟩
  intro answer runs ordered fits agree
  obtain ⟨rfl, rfl⟩ := Prod.mk.inj answer
  rw [runs, planned_planConstraints]
  set resvs := resvList.map fun resv => advanceIfEnded zone now (newId resv) resv with advanced
  have nonempty : ∀ c ∈ (job.planned start (start + duration) resvs).map Resv.constraint,
      c.start < c.stop := by
    intro c mem
    obtain ⟨resv, planned, rfl⟩ := mem_map.mp mem
    exact ordered resv planned
  have isPeak := maxConstraintPlanning_isPeak nonempty (by rwa [sumOfValues_constraint fits])
  rcases Nat.eq_zero_or_pos duration with rfl | positive
  · rw [Nat.cast_zero, add_zero] at *
    rw [isPeak_empty_iff isPeak ordered fits, or_iff_right (lt_irrefl 0)]
  · refine iff_of_true ?_ (.inl positive)
    have overlap : ∀ c ∈ (job.planned start (start + duration) resvs).map Resv.constraint,
        c.start < start + duration ∧ start < c.stop := by
      intro c mem
      obtain ⟨resv, planned, rfl⟩ := mem_map.mp mem
      exact (of_decide_eq_true (mem_filter.mp planned).2).2
    have inside := isPeak.inside (by omega) overlap
    refine ⟨fun t window => ?_, ?_⟩
    · rw [← valueAt_planned agree fits window.1 window.2]
      exact inside.le_peak t window
    · rcases inside.attained with zero | ⟨t, window, at_peak⟩
      · exact .inl zero
      · rw [valueAt_planned agree fits window.1 window.2] at at_peak
        exact .inr ⟨t, window, at_peak⟩

/-- A power reservation of one hour that is not for a job of the witnesses. -/
def powerResv (name : String) (flags : Flags) (start stop : Int) (watts : Nat) : Resv where
  name := name
  resvId := 1
  flags := flags
  startTime := start
  startTimeFirst := start
  startTimePrev := start
  endTime := stop
  duration := .minutes 60
  nodeBitmap := none
  coreBitmap := none
  fullNodes := false
  hasTres := false
  licenseList := none
  resvWatts := some watts

/-- No flags. -/
def plainFlags : Flags := ⟨false, false, false, false, false, false⟩

/-- The flags of a floating reservation. -/
def floatingFlags : Flags := ⟨false, false, false, false, true, false⟩

/-- A job of one hour without a reservation. -/
def hourJob : Job := ⟨none, .minutes 60, none, nofun⟩

/-- A place where local time does not matter. -/
def stillZone : Zone := ⟨fun _ => 0, fun t _ => t⟩

/-- Two reservations overlap for the second half of the run. -/
theorem powerReservations_right_overlapping :
    PlanOf [⟨0, 10, 5⟩, ⟨5, 20, 7⟩] [⟨0, 5, 5⟩, ⟨5, 10, 12⟩, ⟨10, 20, 7⟩] ∧
    IsPeak (fun t => 1000 ≤ t ∧ t < 1000 + (3600 : Nat))
      (otherWatts 900 hourJob [powerResv "a" plainFlags 500 5000 100,
        powerResv "b" plainFlags 3000 9000 200]) 300 := by
  obtain ⟨plan, right⟩ := powerReservations_right stillZone ⟨0, 0⟩ 900 (fun _ => none) hourJob 1000
    false [powerResv "a" plainFlags 500 5000 100, powerResv "b" plainFlags 3000 9000 200]
    [powerResv "a" plainFlags 500 5000 100, powerResv "b" plainFlags 3000 9000 200] 300 3600
  refine ⟨plan [⟨0, 10, 5⟩, ⟨5, 20, 7⟩] (by decide) (by decide), ?_⟩
  refine (right rfl rfl (by decide) (by decide) ?_).mpr (.inl (by decide))
  intro resv mem _ floats
  have fixed : ∀ resv ∈ [powerResv "a" plainFlags 500 5000 100,
      powerResv "b" plainFlags 3000 9000 200], resv.flags.timeFloat = false := by
    decide
  rw [fixed resv mem] at floats
  exact absurd floats Bool.false_ne_true

/-- A reservation that floats a day ahead of the current time is counted at once. -/
theorem powerReservations_right_fails :
    ¬∀ (zone : Zone) (conf : Conf) (now : Int) (newId : Resv → Option Nat) (job : Job) (start : Int)
      (reboot : Bool) (resvList resvs : List Resv) (watts : UInt32) (duration : Nat),
      jobTestWattsResv zone conf now newId job start reboot resvList = (watts, resvs) →
      getJobDuration conf job reboot = duration →
      (∀ resv ∈ job.planned start (start + duration) resvs, resv.startTime < resv.endTime) →
      ((job.planned start (start + duration) resvs).map Resv.watts).sum < 2 ^ 32 →
      IsPeak (fun t => start ≤ t ∧ t < start + duration) (otherWatts now job resvs)
        watts.toNat := by
  intro right
  have peak := right stillZone ⟨0, 0⟩ 1000000000 (fun _ => none) hourJob 1000000000 false
    [powerResv "a" floatingFlags 86400 1000090000 100]
    [powerResv "a" floatingFlags 86400 1000090000 100] 100 3600
    rfl rfl (by decide) (by decide)
  rcases peak.attained with zero | ⟨t, ⟨_, before_end⟩, at_peak⟩
  · exact absurd zero (by decide)
  · have floats : (powerResv "a" floatingFlags 86400 1000090000 100).flags.timeFloat = true := rfl
    have period : (powerResv "a" floatingFlags 86400 1000090000 100).relativePeriod 1000000000 =
        (1000086400, 1000090000) := rfl
    have inactive : ¬(powerResv "a" floatingFlags 86400 1000090000 100).ActiveAt 1000000000 t := by
      rw [Resv.ActiveAt, if_pos floats, period]
      dsimp only
      omega
    rw [otherWatts, filter_cons_of_neg (by simp [inactive]), filter_nil] at at_peak
    exact absurd at_peak (by decide)

end SlurmSim.Reservation
