import Mathlib.Algebra.BigOperators.Group.List.Basic
import Mathlib.Tactic.Ring

/-!
# Run seconds of an association

When a job starts, its whole time limit is added to `grp_used_tres_run_secs` of
its association. Every decay poll and the end of the job release a part of it.
The polls compute their own windows, so it takes the whole run of a job to see
that what was added is released once.
-/

namespace SlurmSim.Priority.RunSecs

open List

/-- `(time_t) NO_VAL`: the end of the job was handled already. -/
def noVal : Nat := 0xfffffffe

/-- The index of the energy in the TRES arrays, which is never counted. -/
def tresArrayEnergy : Nat := 2

/-- The fields of a job record that the usage is computed from. -/
structure JobRecord where
  startTime : Nat
  timeLimit : Nat
  endTime : Nat
  endTimeExp : Nat
  finished : Bool
  completing : Bool
  resizing : Bool
  tresAlloc : Nat → Nat

/-- `int x = difftime(..)`: a difference that does not fit is read as the
smallest integer. -/
def toInt (difference : Int) : Int :=
  if -2 ^ 31 ≤ difference ∧ difference < 2 ^ 31 then difference else -2 ^ 31

/-- The seconds up to the time limit that were added when the job started. -/
def JobRecord.limitSecs (job : JobRecord) : Nat := job.timeLimit * 60

/-- `_apply_new_usage`, as far as `tres_time_delta` goes. There is no result when
the function returns at once. -/
def applyNewUsage (job : JobRecord) (startPeriod endPeriod : Nat) (adjustForEnd : Bool) :
    Option (Nat × JobRecord) :=
  if job.endTimeExp = noVal then none
  else
    let startPeriod := if startPeriod < job.startTime then job.startTime else startPeriod
    let endPeriod :=
      if job.endTime ≠ 0 ∧ adjustForEnd ∧ job.endTime < endPeriod then job.endTime else endPeriod
    let runDelta := endPeriod - startPeriod
    let jobTimeLimitEnds := job.startTime + job.limitSecs
    let tresTimeDelta :=
      if jobTimeLimitEnds ≤ startPeriod then 0
      else if job.finished ∨ job.completing ∨ job.resizing then jobTimeLimitEnds - startPeriod
      else if job.endTimeExp < endPeriod then
        let endExp := toInt (job.endTimeExp - startPeriod)
        if 0 < endExp then endExp.toNat else 0
      else runDelta
    some (tresTimeDelta, if adjustForEnd then { job with endTimeExp := noVal } else job)

/-- The counters of an association. `underflow` records that a release was larger
than what was left. -/
structure AssocUsage where
  grpUsedTresRunSecs : Nat → Nat
  underflow : Bool

/-- `_handle_assoc_tres_run_secs`, with the seconds that a job releases. -/
def handleAssocTresRunSecs (tresAlloc : Nat → Nat) (tresTimeDelta : Nat) (usage : AssocUsage)
    (tresCnt : Nat) : AssocUsage where
  grpUsedTresRunSecs i :=
    if i = tresArrayEnergy ∨ tresCnt ≤ i then usage.grpUsedTresRunSecs i
    else usage.grpUsedTresRunSecs i - tresTimeDelta * tresAlloc i % 2 ^ 64
  underflow := usage.underflow || (List.range tresCnt).any fun i =>
    decide (i ≠ tresArrayEnergy) &&
      decide (usage.grpUsedTresRunSecs i < tresTimeDelta * tresAlloc i % 2 ^ 64)

/-- A job with the seconds that were released for it so far. -/
structure ChargedJob where
  record : JobRecord
  released : Nat

/-- An association, the jobs charged to it and the time of the last poll. -/
structure World where
  tresCnt : Nat
  now : Nat
  lastRan : Nat
  jobs : List ChargedJob
  usage : AssocUsage

/-- One call of `_apply_new_usage` for a job, with what it releases. -/
def chargeJob (tresCnt : Nat) (startPeriod endPeriod : Nat) (adjustForEnd : Bool)
    (job : ChargedJob) (usage : AssocUsage) : ChargedJob × AssocUsage :=
  match applyNewUsage job.record startPeriod endPeriod adjustForEnd with
  | none => (job, usage)
  | some (tresTimeDelta, record) =>
    (⟨record, job.released + tresTimeDelta⟩,
      handleAssocTresRunSecs job.record.tresAlloc tresTimeDelta usage tresCnt)

/-- `decay_apply_new_usage`: jobs at their end are left alone. -/
def pollJob (tresCnt lastRan startTime : Nat) (job : ChargedJob) (usage : AssocUsage) :
    ChargedJob × AssocUsage :=
  if job.record.finished || job.record.completing then (job, usage)
  else chargeJob tresCnt lastRan startTime false job usage

/-- One round of the decay thread over the jobs. -/
def pollJobs (tresCnt lastRan startTime : Nat) :
    List ChargedJob → AssocUsage → List ChargedJob × AssocUsage
  | [], usage => ([], usage)
  | job :: rest, usage =>
    let (job, usage) := pollJob tresCnt lastRan startTime job usage
    let (rest, usage) := pollJobs tresCnt lastRan startTime rest usage
    (job :: rest, usage)

/-- `priority_p_job_end` for the job at an index, whose state was set before. -/
def endJob (tresCnt lastRan time : Nat) :
    Nat → List ChargedJob → AssocUsage → List ChargedJob × AssocUsage
  | _, [], usage => ([], usage)
  | 0, job :: rest, usage =>
    let record := { job.record with finished := true, endTime := time }
    let (job, usage) := chargeJob tresCnt lastRan time true { job with record := record } usage
    (job :: rest, usage)
  | index + 1, job :: rest, usage =>
    let (rest, usage) := endJob tresCnt lastRan time index rest usage
    (job :: rest, usage)

/-- `acct_policy_job_begin`: the whole time limit is added. -/
def beginUsage (tresCnt : Nat) (tresAlloc : Nat → Nat) (limitSecs : Nat) (usage : AssocUsage) :
    AssocUsage where
  grpUsedTresRunSecs i :=
    if i = tresArrayEnergy ∨ tresCnt ≤ i then usage.grpUsedTresRunSecs i
    else (usage.grpUsedTresRunSecs i + tresAlloc i * limitSecs % 2 ^ 64) % 2 ^ 64
  underflow := usage.underflow

inductive Event where
  | jobBegin (timeLimit : Nat) (tresAlloc : Nat → Nat)
  | poll
  | jobEnd (index : Nat)

/-- The record of a job that starts with the given limit. -/
def startedRecord (time timeLimit : Nat) (tresAlloc : Nat → Nat) : JobRecord where
  startTime := time
  timeLimit := timeLimit
  endTime := time + timeLimit * 60
  endTimeExp := time + timeLimit * 60
  finished := false
  completing := false
  resizing := false
  tresAlloc := tresAlloc

/-- One event at a time that is not before the last one. -/
def step (world : World) (time : Nat) : Event → World
  | .jobBegin timeLimit tresAlloc =>
    { world with
      now := time
      jobs := world.jobs ++ [⟨startedRecord time timeLimit tresAlloc, 0⟩]
      usage := beginUsage world.tresCnt tresAlloc (timeLimit * 60) world.usage }
  | .poll =>
    let (jobs, usage) := pollJobs world.tresCnt world.lastRan time world.jobs world.usage
    { world with now := time, lastRan := time, jobs := jobs, usage := usage }
  | .jobEnd index =>
    let (jobs, usage) := endJob world.tresCnt world.lastRan time index world.jobs world.usage
    { world with now := time, jobs := jobs, usage := usage }

/-- The events of a run, at times that do not decrease. -/
inductive Run : World → World → Prop
  | nil (world : World) : Run world world
  | snoc {first world : World} {time : Nat} (event : Event) : Run first world →
      world.now ≤ time → Run first (step world time event)

/-- No job, no poll yet or a poll in the past, and nothing charged. -/
def start (tresCnt now lastRan : Nat) : World where
  tresCnt := tresCnt
  now := now
  lastRan := lastRan
  jobs := []
  usage := ⟨fun _ => 0, false⟩

/-! ## What a run has to keep -/

/-- The run seconds of a TRES that are still charged for a job. -/
def share (i : Nat) (job : ChargedJob) : Nat :=
  job.record.tresAlloc i * (job.record.limitSecs - job.released)

/-- No job has released more than was added for it, a job at its end has released
all of it and releases nothing more, and the counters hold the rest. -/
structure ReleasedOnce (world : World) : Prop where
  partialSum : ∀ job ∈ world.jobs, job.released ≤ job.record.limitSecs
  atEnd : ∀ job ∈ world.jobs, job.record.finished = true → job.released = job.record.limitSecs
  afterEnd : ∀ job ∈ world.jobs, job.record.finished = true →
    ∀ startPeriod endPeriod adjustForEnd,
      applyNewUsage job.record startPeriod endPeriod adjustForEnd = none
  counters : ∀ i < world.tresCnt, i ≠ tresArrayEnergy →
    world.usage.grpUsedTresRunSecs i = (world.jobs.map (share i)).sum
  noUnderflow : world.usage.underflow = false

/-- A started job does not end at the time that stands for none and its run
seconds fit into the counters, and no poll behind the limit of a job begins its
window 2^31 seconds or more before the limit. -/
def StepFits (world : World) (time : Nat) : Event → Prop
  | .jobBegin timeLimit tresAlloc =>
    time + timeLimit * 60 ≠ noVal ∧ ∀ i < world.tresCnt, i ≠ tresArrayEnergy →
      world.usage.grpUsedTresRunSecs i + tresAlloc i * (timeLimit * 60) < 2 ^ 64
  | .poll => ∀ job ∈ world.jobs, job.record.finished = false →
      job.record.startTime + job.record.limitSecs < time →
      job.record.startTime + job.record.limitSecs <
        max world.lastRan job.record.startTime + 2 ^ 31
  | .jobEnd _ => True

/-- A run all of whose steps fit. -/
inductive FittingRun : World → World → Prop
  | nil (world : World) : FittingRun world world
  | snoc {first world : World} {time : Nat} {event : Event} : FittingRun first world →
      world.now ≤ time → StepFits world time event → FittingRun first (step world time event)

/-! ## One job -/

/-- The end of the window of the polls so far, up to the limit of the job. -/
def windowEnd (lastRan : Nat) (record : JobRecord) : Nat :=
  min (max lastRan record.startTime) (record.startTime + record.limitSecs)

/-- A running job has released the window of the polls so far, a job at its end
everything. -/
inductive JobState (lastRan : Nat) (job : ChargedJob) : Prop
  | running : job.record.finished = false →
      job.record.endTimeExp = job.record.startTime + job.record.limitSecs →
      job.record.endTimeExp ≠ noVal →
      job.released + job.record.startTime = windowEnd lastRan job.record → JobState lastRan job
  | ended : job.record.finished = true → job.record.endTimeExp = noVal →
      job.released = job.record.limitSecs → JobState lastRan job

structure JobOk (now lastRan : Nat) (job : ChargedJob) : Prop where
  started : job.record.startTime ≤ now
  plain : job.record.completing = false ∧ job.record.resizing = false
  state : JobState lastRan job

namespace JobOk

variable {now lastRan time : Nat} {job : ChargedJob}

theorem released_le (ok : JobOk now lastRan job) : job.released ≤ job.record.limitSecs := by
  cases ok.state with
  | running _ _ _ window =>
    have bound : windowEnd lastRan job.record ≤ job.record.startTime + job.record.limitSecs :=
      Nat.min_le_right _ _
    omega
  | ended _ _ all => exact all.le

theorem later (ok : JobOk now lastRan job) (forward : now ≤ time) : JobOk time lastRan job :=
  ⟨ok.started.trans forward, ok.plain, ok.state⟩

/-- A poll releases the window up to its own time or the limit. -/
theorem applyNewUsage_poll (ok : JobOk now lastRan job) (running : job.record.finished = false)
    (order : lastRan ≤ now) (forward : now ≤ time)
    (fits : job.record.startTime + job.record.limitSecs < time →
      job.record.startTime + job.record.limitSecs < max lastRan job.record.startTime + 2 ^ 31) :
    applyNewUsage job.record lastRan time false =
      some (windowEnd time job.record - windowEnd lastRan job.record, job.record) := by
  cases ok.state with
  | ended finished => rw [running] at finished; cases finished
  | running _ expected sentinel _ =>
    have regular : ¬ job.record.startTime + job.record.limitSecs = noVal := expected ▸ sentinel
    have startPeriod : (if lastRan < job.record.startTime then job.record.startTime else lastRan) =
        max lastRan job.record.startTime := by
      split <;> omega
    simp only [applyNewUsage, expected, if_neg regular, startPeriod, running, ok.plain.1,
      ok.plain.2, windowEnd, Bool.false_eq_true, false_and, and_false, or_false, if_false,
      Option.some.injEq, Prod.mk.injEq, and_true]
    split_ifs with passed beyond pos
    · omega
    · have mem : toInt (↑(job.record.startTime + job.record.limitSecs) -
          ↑(max lastRan job.record.startTime)) = ↑(job.record.startTime + job.record.limitSecs) -
          ↑(max lastRan job.record.startTime) := by
        have window := fits beyond
        refine if_pos ⟨by omega, by omega⟩
      omega
    · exfalso
      have window := fits beyond
      refine pos ?_
      rw [toInt, if_pos ⟨by omega, by omega⟩]
      omega
    · omega

theorem applyNewUsage_end (ok : JobOk now lastRan job) (running : job.record.finished = false) :
    applyNewUsage { job.record with finished := true, endTime := time } lastRan time true =
      some (job.record.startTime + job.record.limitSecs - windowEnd lastRan job.record,
        { job.record with finished := true, endTime := time, endTimeExp := noVal }) := by
  cases ok.state with
  | ended finished => rw [running] at finished; cases finished
  | running _ expected sentinel _ =>
    have startPeriod : (if lastRan < job.record.startTime then job.record.startTime else lastRan) =
        max lastRan job.record.startTime := by
      split <;> omega
    have limit : JobRecord.limitSecs { job.record with finished := true, endTime := time } =
        job.record.limitSecs := rfl
    simp only [applyNewUsage, if_neg sentinel, startPeriod, limit, windowEnd, true_or, if_true,
      Option.some.injEq, Prod.mk.injEq, and_true]
    split_ifs with passed
    · omega
    · omega

end JobOk

/-! ## The counters -/

/-- The counters of the association hold the given amounts, which fit. -/
def Holds (tresCnt : Nat) (usage : AssocUsage) (amount : Nat → Nat) : Prop :=
  ∀ i < tresCnt, i ≠ tresArrayEnergy → usage.grpUsedTresRunSecs i = amount i ∧ amount i < 2 ^ 64

theorem Holds.congr {tresCnt : Nat} {usage : AssocUsage} {amount other : Nat → Nat}
    (holds : Holds tresCnt usage amount) (same : ∀ i, amount i = other i) :
    Holds tresCnt usage other := by
  intro i mem counted
  rw [← same i]
  exact holds i mem counted

/-- A release that is not larger than the share of its job is taken from it. -/
theorem Holds.release {tresCnt : Nat} {usage : AssocUsage} {job after : ChargedJob}
    {others : Nat → Nat} (holds : Holds tresCnt usage fun i => share i job + others i)
    {delta : Nat} (sameAlloc : after.record.tresAlloc = job.record.tresAlloc)
    (sameLimit : after.record.limitSecs = job.record.limitSecs)
    (released : after.released = job.released + delta)
    (bound : job.released + delta ≤ job.record.limitSecs) :
    Holds tresCnt (handleAssocTresRunSecs job.record.tresAlloc delta usage tresCnt)
        (fun i => share i after + others i) ∧
      (handleAssocTresRunSecs job.record.tresAlloc delta usage tresCnt).underflow =
        usage.underflow := by
  have split : ∀ i, share i job = share i after + delta * job.record.tresAlloc i := by
    intro i
    have parts : job.record.limitSecs - job.released =
        (job.record.limitSecs - (job.released + delta)) + delta := by omega
    rw [share, share, sameAlloc, sameLimit, released, parts, Nat.mul_add, Nat.mul_comm delta]
  have amount : ∀ i < tresCnt, i ≠ tresArrayEnergy →
      usage.grpUsedTresRunSecs i = share i after + delta * job.record.tresAlloc i + others i ∧
        share i after + delta * job.record.tresAlloc i + others i < 2 ^ 64 := by
    intro i mem counted
    rw [← split i]
    exact holds i mem counted
  have fits : ∀ i < tresCnt, i ≠ tresArrayEnergy →
      delta * job.record.tresAlloc i % 2 ^ 64 = delta * job.record.tresAlloc i := by
    intro i mem counted
    have bound := (amount i mem counted).2
    exact Nat.mod_eq_of_lt (by omega)
  constructor
  · intro i mem counted
    obtain ⟨value, bound⟩ := amount i mem counted
    have skipped : ¬ (i = tresArrayEnergy ∨ tresCnt ≤ i) := by omega
    dsimp only [handleAssocTresRunSecs]
    rw [if_neg skipped, fits i mem counted, value]
    omega
  · have none : ((List.range tresCnt).any fun i => decide (i ≠ tresArrayEnergy) &&
        decide (usage.grpUsedTresRunSecs i < delta * job.record.tresAlloc i % 2 ^ 64)) = false := by
      rw [any_eq_false]
      intro i mem
      rw [mem_range] at mem
      rw [Bool.and_eq_true, decide_eq_true_eq, decide_eq_true_eq]
      rintro ⟨counted, under⟩
      rw [fits i mem counted, (amount i mem counted).1] at under
      omega
    dsimp only [handleAssocTresRunSecs]
    rw [none, Bool.or_false]

/-! ## One event -/

/-- What holds of the jobs and the counters after each event. -/
structure Accounted (now lastRan tresCnt : Nat) (jobs : List ChargedJob) (usage : AssocUsage)
    (others : Nat → Nat) : Prop where
  each : ∀ job ∈ jobs, JobOk now lastRan job
  counters : Holds tresCnt usage fun i => (jobs.map (share i)).sum + others i
  noUnderflow : usage.underflow = false

variable {time : Nat} {others : Nat → Nat}

/-- A poll moves the window of a job and takes the difference from the counters. -/
theorem pollJob_ok {now lastRan tresCnt : Nat} {job : ChargedJob} {usage : AssocUsage}
    (ok : JobOk now lastRan job) (order : lastRan ≤ now) (forward : now ≤ time)
    (fits : job.record.finished = false → job.record.startTime + job.record.limitSecs < time →
      job.record.startTime + job.record.limitSecs < max lastRan job.record.startTime + 2 ^ 31)
    (holds : Holds tresCnt usage fun i => share i job + others i) :
    JobOk time time (pollJob tresCnt lastRan time job usage).1 ∧
      Holds tresCnt (pollJob tresCnt lastRan time job usage).2
        (fun i => share i (pollJob tresCnt lastRan time job usage).1 + others i) ∧
      (pollJob tresCnt lastRan time job usage).2.underflow = usage.underflow := by
  cases phase : job.record.finished with
  | true =>
    have skipped : pollJob tresCnt lastRan time job usage = (job, usage) := by
      simp [pollJob, phase]
    rw [skipped]
    refine ⟨⟨ok.started.trans forward, ok.plain, ?_⟩, holds, rfl⟩
    cases ok.state with
    | running running => rw [phase] at running; cases running
    | ended finished expected all => exact .ended finished expected all
  | false =>
    have called := ok.applyNewUsage_poll phase order forward (fits phase)
    have polled : pollJob tresCnt lastRan time job usage =
        (⟨job.record, job.released + (windowEnd time job.record - windowEnd lastRan job.record)⟩,
          handleAssocTresRunSecs job.record.tresAlloc
            (windowEnd time job.record - windowEnd lastRan job.record) usage tresCnt) := by
      simp [pollJob, phase, ok.plain.1, chargeJob, called]
    cases ok.state with
    | ended finished => rw [phase] at finished; cases finished
    | running _ expected sentinel window =>
      have grows : windowEnd lastRan job.record ≤ windowEnd time job.record := by
        unfold windowEnd
        omega
      have capped : windowEnd time job.record ≤ job.record.startTime + job.record.limitSecs :=
        Nat.min_le_right _ _
      obtain ⟨after, underflow⟩ := @Holds.release tresCnt usage job ⟨job.record, job.released +
          (windowEnd time job.record - windowEnd lastRan job.record)⟩
        others holds _ rfl rfl rfl (by omega)
      rw [polled]
      refine ⟨⟨ok.started.trans forward, ok.plain, ?_⟩, after, underflow⟩
      refine .running phase expected sentinel ?_
      change job.released + (windowEnd time job.record - windowEnd lastRan job.record) +
        job.record.startTime = windowEnd time job.record
      omega

/-- One round of the decay thread. -/
theorem pollJobs_ok {now lastRan tresCnt : Nat} {jobs : List ChargedJob} {usage : AssocUsage}
    (accounted : Accounted now lastRan tresCnt jobs usage others) (order : lastRan ≤ now)
    (forward : now ≤ time)
    (fits : ∀ job ∈ jobs, job.record.finished = false →
      job.record.startTime + job.record.limitSecs < time →
      job.record.startTime + job.record.limitSecs < max lastRan job.record.startTime + 2 ^ 31) :
    Accounted time time tresCnt (pollJobs tresCnt lastRan time jobs usage).1
      (pollJobs tresCnt lastRan time jobs usage).2 others := by
  induction jobs generalizing usage others with
  | nil => exact ⟨by simp [pollJobs], accounted.counters, accounted.noUnderflow⟩
  | cons job rest ih =>
    have holds : Holds tresCnt usage
        fun i => share i job + ((rest.map (share i)).sum + others i) := by
      refine accounted.counters.congr fun i => ?_
      rw [map_cons, sum_cons, Nat.add_assoc]
    obtain ⟨ok, after, underflow⟩ := pollJob_ok (accounted.each job mem_cons_self) order
      forward (fits job mem_cons_self) holds
    have tail : Accounted now lastRan tresCnt rest (pollJob tresCnt lastRan time job usage).2
        (fun i => share i (pollJob tresCnt lastRan time job usage).1 + others i) := by
      refine ⟨fun other later => accounted.each other (mem_cons_of_mem _ later), ?_, ?_⟩
      · exact after.congr fun i => Nat.add_left_comm _ _ _
      · exact underflow.trans accounted.noUnderflow
    have done := ih tail fun other later => fits other (mem_cons_of_mem _ later)
    simp only [pollJobs]
    refine ⟨?_, ?_, done.noUnderflow⟩
    · intro other mem
      rcases mem_cons.mp mem with rfl | later
      · exact ok
      · exact done.each other later
    · refine done.counters.congr fun i => ?_
      rw [map_cons, sum_cons]
      omega

/-- The end of a job, at any time and also when it was handled before. -/
theorem chargeEnd_ok {now lastRan tresCnt : Nat} {job : ChargedJob} {usage : AssocUsage}
    (ok : JobOk now lastRan job) (forward : now ≤ time)
    (holds : Holds tresCnt usage fun i => share i job + others i)
    {result : ChargedJob × AssocUsage}
    (called : chargeJob tresCnt lastRan time true
      { job with record := { job.record with finished := true, endTime := time } } usage = result) :
    JobOk time lastRan result.1 ∧ Holds tresCnt result.2 (fun i => share i result.1 + others i) ∧
      result.2.underflow = usage.underflow := by
  cases ok.state with
  | ended finished expected all =>
    have skipped : applyNewUsage { job.record with finished := true, endTime := time } lastRan
        time true = none := by
      simp [applyNewUsage, expected]
    rw [chargeJob, skipped] at called
    subst called
    exact ⟨⟨ok.started.trans forward, ok.plain, .ended rfl expected all⟩, holds, rfl⟩
  | running phase expected sentinel window =>
    have bound : windowEnd lastRan job.record ≤ job.record.startTime + job.record.limitSecs :=
      Nat.min_le_right _ _
    have all : job.released +
        (job.record.startTime + job.record.limitSecs - windowEnd lastRan job.record) =
        job.record.limitSecs := by omega
    rw [chargeJob, ok.applyNewUsage_end phase] at called
    subst called
    obtain ⟨after, underflow⟩ := @Holds.release tresCnt usage job
      ⟨{ job.record with finished := true, endTime := time, endTimeExp := noVal }, job.released +
        (job.record.startTime + job.record.limitSecs - windowEnd lastRan job.record)⟩
      others holds _ rfl rfl rfl all.le
    exact ⟨⟨ok.started.trans forward, ok.plain, .ended rfl rfl all⟩, after, underflow⟩

theorem endJob_ok {now lastRan time tresCnt index : Nat} {jobs : List ChargedJob}
    {usage : AssocUsage} {others : Nat → Nat}
    (accounted : Accounted now lastRan tresCnt jobs usage others) (forward : now ≤ time) :
    Accounted time lastRan tresCnt (endJob tresCnt lastRan time index jobs usage).1
      (endJob tresCnt lastRan time index jobs usage).2 others := by
  induction jobs generalizing index usage others with
  | nil =>
    cases index with
    | zero => exact ⟨by simp [endJob], accounted.counters, accounted.noUnderflow⟩
    | succ index => exact ⟨by simp [endJob], accounted.counters, accounted.noUnderflow⟩
  | cons job rest ih =>
    cases index with
    | zero =>
      have holds : Holds tresCnt usage
          fun i => share i job + ((rest.map (share i)).sum + others i) := by
        refine accounted.counters.congr fun i => ?_
        rw [map_cons, sum_cons, Nat.add_assoc]
      obtain ⟨ok, after, underflow⟩ :=
        chargeEnd_ok (accounted.each job mem_cons_self) forward holds rfl
      refine ⟨?_, ?_, underflow.trans accounted.noUnderflow⟩
      · intro other mem
        rcases mem_cons.mp mem with rfl | later
        · exact ok
        · exact (accounted.each other (mem_cons_of_mem _ later)).later forward
      · refine after.congr fun i => ?_
        rw [endJob, map_cons, sum_cons, Nat.add_assoc]
    | succ index =>
      have tail : Accounted now lastRan tresCnt rest usage (fun i => share i job + others i) := by
        refine ⟨fun other later => accounted.each other (mem_cons_of_mem _ later), ?_,
          accounted.noUnderflow⟩
        refine accounted.counters.congr fun i => ?_
        rw [map_cons, sum_cons]
        omega
      have done := @ih index usage _ tail
      refine ⟨?_, ?_, done.noUnderflow⟩
      · intro other mem
        rcases mem_cons.mp mem with rfl | later
        · exact (accounted.each _ mem_cons_self).later forward
        · exact done.each other later
      · refine done.counters.congr fun i => ?_
        rw [endJob, map_cons, sum_cons]
        omega

/-- A job that starts has everything left. -/
theorem beginJob_ok {now lastRan tresCnt timeLimit : Nat} {tresAlloc : Nat → Nat}
    {jobs : List ChargedJob} {usage : AssocUsage}
    (accounted : Accounted now lastRan tresCnt jobs usage others) (order : lastRan ≤ now)
    (forward : now ≤ time) (regular : time + timeLimit * 60 ≠ noVal)
    (fits : ∀ i < tresCnt, i ≠ tresArrayEnergy →
      usage.grpUsedTresRunSecs i + tresAlloc i * (timeLimit * 60) < 2 ^ 64) :
    Accounted time lastRan tresCnt (jobs ++ [⟨startedRecord time timeLimit tresAlloc, 0⟩])
      (beginUsage tresCnt tresAlloc (timeLimit * 60) usage) others := by
  refine ⟨?_, ?_, accounted.noUnderflow⟩
  · intro job mem
    rcases mem_append.mp mem with old | new
    · exact (accounted.each job old).later forward
    · rw [mem_singleton.mp new]
      refine ⟨le_rfl, ⟨rfl, rfl⟩, .running rfl rfl regular ?_⟩
      simp only [windowEnd, startedRecord]
      omega
  · intro i mem counted
    obtain ⟨value, -⟩ := accounted.counters i mem counted
    have bound := fits i mem counted
    have skipped : ¬ (i = tresArrayEnergy ∨ tresCnt ≤ i) := by omega
    have all : share i ⟨startedRecord time timeLimit tresAlloc, 0⟩ =
        tresAlloc i * (timeLimit * 60) := rfl
    dsimp only at value
    dsimp only [beginUsage]
    rw [if_neg skipped, map_append, sum_append, map_singleton, sum_singleton,
      all, Nat.mod_eq_of_lt (by omega : tresAlloc i * (timeLimit * 60) < 2 ^ 64),
      Nat.mod_eq_of_lt bound]
    omega

/-! ## Whole runs -/

/-- The times are in order and everything is accounted for. -/
structure WorldOk (world : World) : Prop where
  order : world.lastRan ≤ world.now
  accounted : Accounted world.now world.lastRan world.tresCnt world.jobs world.usage fun _ => 0

theorem WorldOk.step {world : World} {time : Nat} {event : Event} (ok : WorldOk world)
    (forward : world.now ≤ time) (fits : StepFits world time event) :
    WorldOk (step world time event) := by
  cases event with
  | jobBegin timeLimit tresAlloc =>
    exact ⟨ok.order.trans forward, beginJob_ok ok.accounted ok.order forward fits.1 fits.2⟩
  | poll => exact ⟨le_rfl, pollJobs_ok ok.accounted ok.order forward fits⟩
  | jobEnd index => exact ⟨ok.order.trans forward, endJob_ok ok.accounted forward⟩

theorem WorldOk.releasedOnce {world : World} (ok : WorldOk world) : ReleasedOnce world := by
  refine ⟨fun job mem => (ok.accounted.each job mem).released_le, ?_, ?_, ?_,
    ok.accounted.noUnderflow⟩
  · intro job mem finished
    cases (ok.accounted.each job mem).state with
    | running running => rw [finished] at running; cases running
    | ended _ _ all => exact all
  · intro job mem finished startPeriod endPeriod adjustForEnd
    cases (ok.accounted.each job mem).state with
    | running running => rw [finished] at running; cases running
    | ended _ expected _ => simp [applyNewUsage, expected]
  · intro i mem counted
    exact (ok.accounted.counters i mem counted).1

theorem FittingRun.worldOk {first world : World} (run : FittingRun first world)
    (ok : WorldOk first) : WorldOk world := by
  induction run with
  | nil => exact ok
  | snoc _ forward fits ih => exact ih.step forward fits

/-- In every run whose steps fit, what was added for a job is released exactly
once and no release is larger than what is left. -/
theorem releasedOnce_of_fittingRun {tresCnt now lastRan : Nat} {world : World}
    (order : lastRan ≤ now) (run : FittingRun (start tresCnt now lastRan) world) :
    ReleasedOnce world := by
  refine (run.worldOk ⟨order, ?_⟩).releasedOnce
  exact ⟨by simp [start], fun i _ _ => ⟨rfl, by simp [start]⟩, rfl⟩

/-- A job of one minute on four cores that overruns its limit between two polls. -/
def minuteWorld : World :=
  step (step (step (step (start 1 100 90) 100 (.jobBegin 1 fun _ => 4)) 130 .poll) 190 .poll)
    195 (.jobEnd 0)

theorem minuteWorld_run : FittingRun (start 1 100 90) minuteWorld := by
  refine .snoc (.snoc (.snoc (.snoc (.nil _) (by decide) ?_) (by decide) ?_) (by decide) ?_)
    (by decide) trivial
  · exact ⟨by decide, by decide⟩
  · simp only [StepFits]
    decide +kernel
  · simp only [StepFits]
    decide +kernel

theorem minuteWorld_releasedOnce :
    FittingRun (start 1 100 90) minuteWorld ∧ ReleasedOnce minuteWorld ∧
      minuteWorld.jobs.map ChargedJob.released = [60] :=
  ⟨minuteWorld_run, releasedOnce_of_fittingRun (by decide) minuteWorld_run, by decide +kernel⟩

/-- A job whose limit ends at the time that stands for none. -/
def sentinelWorld : World :=
  step (step (start 1 1714967294 1714967294) 1714967294 (.jobBegin 43000000 fun _ => 1))
    1714968294 (.jobEnd 0)

/-- Nothing of the job is ever released: the counter keeps its whole limit. -/
theorem sentinelWorld_not_released :
    Run (start 1 1714967294 1714967294) sentinelWorld ∧
      sentinelWorld.jobs.map ChargedJob.released = [0] ∧
      sentinelWorld.usage.grpUsedTresRunSecs 0 = 2580000000 ∧
      ¬ ReleasedOnce sentinelWorld := by
  refine ⟨.snoc _ (.snoc _ (.nil _) (by decide)) (by decide), by decide +kernel,
    by decide +kernel, ?_⟩
  intro once
  have all := once.atEnd _ (mem_singleton.mpr rfl) (by decide +kernel)
  exact absurd all (by decide +kernel)

end SlurmSim.Priority.RunSecs
