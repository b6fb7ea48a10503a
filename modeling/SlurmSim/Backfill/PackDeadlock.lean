import Mathlib.Algebra.Order.Group.Int
import Mathlib.Data.List.Induction
import Mathlib.Data.List.Nodup
import SlurmSim.Lib.Qsort

/-!
# The deadlock test of pack jobs

Each partition has a table with the expected start times of its pack jobs, the latest start
in front.  A call enters its job in the table of its partition, and compares the jobs in
front of it with the tables of the other partitions of the job.
-/

namespace SlurmSim.Backfill

open SlurmSim.Lib List

/-- `deadlock_job_struct_t` -/
structure DeadlockJob where
  packJobId : Nat
  startTime : Int
  deriving DecidableEq

/-- `deadlock_part_struct_t` -/
structure DeadlockPart where
  partPtr : Nat
  jobs : List DeadlockJob

/-- A job that is tested: its pack job, its partition and its start time. -/
structure DeadlockCall where
  packJobId : Nat
  partPtr : Nat
  startTime : Int

/-- What the test reads of a job record; a `packJobId` of 0 is none. -/
structure TestedRecord where
  packJobId : Nat
  partPtr : Option Nat
  startTime : Int

/-- Only a component of a pack job that has a partition is tested. -/
def TestedRecord.call (record : TestedRecord) : Option DeadlockCall :=
  if record.packJobId = 0 then none
  else record.partPtr.map fun partPtr => ⟨record.packJobId, partPtr, record.startTime⟩

/-- `_deadlock_job_list_sort` -/
def deadlockJobListSort (a b : DeadlockJob) : Int :=
  if b.startTime < a.startTime then -1 else if a.startTime < b.startTime then 1 else 0

/-- `_deadlock_part_list_srch` -/
def searchJob (jobs : List DeadlockJob) (packJobId : Nat) : Option DeadlockJob :=
  jobs.find? fun job => job.packJobId = packJobId

/-- The first entry of a job gets a later start, a job without an entry is appended. -/
def enterEntry (call : DeadlockCall) : List DeadlockJob → List DeadlockJob
  | [] => [⟨call.packJobId, call.startTime⟩]
  | job :: rest =>
    if job.packJobId = call.packJobId then
      if job.startTime < call.startTime then { job with startTime := call.startTime } :: rest
      else job :: rest
    else job :: enterEntry call rest

/-- A job is entered in the table of its partition. -/
def enterJob (call : DeadlockCall) (jobs : List DeadlockJob) : List DeadlockJob :=
  qsort deadlockJobListSort (enterEntry call jobs)

/-- `deadlock_global_list` with the job entered. -/
def enterCall (call : DeadlockCall) : List DeadlockPart → List DeadlockPart
  | [] => [⟨call.partPtr, enterJob call []⟩]
  | part :: rest =>
    if part.partPtr = call.partPtr then { part with jobs := enterJob call part.jobs } :: rest
    else part :: enterCall call rest

/-- The table of a partition; one without a table has no jobs. -/
def jobsOf (tables : List DeadlockPart) (partPtr : Nat) : List DeadlockJob :=
  ((tables.find? fun part => part.partPtr = partPtr).map DeadlockPart.jobs).getD []

/-- The loop over the other partitions. -/
def haveDeadlock (tables : List DeadlockPart) (call : DeadlockCall) : Bool :=
  match searchJob (jobsOf tables call.partPtr) call.packJobId with
  | none => false
  | some own =>
    tables.any fun part2 =>
      part2.partPtr ≠ call.partPtr && (searchJob part2.jobs call.packJobId).isSome &&
        ((jobsOf tables call.partPtr).takeWhile fun job => job.packJobId ≠ own.packJobId).any
          fun job2 => (searchJob part2.jobs job2.packJobId).any fun job3 =>
            job3.startTime < own.startTime

/-- `_job_pack_deadlock_test` -/
def jobPackDeadlockTest (tables : List DeadlockPart) (record : TestedRecord) :
    Bool × List DeadlockPart :=
  match record.call with
  | none => (false, tables)
  | some call => (haveDeadlock (enterCall call tables) call, enterCall call tables)

/-- `deadlock_global_list` after the tests of a cycle. -/
def deadlockTables (records : List TestedRecord) : List DeadlockPart :=
  records.foldl (fun tables record => (jobPackDeadlockTest tables record).2) []

/-- The tables after calls that are tested. -/
def deadlockRun (calls : List DeadlockCall) : List DeadlockPart :=
  calls.foldl (fun tables call => enterCall call tables) []

/-! ## What the tables are about -/

/-- The latest start time of a pack job in a partition, over the calls of a cycle. -/
def latestStart (calls : List DeadlockCall) (partPtr packJobId : Nat) : Option Int :=
  calls.foldl (fun latest call =>
    if call.partPtr = partPtr ∧ call.packJobId = packJobId then
      some ((latest.map fun start => max start call.startTime).getD call.startTime)
    else latest) none

/-- A pack job and another partition that have start times with the tested job, once its call
stands behind the others. -/
structure Meeting (calls : List DeadlockCall) (call : DeadlockCall) where
  packJobId : Nat
  partPtr : Nat
  otherJob : packJobId ≠ call.packJobId
  otherPart : partPtr ≠ call.partPtr
  own : Int
  other : Int
  own2 : Int
  other2 : Int
  isOwn : latestStart (calls ++ [call]) call.partPtr call.packJobId = some own
  isOther : latestStart (calls ++ [call]) call.partPtr packJobId = some other
  isOwn2 : latestStart (calls ++ [call]) partPtr call.packJobId = some own2
  isOther2 : latestStart (calls ++ [call]) partPtr packJobId = some other2

namespace Meeting

variable {calls : List DeadlockCall} {call : DeadlockCall}

/-- The two jobs start in opposite orders in the two partitions. -/
def Crosses (m : Meeting calls call) : Prop :=
  m.other < m.own ∧ m.own2 < m.other2 ∨ m.own < m.other ∧ m.other2 < m.own2

/-- A crossing that the test sees. -/
def Seen (m : Meeting calls call) : Prop :=
  m.own < m.other ∧ m.other2 < m.own2 ∧ m.other2 < m.own

/-- A crossing that the test does not see: the other job starts first in this partition, or
its start in the other partition is not before the start of the tested job in this one. -/
def Missed (m : Meeting calls call) : Prop :=
  m.other < m.own ∧ m.own2 < m.other2 ∨ m.own < m.other ∧ m.other2 < m.own2 ∧ m.own ≤ m.other2

/-- The other job is in front of the tested one in the table of this partition before the
call, or the tested one has no entry there. -/
def First (m : Meeting calls call) : Prop :=
  m.packJobId ∈ ((jobsOf (deadlockRun calls) call.partPtr).takeWhile
    fun job => job.packJobId ≠ call.packJobId).map DeadlockJob.packJobId

/-- No crossing, but taken for one: the start of the other job in the other partition is before
that of the tested job in this one, where it does not start first. -/
def Spurious (m : Meeting calls call) : Prop :=
  m.other2 < m.own ∧
    (m.own < m.other ∧ m.own2 ≤ m.other2 ∨ m.own = m.other ∧ m.First)

end Meeting

/-- The answer to a job record behind others says whether there is a crossing. -/
def AnswersRight (records : List TestedRecord) (record : TestedRecord) : Prop :=
  (jobPackDeadlockTest (deadlockTables records) record).1 = true ↔
    ∃ call, record.call = some call ∧
      ∃ m : Meeting (records.filterMap TestedRecord.call) call, m.Crosses

/-! ## One table -/

/-- A table has one entry for each pack job, the latest start in front. -/
structure JobsSound (jobs : List DeadlockJob) : Prop where
  distinct : (jobs.map DeadlockJob.packJobId).Nodup
  sorted : jobs.Pairwise fun a b => b.startTime ≤ a.startTime

/-- The start time that a table has for a pack job. -/
def startOf (jobs : List DeadlockJob) (packJobId : Nat) : Option Int :=
  (searchJob jobs packJobId).map DeadlockJob.startTime

theorem startOf_cons (job : DeadlockJob) (rest : List DeadlockJob) (packJobId : Nat) :
    startOf (job :: rest) packJobId =
      if job.packJobId = packJobId then some job.startTime else startOf rest packJobId := by
  by_cases own : job.packJobId = packJobId
  · simp [startOf, searchJob, own]
  · simp [startOf, searchJob, own]

theorem startOf_eq_some {jobs : List DeadlockJob} (distinct : (jobs.map DeadlockJob.packJobId).Nodup)
    {packJobId : Nat} {start : Int} :
    startOf jobs packJobId = some start ↔ (⟨packJobId, start⟩ : DeadlockJob) ∈ jobs := by
  induction jobs with
  | nil => simp [startOf, searchJob]
  | cons job rest ih =>
    obtain ⟨absent, distinctRest⟩ := nodup_cons.mp distinct
    rw [startOf_cons, mem_cons]
    by_cases own : job.packJobId = packJobId
    · have notRest : (⟨packJobId, start⟩ : DeadlockJob) ∉ rest := fun mem =>
        absent (own ▸ mem_map_of_mem mem)
      obtain ⟨jobId, jobStart⟩ := job
      obtain rfl := own
      simp [notRest, eq_comm]
    · have notHead : (⟨packJobId, start⟩ : DeadlockJob) ≠ job := fun same => own (same ▸ rfl)
      rw [if_neg own, ih distinctRest, or_iff_right notHead]

theorem startOf_perm {jobs others : List DeadlockJob} (same : jobs.Perm others)
    (distinct : (jobs.map DeadlockJob.packJobId).Nodup) (packJobId : Nat) :
    startOf jobs packJobId = startOf others packJobId := by
  refine Option.ext fun start => ?_
  rw [startOf_eq_some distinct, startOf_eq_some ((same.map _).nodup_iff.mp distinct), same.mem_iff]

theorem startOf_enterEntry (call : DeadlockCall) (jobs : List DeadlockJob) (packJobId : Nat) :
    startOf (enterEntry call jobs) packJobId =
      if call.packJobId = packJobId then
        some (((startOf jobs packJobId).map fun start => max start call.startTime).getD
          call.startTime)
      else startOf jobs packJobId := by
  induction jobs with
  | nil => simp [enterEntry, startOf, searchJob]
  | cons job rest ih =>
    rw [enterEntry]
    by_cases own : job.packJobId = call.packJobId
    · rw [if_pos own]
      by_cases asked : call.packJobId = packJobId
      · have isJob := own.trans asked
        split_ifs with later
        · simp [startOf_cons, isJob, max_eq_right later.le]
        · simp [startOf_cons, isJob, max_eq_left (not_lt.mp later)]
      · have notJob : job.packJobId ≠ packJobId := fun same => asked (own.symm.trans same)
        split_ifs <;> simp [startOf_cons, notJob]
    · rw [if_neg own, startOf_cons, startOf_cons, ih]
      by_cases isJob : job.packJobId = packJobId
      · have notAsked : call.packJobId ≠ packJobId := fun same => own (isJob.trans same.symm)
        rw [if_pos isJob, if_pos isJob, if_neg notAsked]
      · rw [if_neg isJob, if_neg isJob]

theorem enterEntry_distinct (call : DeadlockCall) {jobs : List DeadlockJob}
    (distinct : (jobs.map DeadlockJob.packJobId).Nodup) :
    ((enterEntry call jobs).map DeadlockJob.packJobId).Nodup ∧
      ∀ packJobId ∈ (enterEntry call jobs).map DeadlockJob.packJobId,
        packJobId = call.packJobId ∨ packJobId ∈ jobs.map DeadlockJob.packJobId := by
  induction jobs with
  | nil => simp [enterEntry]
  | cons job rest ih =>
    obtain ⟨absent, distinctRest⟩ := nodup_cons.mp distinct
    obtain ⟨nodup, known⟩ := ih distinctRest
    rw [enterEntry]
    split_ifs with own later
    · exact ⟨distinct, fun _ mem => .inr mem⟩
    · exact ⟨distinct, fun _ mem => .inr mem⟩
    · refine ⟨nodup_cons.mpr ⟨fun mem => ?_, nodup⟩, fun packJobId mem => ?_⟩
      · exact (known _ mem).elim own absent
      · rcases mem_cons.mp mem with rfl | later
        · exact .inr mem_cons_self
        · exact (known _ later).imp_right (mem_cons_of_mem _)

theorem deadlockJobListSort_le {a b : DeadlockJob} :
    deadlockJobListSort a b ≤ 0 ↔ b.startTime ≤ a.startTime := by
  unfold deadlockJobListSort
  split_ifs <;> omega

theorem deadlockJobListSort_orders : Orders deadlockJobListSort fun _ => True := by
  refine ⟨fun a b _ _ pos => ?_, fun a b c _ _ _ first second => ?_⟩
  · rw [deadlockJobListSort_le]
    exact (not_le.mp (mt deadlockJobListSort_le.mpr (not_le.mpr pos))).le
  · rw [deadlockJobListSort_le] at *
    exact second.trans first

theorem enterJob_sound (call : DeadlockCall) {jobs : List DeadlockJob} (sound : JobsSound jobs) :
    JobsSound (enterJob call jobs) := by
  have perm : (enterJob call jobs).Perm (enterEntry call jobs) := qsort_perm _
  refine ⟨(perm.map _).nodup_iff.mpr (enterEntry_distinct call sound.distinct).1, ?_⟩
  exact (deadlockJobListSort_orders.qsort_pairwise fun _ _ => trivial).imp deadlockJobListSort_le.mp

theorem startOf_enterJob (call : DeadlockCall) {jobs : List DeadlockJob} (sound : JobsSound jobs)
    (packJobId : Nat) :
    startOf (enterJob call jobs) packJobId =
      if call.packJobId = packJobId then
        some (((startOf jobs packJobId).map fun start => max start call.startTime).getD
          call.startTime)
      else startOf jobs packJobId := by
  rw [enterJob, startOf_perm (qsort_perm _) (enterJob_sound call sound).distinct,
    startOf_enterEntry]

/-! ## All tables -/

theorem jobsOf_cons (part : DeadlockPart) (rest : List DeadlockPart) (partPtr : Nat) :
    jobsOf (part :: rest) partPtr = if part.partPtr = partPtr then part.jobs
      else jobsOf rest partPtr := by
  by_cases own : part.partPtr = partPtr
  · simp [jobsOf, own]
  · simp [jobsOf, own]

theorem jobsOf_enterCall (call : DeadlockCall) (tables : List DeadlockPart) (partPtr : Nat) :
    jobsOf (enterCall call tables) partPtr =
      if call.partPtr = partPtr then enterJob call (jobsOf tables partPtr)
      else jobsOf tables partPtr := by
  induction tables with
  | nil =>
    rw [enterCall, jobsOf_cons]
    rfl
  | cons part rest ih =>
    rw [enterCall]
    by_cases own : part.partPtr = call.partPtr
    · rw [if_pos own, jobsOf_cons, jobsOf_cons]
      by_cases asked : call.partPtr = partPtr
      · rw [if_pos asked, if_pos (own.trans asked), if_pos (own.trans asked)]
      · have notPart : part.partPtr ≠ partPtr := fun same => asked (own.symm.trans same)
        rw [if_neg asked, if_neg notPart, if_neg notPart]
    · rw [if_neg own, jobsOf_cons, jobsOf_cons, ih]
      by_cases isPart : part.partPtr = partPtr
      · have notAsked : call.partPtr ≠ partPtr := fun same => own (isPart.trans same.symm)
        rw [if_pos isPart, if_pos isPart, if_neg notAsked]
      · rw [if_neg isPart, if_neg isPart]

/-- Each partition has one table, and the tables hold the latest start times of the calls. -/
structure TablesSound (calls : List DeadlockCall) (tables : List DeadlockPart) : Prop where
  distinct : (tables.map DeadlockPart.partPtr).Nodup
  jobs : ∀ part ∈ tables, JobsSound part.jobs
  starts : ∀ partPtr packJobId,
    startOf (jobsOf tables partPtr) packJobId = latestStart calls partPtr packJobId

theorem JobsSound.nil : JobsSound [] := ⟨nodup_nil, List.Pairwise.nil⟩

variable {tables : List DeadlockPart}

theorem TablesSound.jobsOf {calls : List DeadlockCall} (sound : TablesSound calls tables)
    (partPtr : Nat) : JobsSound (jobsOf tables partPtr) := by
  rw [Backfill.jobsOf]
  cases found : tables.find? fun part => part.partPtr = partPtr with
  | none => exact JobsSound.nil
  | some part => exact sound.jobs part (mem_of_find?_eq_some found)

theorem enterCall_parts (call : DeadlockCall) (distinct : (tables.map DeadlockPart.partPtr).Nodup)
    (jobs : ∀ part ∈ tables, JobsSound part.jobs) :
    ((enterCall call tables).map DeadlockPart.partPtr).Nodup ∧
      (∀ partPtr ∈ (enterCall call tables).map DeadlockPart.partPtr,
        partPtr = call.partPtr ∨ partPtr ∈ tables.map DeadlockPart.partPtr) ∧
      ∀ part ∈ enterCall call tables, JobsSound part.jobs := by
  induction tables with
  | nil => simpa [enterCall] using enterJob_sound call JobsSound.nil
  | cons part rest ih =>
    obtain ⟨absent, distinctRest⟩ := nodup_cons.mp distinct
    obtain ⟨jobsPart, jobsRest⟩ := forall_mem_cons.mp jobs
    obtain ⟨nodup, known, sound⟩ := ih distinctRest jobsRest
    rw [enterCall]
    split_ifs with own
    · exact ⟨distinct, fun _ mem => .inr mem,
        forall_mem_cons.mpr ⟨enterJob_sound call jobsPart, jobsRest⟩⟩
    · refine ⟨nodup_cons.mpr ⟨fun mem => ?_, nodup⟩, fun partPtr mem => ?_,
        forall_mem_cons.mpr ⟨jobsPart, sound⟩⟩
      · exact (known _ mem).elim own absent
      · rcases mem_cons.mp mem with rfl | later
        · exact .inr mem_cons_self
        · exact (known _ later).imp_right (mem_cons_of_mem _)

theorem TablesSound.enterCall {calls : List DeadlockCall} (sound : TablesSound calls tables)
    (call : DeadlockCall) : TablesSound (calls ++ [call]) (enterCall call tables) := by
  obtain ⟨distinct, _, jobs⟩ := enterCall_parts call sound.distinct sound.jobs
  refine ⟨distinct, jobs, fun partPtr packJobId => ?_⟩
  rw [jobsOf_enterCall, latestStart, foldl_append, ← latestStart, ← sound.starts]
  rw [foldl_cons, foldl_nil]
  by_cases own : call.partPtr = partPtr
  · rw [if_pos own, startOf_enterJob call (sound.jobsOf partPtr)]
    simp only [own, true_and]
  · rw [if_neg own, if_neg fun both => own both.1]

theorem deadlockRun_sound (calls : List DeadlockCall) : TablesSound calls (deadlockRun calls) := by
  induction calls using List.reverseRecOn with
  | nil => exact ⟨nodup_nil, fun _ mem => absurd mem not_mem_nil, fun _ _ => rfl⟩
  | append_singleton calls call ih =>
    rw [deadlockRun, foldl_append]
    exact ih.enterCall call

theorem deadlockTables_eq (records : List TestedRecord) :
    deadlockTables records = deadlockRun (records.filterMap TestedRecord.call) := by
  induction records using List.reverseRecOn with
  | nil => rfl
  | append_singleton records record ih =>
    rw [deadlockTables, foldl_append, ← deadlockTables, ih, filterMap_append]
    rw [foldl_cons, foldl_nil, jobPackDeadlockTest]
    cases tested : record.call with
    | none => simp [tested]
    | some call => simp [tested, deadlockRun, foldl_append]

/-! ## The answer -/

theorem jobs_of_mem (distinct : (tables.map DeadlockPart.partPtr).Nodup) {part : DeadlockPart}
    (mem : part ∈ tables) : part.jobs = jobsOf tables part.partPtr := by
  induction tables with
  | nil => cases mem
  | cons head rest ih =>
    obtain ⟨absent, distinctRest⟩ := nodup_cons.mp distinct
    rw [jobsOf_cons]
    rcases mem_cons.mp mem with rfl | later
    · rw [if_pos rfl]
    · have notHead : head.partPtr ≠ part.partPtr := fun same =>
        absent (same ▸ mem_map_of_mem later)
      rw [if_neg notHead]
      exact ih distinctRest later

theorem takeWhile_split {jobs : List DeadlockJob} {own : DeadlockJob}
    (distinct : (jobs.map DeadlockJob.packJobId).Nodup) (mem : own ∈ jobs) :
    ∃ back, jobs = jobs.takeWhile (fun job => job.packJobId ≠ own.packJobId) ++ own :: back := by
  obtain ⟨front, back, rfl⟩ := append_of_mem mem
  have absent : ∀ job ∈ front, job.packJobId ≠ own.packJobId := by
    intro job inFront same
    rw [map_append, nodup_append] at distinct
    exact distinct.2.2 _ (mem_map_of_mem inFront) _ (mem_map_of_mem mem_cons_self) same
  refine ⟨back, ?_⟩
  rw [takeWhile_append_of_pos fun job inFront => decide_eq_true (absent job inFront),
    takeWhile_cons_of_neg (by simp), append_nil]

theorem mem_takeWhile_of_sorted {jobs : List DeadlockJob} (sound : JobsSound jobs)
    {own other : DeadlockJob} (mem : own ∈ jobs) (otherInside : other ∈ jobs) :
    (other ∈ jobs.takeWhile (fun job => job.packJobId ≠ own.packJobId) →
      own.startTime ≤ other.startTime) ∧
    (own.startTime < other.startTime →
      other ∈ jobs.takeWhile fun job => job.packJobId ≠ own.packJobId) := by
  obtain ⟨back, split⟩ := takeWhile_split sound.distinct mem
  have sorted := sound.sorted
  rw [split] at sorted otherInside
  obtain ⟨_, sortedBack, across⟩ := pairwise_append.mp sorted
  refine ⟨fun inFront => across other inFront own mem_cons_self, fun later => ?_⟩
  rcases mem_append.mp otherInside with inFront | inBack
  · exact inFront
  · rcases mem_cons.mp inBack with rfl | inBack
    · exact absurd later (lt_irrefl _)
    · exact absurd later (not_lt.mpr ((pairwise_cons.mp sortedBack).1 other inBack))

theorem pair_sublist_of_mem {jobs : List DeadlockJob} {own other : DeadlockJob}
    (distinct : (jobs.map DeadlockJob.packJobId).Nodup) (mem : own ∈ jobs)
    (otherInside : other ∈ jobs) (otherJob : other.packJobId ≠ own.packJobId) :
    (other ∈ jobs.takeWhile (fun job => job.packJobId ≠ own.packJobId) →
      [other, own].Sublist jobs) ∧
    (other ∉ jobs.takeWhile (fun job => job.packJobId ≠ own.packJobId) →
      [own, other].Sublist jobs) := by
  obtain ⟨back, split⟩ := takeWhile_split distinct mem
  rw [split] at otherInside
  constructor
  · intro inFront
    rw [split]
    exact (singleton_sublist.mpr inFront).append (singleton_sublist.mpr mem_cons_self)
  · intro notFront
    have inBack := (mem_append.mp otherInside).resolve_left notFront
    have behind := (mem_cons.mp inBack).resolve_left fun same => otherJob (same ▸ rfl)
    rw [split]
    exact ((singleton_sublist.mpr behind).cons_cons own).trans (sublist_append_right _ _)

theorem mem_takeWhile_of_pair {jobs : List DeadlockJob} {own other : DeadlockJob}
    (distinct : (jobs.map DeadlockJob.packJobId).Nodup)
    (otherJob : other.packJobId ≠ own.packJobId) :
    ([other, own].Sublist jobs → other ∈ jobs.takeWhile fun job => job.packJobId ≠ own.packJobId) ∧
    ([own, other].Sublist jobs →
      other ∉ jobs.takeWhile fun job => job.packJobId ≠ own.packJobId) := by
  induction jobs with
  | nil => exact ⟨fun pair => (not_mem_nil (pair.subset mem_cons_self)).elim,
      fun pair => (not_mem_nil (pair.subset mem_cons_self)).elim⟩
  | cons job rest ih =>
    obtain ⟨absent, distinctRest⟩ := nodup_cons.mp distinct
    obtain ⟨front, behind⟩ := ih distinctRest
    by_cases isOwn : job.packJobId = own.packJobId
    · rw [takeWhile_cons_of_neg (by simpa using isOwn)]
      refine ⟨fun pair => ?_, fun _ => not_mem_nil⟩
      cases pair with
      | cons _ later =>
        exact absurd (isOwn ▸ mem_map_of_mem (later.subset (.tail _ (.head _)))) absent
      | cons_cons _ later => exact absurd isOwn otherJob
    · rw [takeWhile_cons_of_pos (by simpa using isOwn)]
      refine ⟨fun pair => ?_, fun pair inside => ?_⟩
      · cases pair with
        | cons _ later => exact mem_cons_of_mem _ (front later)
        | cons_cons _ later => exact mem_cons_self
      · cases pair with
        | cons _ later =>
          rcases mem_cons.mp inside with rfl | inside
          · exact absent (mem_map_of_mem (later.subset (.tail _ (.head _))))
          · exact behind later inside
        | cons_cons _ later => exact isOwn rfl

theorem takeWhile_enterEntry (call : DeadlockCall) (jobs : List DeadlockJob) :
    (enterEntry call jobs).takeWhile (fun job => job.packJobId ≠ call.packJobId) =
      jobs.takeWhile fun job => job.packJobId ≠ call.packJobId := by
  induction jobs with
  | nil => simp [enterEntry]
  | cons job rest ih =>
    rw [enterEntry]
    split_ifs with own later
    · simp [own]
    · rfl
    · rw [takeWhile_cons_of_pos (by simpa using own),
        takeWhile_cons_of_pos (by simpa using own), ih]

theorem mem_takeWhile_enterJob (call : DeadlockCall) {jobs : List DeadlockJob}
    (sound : JobsSound jobs) {own other : DeadlockJob} (mem : own ∈ enterJob call jobs)
    (otherInside : other ∈ enterJob call jobs) (isOwn : own.packJobId = call.packJobId)
    (otherJob : other.packJobId ≠ own.packJobId) (same : own.startTime = other.startTime) :
    other ∈ (enterJob call jobs).takeWhile (fun job => job.packJobId ≠ own.packJobId) ↔
      other ∈ jobs.takeWhile fun job => job.packJobId ≠ own.packJobId := by
  have distinct := (enterEntry_distinct call sound.distinct).1
  have distinctAfter := (enterJob_sound call sound).distinct
  obtain ⟨front, behind⟩ := pair_sublist_of_mem distinct (mem_qsort.mp mem)
    (mem_qsort.mp otherInside) otherJob
  have untouched : (enterEntry call jobs).takeWhile (fun job => job.packJobId ≠ own.packJobId) =
      jobs.takeWhile fun job => job.packJobId ≠ own.packJobId :=
    isOwn ▸ takeWhile_enterEntry call jobs
  rw [untouched] at front behind
  obtain ⟨isFront, isBehind⟩ := mem_takeWhile_of_pair distinctAfter otherJob
  constructor
  · intro after
    by_contra before
    exact isBehind (deadlockJobListSort_orders.pair_sublist_qsort (fun _ _ => trivial)
      (behind before) (deadlockJobListSort_le.mpr same.ge)) after
  · intro before
    exact isFront (deadlockJobListSort_orders.pair_sublist_qsort (fun _ _ => trivial)
      (front before) (deadlockJobListSort_le.mpr same.le))

theorem searchJob_eq_some {jobs : List DeadlockJob} {packJobId : Nat} {job : DeadlockJob}
    (found : searchJob jobs packJobId = some job) :
    job ∈ jobs ∧ job.packJobId = packJobId ∧ startOf jobs packJobId = some job.startTime := by
  refine ⟨mem_of_find?_eq_some found, ?_, by rw [startOf, found]; rfl⟩
  simpa using find?_some found

theorem exists_searchJob {jobs : List DeadlockJob} {packJobId : Nat} {start : Int}
    (isStart : startOf jobs packJobId = some start) :
    searchJob jobs packJobId = some ⟨packJobId, start⟩ := by
  obtain ⟨job, found, same⟩ := Option.map_eq_some_iff.mp isStart
  rw [found, ← same, ← (searchJob_eq_some found).2.1]

namespace Meeting

variable {calls : List DeadlockCall} {call : DeadlockCall}

/-- The other job is in front of the tested one in the table with the call entered. -/
def InFront (m : Meeting calls call) : Prop :=
  m.packJobId ∈ ((jobsOf (enterCall call (deadlockRun calls)) call.partPtr).takeWhile
    fun job => job.packJobId ≠ call.packJobId).map DeadlockJob.packJobId

theorem mem_front {jobs : List DeadlockJob} (sound : JobsSound jobs) {packJobId own : Nat}
    {start : Int} (isStart : startOf jobs packJobId = some start) :
    packJobId ∈ (jobs.takeWhile fun job => job.packJobId ≠ own).map DeadlockJob.packJobId ↔
      (⟨packJobId, start⟩ : DeadlockJob) ∈ jobs.takeWhile fun job => job.packJobId ≠ own := by
  refine ⟨fun front => ?_, fun front => mem_map_of_mem front⟩
  obtain ⟨⟨jobId, jobStart⟩, mem, rfl⟩ := mem_map.mp front
  have isJob := (startOf_eq_some sound.distinct).mpr ((takeWhile_sublist _).subset mem)
  rw [isStart] at isJob
  exact Option.some.inj isJob ▸ mem

theorem inFront_of_start (m : Meeting calls call) :
    (m.InFront → m.own ≤ m.other) ∧ (m.own < m.other → m.InFront) ∧
      (m.own = m.other → (m.InFront ↔ m.First)) := by
  have before := (deadlockRun_sound calls).jobsOf call.partPtr
  have sound := (deadlockRun_sound calls).enterCall call
  have jobs := sound.jobsOf call.partPtr
  have isOwn := (sound.starts call.partPtr call.packJobId).trans m.isOwn
  have isOther := (sound.starts call.partPtr m.packJobId).trans m.isOther
  have entered : jobsOf (enterCall call (deadlockRun calls)) call.partPtr =
      enterJob call (jobsOf (deadlockRun calls) call.partPtr) := by
    rw [jobsOf_enterCall, if_pos rfl]
  have isBefore : startOf (jobsOf (deadlockRun calls) call.partPtr) m.packJobId = some m.other := by
    rw [entered, startOf_enterJob call before, if_neg m.otherJob.symm] at isOther
    exact isOther
  have own := (startOf_eq_some jobs.distinct).mp isOwn
  have other := (startOf_eq_some jobs.distinct).mp isOther
  obtain ⟨le, taken⟩ := mem_takeWhile_of_sorted jobs own other
  rw [InFront, First, mem_front jobs isOther, mem_front before isBefore]
  refine ⟨le, taken, fun same => ?_⟩
  rw [entered] at own other ⊢
  exact mem_takeWhile_enterJob call before own other rfl m.otherJob same

theorem detected_iff (m : Meeting calls call) :
    m.InFront ∧ m.other2 < m.own ↔ m.Seen ∨ m.Spurious := by
  obtain ⟨le, front, tie⟩ := m.inFront_of_start
  constructor
  · rintro ⟨isFront, less⟩
    rcases (le isFront).lt_or_eq with later | same
    · rcases lt_or_ge m.other2 m.own2 with crosses | not
      · exact .inl ⟨later, crosses, less⟩
      · exact .inr ⟨less, .inl ⟨later, not⟩⟩
    · exact .inr ⟨less, .inr ⟨same, (tie same).mp isFront⟩⟩
  · rintro (⟨later, _, less⟩ | ⟨less, ⟨later, _⟩ | ⟨same, isFirst⟩⟩)
    · exact ⟨front later, less⟩
    · exact ⟨front later, less⟩
    · exact ⟨(tie same).mpr isFirst, less⟩

theorem crosses_iff (m : Meeting calls call) : m.Crosses ↔ m.Seen ∨ m.Missed := by
  constructor
  · rintro (first | ⟨later, before⟩)
    · exact .inr (.inl first)
    · rcases lt_or_ge m.other2 m.own with less | notLess
      · exact .inl ⟨later, before, less⟩
      · exact .inr (.inr ⟨later, before, notLess⟩)
  · rintro (⟨later, before, _⟩ | first | ⟨later, before, _⟩)
    · exact .inr ⟨later, before⟩
    · exact .inl first
    · exact .inr ⟨later, before⟩

end Meeting

theorem table_of_start {tables : List DeadlockPart} {partPtr packJobId : Nat} {start : Int}
    (isStart : startOf (jobsOf tables partPtr) packJobId = some start) :
    ∃ part ∈ tables, part.partPtr = partPtr := by
  cases found : tables.find? fun part => part.partPtr = partPtr with
  | none => simp [jobsOf, found, startOf, searchJob] at isStart
  | some part => exact ⟨part, mem_of_find?_eq_some found, by simpa using find?_some found⟩

/-- The test is true exactly when it finds a job in front with an earlier start elsewhere. -/
theorem haveDeadlock_iff (calls : List DeadlockCall) (call : DeadlockCall) :
    haveDeadlock (enterCall call (deadlockRun calls)) call = true ↔
      ∃ m : Meeting calls call, m.InFront ∧ m.other2 < m.own := by
  have sound := (deadlockRun_sound calls).enterCall call
  unfold haveDeadlock
  constructor
  · intro answer
    cases ownEq : searchJob (jobsOf (enterCall call (deadlockRun calls)) call.partPtr)
        call.packJobId with
    | none => simp [ownEq] at answer
    | some own =>
      simp only [ownEq] at answer
      obtain ⟨part2, isPart2, test⟩ := any_eq_true.mp answer
      simp only [jobs_of_mem sound.distinct isPart2, Bool.and_eq_true, decide_eq_true_eq,
        any_eq_true] at test
      obtain ⟨⟨otherPart, hasOwn⟩, job2, front, has⟩ := test
      obtain ⟨own2, own2Eq⟩ := Option.isSome_iff_exists.mp hasOwn
      cases job3Eq : searchJob (jobsOf (enterCall call (deadlockRun calls)) part2.partPtr)
          job2.packJobId with
      | none => simp [job3Eq] at has
      | some job3 =>
        simp only [job3Eq, Option.any_some, decide_eq_true_eq] at has
        obtain ⟨_, isOwnId, isOwn⟩ := searchJob_eq_some ownEq
        obtain ⟨_, _, isOwn2⟩ := searchJob_eq_some own2Eq
        obtain ⟨_, _, isOther2⟩ := searchJob_eq_some job3Eq
        have notOwn := mem_takeWhile_imp front
        have otherJob := of_decide_eq_true notOwn
        have inside := (takeWhile_sublist _).subset front
        have isOther := (startOf_eq_some (sound.jobsOf call.partPtr).distinct).mpr inside
        rw [sound.starts] at isOwn isOther isOwn2 isOther2
        rw [isOwnId] at otherJob front
        exact ⟨⟨job2.packJobId, part2.partPtr, otherJob, otherPart, own.startTime,
          job2.startTime, own2.startTime, job3.startTime, isOwn, isOther, isOwn2, isOther2⟩,
          mem_map_of_mem front, has⟩
  · rintro ⟨m, front, less⟩
    have own := exists_searchJob ((sound.starts _ _).trans m.isOwn)
    have own2 := exists_searchJob ((sound.starts _ _).trans m.isOwn2)
    have other2 := exists_searchJob ((sound.starts _ _).trans m.isOther2)
    obtain ⟨part2, inside, isPart⟩ := table_of_start ((sound.starts _ _).trans m.isOwn2)
    obtain ⟨job2, taken, isJob⟩ := mem_map.mp front
    have isTable : part2.jobs = jobsOf (enterCall call (deadlockRun calls)) m.partPtr :=
      isPart ▸ jobs_of_mem sound.distinct inside
    simp only [own]
    refine any_eq_true.mpr ⟨part2, inside, ?_⟩
    have otherPart := m.otherPart
    simp only [isTable, isPart, own2, Bool.and_eq_true, decide_eq_true_eq, Option.isSome_some]
    refine ⟨⟨otherPart, trivial⟩, any_eq_true.mpr ⟨job2, taken, ?_⟩⟩
    rw [isJob, other2]
    exact decide_eq_true less

/-- A tested call is answered rightly exactly when it sees a crossing, or has as well a crossing
it does not see as one that is none, or neither. -/
theorem answersRight_iff (records : List TestedRecord) (record : TestedRecord) :
    AnswersRight records record ↔ ∀ call, record.call = some call →
      (∃ m : Meeting (records.filterMap TestedRecord.call) call, m.Seen) ∨
        ((∃ m : Meeting (records.filterMap TestedRecord.call) call, m.Missed) ↔
          ∃ m : Meeting (records.filterMap TestedRecord.call) call, m.Spurious) := by
  unfold AnswersRight jobPackDeadlockTest
  cases tested : record.call with
  | none => simp
  | some call =>
    simp only [Option.some.injEq, forall_eq', exists_eq_left']
    rw [deadlockTables_eq, haveDeadlock_iff]
    simp only [Meeting.detected_iff, Meeting.crosses_iff, exists_or]
    by_cases seen : ∃ m : Meeting (records.filterMap TestedRecord.call) call, m.Seen
    · simp [seen]
    · simp only [seen, false_or]
      exact Iff.comm

/-- Pack job 20 starts at 10 in partition 1 and at 50 in partition 2, pack job 10 at 20 in
partition 2 and, with the last call, at 30 in partition 1. -/
def crossedRecords : List TestedRecord :=
  [⟨20, some 1, 10⟩, ⟨20, some 2, 50⟩, ⟨10, some 2, 20⟩]

/-- The crossing is not found. -/
theorem crossedRecords_missed : ¬ AnswersRight crossedRecords ⟨10, some 1, 30⟩ := by
  intro right
  have found := right.mpr ⟨⟨10, 1, 30⟩, rfl,
    ⟨20, 2, by decide, by decide, 30, 10, 20, 50, rfl, rfl, rfl, rfl⟩, .inl (by decide)⟩
  exact absurd found (by decide)

end SlurmSim.Backfill
