import SlurmSim.Controller.JobDependency

/-!
# The test of dependencies

`test_job_dependency` goes through the dependencies of a job, deletes those that are
lifted and tells from three flags whether the job may start, has to wait or can never
start.  The limits that an `expand` dependency copies into the job and the kill flag of a
`plussingleton` are left out, and so is the record that a dependency points to, which every
test looks up again.
-/

namespace SlurmSim.Controller.TestDependency

open SlurmSim.Controller List

/-- The job table with its details, the users and names of the jobs, the job list, and
whether `bb_g_job_test_stage_out` answers 1. -/
structure System where
  q : JobQueue
  userId : Nat → UInt32
  name : Nat → Option String
  jobList : List Nat
  stagedOut : Nat → Bool

/-- What a turn of the loop does: it deletes the dependency of a singleton, clears the
dependency, leaves it with `depends`, with `failure` and a break, with `failure` alone, or
without any flag. -/
inductive Outcome where
  | deleted
  | cleared
  | depends
  | fails
  | failsOn
  | silent
  deriving DecidableEq

/-- `IS_JOB_SUSPENDED` -/
def isSuspended (job : JobRecord) : Bool := job.baseState == 2

/-- `IS_JOB_CANCELLED` -/
def isCancelled (job : JobRecord) : Bool := job.baseState == 4

/-- `JOB_SPECIAL_EXIT` is set. -/
def specialExit (job : JobRecord) : Bool := job.jobState &&& 0x1000 != 0

/-- What the tests for a job or a job array tell of it. -/
structure Progress where
  pending : Bool
  completed : Bool
  complete : Bool

/-- The states of one job. -/
def progress (job : JobRecord) : Progress := ⟨job.isPending, job.isCompleted, job.isComplete⟩

/-- The branches of `afterok` and `aftercorr`. -/
def whenOk (p : Progress) : Outcome :=
  if !p.completed then .depends else if p.complete then .cleared else .fails

/-- The branches for one type; the job's record tells of a special exit. -/
def verdict (type : DependType) (p : Progress) (djob : JobRecord) : Option Outcome :=
  match type with
  | .after => some (if !p.pending then .cleared else .depends)
  | .afterAny => some (if p.completed then .cleared else .depends)
  | .afterNotOk => some (
      if specialExit djob then .cleared else if !p.completed then .depends
      else if !p.complete then .cleared else .fails)
  | .afterOk => some (whenOk p)
  | .afterCorrespond => some (whenOk p)
  | _ => none

namespace System

variable (s : System) (job : Nat)

def record (ptr : Nat) : JobRecord := s.q.table.recs ptr

/-- `_build_user_job_list` -/
def userJobList : List Nat :=
  s.jobList.filter fun other => s.userId other = s.userId job ∧
    ¬((s.name job).isSome ∧ (s.name other).isSome ∧ s.name job ≠ s.name other)

/-- `run_now` of a singleton. -/
def singletonRuns : Bool :=
  (s.userJobList job).all fun other =>
    !((s.record other).isRunning || isSuspended (s.record other) ||
      (s.record other).isPending && decide ((s.record other).jobId < (s.record job).jobId))

/-- `run_now` of a plussingleton. -/
def plussingletonRuns : Bool :=
  (s.userJobList job).all fun other =>
    !((s.record other).isRunning || isSuspended (s.record other) ||
      (s.record other).isComplete || isCancelled (s.record other))

/-- `djob_ptr` -/
def found (spec : DependSpec) : Option Nat :=
  s.q.table.findJobArrayRec spec.jobId spec.arrayTaskId

/-- The tests of the job array with an id. -/
def arrayProgress (arrayJobId : UInt32) : Progress :=
  ⟨s.q.table.testJobArrayPending arrayJobId, s.q.table.testJobArrayCompleted arrayJobId,
    s.q.table.testJobArrayComplete arrayJobId⟩

/-- The task that `aftercorr` waits for: the one with the task id of the job, if the job is
a task. -/
def correspondent (arrayJobId : UInt32) : Option Nat :=
  if (s.record job).arrayTaskId = noVal ∨ (s.record job).arrayTaskId = infinite then none
  else s.q.table.findJobArrayRec arrayJobId (s.record job).arrayTaskId

/-- A dependency on a record that is still there. -/
def onRecord (spec : DependSpec) (ptr : Nat) : Outcome :=
  if spec.arrayTaskId = infinite then
    let whole := s.arrayProgress spec.jobId
    match spec.dependType, s.correspondent job spec.jobId with
    | .afterCorrespond, some task => whenOk (progress (s.record task))
    | type, _ => (verdict type whole (s.record ptr)).getD .silent
  else
    match spec.dependType with
    | .expand =>
      if (s.record ptr).isPending then .depends
      else if (s.record ptr).isCompleted then .fails
      else .silent
    | type => (verdict type (progress (s.record ptr)) (s.record ptr)).getD .failsOn

/-- The record is gone, or its address holds another job. -/
def gone (spec : DependSpec) (ptr : Nat) : Bool :=
  ptr ∉ s.q.table.live ∨
    ((s.record ptr).jobId ≠ spec.jobId ∧ (s.record ptr).arrayJobId ≠ spec.jobId)

/-- The end of a turn: a dependency on a job that is not staged out is not cleared. -/
def awaitStageOut (djob : Option Nat) : Outcome → Outcome
  | .cleared => if djob.all s.stagedOut then .cleared else .silent
  | outcome => outcome

/-- One turn of the loop. -/
def outcome (spec : DependSpec) : Outcome :=
  if spec.dependType = .singleton ∧ (s.name job).isSome then
    if s.singletonRuns job then .deleted else .depends
  else if spec.dependType = .plussingleton ∧ (s.name job).isSome then
    if s.plussingletonRuns job then .silent else .failsOn
  else
    s.awaitStageOut (s.found spec)
      (match (s.found spec).filter fun ptr => !s.gone spec ptr with
      | none => .cleared
      | some ptr => s.onRecord job spec ptr)

end System

/-- The flags, and the dependencies that stay in the list. -/
structure TestRun where
  dependList : List DependSpec
  failure : Bool
  depends : Bool
  rebuildStr : Bool
  orSatisfied : Bool

/-- The loop of `test_job_dependency` with what its turns do. -/
def testLoop (outcome : DependSpec → Outcome) : List DependSpec → TestRun → TestRun
  | [], run => run
  | spec :: rest, run =>
    let kept := { run with dependList := run.dependList ++ [spec] }
    match outcome spec with
    | .deleted => testLoop outcome rest run
    | .cleared =>
      if spec.orFlag then
        { run with
          dependList := run.dependList ++ spec :: rest
          rebuildStr := true
          orSatisfied := true }
      else testLoop outcome rest { run with rebuildStr := true }
    | .depends => testLoop outcome rest { kept with depends := true }
    | .fails => { run with dependList := run.dependList ++ spec :: rest, failure := true }
    | .failsOn => testLoop outcome rest { kept with failure := true }
    | .silent => testLoop outcome rest kept

/-- `test_job_dependency` for the details of a job with dependencies: the answer and the
details afterwards. -/
def testDetails (outcome : DependSpec → Outcome) (details : JobDetails)
    (list : List DependSpec) : Nat × JobDetails :=
  let run := testLoop outcome list ⟨[], false, false, false, false⟩
  let left := if run.orSatisfied then [] else run.dependList
  (if run.failure then 2 else if run.depends then 1 else 0,
    if run.rebuildStr then dependList2str details left false
    else { details with dependList := some left })

/-- `test_job_dependency` -/
def testJobDependency (s : System) (job : Nat) : Nat × Option JobDetails :=
  match s.q.details job with
  | none => (0, none)
  | some details =>
    match details.dependList with
    | none => (0, some details)
    | some [] => (0, some details)
    | some list =>
      let (result, details) := testDetails (s.outcome job) details list
      (result, some details)

/-- The `after*` types. -/
def isAfter : DependType → Bool
  | .after | .afterAny | .afterNotOk | .afterOk | .afterCorrespond => true
  | _ => false

/-- A job with the given dependencies. -/
def System.withDetails (s : System) (job : Nat) (details : JobDetails) : System :=
  { s with q := s.q.setDetails job details }

theorem testJobDependency_withDetails (s : System) (job : Nat) (details : JobDetails)
    {list : List DependSpec} (some_ : list ≠ []) :
    testJobDependency (s.withDetails job { details with dependList := some list }) job =
      ((testDetails (s.outcome job) { details with dependList := some list } list).1,
        some (testDetails (s.outcome job) { details with dependList := some list } list).2) := by
  have own : (s.withDetails job { details with dependList := some list }).q.details job =
      some { details with dependList := some list } := Function.update_self ..
  rw [testJobDependency, own]
  cases list with
  | nil => exact absurd rfl some_
  | cons first rest => rfl

variable {s : System} {job : Nat} {outcome : DependSpec → Outcome} {list : List DependSpec}
  {run : TestRun} {spec : DependSpec}

/-- The outcomes of a dependency on the state of another job. -/
def AfterOutcome (o : Outcome) : Prop := o ≠ .deleted ∧ o ≠ .failsOn

instance (o : Outcome) : Decidable (AfterOutcome o) := inferInstanceAs (Decidable (_ ∧ _))

theorem whenOk_after (p : Progress) : AfterOutcome (whenOk p) := by
  unfold whenOk
  split_ifs <;> decide

theorem verdict_after {type : DependType} (after : isAfter type = true) (p : Progress)
    (djob : JobRecord) : ∃ o, verdict type p djob = some o ∧ AfterOutcome o := by
  cases type with
  | after | afterAny | afterNotOk =>
    refine ⟨_, rfl, ?_⟩
    split_ifs <;> decide
  | afterOk | afterCorrespond => exact ⟨_, rfl, whenOk_after p⟩
  | _ => cases after

theorem onRecord_after (after : isAfter spec.dependType = true) (ptr : Nat) :
    AfterOutcome (s.onRecord job spec ptr) := by
  obtain ⟨wholeOutcome, whole, wholeAfter⟩ :=
    verdict_after after (s.arrayProgress spec.jobId) (s.record ptr)
  obtain ⟨ownOutcome, own, ownAfter⟩ :=
    verdict_after after (progress (s.record ptr)) (s.record ptr)
  rw [System.onRecord]
  by_cases isArray : spec.arrayTaskId = infinite
  · rw [if_pos isArray]
    dsimp only
    split
    · exact whenOk_after _
    · rw [whole]
      exact wholeAfter
  · rw [if_neg isArray]
    split
    · next isExpand =>
      rw [isExpand] at after
      cases after
    · rw [own]
      exact ownAfter

theorem outcome_after (after : isAfter spec.dependType = true) :
    AfterOutcome (s.outcome job spec) := by
  have single : spec.dependType ≠ .singleton := fun same => by
    rw [same] at after
    cases after
  have plus : spec.dependType ≠ .plussingleton := fun same => by
    rw [same] at after
    cases after
  have staged : ∀ djob o, AfterOutcome o → AfterOutcome (s.awaitStageOut djob o) := by
    intro djob o holds
    cases o with
    | cleared =>
      rw [System.awaitStageOut]
      split_ifs <;> decide
    | _ => exact holds
  rw [System.outcome, if_neg fun both => single both.1, if_neg fun both => plus both.1]
  apply staged
  split
  · decide
  · exact onRecord_after after _

/-! ## Alternatives -/

/-- The loop goes on behind alternatives that are neither satisfied nor failed. -/
theorem testLoop_undecided {front : List DependSpec} (rest : List DependSpec) (run : TestRun)
    (undecided : ∀ spec ∈ front, outcome spec = .silent ∨ outcome spec = .depends) :
    testLoop outcome (front ++ rest) run = testLoop outcome rest { run with
      dependList := run.dependList ++ front
      depends := run.depends || front.any fun spec => outcome spec = .depends } := by
  induction front generalizing run with
  | nil => simp
  | cons spec front ih =>
    obtain ⟨own, others⟩ := forall_mem_cons.mp undecided
    rw [cons_append, testLoop]
    rcases own with silent | depends
    · simp only [silent, ih _ others]
      simp [silent]
    · simp only [depends, ih _ others]
      simp [depends]

theorem undecided_or_split (after : ∀ spec ∈ list, AfterOutcome (outcome spec)) :
    (∀ spec ∈ list, outcome spec = .silent ∨ outcome spec = .depends) ∨
      ∃ front spec rest, list = front ++ spec :: rest ∧
        (∀ spec ∈ front, outcome spec = .silent ∨ outcome spec = .depends) ∧
        (outcome spec = .cleared ∨ outcome spec = .fails) := by
  induction list with
  | nil => exact Or.inl (by simp)
  | cons spec rest ih =>
    obtain ⟨own, others⟩ := forall_mem_cons.mp after
    by_cases decided : outcome spec = .cleared ∨ outcome spec = .fails
    · exact Or.inr ⟨[], spec, rest, rfl, by simp, decided⟩
    · have undecided : outcome spec = .silent ∨ outcome spec = .depends := by
        unfold AfterOutcome at own
        cases holds : outcome spec <;> simp_all
      rcases ih others with all | ⟨front, next, behind, rfl, all, decided⟩
      · exact Or.inl (forall_mem_cons.mpr ⟨undecided, all⟩)
      · exact Or.inr ⟨spec :: front, next, behind, rfl,
          forall_mem_cons.mpr ⟨undecided, all⟩, decided⟩

/-- Dependencies of which one has to be satisfied. -/
structure Alternatives where
  list : List DependSpec
  some : list ≠ []
  flagged : ∀ spec ∈ list, spec.orFlag = true ∧ isAfter spec.dependType = true

/-- The answer is 0 with an empty list for a satisfied alternative, 2 only when all have
failed, and else 1. -/
structure AnswersAny (outcome : DependSpec → Outcome) (list : List DependSpec)
    (answer : Nat × Option JobDetails) : Prop where
  satisfied : (answer.1 = 0 ∧ ∃ after, answer.2 = some after ∧ after.dependList = some []) ↔
    ∃ spec ∈ list, outcome spec = .cleared
  failed : answer.1 = 2 → ∀ spec ∈ list, outcome spec = .fails
  waits : (¬∃ spec ∈ list, outcome spec = .cleared) → (¬∀ spec ∈ list, outcome spec = .fails) →
    answer.1 = 1

section Answers

variable {details : JobDetails} {front rest : List DependSpec}

theorem testDetails_undecided
    (undecided : ∀ spec ∈ list, outcome spec = .silent ∨ outcome spec = .depends) :
    testDetails outcome details list =
      (if list.any fun spec => outcome spec = .depends then 1 else 0,
        { details with dependList := some list }) := by
  have ends := testLoop_undecided [] ⟨[], false, false, false, false⟩ undecided
  rw [append_nil, testLoop] at ends
  rw [testDetails, ends]
  simp

theorem testDetails_cleared
    (undecided : ∀ spec ∈ front, outcome spec = .silent ∨ outcome spec = .depends)
    (flagged : spec.orFlag = true) (cleared : outcome spec = .cleared) :
    testDetails outcome details (front ++ spec :: rest) =
      (if front.any fun spec => outcome spec = .depends then 1 else 0,
        dependList2str details [] false) := by
  rw [testDetails, testLoop_undecided _ _ undecided, testLoop, cleared]
  simp [flagged]

theorem testDetails_fails (details : JobDetails) (rest : List DependSpec)
    (undecided : ∀ spec ∈ front, outcome spec = .silent ∨ outcome spec = .depends)
    (fails : outcome spec = .fails) :
    (testDetails outcome details (front ++ spec :: rest)).1 = 2 := by
  rw [testDetails, testLoop_undecided _ _ undecided, testLoop, fails]
  rfl

theorem find?_depends (undecided : ∀ spec ∈ front, outcome spec = .silent ∨ outcome spec = .depends)
    (some_ : (front.any fun spec => outcome spec = .depends) = true) :
    ((front ++ rest).find? fun spec => outcome spec ≠ .silent).any
      (fun spec => outcome spec = .cleared) = false := by
  induction front with
  | nil => cases some_
  | cons spec front ih =>
    obtain ⟨own, others⟩ := forall_mem_cons.mp undecided
    rcases own with silent | depends
    · rw [any_cons, silent] at some_
      rw [cons_append, find?_cons_of_neg (by simp [silent])]
      exact ih others (by simpa using some_)
    · simp [depends]

theorem find?_silent (silent : (front.any fun spec => outcome spec = .depends) = false)
    (undecided : ∀ spec ∈ front, outcome spec = .silent ∨ outcome spec = .depends)
    (decided : outcome spec ≠ .silent) :
    ((front ++ spec :: rest).find? fun spec => outcome spec ≠ .silent) = some spec := by
  have none : (front.find? fun spec => decide (outcome spec ≠ .silent)) = none := by
    refine find?_eq_none.mpr fun other mem => ?_
    rcases undecided other mem with holds | holds <;> simp_all
  rw [find?_append, none, find?_cons_of_pos (by simp [decided])]
  rfl

end Answers

/-- The answer is right exactly when the first alternative that does not just wait for a
stage-out is satisfied, or all have failed, or none is satisfied or failed and one is not
waiting for a stage-out. -/
theorem answersAny_iff (s : System) (job : Nat) (details : JobDetails) (alt : Alternatives) :
    AnswersAny (s.outcome job) alt.list (testJobDependency
        (s.withDetails job { details with dependList := some alt.list }) job) ↔
      (alt.list.find? fun spec => s.outcome job spec ≠ .silent).any
          (fun spec => s.outcome job spec = .cleared) ∨
        (∀ spec ∈ alt.list, s.outcome job spec = .fails) ∨
        (∀ spec ∈ alt.list, s.outcome job spec = .silent ∨ s.outcome job spec = .depends) ∧
          ∃ spec ∈ alt.list, s.outcome job spec = .depends := by
  obtain ⟨list, nonempty, flagged⟩ := alt
  have after : ∀ spec ∈ list, AfterOutcome (s.outcome job spec) := fun spec inside =>
    outcome_after (flagged spec inside).2
  rw [testJobDependency_withDetails s job details nonempty]
  generalize s.outcome job = outcome at after
  dsimp only
  obtain ⟨first, firstInside⟩ := exists_mem_of_ne_nil list nonempty
  rcases undecided_or_split after with undecided | ⟨front, spec, rest, rfl, undecided, decided⟩
  · have noneCleared : ¬∃ spec ∈ list, outcome spec = .cleared := by
      rintro ⟨spec, inside, cleared⟩
      rcases undecided spec inside with holds | holds <;> rw [holds] at cleared <;> cases cleared
    have noneFails : ¬∀ spec ∈ list, outcome spec = .fails := by
      intro fails
      have own := fails first firstInside
      rcases undecided first firstInside with holds | holds <;> rw [holds] at own <;> cases own
    rw [testDetails_undecided undecided]
    constructor
    · intro answers
      have one := answers.waits noneCleared noneFails
      refine Or.inr (Or.inr ⟨undecided, ?_⟩)
      by_contra none
      rw [if_neg (by simpa using none)] at one
      cases one
    · rintro (found | fails | ⟨_, depends⟩)
      · cases isFound : list.find? fun spec => decide (outcome spec ≠ .silent) with
        | none =>
          rw [isFound] at found
          cases found
        | some spec =>
          rw [isFound] at found
          exact absurd ⟨spec, mem_of_find?_eq_some isFound, of_decide_eq_true found⟩ noneCleared
      · exact absurd fails noneFails
      · rw [if_pos (by simpa using depends)]
        exact ⟨⟨fun zero => (nomatch zero.1), fun cleared => absurd cleared noneCleared⟩,
          fun two => (nomatch two), fun _ _ => rfl⟩
  · have inside : spec ∈ front ++ spec :: rest := by simp
    rcases decided with cleared | fails
    · rw [testDetails_cleared undecided (flagged spec inside).1 cleared]
      have someCleared : ∃ other ∈ front ++ spec :: rest, outcome other = .cleared :=
        ⟨spec, inside, cleared⟩
      cases quiet : front.any fun spec => outcome spec = .depends with
      | false =>
        refine iff_of_true ⟨⟨fun _ => someCleared, fun _ => ⟨rfl, _, rfl, rfl⟩⟩,
          fun two => (nomatch two), fun none => absurd someCleared none⟩ (Or.inl ?_)
        rw [find?_silent quiet undecided (by simp [cleared])]
        simp [cleared]
      | true =>
        refine iff_of_false (fun answers => (nomatch (answers.satisfied.mpr someCleared).1)) ?_
        rintro (found | fails | ⟨waiting, _⟩)
        · rw [find?_depends undecided quiet] at found
          cases found
        · exact absurd (cleared.symm.trans (fails spec inside)) (by decide)
        · rcases waiting spec inside with holds | holds <;>
            exact absurd (cleared.symm.trans holds) (by decide)
    · have two := testDetails_fails
        { details with dependList := some (front ++ spec :: rest) } rest undecided fails
      generalize testDetails outcome _ (front ++ spec :: rest) = answer at two
      obtain ⟨result, left⟩ := answer
      obtain rfl : result = 2 := two
      constructor
      · exact fun answers => Or.inr (Or.inl (answers.failed rfl))
      · rintro (found | allFail | ⟨waiting, _⟩)
        · cases quiet : front.any fun spec => outcome spec = .depends with
          | true =>
            rw [find?_depends undecided quiet] at found
            cases found
          | false =>
            rw [find?_silent quiet undecided (by simp [fails])] at found
            simp [fails] at found
        · refine ⟨⟨fun zero => (nomatch zero.1), ?_⟩, fun _ => allFail,
            fun _ some => absurd allFail some⟩
          rintro ⟨other, otherInside, cleared⟩
          exact absurd ((allFail other otherInside).symm.trans cleared) (by decide)
        · rcases waiting spec inside with holds | holds <;>
            exact absurd (fails.symm.trans holds) (by decide)

/-- Jobs 100, which failed, 101, which is complete, and 200. -/
def threeJobs (stagedOut : Nat → Bool) : System where
  q :=
    { table := (((JobTable.init 10).apply (.create 0 ⟨100, 0, noVal, none, 5⟩)).apply
        (.create 1 ⟨101, 0, noVal, none, 3⟩)).apply (.create 2 ⟨200, 0, noVal, none, 0⟩)
      details := fun _ => none
      qosId := fun _ => 1
      partPtr := fun _ => some 0 }
  userId := fun _ => 0
  name := fun _ => none
  jobList := [0, 1, 2]
  stagedOut := stagedOut

/-- `afterok` on a job. -/
def afterOk (orFlag : Bool) (jobId : UInt32) (ptr : Nat) : DependSpec :=
  ⟨noVal, .afterOk, orFlag, jobId, some ptr, fun _ => rfl⟩

/-- `afterok:100?afterok:101`: the failed job comes first. -/
theorem failed_alternative_first : ¬∀ (s : System) (job : Nat) (details : JobDetails)
    (alt : Alternatives), AnswersAny (s.outcome job) alt.list (testJobDependency
      (s.withDetails job { details with dependList := some alt.list }) job) := by
  intro answers
  let alt : Alternatives := ⟨[afterOk true 100 0, afterOk true 101 1], by decide, by decide⟩
  have zero := ((answers (threeJobs fun _ => true) 2 ⟨0, none, none⟩ alt).satisfied.mpr
    ⟨afterOk true 101 1, by decide +kernel, by decide +kernel⟩).1
  exact absurd zero (by decide +kernel)

/-! ## Dependencies that all count -/

/-- The dependency leaves the list. -/
def leaves (o : Outcome) : Bool := o = .deleted ∨ o = .cleared

/-- The dependency cannot be met. -/
def hasFailed (o : Outcome) : Bool := o = .fails ∨ o = .failsOn

theorem failure_mono (failed : run.failure = true) :
    (testLoop outcome list run).failure = true := by
  induction list generalizing run with
  | nil => exact failed
  | cons spec rest ih =>
    rw [testLoop]
    split
    · exact ih failed
    · split_ifs
      · exact failed
      · exact ih failed
    · exact ih failed
    · rfl
    · exact ih rfl
    · exact ih failed

theorem failure_of_mem (plain : ∀ spec ∈ list, spec.orFlag = false)
    (failed : ∃ spec ∈ list, hasFailed (outcome spec) = true) :
    (testLoop outcome list run).failure = true := by
  induction list generalizing run with
  | nil => simp at failed
  | cons spec rest ih =>
    obtain ⟨own, others⟩ := forall_mem_cons.mp plain
    have later : hasFailed (outcome spec) = false →
        ∃ spec ∈ rest, hasFailed (outcome spec) = true := by
      intro not
      obtain ⟨other, inside, fails⟩ := failed
      rcases mem_cons.mp inside with rfl | inside
      · exact absurd (not.symm.trans fails) (by decide)
      · exact ⟨other, inside, fails⟩
    rw [testLoop]
    cases holds : outcome spec with
    | fails => rfl
    | failsOn => exact failure_mono rfl
    | deleted => exact ih others (later (by rw [holds]; rfl))
    | depends => exact ih others (later (by rw [holds]; rfl))
    | silent => exact ih others (later (by rw [holds]; rfl))
    | cleared =>
      simp only [own]
      exact ih others (later (by rw [holds]; rfl))

theorem testLoop_unfailed (plain : ∀ spec ∈ list, spec.orFlag = false)
    (unfailed : ∀ spec ∈ list, hasFailed (outcome spec) = false) :
    testLoop outcome list run = { run with
      dependList := run.dependList ++ list.filter fun spec => !leaves (outcome spec)
      depends := run.depends || list.any fun spec => outcome spec = .depends
      rebuildStr := run.rebuildStr || list.any fun spec => outcome spec = .cleared } := by
  induction list generalizing run with
  | nil => simp [testLoop]
  | cons spec rest ih =>
    obtain ⟨own, others⟩ := forall_mem_cons.mp plain
    obtain ⟨ownOutcome, otherOutcomes⟩ := forall_mem_cons.mp unfailed
    rw [testLoop]
    cases holds : outcome spec with
    | fails => simp [holds, hasFailed] at ownOutcome
    | failsOn => simp [holds, hasFailed] at ownOutcome
    | cleared =>
      simp only [own, ih others otherOutcomes]
      simp [holds, leaves]
    | _ =>
      simp only [ih others otherOutcomes]
      simp [holds, leaves]

theorem length_listText (plain : ∀ spec ∈ list, spec.orFlag = false) :
    (listText [','] list).length = (list.map fun spec => spec.text.length + 1).sum := by
  induction list with
  | nil => rfl
  | cons spec rest ih =>
    obtain ⟨own, others⟩ := forall_mem_cons.mp plain
    have sep : (if spec.orFlag && !spec.isSingleton then ['?'] else [',']) = [','] := by simp [own]
    rw [listText, sep, length_append, length_append, ih others]
    simp only [map_cons, sum_cons, length_singleton]
    omega

theorem length_listText_nil (plain : ∀ spec ∈ list, spec.orFlag = false) (some_ : list ≠ []) :
    (listText [] list).length + 1 = (list.map fun spec => spec.text.length + 1).sum := by
  cases list with
  | nil => exact absurd rfl some_
  | cons spec rest =>
    have whole := length_listText plain
    rw [listText, length_append, length_append] at whole
    rw [← whole, listText, length_append, length_append]
    simp only [length_nil, length_singleton]
    omega

theorem sum_filter_lt {p : DependSpec → Bool} (gone : ∃ spec ∈ list, p spec = false) :
    ((list.filter p).map fun spec => spec.text.length + 1).sum <
      (list.map fun spec => spec.text.length + 1).sum := by
  have le : ∀ list : List DependSpec, ((list.filter p).map fun spec => spec.text.length + 1).sum ≤
      (list.map fun spec => spec.text.length + 1).sum := by
    intro list
    induction list with
    | nil => exact le_rfl
    | cons spec rest ih =>
      rw [filter_cons]
      split_ifs <;> simp only [map_cons, sum_cons] <;> omega
  induction list with
  | nil => simp at gone
  | cons spec rest ih =>
    rw [filter_cons]
    have here := le rest
    cases holds : p spec with
    | false =>
      simp only [map_cons, sum_cons, Bool.false_eq_true, if_false]
      omega
    | true =>
      obtain ⟨other, mem, absent⟩ := gone
      have inRest := (mem_cons.mp mem).resolve_left fun same => by
        rw [same, holds] at absent
        cases absent
      have less := ih ⟨other, inRest, absent⟩
      simp only [map_cons, sum_cons, if_true]
      omega

/-- Dependencies that all have to be satisfied. -/
structure Dependencies where
  list : List DependSpec
  some : list ≠ []
  plain : ∀ spec ∈ list, spec.orFlag = false ∧
    (isAfter spec.dependType = true ∨ spec.dependType = .singleton)

/-- The details of a job with a list and its text. -/
def listed (details : JobDetails) (list : List DependSpec) : JobDetails :=
  { details with dependency := some (listText [] list), dependList := some list }

/-- The answer is 2 when a dependency has failed, 0 only with an empty list, and else 1 with
the dependencies that remain and their text. -/
structure AnswersAll (outcome : DependSpec → Outcome) (list : List DependSpec)
    (answer : Nat) (left : Option JobDetails) : Prop where
  failed : answer = 2 ↔ ∃ spec ∈ list, hasFailed (outcome spec) = true
  free : answer = 0 → (∀ spec ∈ list, leaves (outcome spec) = true) ∧
    ∃ after, left = some after ∧ after.dependList = some []
  waits : answer ≠ 2 → answer ≠ 0 → answer = 1 ∧ ∃ after, left = some after ∧
    after.dependList = some (list.filter fun spec => !leaves (outcome spec)) ∧
    after.dependency = some (listText [] (list.filter fun spec => !leaves (outcome spec)))

theorem testDetails_unfailed {details : JobDetails} (plain : ∀ spec ∈ list, spec.orFlag = false)
    (unfailed : ∀ spec ∈ list, hasFailed (outcome spec) = false) :
    testDetails outcome details list =
      (if list.any fun spec => outcome spec = .depends then 1 else 0,
        if list.any fun spec => outcome spec = .cleared then
          dependList2str details (list.filter fun spec => !leaves (outcome spec)) false
        else
          { details with dependList := some (list.filter fun spec => !leaves (outcome spec)) }) := by
  rw [testDetails, testLoop_unfailed plain unfailed]
  simp

/-- The answer is right exactly when a dependency has failed, or all are lifted, or one still
depends and the text is written again if a singleton is deleted. -/
theorem answersAll_iff (s : System) (job : Nat) (details : JobDetails) (deps : Dependencies) :
    AnswersAll (s.outcome job) deps.list
        (testJobDependency (s.withDetails job (listed details deps.list)) job).1
        (testJobDependency (s.withDetails job (listed details deps.list)) job).2 ↔
      (∃ spec ∈ deps.list, hasFailed (s.outcome job spec) = true) ∨
        (∀ spec ∈ deps.list, leaves (s.outcome job spec) = true) ∨
        (∃ spec ∈ deps.list, s.outcome job spec = .depends) ∧
          ((∃ spec ∈ deps.list, s.outcome job spec = .deleted) →
            ∃ spec ∈ deps.list, s.outcome job spec = .cleared) := by
  obtain ⟨list, nonempty, plain⟩ := deps
  have unflagged := fun spec inside => (plain spec inside).1
  dsimp only
  rw [listed, testJobDependency_withDetails s job
    { details with dependency := some (listText [] list) } nonempty]
  generalize s.outcome job = outcome
  dsimp only
  by_cases failed : ∃ spec ∈ list, hasFailed (outcome spec) = true
  · have two : ∀ details, (testDetails outcome details list).1 = 2 := fun details => by
      rw [testDetails, failure_of_mem unflagged failed]
      rfl
    rw [two]
    exact iff_of_true ⟨iff_of_true rfl failed, fun zero => (nomatch zero),
      fun notTwo => absurd rfl notTwo⟩ (Or.inl failed)
  · have unfailed : ∀ spec ∈ list, hasFailed (outcome spec) = false := fun spec inside =>
      Bool.eq_false_iff.mpr fun fails => failed ⟨spec, inside, fails⟩
    rw [testDetails_unfailed unflagged unfailed]
    dsimp only
    by_cases depends : ∃ spec ∈ list, outcome spec = .depends
    · rw [if_pos (by simpa using depends)]
      obtain ⟨spec, inside, own⟩ := depends
      have remains : spec ∈ list.filter fun spec => !leaves (outcome spec) :=
        mem_filter.mpr ⟨inside, by simp [own, leaves]⟩
      have nonemptyLeft := ne_nil_of_mem remains
      constructor
      · intro answers
        obtain ⟨_, after, isAfter, _, text⟩ := answers.waits (by decide) (by decide)
        refine Or.inr (Or.inr ⟨⟨spec, inside, own⟩, fun ⟨other, otherInside, deleted⟩ => ?_⟩)
        by_contra none
        rw [if_neg (by simpa using none)] at isAfter
        have same := text.symm.trans (congrArg JobDetails.dependency (Option.some.inj isAfter).symm)
        have lengths := congrArg List.length (Option.some.inj same)
        have before := length_listText_nil unflagged nonempty
        have left := length_listText_nil
          (fun spec inside => unflagged spec (mem_of_mem_filter inside)) nonemptyLeft
        have less := sum_filter_lt (p := fun spec => !leaves (outcome spec))
          ⟨other, otherInside, by simp [deleted, leaves]⟩
        omega
      · rintro (fails | all | ⟨_, rewritten⟩)
        · exact absurd fails failed
        · exact absurd (all spec inside) (by simp [own, leaves])
        · refine ⟨iff_of_false (by decide) failed, fun zero => (nomatch zero), fun _ _ =>
            ⟨rfl, _, rfl, ?_⟩⟩
          by_cases cleared : ∃ spec ∈ list, outcome spec = .cleared
          · rw [if_pos (by simpa using cleared)]
            exact ⟨rfl, by simp [dependList2str, nonemptyLeft]⟩
          · rw [if_neg (by simpa using cleared)]
            have all : (list.filter fun spec => !leaves (outcome spec)) = list := by
              refine filter_eq_self.mpr fun other otherInside => ?_
              have notDeleted : outcome other ≠ .deleted := fun deleted =>
                cleared (rewritten ⟨other, otherInside, deleted⟩)
              have notCleared : outcome other ≠ .cleared := fun holds =>
                cleared ⟨other, otherInside, holds⟩
              simp [leaves, notDeleted, notCleared]
            rw [all]
            exact ⟨rfl, rfl⟩
    · rw [if_neg (by simpa using depends)]
      have left : ∀ details : JobDetails, (if list.any fun spec => outcome spec = .cleared then
          dependList2str details (list.filter fun spec => !leaves (outcome spec)) false
        else
          { details with dependList := some (list.filter fun spec => !leaves (outcome spec)) }
        ).dependList = some (list.filter fun spec => !leaves (outcome spec)) := fun details => by
        split_ifs <;> rfl
      constructor
      · exact fun answers => Or.inr (Or.inl (answers.free rfl).1)
      · rintro (fails | all | ⟨some_, _⟩)
        · exact absurd fails failed
        · refine ⟨iff_of_false (by decide) failed, fun _ => ⟨all, _, rfl, ?_⟩,
            fun _ notZero => absurd rfl notZero⟩
          rw [left, filter_eq_nil_iff.mpr fun spec inside => by simp [all spec inside]]
        · exact absurd some_ depends

/-- `afterok:101` while job 101 is not staged out: nothing is cleared, and the answer is 0. -/
theorem stage_out_starts_job : ¬∀ (s : System) (job : Nat) (details : JobDetails)
    (deps : Dependencies), AnswersAll (s.outcome job) deps.list
    (testJobDependency (s.withDetails job (listed details deps.list)) job).1
    (testJobDependency (s.withDetails job (listed details deps.list)) job).2 := by
  intro answers
  let deps : Dependencies := ⟨[afterOk false 101 1], by decide, by decide⟩
  have all := ((answers (threeJobs fun _ => false) 2 ⟨0, none, none⟩ deps).free
    (by decide +kernel)).1 (afterOk false 101 1) mem_cons_self
  exact absurd all (by decide +kernel)

/-! ## Runs of tests -/

/-- The loop keeps a part of the dependencies, among them every one that is not met. -/
theorem testLoop_keeps (outcome : DependSpec → Outcome) (list : List DependSpec) (run : TestRun) :
    ∃ kept, (testLoop outcome list run).dependList = run.dependList ++ kept ∧ kept <+ list ∧
      (∀ spec ∈ list, leaves (outcome spec) = false → spec ∈ kept) ∧
      ((testLoop outcome list run).orSatisfied = true → run.orSatisfied = true ∨
        ∃ spec ∈ list, spec.orFlag = true ∧ outcome spec = .cleared) := by
  induction list generalizing run with
  | nil => exact ⟨[], (append_nil _).symm, .slnil, by simp, Or.inl⟩
  | cons spec rest ih =>
    rw [testLoop]
    cases holds : outcome spec with
    | deleted =>
      obtain ⟨kept, left, sub, stays, flagged⟩ := ih run
      exact ⟨kept, left, sub.cons spec, by grind [leaves], by grind⟩
    | cleared =>
      dsimp only
      split_ifs with flag
      · exact ⟨spec :: rest, rfl, .refl _, fun _ mem _ => mem,
          fun _ => Or.inr ⟨spec, mem_cons_self, flag, holds⟩⟩
      · obtain ⟨kept, left, sub, stays, flagged⟩ := ih { run with rebuildStr := true }
        exact ⟨kept, left, sub.cons spec, by grind [leaves], by grind⟩
    | fails => exact ⟨spec :: rest, rfl, .refl _, fun _ mem _ => mem, Or.inl⟩
    | _ =>
      obtain ⟨kept, left, sub, stays, flagged⟩ := ih _
      exact ⟨spec :: kept, left.trans (append_assoc ..), sub.cons_cons spec, by grind, by grind⟩

/-- The tests of one job in the states that the system comes to. -/
def testRuns (job : Nat) : List System → JobDetails → JobDetails
  | [], details => details
  | s :: rest, details =>
    testRuns job rest ((testJobDependency (s.withDetails job details) job).2.getD details)

/-- A test drops a dependency only when it finds it met, or a flagged one. -/
theorem test_keeps (s : System) (job : Nat) (details : JobDetails) (list : List DependSpec)
    (isList : details.dependList = some list) :
    ∃ left, ((testJobDependency (s.withDetails job details) job).2.getD details).dependList =
      some left ∧ left <+ list ∧ ∀ spec ∈ list, spec ∉ left →
        leaves (s.outcome job spec) = true ∨
          ∃ other ∈ list, other.orFlag = true ∧ s.outcome job other = .cleared := by
  rcases eq_or_ne list [] with rfl | nonempty
  · have unchanged : testJobDependency (s.withDetails job details) job = (0, some details) := by
      have own : (s.withDetails job details).q.details job = some details :=
        Function.update_self ..
      rw [testJobDependency, own]
      simp only [isList]
    exact ⟨[], by rw [unchanged]; exact isList, .slnil, by simp⟩
  · have own := testJobDependency_withDetails s job details nonempty
    rw [show { details with dependList := some list } = details from isList ▸ rfl] at own
    obtain ⟨kept, ends, sub, stays, flagged⟩ :=
      testLoop_keeps (s.outcome job) list ⟨[], false, false, false, false⟩
    rw [own, testDetails, ends, nil_append]
    generalize testLoop (s.outcome job) list _ = run at flagged
    cases met : run.orSatisfied with
    | true =>
      refine ⟨[], by cases run.rebuildStr <;> rfl, nil_sublist list, ?_⟩
      exact fun _ _ _ => Or.inr ((flagged met).resolve_left nofun)
    | false =>
      refine ⟨kept, by cases run.rebuildStr <;> rfl, sub, ?_⟩
      exact fun spec mem absent =>
        Or.inl (by_contra fun stay => absent (stays spec mem (by simpa using stay)))

/-- Whatever happens between the tests, a dependency leaves the list only when a test finds it
met, or finds another one met that is flagged as an alternative. -/
theorem testRuns_keep (job : Nat) (states : List System) (details : JobDetails)
    (list : List DependSpec) (isList : details.dependList = some list) :
    ∃ left, (testRuns job states details).dependList = some left ∧ left <+ list ∧
      ∀ spec ∈ list, spec ∉ left → ∃ s ∈ states, leaves (s.outcome job spec) = true ∨
        ∃ other ∈ list, other.orFlag = true ∧ s.outcome job other = .cleared := by
  induction states generalizing details list with
  | nil => exact ⟨list, isList, .refl list, fun _ mem absent => absurd mem absent⟩
  | cons s rest ih =>
    obtain ⟨left, isLeft, sub, gone⟩ := test_keeps s job details list isList
    obtain ⟨last, isLast, subLast, goneLast⟩ := ih _ left isLeft
    refine ⟨last, isLast, subLast.trans sub, fun spec mem absent => ?_⟩
    by_cases still : spec ∈ left
    · obtain ⟨later, inside, met⟩ := goneLast spec still absent
      refine ⟨later, mem_cons_of_mem s inside, met.imp_right ?_⟩
      exact fun ⟨other, here, flagged⟩ => ⟨other, sub.subset here, flagged⟩
    · exact ⟨s, mem_cons_self, gone spec mem still⟩

/-- `afterok:101` while job 101 is staging out, and after. -/
theorem testRuns_keep_staged :
    let list := [afterOk false 101 1]
    let states := [threeJobs fun _ => false, threeJobs fun _ => true]
    ∃ left, (testRuns 2 states ⟨0, none, some list⟩).dependList = some left ∧ left <+ list ∧
      ∀ spec ∈ list, spec ∉ left → ∃ s ∈ states, leaves (s.outcome 2 spec) = true ∨
        ∃ other ∈ list, other.orFlag = true ∧ s.outcome 2 other = .cleared :=
  testRuns_keep 2 _ ⟨0, none, some _⟩ _ rfl

end SlurmSim.Controller.TestDependency
