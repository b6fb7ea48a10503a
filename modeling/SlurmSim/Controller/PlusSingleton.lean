import SlurmSim.Controller.JobDependency

/-!
# The plussingleton dependency

The schedulers as far as they decide on jobs with a `plussingleton` dependency:
`test_job_dependency`, the main scheduler with its loop that cancels other jobs, and
the backfill scheduler.  Whether a job gets nodes, which jobs a pass reaches and
what the other kinds of dependency answer is given from outside, in any way.
-/

namespace SlurmSim.Controller.PlusSingleton

/-- `enum job_states` -/
inductive JobStates where
  | pending
  | running
  | suspended
  | complete
  | cancelled
  | failed
  | timeout
  | nodeFail
  | preempted
  | bootFail
  | deadline
  | oom
  deriving DecidableEq

/-- The values of `state_reason` that `job_independent` tells apart: `WAIT_DEP_INVALID`
and those of a job that is held back. -/
inductive WaitReason where
  | other
  | held
  | depInvalid
  deriving DecidableEq

/-- A job record.  `tasks` counts the tasks that the record of a job array holds beside
the one that is started next. -/
structure Job where
  jobId : Nat
  userId : Nat
  name : Option String
  state : JobStates
  reason : WaitReason
  dependList : List DependSpec
  killInvDep : Bool
  noKillInvDep : Bool
  tasks : Nat
  deriving DecidableEq

namespace Job

def isPending (job : Job) : Bool := job.state == .pending

/-- `IS_JOB_FINISHED` -/
def isFinished (job : Job) : Bool :=
  job.state != .pending && job.state != .running && job.state != .suspended

/-- The states that the test for `plussingleton` looks for. -/
def isSeen (job : Job) : Bool :=
  job.state == .running || job.state == .suspended || job.state == .complete ||
    job.state == .cancelled

/-- A job that carries the dependency. -/
def plus (job : Job) : Bool :=
  job.name.isSome && job.dependList.any fun spec => spec.dependType == .plussingleton

end Job

/-- The test of `_build_user_job_list`; a job without a name passes. -/
def inUserJobs (job other : Job) : Bool :=
  other.userId == job.userId && (other.name.isNone || other.name == job.name)

/-- `_build_user_job_list` for a job with a name. -/
def userJobList (jobs : List Job) (job : Job) : List Job := jobs.filter (inUserJobs job)

/-! ## `test_job_dependency` -/

/-- What a dependency on another job answers: it is lifted, it says nothing (an `expand`
dependency, or a lifted one that waits for a stage-out), it remains, or it cannot be met. -/
inductive Answer where
  | lifted
  | silent
  | remains
  | fails
  deriving DecidableEq

/-- `RET` of `test_job_dependency`. -/
inductive DependResult where
  | free
  | remain
  | failure
  deriving DecidableEq

/-- The flags of `test_job_dependency` with the dependencies that stay in the list. -/
structure TestRun where
  dependList : List DependSpec
  failure : Bool
  depends : Bool
  orSatisfied : Bool
  killInvDep : Bool

def TestRun.keep (run : TestRun) (spec : DependSpec) : TestRun :=
  { run with dependList := run.dependList ++ [spec] }

/-- No job of the same user and name holds a singleton back. -/
def singletonRuns (jobs : List Job) (job : Job) : Bool :=
  (userJobList jobs job).all fun other =>
    !(other.state == .running || other.state == .suspended ||
      (other.isPending && other.jobId < job.jobId))

/-- A job of the same user and name ran, runs or was cancelled. -/
def plusSeen (jobs : List Job) (job : Job) : Bool := (userJobList jobs job).any Job.isSeen

/-- The loop of `test_job_dependency`. -/
def testLoop (answer : DependSpec → Answer) (jobs : List Job) (job : Job) :
    List DependSpec → TestRun → TestRun
  | [], run => run
  | spec :: rest, run =>
    if spec.dependType = .singleton ∧ job.name.isSome then
      if singletonRuns jobs job then testLoop answer jobs job rest run
      else testLoop answer jobs job rest { run.keep spec with depends := true }
    else if spec.dependType = .plussingleton ∧ job.name.isSome then
      if plusSeen jobs job then
        testLoop answer jobs job rest { run.keep spec with failure := true, killInvDep := true }
      else testLoop answer jobs job rest (run.keep spec)
    else
      match answer spec with
      | .silent => testLoop answer jobs job rest (run.keep spec)
      | .remains => testLoop answer jobs job rest { run.keep spec with depends := true }
      | .fails => { run with dependList := run.dependList ++ spec :: rest, failure := true }
      | .lifted =>
        if spec.orFlag then
          { run with dependList := run.dependList ++ spec :: rest, orSatisfied := true }
        else testLoop answer jobs job rest run

/-- `test_job_dependency` -/
def testJobDependency (answer : DependSpec → Answer) (jobs : List Job) (job : Job) :
    Job × DependResult :=
  let run := testLoop answer jobs job job.dependList ⟨[], false, false, false, job.killInvDep⟩
  ({ job with
      dependList := if run.orSatisfied then [] else run.dependList
      killInvDep := run.killInvDep },
    if run.failure then .failure else if run.depends then .remain else .free)

/-! ## `job_independent` and `purge_old_job` -/

/-- `_kill_dependent` -/
def killDependent (job : Job) : Job := { job with state := .cancelled }

/-- What happens to a job whose dependencies cannot be met. -/
def dispose (killInvalidDep : Bool) (job : Job) : Job :=
  if job.killInvDep then killDependent job
  else if job.noKillInvDep then { job with reason := .depInvalid }
  else if killInvalidDep then killDependent job
  else { job with reason := .depInvalid }

/-- `job_independent`; `eligible` stands for its tests of times, reservations and arrays. -/
def jobIndependent (killInvalidDep : Bool) (answer : DependSpec → Answer) (eligible : Bool)
    (jobs : List Job) (job : Job) : Job × Bool :=
  if job.reason = .held ∨ job.reason = .depInvalid then (job, false)
  else
    match testJobDependency answer jobs job with
    | (job, .remain) => (job, false)
    | (job, .failure) => (dispose killInvalidDep job, false)
    | (job, .free) => (job, eligible)

/-- The part of `purge_old_job` that tests one job. -/
def purgeTest (killInvalidDep : Bool) (answer : DependSpec → Answer) (jobs : List Job)
    (job : Job) : Job :=
  if job.isPending then
    let (job, result) := testJobDependency answer jobs job
    let job := if result = .failure then dispose killInvalidDep job else job
    if job.reason = .depInvalid ∧ (job.killInvDep ∨ (¬job.noKillInvDep ∧ killInvalidDep)) then
      killDependent job
    else job
  else job

/-- A loop over the job list that tests one record after the other; each turn sees the
changes of those before. -/
def sweep (turn : List Job → Job → Job × Bool) (done : List Job) : List Job → List (Job × Bool)
  | [] => []
  | job :: rest =>
    turn (done ++ job :: rest) job ::
      sweep turn (done ++ [(turn (done ++ job :: rest) job).1]) rest

/-! ## Starting a job -/

/-- The record of a started job; a task of an array gets an id of its own. -/
def startedRecord (newId : Nat) (job : Job) : Job :=
  { job with state := .running, jobId := if job.tasks = 0 then job.jobId else newId, tasks := 0 }

/-- The record of the remaining tasks of an array. -/
def remainder (job : Job) : List Job :=
  if job.tasks = 0 then [] else [{ job with tasks := job.tasks - 1 }]

/-- `select_nodes` succeeds for a pending job. -/
def selectNodes (jobs : List Job) (job : Job) (newId : Nat) : List Job :=
  jobs.map (fun other => if other = job then startedRecord newId job else other) ++ remainder job

/-- The loop of `_schedule` behind a start: every pending job of the same user and name is
cancelled. -/
def cancelSiblings (jobs : List Job) (job : Job) : List Job :=
  jobs.map fun other =>
    if inUserJobs job other && other.isPending && other.jobId != job.jobId then
      { other with state := .cancelled }
    else other

/-- `list_delete_item` behind that loop. -/
def dropPlus (jobs : List Job) (job : Job) : List Job :=
  jobs.map fun other =>
    if other = job then
      { job with
        dependList := job.dependList.filter fun spec => spec.dependType != .plussingleton }
    else other

/-- A start by `_schedule`. -/
def scheduleStart (jobs : List Job) (job : Job) (newId : Nat) : List Job :=
  let started := startedRecord newId job
  if job.plus then dropPlus (cancelSiblings (selectNodes jobs job newId) started) started
  else selectNodes jobs job newId

/-! ## Runs -/

/-- A member of a group that was started. -/
structure Start where
  jobId : Nat
  userId : Nat
  name : String
  deriving DecidableEq

/-- The job list, the jobs that the running pass of the main scheduler may start, and
the members that were started so far. -/
structure State where
  jobs : List Job
  queue : List Nat
  starts : List Start
  deriving DecidableEq

/-- The answers of the dependencies on other jobs, for each job. -/
abbrev Answers := Nat → DependSpec → Answer

inductive Event where
  /-- A new job record. -/
  | submit (job : Job)
  /-- A job that runs, is suspended or has finished gets another state. -/
  | change (jobId : Nat) (state : JobStates)
  /-- A user cancels a pending job. -/
  | cancel (jobId : Nat)
  /-- A pending job is held or released. -/
  | setReason (jobId : Nat) (reason : WaitReason)
  /-- `purge_old_job`; it deletes some of the finished records. -/
  | purgeOldJob (answers : Answers) (old : Nat → Bool)
  /-- `build_job_queue`, as far as it gets. -/
  | buildJobQueue (answers : Answers) (reached eligible : Nat → Bool)
  /-- A job of the queue gets nodes from the main scheduler. -/
  | schedule (jobId newId : Nat)
  /-- The main scheduler without a queue tests a job and may start it. -/
  | fifo (jobId newId : Nat) (answers : Answers) (eligible selected : Bool)
  /-- The backfill scheduler tests a job and may start it. -/
  | backfill (jobId newId : Nat) (answers : Answers) (eligible selected : Bool)

namespace State

def find (s : State) (jobId : Nat) : Option Job := s.jobs.find? fun job => job.jobId == jobId

/-- No record and no start has the id. -/
def fresh (s : State) (jobId : Nat) : Bool :=
  s.jobs.all (fun job => job.jobId != jobId) && s.starts.all fun start => start.jobId != jobId

def update (s : State) (job after : Job) : State :=
  { s with jobs := s.jobs.map fun other => if other = job then after else other }

/-- The pass of the main scheduler is over. -/
def endPass (s : State) : State := { s with queue := [] }

/-- The start of a member is noted. -/
def noteStart (s : State) (job : Job) (newId : Nat) : List Start :=
  match job.name with
  | some name =>
    if job.plus then ⟨(startedRecord newId job).jobId, job.userId, name⟩ :: s.starts else s.starts
  | none => s.starts

/-- `_schedule` starts a job. -/
def scheduleJob (s : State) (job : Job) (newId : Nat) : State :=
  { s with jobs := scheduleStart s.jobs job newId, starts := s.noteStart job newId }

/-- `_start_job` of the backfill scheduler. -/
def startJob (s : State) (job : Job) (newId : Nat) : State :=
  { s with jobs := selectNodes s.jobs job newId, starts := s.noteStart job newId }

/-- `_job_runnable_test1` for one record of `build_job_queue`. -/
def queueTest (killInvalidDep : Bool) (answers : Answers) (reached eligible : Nat → Bool)
    (jobs : List Job) (job : Job) : Job × Bool :=
  if job.isPending && reached job.jobId then
    jobIndependent killInvalidDep (answers job.jobId) (eligible job.jobId) jobs job
  else (job, false)

/-- A test of a job, and its start if it passes and gets nodes. -/
def testAndStart (killInvalidDep : Bool) (s : State) (start : State → Job → State) (jobId : Nat)
    (answers : Answers) (eligible selected : Bool) : Option State :=
  match s.find jobId with
  | none => none
  | some job =>
    if job.isPending then
      let (after, passes) :=
        jobIndependent killInvalidDep (answers jobId) eligible s.jobs job
      let s := s.update job after
      some (if passes && selected then start s after else s)
    else none

/-- One event; `none` if it cannot happen. -/
def step (killInvalidDep : Bool) (s : State) : Event → Option State
  | .submit job =>
    if job.isPending && s.fresh job.jobId then
      some { s.endPass with jobs := s.jobs ++ [job] }
    else none
  | .change jobId state =>
    match s.find jobId with
    | none => none
    | some job =>
      if job.isPending || (job.isFinished && state != .pending) then none
      else some (s.endPass.update job { job with state := state })
  | .cancel jobId =>
    match s.find jobId with
    | none => none
    | some job =>
      if job.isPending then some (s.endPass.update job { job with state := .cancelled })
      else none
  | .setReason jobId reason =>
    match s.find jobId with
    | none => none
    | some job =>
      if job.isPending then some (s.endPass.update job { job with reason := reason })
      else none
  | .purgeOldJob answers old =>
    let turn := fun jobs job => (purgeTest killInvalidDep (answers job.jobId) jobs job, false)
    some
      { s.endPass with
        jobs := ((sweep turn [] s.jobs).map Prod.fst).filter fun job =>
          !(job.isFinished && old job.jobId) }
  | .buildJobQueue answers reached eligible =>
    let tested := sweep (queueTest killInvalidDep answers reached eligible) [] s.jobs
    some
      { s with
        jobs := tested.map Prod.fst
        queue := (tested.filter Prod.snd).map fun entry => entry.1.jobId }
  | .schedule jobId newId =>
    match s.find jobId with
    | none => none
    | some job =>
      if job.isPending && s.queue.contains jobId && s.fresh newId then
        some (s.scheduleJob job newId)
      else none
  | .fifo jobId newId answers eligible selected =>
    if s.fresh newId then
      testAndStart killInvalidDep s.endPass (fun s job => s.scheduleJob job newId) jobId answers
        eligible selected
    else none
  | .backfill jobId newId answers eligible selected =>
    if s.fresh newId then
      testAndStart killInvalidDep s.endPass (fun s job => s.startJob job newId) jobId answers
        eligible selected
    else none

end State

end SlurmSim.Controller.PlusSingleton
