import Mathlib.Algebra.Group.Nat.Defs
import Mathlib.Data.Finset.Basic

/-!
# Usage counters of QOSs and associations

`_adjust_limit_usage` counts a job when it is submitted, begins, ends and is removed: in
its QOS and those of its partitions, each time also for its user and its account, and in
its association and all parents of that.  Every decrement has a branch of its own for a
counter that is too small, which only writes a message.  The counters of seconds are not
here.
-/

namespace SlurmSim.Controller.AcctPolicy

/-- `TRES_ARRAY_ENERGY` -/
def tresArrayEnergy : Nat := 2

/-- The counters, of 32 bits for jobs and of 64 bits for TRES. -/
structure UsedLimits where
  submitJobs : Nat
  jobs : Nat
  tres : Nat → Nat

/-- Where a job is counted: in the usage of a QOS, in its `user_limit_list` and its
`acct_limit_list`, and in the usage of an association. -/
inductive Counter where
  | qos (qos : Nat)
  | user (qos : Nat) (uid : Nat)
  | acct (qos : Nat) (acct : String)
  | assoc (assoc : Nat)
deriving DecidableEq

/-- All counters, and whether a message about an underflow was written. -/
structure Usage where
  limits : Counter → UsedLimits
  underflow : Bool

/-- What is configured. -/
structure Accounts where
  enforceLimits : Bool
  tresCnt : Nat
  overPartQos : Nat → Bool
  partQos : Nat → Option Nat
  acct : Nat → String
  parentAssocPtr : Nat → Option Nat
  depth : Nat → Nat
  depth_lt : ∀ {assoc parent}, parentAssocPtr assoc = some parent → depth parent < depth assoc

/-- What is read of a `struct job_record`.  The association is a valid one, if there
is any. -/
structure Job where
  assocPtr : Option Nat
  userId : Nat
  qosPtr : Option Nat
  partPtr : Option Nat
  partPtrList : Option (List Nat)
  arrayTaskCnt : Option Nat
  tresAllocCnt : Option (Nat → Nat)
  tresAllocStr : Bool
  pending : Bool

inductive PolicyType where
  | addSubmit
  | remSubmit
  | jobBegin
  | jobFini
deriving DecidableEq

/-! ## One counter -/

namespace UsedLimits

variable (l : UsedLimits)

def addSubmit (jobCnt : Nat) : UsedLimits × Bool :=
  ({ l with submitJobs := (l.submitJobs + jobCnt) % 2 ^ 32 }, false)

def remSubmit (jobCnt : Nat) : UsedLimits × Bool :=
  if jobCnt ≤ l.submitJobs then ({ l with submitJobs := l.submitJobs - jobCnt }, false)
  else ({ l with submitJobs := 0 }, true)

/-- Associations only check that the counter is not zero. -/
def remSubmitAssoc (jobCnt : Nat) : UsedLimits × Bool :=
  if l.submitJobs ≠ 0 then
    ({ l with submitJobs := (l.submitJobs + 2 ^ 32 - jobCnt % 2 ^ 32) % 2 ^ 32 }, false)
  else (l, true)

def jobBegin (counted : Nat → Bool) (alloc : Nat → Nat) : UsedLimits × Bool :=
  ({ l with
      jobs := (l.jobs + 1) % 2 ^ 32
      tres := fun i => if counted i then (l.tres i + alloc i) % 2 ^ 64 else l.tres i }, false)

def subTres (counted : Nat → Bool) (alloc : Nat → Nat) (i : Nat) : Nat :=
  if counted i then (if l.tres i < alloc i then 0 else l.tres i - alloc i) else l.tres i

/-- For a QOS the counter is decremented first and then read as a signed number. -/
def jobsOfQos : Nat × Bool :=
  let jobs := (l.jobs + 2 ^ 32 - 1) % 2 ^ 32
  if 2 ^ 31 ≤ jobs then (0, true) else (jobs, false)

def jobsOfOthers : Nat × Bool :=
  if l.jobs ≠ 0 then (l.jobs - 1, false) else (l.jobs, true)

end UsedLimits

namespace Accounts

variable (acc : Accounts)

/-- The indices of the loops over the TRES. -/
def counted (i : Nat) : Bool := i < acc.tresCnt ∧ i ≠ tresArrayEnergy

def jobFini (jobs : Nat × Bool) (alloc : Nat → Nat) (l : UsedLimits) : UsedLimits × Bool :=
  ({ l with jobs := jobs.1, tres := l.subTres acc.counted alloc },
    jobs.2 || (List.range acc.tresCnt).any fun i => acc.counted i && decide (l.tres i < alloc i))

/-- What a call does to one counter, and whether it writes a message about an underflow. -/
def adjust (type : PolicyType) (job : Job) (jobCnt : Nat) (c : Counter) (l : UsedLimits) :
    UsedLimits × Bool :=
  match type, c with
  | .addSubmit, _ => l.addSubmit jobCnt
  | .remSubmit, .assoc _ => l.remSubmitAssoc jobCnt
  | .remSubmit, _ => l.remSubmit jobCnt
  | .jobBegin, _ => l.jobBegin acc.counted (job.tresAllocCnt.getD fun _ => 0)
  | .jobFini, .assoc _ => acc.jobFini l.jobsOfOthers (job.tresAllocCnt.getD fun _ => 0) l
  | .jobFini, .qos _ =>
    match job.tresAllocCnt with
    | some alloc => acc.jobFini l.jobsOfQos alloc l
    | none => (l, false)
  | .jobFini, _ =>
    match job.tresAllocCnt with
    | some alloc => acc.jobFini l.jobsOfOthers alloc l
    | none => (l, false)

def adjustCounter (type : PolicyType) (job : Job) (jobCnt : Nat) (u : Usage) (c : Counter) :
    Usage :=
  { limits := Function.update u.limits c (acc.adjust type job jobCnt c (u.limits c)).1
    underflow := u.underflow || (acc.adjust type job jobCnt c (u.limits c)).2 }

/-! ## The counters of a call -/

/-- The counters of a QOS for a job with an association. -/
def qosCounters (job : Job) (assoc qos : Nat) : List Counter :=
  [.qos qos, .user qos job.userId, .acct qos (acc.acct assoc)]

/-- `_qos_adjust_limit_usage` -/
def qosAdjustLimitUsage (type : PolicyType) (job : Job) (jobCnt : Nat) (u : Usage)
    (qos : Option Nat) : Usage :=
  match qos, job.assocPtr with
  | some qos, some assoc =>
    (acc.qosCounters job assoc qos).foldl (acc.adjustCounter type job jobCnt) u
  | _, _ => u

/-- The QOSs of partitions in the order of the list, each once and none of those seen. -/
def partQosList (seen : List Nat) : List Nat → List Nat
  | [] => []
  | part :: rest =>
    match acc.partQos part with
    | none => partQosList seen rest
    | some qos =>
      if qos ∈ seen then partQosList seen rest else qos :: partQosList (qos :: seen) rest

/-- The QOSs of a job with a list of partitions, in the order of the calls. -/
def submitQos (job : Job) (parts : List Nat) : List Nat :=
  match job.qosPtr with
  | none => acc.partQosList [] parts
  | some qos =>
    if acc.overPartQos qos then qos :: acc.partQosList [qos] parts
    else if qos ∈ acc.partQosList [] parts then acc.partQosList [] parts
    else acc.partQosList [] parts ++ [qos]

/-- The QOS of the partition of the job. -/
def ownPartQos (job : Job) : Option Nat := job.partPtr.bind acc.partQos

/-- `_set_qos_order` -/
def setQosOrder (job : Job) : Option Nat × Option Nat :=
  match job.qosPtr with
  | some qos =>
    match acc.ownPartQos job with
    | some partQos =>
      let (first, second) := if acc.overPartQos qos then (qos, partQos) else (partQos, qos)
      if first = second then (some first, none) else (some first, some second)
    | none => (some qos, none)
  | none => (acc.ownPartQos job, none)

/-- The QOSs of the partitions of the list other than the two of the job, as often as
they occur. -/
def otherQos (job : Job) (parts : List Nat) : List Nat :=
  (parts.filterMap acc.partQos).filter fun qos =>
    ¬(job.qosPtr = some qos ∨ acc.ownPartQos job = some qos)

/-- The way from an association to the root. -/
def assocChain : Nat → Nat → List Nat
  | 0, _ => []
  | steps + 1, assoc =>
    match acc.parentAssocPtr assoc with
    | some parent => assoc :: assocChain steps parent
    | none => [assoc]

def assocs (assoc : Nat) : List Nat := acc.assocChain (acc.depth assoc + 1) assoc

end Accounts

/-- `job_cnt` for the calls that submit and remove. -/
def Job.taskCnt (job : Job) : Nat :=
  match job.arrayTaskCnt with
  | some (cnt + 1) => cnt + 1
  | _ => 1

/-- `job_cnt` -/
def Job.jobCnt (job : Job) : PolicyType → Nat
  | .addSubmit => job.taskCnt
  | .remSubmit => job.taskCnt
  | _ => 1

/-- Whether all partitions of the list are handled. -/
def Job.handlesList (job : Job) (type : PolicyType) : Bool :=
  (type = .addSubmit ∨ type = .remSubmit) ∧ (job.pending = true ∨ job.tresAllocStr = false)

namespace Accounts

variable (acc : Accounts)

/-- When a job with a list of partitions begins, the submit is removed from the QOSs outside
of the one it is going to run on. -/
def adjustOthers (type : PolicyType) (job : Job) (u : Usage) : Usage :=
  match job.partPtrList with
  | some parts =>
    if type = .jobBegin then
      ((acc.otherQos job parts).map some).foldl (acc.qosAdjustLimitUsage .remSubmit job 1) u
    else u
  | none => u

/-- The part of `_adjust_limit_usage` for one pair of QOSs. -/
def adjustPair (type : PolicyType) (job : Job) (u : Usage) : Usage :=
  let (first, second) := acc.setQosOrder job
  acc.qosAdjustLimitUsage type job (job.jobCnt type)
    (acc.qosAdjustLimitUsage type job (job.jobCnt type) (acc.adjustOthers type job u) first) second

/-- The part of `_adjust_limit_usage` for the QOSs. -/
def adjustQos (type : PolicyType) (job : Job) (u : Usage) : Usage :=
  match job.partPtrList with
  | some parts =>
    if job.handlesList type then
      ((acc.submitQos job parts).map some).foldl
        (acc.qosAdjustLimitUsage type job (job.jobCnt type)) u
    else acc.adjustPair type job u
  | none => acc.adjustPair type job u

/-- `_adjust_limit_usage` -/
def adjustLimitUsage (type : PolicyType) (job : Job) (u : Usage) : Usage :=
  match job.assocPtr with
  | none => u
  | some assoc =>
    if acc.enforceLimits then
      ((acc.assocs assoc).map Counter.assoc).foldl
        (acc.adjustCounter type job (job.jobCnt type)) (acc.adjustQos type job u)
    else u

end Accounts

/-! ## Lifecycles of jobs -/

/-- The counters, the records of the jobs, and which jobs are submitted and running. -/
structure State where
  usage : Usage
  job : Nat → Job
  live : Finset Nat
  running : Finset Nat

/-- The calls for a job. -/
inductive Event where
  | addSubmit (id : Nat) (job : Job)
  | jobBegin (id part : Nat) (tresAllocCnt : Nat → Nat)
  | jobFini (id : Nat)
  | removeSubmit (id : Nat)

/-- The record of a job that begins. -/
def Job.begun (job : Job) (part : Nat) (tresAllocCnt : Nat → Nat) : Job :=
  { job with
    partPtr := some part, tresAllocCnt := some tresAllocCnt
    tresAllocStr := true, pending := false }

/-- The record of a job that is removed. -/
def Job.finished (job : Job) : Job := { job with pending := false }

/-- The partitions in which a job may begin. -/
def Job.partitions (job : Job) : List Nat := job.partPtrList.getD job.partPtr.toList

/-- One call: a job is submitted, begins in one of its partitions, ends if it began, and
is removed, be it that it ended or that it was cancelled before. -/
def step (acc : Accounts) (s : State) : Event → Option State
  | .addSubmit id job =>
    if id ∉ s.live ∧ job.pending = true ∧ job.tresAllocStr = false then
      some { s with
        usage := acc.adjustLimitUsage .addSubmit job s.usage
        job := Function.update s.job id job
        live := insert id s.live }
    else none
  | .jobBegin id part tresAllocCnt =>
    if id ∈ s.live ∧ (s.job id).tresAllocStr = false ∧ part ∈ (s.job id).partitions then
      let job := (s.job id).begun part tresAllocCnt
      some { s with
        usage := acc.adjustLimitUsage .jobBegin job s.usage
        job := Function.update s.job id job
        running := insert id s.running }
    else none
  | .jobFini id =>
    if id ∈ s.running then
      some { s with
        usage := acc.adjustLimitUsage .jobFini (s.job id) s.usage
        running := s.running.erase id }
    else none
  | .removeSubmit id =>
    if id ∈ s.live ∧ id ∉ s.running then
      let job := (s.job id).finished
      some { s with
        usage := acc.adjustLimitUsage .remSubmit job s.usage
        job := Function.update s.job id job
        live := s.live.erase id }
    else none

end SlurmSim.Controller.AcctPolicy
