import SlurmSim.Lib.Buckets

/-!
# The job hash tables

Every job record carries three link fields, one for each hash table: by job id,
by array job id, and by array job and task id.  Records live at addresses; the
link fields of one table are the successor map of its buckets.
-/

namespace SlurmSim.Controller

open Lib

/-- `NO_VAL` -/
def noVal : UInt32 := 0xfffffffe

/-- `INFINITE` -/
def infinite : UInt32 := 0xffffffff

/-- `job_array_struct_t`: the tasks of a job array without a record of their own. -/
structure ArrayRecs where
  taskIdBitmap : Option (Finset Nat)
  taskCnt : Nat
  maxExitCode : Nat
  deriving DecidableEq

/-- The fields of a job record the hash tables and the array scans read. -/
structure JobRecord where
  jobId : UInt32
  arrayJobId : UInt32
  arrayTaskId : UInt32
  arrayRecs : Option ArrayRecs
  jobState : UInt32
  deriving DecidableEq

namespace JobRecord

/-- `JOB_STATE_BASE` selects the state proper. -/
def baseState (job : JobRecord) : UInt32 := job.jobState &&& 0xff

/-- `JOB_PENDING` is 0. -/
def isPending (job : JobRecord) : Bool := job.baseState == 0

/-- `JOB_COMPLETE` is 3. -/
def isComplete (job : JobRecord) : Bool := job.baseState == 3

/-- States behind `JOB_SUSPENDED`, which is 2. -/
def isFinished (job : JobRecord) : Bool := 2 < job.baseState

/-- Finished, and not `JOB_COMPLETING`. -/
def isCompleted (job : JobRecord) : Bool :=
  job.isFinished && (job.jobState &&& 0x8000 == 0)

end JobRecord

/-- `job_hash_type_t` -/
inductive JobHashType where
  | job
  | arrayJob
  | arrayTask
  deriving DecidableEq

/-- The hash tables with the records at their addresses; `live` holds the
addresses of the records in the job list. -/
structure JobTable where
  hashTableSize : Nat
  recs : Nat → JobRecord
  live : Finset Nat
  jobHash : Buckets Nat
  arrayHashJ : Buckets Nat
  arrayHashT : Buckets Nat

namespace JobTable

/-- A record straight from `xmalloc`. -/
def blankRecord : JobRecord := ⟨0, 0, noVal, none, 0⟩

def init (hashTableSize : Nat) : JobTable where
  hashTableSize := hashTableSize
  recs := fun _ => blankRecord
  live := ∅
  jobHash := .empty
  arrayHashJ := .empty
  arrayHashT := .empty

/-! ## The hash functions -/

/-- `JOB_HASH_INX` -/
def jobHashInx (t : JobTable) (jobId : UInt32) : Nat := jobId.toNat % t.hashTableSize

/-- `JOB_ARRAY_HASH_INX`, with a 32-bit sum. -/
def jobArrayHashInx (t : JobTable) (jobId taskId : UInt32) : Nat :=
  (jobId + taskId).toNat % t.hashTableSize

def jobIndex (t : JobTable) (ptr : Nat) : Nat := t.jobHashInx (t.recs ptr).jobId

def arrayJobIndex (t : JobTable) (ptr : Nat) : Nat := t.jobHashInx (t.recs ptr).arrayJobId

def arrayTaskIndex (t : JobTable) (ptr : Nat) : Nat :=
  t.jobArrayHashInx (t.recs ptr).arrayJobId (t.recs ptr).arrayTaskId

/-! ## The operations on the tables -/

def setRec (t : JobTable) (ptr : Nat) (job : JobRecord) : JobTable :=
  { t with recs := Function.update t.recs ptr job }

/-- `_create_job_record`: a zeroed record in the job list, in no hash table. -/
def allocate (t : JobTable) (ptr : Nat) (job : JobRecord) : JobTable :=
  { t with
    recs := Function.update t.recs ptr job
    live := insert ptr t.live
    jobHash := t.jobHash.setNext ptr none
    arrayHashJ := t.arrayHashJ.setNext ptr none
    arrayHashT := t.arrayHashT.setNext ptr none }

/-- `_add_job_hash` -/
def addJobHash (t : JobTable) (ptr : Nat) : JobTable :=
  { t with jobHash := t.jobHash.push (t.jobIndex ptr) ptr }

/-- `_add_job_array_hash` -/
def addJobArrayHash (t : JobTable) (ptr : Nat) : JobTable :=
  if (t.recs ptr).arrayTaskId = noVal then t
  else
    { t with
      arrayHashJ := t.arrayHashJ.push (t.arrayJobIndex ptr) ptr
      arrayHashT := t.arrayHashT.push (t.arrayTaskIndex ptr) ptr }

/-- `_remove_job_hash`: whatever the table, the link written is `job_next`. -/
def removeJobHash (t : JobTable) (ptr : Nat) : JobHashType → JobTable
  | .job =>
    { t with jobHash := (t.jobHash.unlink t.live.card (t.jobIndex ptr) ptr
        (t.jobHash.next ptr)).setNext ptr none }
  | .arrayJob =>
    { t with
      arrayHashJ := t.arrayHashJ.unlink t.live.card (t.arrayJobIndex ptr) ptr
        (t.jobHash.next ptr)
      jobHash := t.jobHash.setNext ptr none }
  | .arrayTask =>
    { t with
      arrayHashT := t.arrayHashT.unlink t.live.card (t.arrayTaskIndex ptr) ptr
        (t.jobHash.next ptr)
      jobHash := t.jobHash.setNext ptr none }

/-- `job_array_split`: the record at `ptr`, whose task id is set, becomes a task
with the job id `newId`; the copy at `pend` becomes the META record. -/
def jobArraySplit (t : JobTable) (ptr pend : Nat) (newId : UInt32) : JobTable :=
  let t := t.allocate pend blankRecord
  let t := t.removeJobHash ptr .job
  let job := t.recs ptr
  let arrayRecs := job.arrayRecs.map fun recs =>
    { recs with
      taskIdBitmap := recs.taskIdBitmap.map (·.erase job.arrayTaskId.toNat)
      taskCnt := recs.taskCnt - 1 }
  let t := t.setRec pend { job with arrayRecs := arrayRecs, arrayTaskId := noVal }
  let t :=
    { t with
      arrayHashJ := t.arrayHashJ.setNext pend (t.arrayHashJ.next ptr)
      arrayHashT := t.arrayHashT.setNext pend (t.arrayHashT.next ptr) }
  let t := t.setRec ptr { job with jobId := newId, arrayRecs := none }
  ((t.addJobHash ptr).addJobHash pend).addJobArrayHash ptr

/-- `_list_delete_job` -/
def listDeleteJob (t : JobTable) (ptr : Nat) : JobTable :=
  let t := t.removeJobHash ptr .job
  let t :=
    if (t.recs ptr).arrayTaskId = noVal then t
    else (t.removeJobHash ptr .arrayJob).removeJobHash ptr .arrayTask
  { t with live := t.live.erase ptr }

/-! ## The searches and scans -/

/-- `find_job_record` -/
def findJobRecord (t : JobTable) (jobId : UInt32) : Option Nat :=
  (t.jobHash.cells t.live.card (t.jobHashInx jobId)).find? fun ptr => (t.recs ptr).jobId = jobId

/-- The walk along `job_array_hash_j` that every array-wide scan makes. -/
def arrayTasks (t : JobTable) (arrayJobId : UInt32) : List Nat :=
  (t.arrayHashJ.cells t.live.card (t.jobHashInx arrayJobId)).filter fun ptr =>
    (t.recs ptr).arrayJobId = arrayJobId

/-- The task is still in the bitmap of a META record. -/
def holdsTask (t : JobTable) (taskId : UInt32) (ptr : Nat) : Bool :=
  ((t.recs ptr).arrayRecs.bind ArrayRecs.taskIdBitmap).any fun bitmap => taskId.toNat ∈ bitmap

/-- `find_job_array_rec` -/
def findJobArrayRec (t : JobTable) (arrayJobId arrayTaskId : UInt32) : Option Nat :=
  if arrayTaskId = noVal then t.findJobRecord arrayJobId
  else if arrayTaskId = infinite then
    match (t.findJobRecord arrayJobId).filter fun ptr =>
        (t.recs ptr).arrayRecs.isSome && (t.recs ptr).arrayJobId == arrayJobId with
    | some ptr => some ptr
    | none =>
      ((t.arrayTasks arrayJobId).find? fun ptr => !(t.recs ptr).isFinished).or
        (t.arrayTasks arrayJobId).getLast?
  else
    match (t.arrayHashT.cells t.live.card (t.jobArrayHashInx arrayJobId arrayTaskId)).find?
        fun ptr => (t.recs ptr).arrayJobId = arrayJobId ∧ (t.recs ptr).arrayTaskId = arrayTaskId with
    | some ptr => some ptr
    | none => (t.findJobRecord arrayJobId).filter (t.holdsTask arrayTaskId)

/-- All the tasks with a record, and the record with the array's own id if there
is one, pass a test. -/
def testJobArray (t : JobTable) (own each : JobRecord → Bool) (arrayJobId : UInt32) : Bool :=
  (t.findJobRecord arrayJobId).all (fun ptr => own (t.recs ptr)) &&
    (t.arrayTasks arrayJobId).all fun ptr => each (t.recs ptr)

def exitsClean (job : JobRecord) : Bool := job.arrayRecs.all fun recs => recs.maxExitCode == 0

/-- `test_job_array_complete` -/
def testJobArrayComplete (t : JobTable) : UInt32 → Bool :=
  t.testJobArray (fun job => job.isComplete && exitsClean job) JobRecord.isComplete

/-- `test_job_array_completed` -/
def testJobArrayCompleted (t : JobTable) : UInt32 → Bool :=
  t.testJobArray JobRecord.isCompleted JobRecord.isCompleted

/-- `test_job_array_finished` -/
def testJobArrayFinished (t : JobTable) : UInt32 → Bool :=
  t.testJobArray JobRecord.isFinished JobRecord.isFinished

/-- `test_job_array_pending` -/
def testJobArrayPending (t : JobTable) (arrayJobId : UInt32) : Bool :=
  !t.testJobArray (fun job => !job.isPending && job.arrayRecs.all fun recs => recs.taskCnt == 0)
    (fun job => !job.isPending) arrayJobId

/-- `num_pending_job_array_tasks` -/
def numPendingJobArrayTasks (t : JobTable) (arrayJobId : UInt32) : Nat :=
  (t.arrayTasks arrayJobId).countP fun ptr => (t.recs ptr).isPending

end JobTable

/-! ## Runs -/

/-- What happens to the tables between two states of the controller. -/
inductive JobOp where
  | create (ptr : Nat) (job : JobRecord)
  | split (ptr pend : Nat) (newId taskId : UInt32)
  | convert (ptr : Nat) (taskId : UInt32)
  | delete (ptr : Nat)
  | setState (ptr : Nat) (jobState : UInt32)

namespace JobTable

/-- `job_array_pre_sched` names the task that is to be split off. -/
def nameTask (t : JobTable) (ptr : Nat) (taskId : UInt32) : JobTable :=
  t.setRec ptr { t.recs ptr with arrayJobId := (t.recs ptr).jobId, arrayTaskId := taskId }

/-- The last task of `job_array_post_sched`: the META record itself becomes the
task, is marked `JOB_UPDATE_DB` and enters the array tables unless it is there. -/
def convertLast (t : JobTable) (ptr : Nat) : JobTable :=
  let job := t.recs ptr
  let arrayRecs := job.arrayRecs.map fun recs =>
    { recs with
      taskCnt := recs.taskCnt - 1
      taskIdBitmap := if recs.taskCnt - 1 = 0 then none else recs.taskIdBitmap }
  let t := t.setRec ptr { job with arrayRecs := arrayRecs, jobState := job.jobState ||| 0x200 }
  if (t.findJobArrayRec job.arrayJobId job.arrayTaskId).isNone then t.addJobArrayHash ptr else t

def apply (t : JobTable) : JobOp → JobTable
  | .create ptr job => (t.allocate ptr job).addJobHash ptr
  | .split ptr pend newId taskId => (t.nameTask ptr taskId).jobArraySplit ptr pend newId
  | .convert ptr taskId => (t.nameTask ptr taskId).convertLast ptr
  | .delete ptr => t.listDeleteJob ptr
  | .setState ptr jobState => t.setRec ptr { t.recs ptr with jobState := jobState }

/-- The live records of array tasks. -/
def tasks (t : JobTable) : Finset Nat :=
  t.live.filter fun ptr => (t.recs ptr).arrayTaskId ≠ noVal

/-- No live record has the job id. -/
def FreshId (t : JobTable) (jobId : UInt32) : Prop :=
  ∀ ptr ∈ t.live, (t.recs ptr).jobId ≠ jobId

/-- The record at `ptr` is a META record and its task has no record yet. -/
def Splittable (t : JobTable) (ptr : Nat) (taskId : UInt32) : Prop :=
  ptr ∈ t.live ∧ (t.recs ptr).arrayTaskId = noVal ∧ (t.recs ptr).arrayRecs.isSome ∧
    taskId ≠ noVal ∧ taskId ≠ infinite ∧
    ∀ other ∈ t.tasks, ¬((t.recs other).arrayJobId = (t.recs ptr).jobId ∧
      (t.recs other).arrayTaskId = taskId)

/-- What the callers see to: fresh addresses, distinct job ids, distinct tasks. -/
def Allowed (t : JobTable) : JobOp → Prop
  | .create ptr job => ptr ∉ t.live ∧ job.arrayTaskId = noVal ∧ t.FreshId job.jobId
  | .split ptr pend newId taskId =>
    t.Splittable ptr taskId ∧ pend ∉ t.live ∧ t.FreshId newId
  | .convert ptr taskId => t.Splittable ptr taskId ∧
      (t.recs ptr).arrayRecs.all fun recs => recs.taskCnt ≤ 1
  | .delete ptr => ptr ∈ t.live
  | .setState ptr _ => ptr ∈ t.live

/-- A deleted task record is the last of both its array chains. -/
def LastInArrayChains (t : JobTable) : JobOp → Prop
  | .delete ptr => (t.recs ptr).arrayTaskId ≠ noVal →
      t.arrayHashJ.next ptr = none ∧ t.arrayHashT.next ptr = none
  | _ => True

/-- Every operation of a run meets a condition on the table it is applied to. -/
def Runs (condition : JobTable → JobOp → Prop) : JobTable → List JobOp → Prop
  | _, [] => True
  | t, op :: ops => condition t op ∧ Runs condition (t.apply op) ops

instance (t : JobTable) (jobId : UInt32) : Decidable (t.FreshId jobId) :=
  inferInstanceAs (Decidable (∀ ptr ∈ t.live, (t.recs ptr).jobId ≠ jobId))

instance (t : JobTable) (ptr : Nat) (taskId : UInt32) : Decidable (t.Splittable ptr taskId) :=
  inferInstanceAs (Decidable (_ ∧ _ ∧ _ ∧ _ ∧ _ ∧
    ∀ other ∈ t.tasks, ¬((t.recs other).arrayJobId = (t.recs ptr).jobId ∧
      (t.recs other).arrayTaskId = taskId)))

instance (t : JobTable) : (op : JobOp) → Decidable (t.Allowed op)
  | .create _ _ => inferInstanceAs (Decidable (_ ∧ _ ∧ _))
  | .split _ _ _ _ => inferInstanceAs (Decidable (_ ∧ _ ∧ _))
  | .convert _ _ => inferInstanceAs (Decidable (_ ∧ _ = true))
  | .delete _ => inferInstanceAs (Decidable (_ ∈ t.live))
  | .setState _ _ => inferInstanceAs (Decidable (_ ∈ t.live))

instance (t : JobTable) : (op : JobOp) → Decidable (t.LastInArrayChains op)
  | .delete _ => inferInstanceAs (Decidable (_ → _))
  | .create _ _ | .split _ _ _ _ | .convert _ _ | .setState _ _ => isTrue trivial

/-- The chains hold exactly the live records, and the live task records, each
once and under its own hash, and every search and scan sees them all. -/
structure Faithful (t : JobTable) : Prop where
  jobs : t.jobHash.Holds t.jobIndex t.live
  arrayJobs : t.arrayHashJ.Holds t.arrayJobIndex t.tasks
  arrayTasks : t.arrayHashT.Holds t.arrayTaskIndex t.tasks
  findJobRecord : ∀ jobId ptr, t.findJobRecord jobId = some ptr ↔
    ptr ∈ t.live ∧ (t.recs ptr).jobId = jobId
  findTask : ∀ arrayJobId taskId ptr, taskId ≠ noVal → taskId ≠ infinite →
    (ptr ∈ t.tasks ∧ (t.recs ptr).arrayJobId = arrayJobId ∧ (t.recs ptr).arrayTaskId = taskId →
      t.findJobArrayRec arrayJobId taskId = some ptr) ∧
    (t.findJobArrayRec arrayJobId taskId = some ptr →
      (ptr ∈ t.tasks ∧ (t.recs ptr).arrayJobId = arrayJobId ∧
        (t.recs ptr).arrayTaskId = taskId) ∨
      (ptr ∈ t.live ∧ (t.recs ptr).jobId = arrayJobId ∧ t.holdsTask taskId ptr))
  scans : ∀ own each arrayJobId, t.testJobArray own each arrayJobId = true ↔
    (∀ ptr ∈ t.live, (t.recs ptr).jobId = arrayJobId → own (t.recs ptr) = true) ∧
      ∀ ptr ∈ t.tasks, (t.recs ptr).arrayJobId = arrayJobId → each (t.recs ptr) = true
  numPending : ∀ arrayJobId, t.numPendingJobArrayTasks arrayJobId =
    (t.tasks.filter fun ptr =>
      (t.recs ptr).arrayJobId = arrayJobId ∧ (t.recs ptr).isPending = true).card

end JobTable

end SlurmSim.Controller
