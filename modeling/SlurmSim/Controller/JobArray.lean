import Mathlib.Algebra.BigOperators.Group.Finset.Basic
import Mathlib.Data.Finset.Max
import SlurmSim.Controller.JobHashRuns

/-!
# Job arrays

A job array is submitted as one META record that holds the set of its pending
tasks.  Starting a task splits the META record, or converts it when the task is
the last one; cancelling tasks takes them out of the set; purging deletes
finished records.  `job_count` counts every record, a META record once for each
of its tasks.
-/

namespace SlurmSim.Controller

/-- `bit_ffs`: the least set bit. -/
def bitFfs (bitmap : Finset Nat) : Option Nat :=
  if some_ : bitmap.Nonempty then some (bitmap.min' some_) else none

namespace JobRecord

/-- The pending tasks a record holds. -/
def pendingTasks (job : JobRecord) : Finset Nat :=
  (job.arrayRecs.bind ArrayRecs.taskIdBitmap).getD ∅

/-- What a record counts for in `job_count`. -/
def jobArraySize (job : JobRecord) : Nat :=
  match job.arrayRecs with
  | none => 1
  | some recs => max 1 recs.taskCnt

end JobRecord

/-- The job table with `job_count`; `complained` is set by the messages about an
underflow or an empty task bitmap. -/
structure ArrayState where
  table : JobTable
  jobCount : Int
  complained : Bool

namespace ArrayState

def init (hashTableSize : Nat) : ArrayState := ⟨.init hashTableSize, 0, false⟩

/-- The record `_job_create` leaves: `_create_job_array` adds the array part
unless the bitmap is empty. -/
def submittedRecord (jobId : UInt32) (arrayBitmap : Finset Nat) : JobRecord :=
  if arrayBitmap = ∅ then ⟨jobId, 0, noVal, none, 0⟩
  else ⟨jobId, jobId, noVal, some ⟨some arrayBitmap, arrayBitmap.card, 0⟩, 0⟩

/-- `_create_job_record(1)`, then `_create_job_array`. -/
def submit (s : ArrayState) (ptr : Nat) (jobId : UInt32) (arrayBitmap : Finset Nat) : ArrayState :=
  { s with
    table := s.table.apply (.create ptr (submittedRecord jobId arrayBitmap))
    jobCount := s.jobCount + 1 +
      if 1 < arrayBitmap.card then (arrayBitmap.card : Int) - 1 else 0 }

/-- A successful start: `job_array_pre_sched` names the least pending task,
`job_array_post_sched` converts the last task in place and splits off any other,
and the record that was started runs. -/
def start (s : ArrayState) (ptr pend : Nat) (newId : UInt32) : ArrayState :=
  match (s.table.recs ptr).arrayRecs with
  | none => { s with table := s.table.apply (.setState ptr 1) }
  | some recs =>
    match recs.taskIdBitmap with
    | none => { s with table := s.table.apply (.setState ptr 1) }
    | some bitmap =>
      match bitFfs bitmap with
      | none =>
        { s with
          table := (s.table.setRec ptr { s.table.recs ptr with
            arrayRecs := some { recs with taskIdBitmap := none } }).apply (.setState ptr 1)
          complained := true }
      | some taskId =>
        if recs.taskCnt ≤ 1 then
          { s with
            table := (s.table.apply (.convert ptr (UInt32.ofNat taskId))).apply
              (.setState ptr 1)
            complained := s.complained || recs.taskCnt == 0 }
        else
          { s with
            table := ((s.table.apply (.split ptr pend newId (UInt32.ofNat taskId))).apply
              (.setState pend 0)).apply (.setState ptr 1) }

/-- The part of `job_str_signal` that cancels pending tasks with `SIGKILL`.  A
META record without tasks is cancelled itself and still counts as one record. -/
def cancel (s : ArrayState) (jobId : UInt32) (taskIds : Finset Nat) : ArrayState :=
  match s.table.findJobRecord jobId with
  | none => s
  | some ptr =>
    match (s.table.recs ptr).arrayRecs with
    | none => s
    | some recs =>
      match recs.taskIdBitmap with
      | none => s
      | some bitmap =>
        if (s.table.recs ptr).isPending = false then s
        else
          let left := bitmap \ taskIds
          let job := s.table.recs ptr
          { s with
            table := s.table.setRec ptr
              { job with
                arrayRecs := some { recs with taskIdBitmap := some left, taskCnt := left.card }
                jobState := if left.card = 0 then 4 else job.jobState }
            jobCount := s.jobCount -
              if left.card = 0 then (recs.taskCnt : Int) - 1 else recs.taskCnt - left.card }

/-- `_list_delete_job` with its update of `job_count`. -/
def purge (s : ArrayState) (ptr : Nat) : ArrayState :=
  let size := (s.table.recs ptr).jobArraySize
  { table := s.table.apply (.delete ptr)
    jobCount := if s.jobCount < size then 0 else s.jobCount - size
    complained := s.complained || decide (s.jobCount < size) }

/-- The pending set of an array: the bitmap of the record with its job id. -/
def pending (s : ArrayState) (arrayJobId : UInt32) : Finset Nat :=
  match s.table.findJobRecord arrayJobId with
  | none => ∅
  | some ptr => (s.table.recs ptr).pendingTasks

end ArrayState

/-- The steps of a run of submissions, starts, cancellations and purges; in
between the state of started and finished records changes. -/
inductive ArrayOp where
  | submit (ptr : Nat) (jobId : UInt32) (arrayBitmap : Finset Nat)
  | start (ptr pend : Nat) (newId : UInt32)
  | cancel (jobId : UInt32) (taskIds : Finset Nat)
  | setState (ptr : Nat) (jobState : UInt32)
  | purge (ptr : Nat)

namespace ArrayState

def apply (s : ArrayState) : ArrayOp → ArrayState
  | .submit ptr jobId arrayBitmap => s.submit ptr jobId arrayBitmap
  | .start ptr pend newId => s.start ptr pend newId
  | .cancel jobId taskIds => s.cancel jobId taskIds
  | .setState ptr jobState => { s with table := s.table.apply (.setState ptr jobState) }
  | .purge ptr => s.purge ptr

/-- A state without the pending base state. -/
def notPending (jobState : UInt32) : Prop := jobState &&& 0xff ≠ 0

/-- What the callers see to: fresh addresses and ids, task ids below `NO_VAL`,
only pending records start, nothing is requeued, only completed records go. -/
def Allowed (s : ArrayState) : ArrayOp → Prop
  | .submit ptr jobId arrayBitmap => ptr ∉ s.table.live ∧ s.table.FreshId jobId ∧
      ∀ taskId ∈ arrayBitmap, taskId < noVal.toNat
  | .start ptr pend newId => ptr ∈ s.table.live ∧ (s.table.recs ptr).isPending = true ∧
      pend ∉ s.table.live ∧ s.table.FreshId newId
  | .cancel _ _ => True
  | .setState ptr jobState => ptr ∈ s.table.live ∧ (s.table.recs ptr).isPending = false ∧
      notPending jobState
  | .purge ptr => ptr ∈ s.table.live ∧ (s.table.recs ptr).isCompleted = true

end ArrayState

/-- What has become of the tasks of each array: its tasks at submission, those
that got a record of their own, and the cancelled ones. -/
structure Ledger where
  original : UInt32 → Option (Finset Nat)
  started : UInt32 → Finset Nat
  cancelled : UInt32 → Finset Nat

namespace Ledger

def empty : Ledger := ⟨fun _ => none, fun _ => ∅, fun _ => ∅⟩

/-- The ledger reads a step off the states before and after it. -/
def observe (l : Ledger) (before : ArrayState) (op : ArrayOp) : Ledger :=
  let after := before.apply op
  match op with
  | .submit _ jobId arrayBitmap =>
    if arrayBitmap = ∅ then l
    else
      { original := Function.update l.original jobId (some arrayBitmap)
        started := Function.update l.started jobId ∅
        cancelled := Function.update l.cancelled jobId ∅ }
  | .start ptr _ _ =>
    let job := before.table.recs ptr
    if job.pendingTasks = ∅ then l
    else
      { l with
        started := Function.update l.started job.jobId
          (insert (after.table.recs ptr).arrayTaskId.toNat (l.started job.jobId)) }
  | .cancel jobId _ =>
    { l with
      cancelled := Function.update l.cancelled jobId
        (l.cancelled jobId ∪ (before.pending jobId \ after.pending jobId)) }
  | .setState _ _ => l
  | .purge _ => l

end Ledger

namespace ArrayState

/-- A run together with its ledger. -/
def runWith : ArrayState → Ledger → List ArrayOp → ArrayState × Ledger
  | s, l, [] => (s, l)
  | s, l, op :: ops => runWith (s.apply op) (l.observe s op) ops

def Runs : ArrayState → List ArrayOp → Prop
  | _, [] => True
  | s, op :: ops => s.Allowed op ∧ Runs (s.apply op) ops

end ArrayState

/-- Three sets make up a whole without overlap. -/
structure Partition (whole one two three : Finset Nat) : Prop where
  covers : one ∪ two ∪ three = whole
  oneTwo : Disjoint one two
  oneThree : Disjoint one three
  twoThree : Disjoint two three

/-- Every array is conserved and counted. -/
structure Conserved (s : ArrayState) (l : Ledger) : Prop where
  partition : ∀ arrayJobId tasks, l.original arrayJobId = some tasks →
    Partition tasks (s.pending arrayJobId) (l.started arrayJobId) (l.cancelled arrayJobId)
  taskCnt : ∀ ptr ∈ s.table.live, ∀ recs, (s.table.recs ptr).arrayRecs = some recs →
    recs.taskCnt = (s.table.recs ptr).pendingTasks.card
  quiet : s.complained = false
  jobCount : s.jobCount = ∑ ptr ∈ s.table.live, ((s.table.recs ptr).jobArraySize : Int)

end SlurmSim.Controller
