import Mathlib.Order.Interval.Finset.Nat
import SlurmSim.Common.JobResources

/-!
# The gang scheduler

Each partition runs the jobs of its active row and suspends the others.  The
running jobs of a partition cast shadows on all partitions of lower priority; a
row is built of the shadows first and then of the jobs that still fit.  Rows are
rebuilt when a job starts or ends, and rotated by the timeslicer.
-/

namespace SlurmSim.Controller.Gang

open SlurmSim.Common

/-- The resource types with bits that cannot be shared. -/
inductive EntityType where
  | node
  | socket
  | core
deriving DecidableEq, Repr

/-- `GS_SUSPEND` and `GS_RESUME` -/
inductive SigState where
  | suspend
  | resume
deriving DecidableEq, Repr

/-- `GS_ACTIVE`, `GS_NO_ACTIVE` and `GS_FILLER` -/
inductive RowState where
  | active
  | noActive
  | filler
deriving DecidableEq, Repr

/-- `struct gs_job` -/
structure GsJob where
  jobId : Nat
  sigState : SigState
  rowState : RowState
deriving DecidableEq, Repr

/-- `jobs_active` and `active_resmap` -/
structure ActiveRow where
  jobsActive : Nat
  activeResmap : Option (Finset Nat)
deriving DecidableEq

/-- `struct gs_part`; the shadows are the ids of their jobs. -/
structure GsPart where
  partName : String
  priority : Nat
  jobList : List GsJob
  shadow : List Nat
  row : ActiveRow
deriving DecidableEq

/-- What the gang scheduler reads of a `struct job_record`. -/
structure JobInfo where
  jobResrcs : JobResources
  priority : Nat
  suspended : Bool

/-- `gr_type` and the tables of the nodes. -/
structure Config where
  cluster : Cluster
  grType : EntityType
  socketCnt : Nat → Nat

section Rows

variable (g : Config) (jobs : Nat → JobInfo)

/-! ## The active row -/

/-- `_fill_sockets`: every socket of the given nodes with a used core is used up. -/
def fillSockets (nodemap resmap : Finset Nat) : Finset Nat :=
  ((List.range g.cluster.nodeRecordCount).foldl
    (fun (walk : Nat × Finset Nat) n =>
      let coresPerNode := g.cluster.crNodeNumCores n
      if n ∉ nodemap then (walk.1 + coresPerNode, walk.2)
      else
        let cps := coresPerNode / g.socketCnt n
        (List.range (g.socketCnt n)).foldl
          (fun (walk : Nat × Finset Nat) _ =>
            (walk.1 + cps,
              if (List.range cps).any fun i => walk.1 + i ∈ walk.2 then
                walk.2 ∪ Finset.Ico walk.1 (walk.1 + cps)
              else walk.2))
          walk)
    (0, resmap)).2

/-- `_job_fits_in_active_row` -/
def jobFitsInActiveRow (job : Nat) (row : ActiveRow) : Bool :=
  match row.activeResmap with
  | none => true
  | some resmap =>
    if row.jobsActive = 0 then true
    else
      match g.grType with
      | .node => decide (((jobs job).jobResrcs.nodeBitmap ∩ resmap).card = 0)
      | _ => (jobs job).jobResrcs.jobFitsIntoCores g.cluster resmap

/-- `_add_job_to_active` -/
def addJobToActive (row : ActiveRow) (job : Nat) : ActiveRow :=
  let resources := (jobs job).jobResrcs
  let cleared := if row.jobsActive = 0 then row.activeResmap.map fun _ => ∅ else row.activeResmap
  { jobsActive := row.jobsActive + 1
    activeResmap := some (match g.grType with
      | .node => if row.jobsActive = 0 then resources.nodeBitmap
          else row.activeResmap.getD ∅ ∪ resources.nodeBitmap
      | .core => resources.addJobToCores g.cluster cleared
      | .socket =>
        fillSockets g resources.nodeBitmap (resources.addJobToCores g.cluster cleared)) }

/-! ## Shadows -/

/-- A call of `_cast_shadow` or `_clear_shadow`. -/
inductive ShadowCall where
  | cast (job : Nat)
  | clear (job : Nat)
deriving DecidableEq

/-- What a call for a job of the given priority does to one shadow array. -/
def ShadowCall.apply (priority ofPart : Nat) (shadow : List Nat) : ShadowCall → List Nat
  | .cast job => if priority ≤ ofPart ∨ job ∈ shadow then shadow else shadow ++ [job]
  | .clear job => shadow.erase job

/-- The calls made while the row of a partition with the given priority is built,
as they reach the shadow array of another partition. -/
def applyShadows (priority : Nat) (calls : List ShadowCall) (p : GsPart) : GsPart :=
  { p with shadow := calls.foldl (ShadowCall.apply priority p.priority) p.shadow }

/-! ## Building a row -/

/-- A loop over the job list: each job may change, enter the row and make calls. -/
def scanJobs (step : ActiveRow → GsJob → GsJob × ActiveRow × List ShadowCall) :
    ActiveRow → List GsJob → List GsJob × ActiveRow × List ShadowCall
  | row, [] => ([], row, [])
  | row, job :: rest =>
    let (job, row, calls) := step row job
    let (rest, row, more) := scanJobs step row rest
    (job :: rest, row, calls ++ more)

/-- The loops over the `active` and the `filler` jobs: one that no longer fits is suspended. -/
def keepJob (state : RowState) (row : ActiveRow) (job : GsJob) :
    GsJob × ActiveRow × List ShadowCall :=
  if job.rowState ≠ state then (job, row, [])
  else if jobFitsInActiveRow g jobs job.jobId row then
    (job, addJobToActive g jobs row job.jobId, [.cast job.jobId])
  else
    ({ job with sigState := .suspend, rowState := .noActive }, row,
      if job.sigState ≠ .suspend then [.clear job.jobId] else [])

/-- The loop over the new jobs: one that fits is resumed as a filler. -/
def admitJob (row : ActiveRow) (job : GsJob) : GsJob × ActiveRow × List ShadowCall :=
  if job.rowState ≠ .noActive ∨ (jobs job.jobId).priority = 0 then (job, row, [])
  else if jobFitsInActiveRow g jobs job.jobId row then
    ({ job with sigState := .resume, rowState := .filler }, addJobToActive g jobs row job.jobId,
      [.cast job.jobId])
  else (job, row, [])

/-- The row with all shadows of the partition. -/
def shadowRow (p : GsPart) : ActiveRow :=
  p.shadow.foldl (addJobToActive g jobs) { p.row with jobsActive := 0 }

/-- `_update_active_row` -/
def updateActiveRow (addNewJobs : Bool) (p : GsPart) : GsPart × List ShadowCall :=
  let (jobList, row, calls) := scanJobs (keepJob g jobs .active) (shadowRow g jobs p) p.jobList
  let (jobList, row, more) := scanJobs (keepJob g jobs .filler) row jobList
  let kept := ({ p with jobList := jobList, row := row }, calls ++ more)
  if addNewJobs = false then kept
  else
    let (jobList, row, new) := scanJobs (admitJob g jobs) row jobList
    ({ p with jobList := jobList, row := row }, calls ++ more ++ new)

/-- The loop of `_build_active_row`. -/
def activateJob (row : ActiveRow) (job : GsJob) : GsJob × ActiveRow × List ShadowCall :=
  if (jobs job.jobId).priority = 0 then (job, row, [])
  else if jobFitsInActiveRow g jobs job.jobId row then
    ({ job with rowState := .active }, addJobToActive g jobs row job.jobId, [])
  else (job, row, [])

/-- The first loop of `_cycle_job_list`: the active jobs move to the back in
their order, and no job is in the row any more. -/
def rotateJobs (jobList : List GsJob) : List GsJob :=
  (jobList.filter (·.rowState ≠ .active) ++ jobList.filter (·.rowState = .active)).map fun job =>
    { job with rowState := .noActive }

/-- `_build_active_row` -/
def buildActiveRow (p : GsPart) : GsPart :=
  if p.jobList = [] then { p with row := { p.row with jobsActive := 0 } }
  else
    let (jobList, row, _) := scanJobs (activateJob g jobs) (shadowRow g jobs p) p.jobList
    { p with jobList := jobList, row := row }

/-- The loop of `_cycle_job_list` that suspends running jobs out of the row. -/
def suspendIdle (row : ActiveRow) (job : GsJob) : GsJob × ActiveRow × List ShadowCall :=
  if job.rowState = .noActive ∧ job.sigState = .resume then
    ({ job with sigState := .suspend }, row, [.clear job.jobId])
  else (job, row, [])

/-- The loop of `_cycle_job_list` that resumes suspended jobs of the row. -/
def resumeActive (row : ActiveRow) (job : GsJob) : GsJob × ActiveRow × List ShadowCall :=
  if job.rowState = .active ∧ job.sigState = .suspend ∧ (jobs job.jobId).priority ≠ 0 then
    ({ job with sigState := .resume }, row, [.cast job.jobId])
  else (job, row, [])

/-- `_cycle_job_list` -/
def cycleJobList (p : GsPart) : GsPart × List ShadowCall :=
  let p := buildActiveRow g jobs { p with jobList := rotateJobs p.jobList }
  let (jobList, row, calls) := scanJobs suspendIdle p.row p.jobList
  let (jobList, row, more) := scanJobs (resumeActive jobs) row jobList
  ({ p with jobList := jobList, row := row }, calls ++ more)

/-! ## All partitions -/

/-- One turn of a loop over the partitions. -/
def turn (rebuild : GsPart → GsPart × List ShadowCall) (parts : List GsPart) (i : Nat) :
    List GsPart :=
  match parts[i]? with
  | none => parts
  | some p => (parts.set i (rebuild p).1).map (applyShadows p.priority (rebuild p).2)

/-- The partitions after the first turns. -/
def turns (rebuild : GsPart → GsPart × List ShadowCall) (parts : List GsPart) (n : Nat) :
    List GsPart :=
  (List.range n).foldl (turn rebuild) parts

/-- `list_sort` with `_sort_partitions`, by descending priority. -/
def sortPartitions (parts : List GsPart) : List GsPart :=
  parts.insertionSort fun p q => q.priority ≤ p.priority

/-- `_update_all_active_rows` -/
def updateAllActiveRows (parts : List GsPart) : List GsPart :=
  turns (updateActiveRow g jobs true) (sortPartitions parts) parts.length

/-- The turn of the timeslicer: the counters decide whether the row is rebuilt. -/
def timeslice (p : GsPart) : GsPart × List ShadowCall :=
  if p.row.jobsActive < p.jobList.length + p.shadow.length then cycleJobList g jobs p else (p, [])

/-- The loop body of `_timeslicer_thread`. -/
def timeslicerPass (parts : List GsPart) : List GsPart :=
  turns (timeslice g jobs) (sortPartitions parts) parts.length

/-! ## Starting and ending jobs -/

/-- `_remove_job_from_part` -/
def removeJobFromPart (parts : List GsPart) (i job : Nat) : List GsPart :=
  match parts[i]? with
  | none => parts
  | some p =>
    if p.jobList.any (·.jobId = job) then
      (parts.map (applyShadows p.priority [.clear job])).modify i fun p =>
        { p with jobList := p.jobList.eraseP (·.jobId = job) }
    else parts

/-- `_add_job_to_part` for a job the partition does not hold. -/
def appendJob (parts : List GsPart) (i job : Nat) : List GsPart × SigState :=
  match parts[i]? with
  | none => (parts, .suspend)
  | some p =>
    if (jobs job).suspended = false ∧ jobFitsInActiveRow g jobs job p.row = true then
      ((parts.set i { p with
          jobList := p.jobList ++ [⟨job, .resume, .filler⟩]
          row := addJobToActive g jobs p.row job }).map
        (applyShadows p.priority [.cast job]), .resume)
    else
      (parts.set i { p with jobList := p.jobList ++ [⟨job, .suspend, .noActive⟩] }, .suspend)

/-- `_add_job_to_part`: a duplicate is removed first. -/
def addJobToPart (parts : List GsPart) (i job : Nat) : List GsPart × SigState :=
  match parts[i]? with
  | none => (parts, .suspend)
  | some p =>
    if p.jobList.any (·.jobId = job) then
      appendJob g jobs (turn (updateActiveRow g jobs false) (removeJobFromPart parts i job) i) i job
    else appendJob g jobs parts i job

end Rows

/-- The partitions and the job records. -/
structure GangState where
  parts : List GsPart
  jobs : Nat → JobInfo

inductive GangOp where
  | jobStart (job : Nat) (info : JobInfo) (partName : String)
  | jobFini (job : Nat) (partName : String)
  | timeslicer

namespace GangState

variable (g : Config)

/-- `gs_job_start`, for a job whose record is then `info`. -/
def gsJobStart (s : GangState) (job : Nat) (info : JobInfo) (partName : String) : GangState :=
  let jobs := Function.update s.jobs job info
  match s.parts.findIdx? (·.partName = partName) with
  | none => { s with jobs := jobs }
  | some i =>
    let (parts, sigState) := addJobToPart g jobs s.parts i job
    ⟨if sigState = .resume then updateAllActiveRows g jobs parts else parts, jobs⟩

/-- `gs_job_fini` -/
def gsJobFini (s : GangState) (job : Nat) (partName : String) : GangState :=
  match s.parts.findIdx? (·.partName = partName) with
  | none => s
  | some i => { s with parts := updateAllActiveRows g s.jobs (removeJobFromPart s.parts i job) }

def apply (s : GangState) : GangOp → GangState
  | .jobStart job info partName => s.gsJobStart g job info partName
  | .jobFini job partName => s.gsJobFini g job partName
  | .timeslicer => { s with parts := timeslicerPass g s.jobs s.parts }

end GangState

end SlurmSim.Controller.Gang
