import SlurmSim.Lib.Qsort
import SlurmSim.Select.PowerLayout
import SlurmSim.Select.Resources

/-!
# When a pending job could start

`_will_run_test` takes running jobs out of a copy of the records, in the order in
which they are expected to end, until the pending job fits.  The rows and the node
usage are copied; the resources of the jobs and the power layout are not.
-/

namespace SlurmSim.Select

open SlurmSim.Common SlurmSim.Lib

/-- What is read of a `struct job_record` of the job list.  The time over the limit
is that of its partition, unless the partition leaves it open. -/
structure ActiveJob where
  jobId : Nat
  running : Bool
  suspended : Bool
  cleaning : Bool
  endTime : Int
  nodeBitmap : Option (Finset Nat)
  overTimeLimit : Option UInt16
  preemptMode : UInt16
  cpuFreqMax : UInt32
deriving DecidableEq

/-- What is read of the configuration. -/
structure SimConfig where
  overTimeLimit : UInt16
  killWait : UInt16
  bfWindowScale : Int
  backfillBusyNodes : Bool
  preemptByQos : Bool
  preemptReorderCnt : Nat
  preemptStrictOrder : Bool
  clusterCap : UInt32
  powerLayout : Nat

/-- Whether jobs that start and end adapt the power layout. -/
def SimConfig.powerPerCore (cfg : SimConfig) : Bool :=
  cfg.clusterCap ≠ 0 ∧ cfg.powerLayout = 2

/-- The records of the plugin, the copies of a simulation, and what they share. -/
structure World where
  parts : Nat → Option PartRes
  usage : Nat → NodeUse
  futureParts : Nat → Option PartRes
  futureUsage : Nat → NodeUse
  jobs : Nat → JobInfo
  layout : PowerLayout
  initializing : Bool

/-- The arguments of `cr_job_test` that change from call to call. -/
structure TestMode where
  runNow : Bool
  preferAllocNodes : Bool
  qosPreemptor : Bool
  preemptMode : Bool
deriving DecidableEq

/-- What `cr_job_test` leaves: its return code, the bitmap of nodes, whether it came
to sort the rows of the partition, the job with what it was given, and whether the
priority of the job is 0. -/
structure TestAnswer where
  success : Bool
  nodes : Finset Nat
  sortsRows : Bool
  given : JobInfo
  held : Bool

/-- `cr_job_test` for the pending job.  It only ever takes nodes away. -/
structure CrJobTest where
  answer : (Nat → Option PartRes) → (Nat → NodeUse) → Finset Nat → TestMode → TestAnswer
  narrows : ∀ parts usage bitmap mode, (answer parts usage bitmap mode).nodes ⊆ bitmap

/-- The pending job and the arguments of the call. -/
structure Pending where
  job : Nat
  part : Nat
  bitmap : Finset Nat
  testNowOnly : Bool
  preempteeCandidates : Option (List ActiveJob)
  test : CrJobTest

/-! ## Steps of a simulation -/

/-- `_dup_row_data` -/
def dupRowData (part : PartRes) : PartRes :=
  { part with row := if part.numRows = 0 then none else part.row }

def sortRowsOf (part : Nat) (parts : Nat → Option PartRes) : Nat → Option PartRes :=
  Function.update parts part
    ((parts part).map fun p => { p with row := p.row.map crSortPartRows })

namespace World

variable (c : Cluster) (cfg : SimConfig)

/-- `_dup_part_data` and `_dup_node_usage` -/
def dup (w : World) : World :=
  { w with futureParts := fun p => (w.parts p).map dupRowData, futureUsage := w.usage }

/-- The records that a simulation works on, with the jobs as they are. -/
def future (w : World) : SelectState := ⟨w.futureParts, w.futureUsage, w.jobs, w.initializing⟩

/-- The calls of `adapt_layouts` in the first loop of `_rm_job_from_res`. -/
def adaptNodes (layout : PowerLayout) (job : JobResources) (cpuFreqMax : UInt32) : PowerLayout :=
  (job.nodes c).zipIdx.foldl
    (fun layout (node, n) =>
      if job.cpus.getD n 0 = 0 then layout
      else layout.adaptLayouts job cpuFreqMax n node false)
    layout

/-- `_rm_job_from_res` on the copies. -/
def rmJob (w : World) (job : ActiveJob) (action : Nat) : World :=
  let next := (w.future.rmJobFromRes c job.jobId action).2
  { w with
    futureParts := next.parts
    futureUsage := next.usage
    jobs := next.jobs
    layout :=
      if w.initializing ∨ (w.jobs job.jobId).hasCores = false ∨ cfg.powerPerCore = false then
        w.layout
      else adaptNodes c w.layout (w.jobs job.jobId).jobResrcs job.cpuFreqMax }

/-- `cr_job_test` on the records; a job that is to run now is given its resources. -/
def testReal (w : World) (p : Pending) (bitmap : Finset Nat) (mode : TestMode) :
    TestAnswer × World :=
  let answer := p.test.answer w.parts w.usage bitmap mode
  (answer, { w with
    parts := if answer.sortsRows then sortRowsOf p.part w.parts else w.parts
    jobs := if answer.success ∧ mode.runNow then Function.update w.jobs p.job answer.given
      else w.jobs })

/-- `cr_job_test` on the copies. -/
def testFuture (w : World) (p : Pending) (bitmap : Finset Nat) (mode : TestMode) :
    TestAnswer × World :=
  let answer := p.test.answer w.futureParts w.futureUsage bitmap mode
  (answer, { w with
    futureParts := if answer.sortsRows then sortRowsOf p.part w.futureParts else w.futureParts
    jobs := if answer.success ∧ mode.runNow then Function.update w.jobs p.job answer.given
      else w.jobs })

variable {w : World} {p : Pending} {bitmap : Finset Nat} {mode : TestMode}

theorem testReal_nodes : (w.testReal p bitmap mode).1.nodes ⊆ bitmap :=
  p.test.narrows _ _ _ _

theorem testFuture_nodes : (w.testFuture p bitmap mode).1.nodes ⊆ bitmap :=
  p.test.narrows _ _ _ _

end World

/-! ## The expected end of a job -/

namespace ActiveJob

variable (cfg : SimConfig) (now : Int)

/-- `_guess_job_end`; `INFINITE16` is 65535. -/
def guessJobEnd (job : ActiveJob) : Int :=
  let overTimeLimit := job.overTimeLimit.getD cfg.overTimeLimit
  let endTime :=
    if overTimeLimit = 0 then job.endTime + cfg.killWait.toNat
    else if overTimeLimit = 65535 then now + 365 * 24 * 60 * 60
    else job.endTime + cfg.killWait.toNat + overTimeLimit.toNat * 60
  if endTime ≤ now then now + 1 else endTime

/-- The time at which the last job that was removed is expected to end. -/
def expectedEnd (job : ActiveJob) : Int :=
  if job.endTime ≤ now then job.guessJobEnd cfg now else job.endTime

/-- `bit_overlap` is not 0. -/
def overlaps (bitmap : Finset Nat) (job : ActiveJob) : Bool :=
  decide (¬ Disjoint bitmap (job.nodeBitmap.getD ∅))

/-- The jobs that the first loop does not pass over. -/
def considered (job : ActiveJob) : Bool :=
  (job.running || job.suspended || job.cleaning) && job.endTime != 0 && job.nodeBitmap.isSome

/-- `_is_preemptable` -/
def isPreemptable (candidates : Option (List ActiveJob)) (job : ActiveJob) : Bool :=
  candidates.any fun list => list.any (·.jobId == job.jobId)

end ActiveJob

/-- `_cr_job_list_sort` -/
def crJobListSort (job1 job2 : ActiveJob) : Int :=
  (job1.endTime - job2.endTime).bmod (2 ^ 32)

/-! ## The loops -/

section Loops

variable (c : Cluster) (cfg : SimConfig) (p : Pending)

/-- The variables of the first loop: `qos_preemptor`, `cr_job_list`, and the jobs
that were removed. -/
structure Gathered where
  world : World
  qosPreemptor : Bool
  crJobList : List ActiveJob
  preempted : List ActiveJob

/-- One job of the job list.  `PREEMPT_MODE_OFF` is 0, `PREEMPT_MODE_SUSPEND` is 1. -/
def gatherJob (st : Gathered) (job : ActiveJob) : Gathered :=
  if job.considered = false then st
  else if job.isPreemptable p.preempteeCandidates then
    if job.preemptMode = 0 then st
    else if job.preemptMode = 1 then
      { st with
        world := st.world.rmJob c cfg job 2
        qosPreemptor := st.qosPreemptor || cfg.preemptByQos
        preempted := st.preempted ++ [job] }
    else
      { st with
        world := st.world.rmJob c cfg job 0
        preempted := st.preempted ++ [job] }
  else { st with crJobList := st.crJobList ++ [job] }

/-- The variables of a window, and the jobs removed so far. -/
structure Window where
  world : World
  bitmap : Finset Nat
  firstJob : Option ActiveJob
  lastJob : Option ActiveJob
  rmJobCnt : Nat
  removed : List ActiveJob

/-- The inner loop: the window with the jobs that are left and `more_jobs`. -/
def removeWindow (timeWindow : Int) : List ActiveJob → Window → Window × List ActiveJob × Bool
  | [], st => (st, [], false)
  | job :: rest, st =>
    let bitmap := st.bitmap ∪ p.bitmap
    if job.overlaps bitmap = false then
      removeWindow timeWindow rest { st with bitmap := bitmap }
    else
      let first := st.firstJob.getD job
      let next : Window :=
        { world := st.world.rmJob c cfg job 0
          bitmap := bitmap
          firstJob := some first
          lastJob := some job
          rmJobCnt := st.rmJobCnt + 1
          removed := st.removed ++ [job] }
      if 200 < st.rmJobCnt then (next, rest, true)
      else
        match rest with
        | [] => (next, [], false)
        | nextJob :: _ =>
          if first.endTime + timeWindow < nextJob.endTime then (next, rest, true)
          else removeWindow timeWindow rest next

def widen (timeWindow : Int) : Int :=
  if cfg.bfWindowScale ≠ 0 then (timeWindow + cfg.bfWindowScale).bmod (2 ^ 32)
  else (timeWindow * 2).bmod (2 ^ 32)

/-- What is left at the end: the state, the nodes, the start time if the job was
given one, and the jobs removed. -/
structure Prediction where
  world : World
  success : Bool
  bitmap : Finset Nat
  startTime : Option Int
  preempted : List ActiveJob
  removed : List ActiveJob

variable (now : Int) (quits : Nat → Bool) (qosPreemptor : Bool)

/-- The outer loop; `quits` says after which window two seconds have passed.  Every
window but the last takes a job off the list. -/
def testWindows (preempted : List ActiveJob) :
    Nat → Int → List ActiveJob → World → Finset Nat → List ActiveJob → Prediction
  | 0, _, _, world, bitmap, removed => ⟨world, false, bitmap, none, preempted, removed⟩
  | fuel + 1, timeWindow, list, world, bitmap, removed =>
    let (st, rest, more) :=
      removeWindow c cfg p timeWindow list ⟨world, bitmap, none, none, 0, removed⟩
    match st.lastJob with
    | none => ⟨st.world, false, st.bitmap, none, preempted, st.removed⟩
    | some last =>
      let (answer, world) := st.world.testFuture p st.bitmap
        ⟨false, cfg.backfillBusyNodes, qosPreemptor, true⟩
      if answer.success then
        ⟨world, true, answer.nodes, some (last.expectedEnd cfg now), preempted, st.removed⟩
      else if quits rest.length || !more then
        ⟨world, false, answer.nodes, none, preempted, st.removed⟩
      else testWindows preempted fuel (widen cfg timeWindow) rest world answer.nodes st.removed

/-- The simulation after the job was found not to run with the available nodes. -/
def simulateEnds (jobList : List ActiveJob) (world : World) (bitmap : Finset Nat) : Prediction :=
  let st := jobList.foldl (gatherJob c cfg p) ⟨world.dup, false, [], []⟩
  let (answer, world) :=
    if p.preempteeCandidates.isSome then
      st.world.testFuture p (bitmap ∪ p.bitmap) ⟨false, false, st.qosPreemptor, true⟩
    else (⟨false, bitmap, false, st.world.jobs p.job, false⟩, st.world)
  if answer.success then ⟨world, true, answer.nodes, some now, st.preempted, []⟩
  else if p.testNowOnly then ⟨world, false, answer.nodes, none, st.preempted, []⟩
  else
    testWindows c cfg p now quits st.qosPreemptor st.preempted (st.crJobList.length + 1) 30
      (qsort crJobListSort st.crJobList) world answer.nodes []

/-- `_will_run_test` -/
def willRunTest (jobList : List ActiveJob) (w : World) : Prediction :=
  let (answer, w) := w.testReal p p.bitmap ⟨false, false, false, false⟩
  if answer.success then ⟨w, true, answer.nodes, some now, [], []⟩
  else simulateEnds c cfg p now quits jobList w answer.nodes

/-- The end of `_will_run_test`: the preemptees whose nodes are used. -/
def preempteeJobList (result : Prediction) : List ActiveJob :=
  if result.success then
    (p.preempteeCandidates.getD []).filter (·.overlaps result.bitmap)
  else []

end Loops

end SlurmSim.Select
