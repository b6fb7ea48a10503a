import SlurmSim.Select.WillRun

/-!
# Running a job now

`_run_now` tests a job on the records.  When the job does not fit and other jobs may
be preempted for it, these are taken out of copies of the records until it does; the
candidates are then put in another order and everything is tried again, so that in
the end few jobs are preempted.
-/

namespace SlurmSim.Select

open SlurmSim.Common SlurmSim.Lib
open Function (update update_of_ne)

section RunNow

variable (c : Cluster) (cfg : SimConfig) (p : Pending)

/-- The candidates that are removed: running or suspended, and to be requeued,
checkpointed or cancelled. -/
def ActiveJob.canBeRemoved (job : ActiveJob) : Bool :=
  (job.running || job.suspended) &&
    (job.preemptMode == 2 || job.preemptMode == 4 || job.preemptMode == 8)

/-- The variables of the loop over the candidates; `usable` is the `usable_nodes` of
each job. -/
structure Trial where
  world : World
  bitmap : Finset Nat
  usable : Nat → Nat
  success : Bool

/-- The loop over the candidates: it ends with the job after whose removal the pending
job fits, and the candidates behind it. -/
def removePreemptees : List ActiveJob → Trial → Trial × Option (ActiveJob × List ActiveJob)
  | [], st => (st, none)
  | job :: rest, st =>
    if job.canBeRemoved = false then removePreemptees rest st
    else
      let (answer, world) := (st.world.rmJob c cfg job 0).testFuture p (st.bitmap ∪ p.bitmap)
        ⟨false, false, false, true⟩
      let next : Trial :=
        ⟨world, answer.nodes, update st.usable job.jobId 0, answer.success⟩
      if answer.success then (next, some (job, rest)) else removePreemptees rest next

/-- `_sort_usable_nodes_dec` -/
def sortUsableNodesDec (usable : Nat → Nat) (jobA jobB : ActiveJob) : Int :=
  if usable jobB.jobId < usable jobA.jobId then -1
  else if usable jobA.jobId < usable jobB.jobId then 1
  else 0

/-- The two loops before the sort: `usable_nodes` up to the first job with 99999, and
behind it. -/
def countUsable (bitmap : Finset Nat) : List ActiveJob → (Nat → Nat) → Nat → Nat
  | [], usable => usable
  | job :: rest, usable =>
    if usable job.jobId = 99999 then
      rest.foldl (fun usable job => update usable job.jobId 0) usable
    else
      countUsable bitmap rest
        (update usable job.jobId (bitmap ∩ job.nodeBitmap.getD ∅).card)

/-- The variables that live on at `top`. -/
structure RunState where
  world : World
  bitmap : Finset Nat
  candidates : Option (List ActiveJob)
  usable : Nat → Nat
  passCount : UInt16
  preemptMode : Bool
  success : Bool

/-- The reordering of the candidates around the last job that was removed. -/
def reorder (st : RunState) (before : List ActiveJob) (job : ActiveJob) (rest : List ActiveJob) :
    RunState :=
  if cfg.preemptStrictOrder then { st with candidates := some (job :: (before ++ rest)) }
  else
    let usable := countUsable st.bitmap (before ++ job :: rest)
      (update st.usable job.jobId 99999)
    { st with
      candidates := some (qsort (sortUsableNodesDec usable) (before ++ job :: rest))
      usable := usable }

/-- What follows the test on the records, when it failed and there are candidates. -/
def preemptPass (st : RunState) (held : Bool) (list : List ActiveJob) : RunState × Bool :=
  if cfg.preemptByQos ∧ list.head?.map ActiveJob.preemptMode = some 1 ∧ held = false then
    let (answer, world) := st.world.testReal p (st.bitmap ∪ p.bitmap)
      ⟨true, false, true, st.preemptMode⟩
    ({ st with world := world, bitmap := answer.nodes, success := answer.success }, false)
  else
    let (trial, found) := removePreemptees c cfg p list ⟨st.world.dup, st.bitmap, st.usable, false⟩
    let next : RunState :=
      { st with
        world := trial.world, bitmap := trial.bitmap, usable := trial.usable
        preemptMode := true, success := trial.success }
    match found with
    | none => (next, false)
    | some (job, rest) =>
      let before := list.take (list.length - rest.length - 1)
      let counted := { next with passCount := st.passCount + 1 }
      if cfg.preemptReorderCnt < st.passCount.toNat ∨
          list.length ≤ (st.passCount + 1).toNat then
        ({ counted with candidates := some (before ++ [job]) }, false)
      else (reorder cfg counted before job rest, true)

/-- The passes of `_run_now` from `top` on. -/
def runNowPasses : Nat → RunState → RunState
  | 0, st => st
  | passes + 1, st =>
    let (answer, world) := st.world.testReal p st.bitmap ⟨true, false, false, st.preemptMode⟩
    let tested : RunState :=
      { st with world := world, bitmap := answer.nodes, success := answer.success }
    if answer.success then tested
    else
      match st.candidates with
      | none => tested
      | some list =>
        let (next, again) := preemptPass c cfg p tested answer.held list
        if again then runNowPasses passes next else next

/-- `_run_now`, with at most a number of passes. -/
def runNow (passes : Nat) (usable : Nat → Nat) (w : World) : RunState :=
  runNowPasses c cfg p passes
    ⟨w, p.bitmap, p.preempteeCandidates, usable, 0, false, false⟩

end RunNow

/-! ## What a simulation keeps -/

/-- Partitions with the same rows, in whatever order. -/
structure SameRows (a b : Option PartRes) : Prop where
  numRows : b.map PartRes.numRows = a.map PartRes.numRows
  allocated : (b.bind PartRes.row).isSome = (a.bind PartRes.row).isSome
  perm : ((b.bind PartRes.row).getD []).Perm ((a.bind PartRes.row).getD [])

/-- The records of the plugin and the other jobs are as they were. -/
structure RecordsKept (p : Pending) (w w' : World) : Prop where
  rows : ∀ part, SameRows (w.parts part) (w'.parts part)
  usage : w'.usage = w.usage
  resrcs : ∀ job, job ≠ p.job → w'.jobs job = w.jobs job
  initializing : w'.initializing = w.initializing

theorem SameRows.refl (a : Option PartRes) : SameRows a a := ⟨rfl, rfl, .refl _⟩

theorem SameRows.trans {a b d : Option PartRes} (one : SameRows a b) (two : SameRows b d) :
    SameRows a d :=
  ⟨two.numRows.trans one.numRows, two.allocated.trans one.allocated, two.perm.trans one.perm⟩

theorem sortRowsOf_sameRows (part : Nat) (parts : Nat → Option PartRes) (other : Nat) :
    SameRows (parts other) (sortRowsOf part parts other) := by
  unfold sortRowsOf
  by_cases same : other = part
  · subst same
    rw [Function.update_self]
    cases parts other with
    | none => exact .refl _
    | some record =>
      obtain ⟨numRows, row⟩ := record
      cases row with
      | none => exact .refl _
      | some rows => exact ⟨rfl, rfl, (crSortPartRows_rearranged rows).perm⟩
  · rw [update_of_ne same]
    exact .refl _

namespace RecordsKept

variable {p : Pending} {w w' w'' : World}

theorem refl (p : Pending) (w : World) : RecordsKept p w w :=
  ⟨fun _ => .refl _, rfl, fun _ _ => rfl, rfl⟩

theorem trans (one : RecordsKept p w w') (two : RecordsKept p w' w'') : RecordsKept p w w'' :=
  ⟨fun part => (one.rows part).trans (two.rows part), two.usage.trans one.usage,
    fun job other => (two.resrcs job other).trans (one.resrcs job other),
    two.initializing.trans one.initializing⟩

theorem testReal (kept : RecordsKept p w w') (bitmap : Finset Nat) (mode : TestMode) :
    RecordsKept p w (w'.testReal p bitmap mode).2 := by
  refine kept.trans ⟨fun part => ?_, rfl, fun job other => ?_, rfl⟩
  · rw [World.testReal]
    dsimp only
    split_ifs
    · exact sortRowsOf_sameRows _ _ _
    · exact .refl _
  · rw [World.testReal]
    dsimp only
    split_ifs
    · exact update_of_ne other _ _
    · rfl

theorem testFuture (kept : RecordsKept p w w') (bitmap : Finset Nat) (mode : TestMode) :
    RecordsKept p w (w'.testFuture p bitmap mode).2 := by
  refine kept.trans ⟨fun part => .refl _, rfl, fun job other => ?_, rfl⟩
  rw [World.testFuture]
  dsimp only
  split_ifs
  · exact update_of_ne other _ _
  · rfl

end RecordsKept

end SlurmSim.Select
