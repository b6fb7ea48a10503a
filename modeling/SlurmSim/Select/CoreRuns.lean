import SlurmSim.Select.GivenCores
import SlurmSim.Select.RowInvariant

/-!
# The cores of running jobs

Jobs start and end in any order.  As long as every job starts clear of others,
each running job is in the row of its partition and no core is given to two of
them.  Two kinds of start break this: whole sockets that another partition uses
in part, and whole nodes on which another job has one of the specialized cores.
-/

namespace SlurmSim.Select

open SlurmSim.Common

/-- The records of the plugin and the jobs that run. -/
structure Running where
  state : SelectState
  jobs : Finset Nat

/-- A job starts with a request or ends. -/
inductive RunEvent where
  | start (job : Nat) (req : Request)
  | finish (job : Nat)

def Request.jobInfo (req : Request) (res : JobResources) : JobInfo := ⟨some req.part, res, true, false⟩

namespace System

variable (sys : System)

/-- The records before the first job: every partition has one row. -/
def idle : Running where
  state :=
    { parts := fun p => if p ∈ sys.partList then some ⟨1, none⟩ else none
      usage := fun _ => ⟨0, 0, false⟩
      jobs := fun _ => ⟨none, ⟨[], [], [], ∅, 0, 0, [], 0⟩, false, false⟩
      initializing := false }
  jobs := ∅

/-- A job starts when `cr_job_test` finds resources for it; they are then entered
with `_add_job_to_res`. -/
def runStep (now : Running) : RunEvent → Option Running
  | .start job req =>
    if job ∈ now.jobs ∨ req.part ∉ sys.partList then none
    else
      (sys.crJobTest now.state req).map fun res =>
        ⟨(now.state.apply sys.cluster (.assign job (req.jobInfo res))).apply sys.cluster
          (.addJobToRes job 0), insert job now.jobs⟩
  | .finish job =>
    if job ∈ now.jobs then
      some ⟨now.state.apply sys.cluster (.rmJobFromRes job 0), now.jobs.erase job⟩
    else none

def run : Running → List RunEvent → Option Running
  | now, [] => some now
  | now, event :: events => (sys.runStep now event).bind (run · events)

/-- The condition on a step: a job that starts is clear of others. -/
def ClearEvent (now : Running) : RunEvent → Prop
  | .start _ req => StartsClear sys now.state req
  | .finish _ => True

instance (now : Running) : (event : RunEvent) → Decidable (sys.ClearEvent now event)
  | .start _ req => inferInstanceAs (Decidable (StartsClear sys now.state req))
  | .finish _ => inferInstanceAs (Decidable True)

def ClearRun : Running → List RunEvent → Prop
  | _, [] => True
  | now, event :: events =>
    sys.ClearEvent now event ∧ ∀ next ∈ sys.runStep now event, ClearRun next events

instance : (now : Running) → (events : List RunEvent) → Decidable (sys.ClearRun now events)
  | _, [] => inferInstanceAs (Decidable True)
  | now, event :: events =>
    haveI : DecidablePred fun next => sys.ClearRun next events := fun next =>
      instDecidableClearRun next events
    inferInstanceAs (Decidable (_ ∧ ∀ next ∈ sys.runStep now event, sys.ClearRun next events))

/-- No core is given to two running jobs. -/
def CoresApart (now : Running) : Prop :=
  ∀ job ∈ now.jobs, ∀ other ∈ now.jobs, job ≠ other →
    Disjoint (givenCores sys.cluster (now.state.resrcs job))
      (givenCores sys.cluster (now.state.resrcs other))

instance (now : Running) : Decidable (sys.CoresApart now) :=
  inferInstanceAs (Decidable (∀ _ ∈ _, _))

end System

/-! ## One row for each partition -/

/-- The partitions are those of the list, each with one row. -/
structure OneRow (sys : System) (s : SelectState) : Prop where
  listed : ∀ p, p ∈ sys.partList ↔ (s.parts p).isSome
  rows : ∀ p part, s.parts p = some part →
    part.numRows = 1 ∧ ∀ rows, part.row = some rows → rows.length = 1

namespace OneRow

variable {sys : System} {s : SelectState}

theorem of_parts (one : OneRow sys s) {s' : SelectState} (same : s'.parts = s.parts) :
    OneRow sys s' := ⟨same ▸ one.listed, same ▸ one.rows⟩

theorem setRows (one : OneRow sys s) {p : Nat} {part : PartRes} {rows : List PartRow}
    (partEq : s.parts p = some part) (single : rows.length = 1) :
    OneRow sys (s.setRows p part rows) := by
  refine ⟨?_, ?_⟩
  · intro q
    rcases eq_or_ne q p with rfl | different
    · simp [SelectState.setRows, one.listed, partEq]
    · simp [SelectState.setRows, one.listed, Function.update_of_ne different]
  · intro q part' at_
    rcases eq_or_ne q p with rfl | different
    · simp only [SelectState.setRows, Function.update_self, Option.some.injEq] at at_
      refine at_ ▸ ⟨(one.rows q part partEq).1, ?_⟩
      intro rows' rowEq
      cases rowEq
      exact single
    · simp only [SelectState.setRows, Function.update_of_ne different] at at_
      exact one.rows q part' at_

theorem rowsToFill (one : OneRow sys s) {p : Nat} {part : PartRes} (partEq : s.parts p = some part) :
    ∃ row, SelectState.rowsToFill part = [row] := by
  obtain ⟨numRows, single⟩ := one.rows p part partEq
  unfold SelectState.rowsToFill
  cases rowEq : part.row with
  | none => exact ⟨PartRow.empty, by rw [numRows]; rfl⟩
  | some rows => exact List.length_eq_one_iff.mp (single rows rowEq)

theorem addJobToRes (one : OneRow sys s) (c : Cluster) (job action : Nat) :
    OneRow sys (s.apply c (.addJobToRes job action)) := by
  rw [SelectState.apply]
  rcases @SelectState.addJobToRes_cases c s job action with
    ⟨_, same⟩ | ⟨_, _, same⟩ | ⟨p, part, _, _, _, partEq, same⟩
  · rw [same]
    exact one
  · rw [same]
    exact one.of_parts rfl
  · rw [same]
    obtain ⟨row, rowsEq⟩ := one.rowsToFill partEq
    refine OneRow.of_parts (one.setRows partEq ?_) rfl
    rw [rowsEq, placeJob]
    split_ifs with fits
    · rfl
    · rfl

theorem rmJobFromRes (one : OneRow sys s) (c : Cluster) (job action : Nat) :
    OneRow sys (s.apply c (.rmJobFromRes job action)) := by
  rw [SelectState.apply]
  rcases @SelectState.rmJobFromRes_cases c s job action with
    ⟨_, same⟩ | ⟨_, _, _, same⟩ | ⟨p, part, rows, rows', _, _, _, _, partEq, rowEq, taken, same⟩
  · rw [same]
    exact one
  · rw [same]
    exact one.of_parts rfl
  · rw [same]
    obtain ⟨row, rfl⟩ := List.length_eq_one_iff.mp ((one.rows p part partEq).2 rows rowEq)
    obtain ⟨left, rfl⟩ : ∃ left, rows' = [left] := by
      rw [takeJob] at taken
      split_ifs at taken with mem
      · exact ⟨_, (Option.some.inj taken).symm⟩
      · cases taken
    refine OneRow.of_parts (one.setRows partEq ?_) rfl
    unfold buildRowBitmaps
    dsimp only
    split_ifs with empty
    · rfl
    · rfl

end OneRow

/-! ## What every step keeps -/

theorem addJobToRes_jobs (c : Cluster) (s : SelectState) (job action : Nat) :
    (s.apply c (.addJobToRes job action)).jobs = s.jobs ∧
      (s.apply c (.addJobToRes job action)).initializing = s.initializing := by
  rw [SelectState.apply]
  rcases @SelectState.addJobToRes_cases c s job action with
    ⟨_, same⟩ | ⟨_, _, same⟩ | ⟨p, part, _, _, _, _, same⟩
  all_goals
    rw [same]
    exact ⟨rfl, rfl⟩

theorem rmJobFromRes_jobs (c : Cluster) (s : SelectState) (job action : Nat) :
    (s.apply c (.rmJobFromRes job action)).jobs = s.jobs ∧
      (s.apply c (.rmJobFromRes job action)).initializing = s.initializing := by
  rw [SelectState.apply]
  rcases @SelectState.rmJobFromRes_cases c s job action with
    ⟨_, same⟩ | ⟨_, _, _, same⟩ | ⟨p, part, rows, rows', _, _, _, _, _, _, _, same⟩
  all_goals
    rw [same]
    exact ⟨rfl, rfl⟩

namespace System

variable {sys : System}

/-- The running jobs are the ones in the rows, and their cores are apart. -/
structure Kept (sys : System) (now : Running) : Prop where
  rows : RowsKept sys.cluster now.state now.jobs
  one : OneRow sys now.state
  ready : now.state.initializing = false
  apart : sys.CoresApart now

variable {now : Running} {job : Nat} {req : Request} {res : JobResources}

theorem Kept.bitmap (kept : Kept sys now) (running : job ∈ now.jobs) :
    ∃ p ∈ sys.partList, ∃ bitmap ∈ rowBitmaps now.state p,
      givenCores sys.cluster (now.state.resrcs job) ⊆ bitmap := by
  obtain ⟨p, ptrEq⟩ := Option.isSome_iff_exists.mp (kept.rows.cores job running).2
  have inList := (kept.rows.member p job).mpr ⟨running, ptrEq⟩
  unfold SelectState.listed at inList
  cases partEq : now.state.parts p with
  | none => simp [partEq] at inList
  | some part =>
    cases rowEq : part.row with
    | none => simp [partEq, rowEq] at inList
    | some rows =>
      simp only [partEq, rowEq, Option.bind_some, Option.getD_some, List.mem_flatMap] at inList
      obtain ⟨row, inRows, inRow⟩ := inList
      have ok := (kept.rows.rows p part rows partEq rowEq).each row inRows
      obtain ⟨bitmap, bitmapEq⟩ :=
        Option.isSome_iff_exists.mp (ok.present (List.ne_nil_of_mem inRow))
      refine ⟨p, (kept.one.listed p).mpr (by rw [partEq]; rfl), bitmap, ?_, ?_⟩
      · simp only [rowBitmaps, partEq, rowEq, Option.bind_some, Option.getD_some,
          List.mem_filterMap]
        exact ⟨row, inRows, bitmapEq⟩
      · intro core given
        rw [ok.union bitmap bitmapEq]
        exact mem_unionCores.mpr ⟨job, inRow, givenCores_subset _ _ given⟩

theorem Kept.given_apart (kept : Kept sys now) (tested : sys.crJobTest now.state req = some res)
    (clear : StartsClear sys now.state req) {other : Nat} (running : other ∈ now.jobs) :
    Disjoint (givenCores sys.cluster res) (givenCores sys.cluster (now.state.resrcs other)) := by
  obtain ⟨p, listed, bitmap, row, counted⟩ := kept.bitmap running
  rw [Finset.disjoint_left]
  intro core given otherGiven
  exact given_notMem tested clear given listed row (counted otherGiven)

theorem Kept.findsRow (kept : Kept sys now) (tested : sys.crJobTest now.state req = some res)
    (clear : StartsClear sys now.state req) (listed : req.part ∈ sys.partList) :
    (now.state.apply sys.cluster (.assign job (req.jobInfo res))).findsRow sys.cluster job = true := by
  obtain ⟨part, partEq⟩ := Option.isSome_iff_exists.mp ((kept.one.listed req.part).mp listed)
  obtain ⟨row, rowsEq⟩ := kept.one.rowsToFill partEq
  have fits : canJobFitInRow sys.cluster
      (now.state.apply sys.cluster (.assign job (req.jobInfo res))).resrcs job row = true := by
    cases bitmapEq : row.rowBitmap with
    | none => simp [canJobFitInRow, bitmapEq]
    | some bitmap =>
      have inRow : bitmap ∈ rowBitmaps now.state req.part := by
        cases rowEq : part.row with
        | none =>
          have fresh : row = PartRow.empty := by
            rw [SelectState.rowsToFill, rowEq, (kept.one.rows _ _ partEq).1] at rowsEq
            exact (List.cons.inj rowsEq).1.symm
          rw [fresh] at bitmapEq
          cases bitmapEq
        | some rows =>
          rw [SelectState.rowsToFill, rowEq, Option.getD_some] at rowsEq
          simp [rowBitmaps, partEq, rowEq, rowsEq, bitmapEq]
      simp only [canJobFitInRow, bitmapEq, Option.all_some, Bool.or_eq_true,
        JobResources.jobFitsIntoCores_iff, Finset.disjoint_left]
      refine Or.inr fun core counted => ?_
      simp only [SelectState.apply, SelectState.resrcs, Function.update_self,
        Request.jobInfo] at counted
      exact cores_notMem tested clear listed counted inRow
  simpa [SelectState.findsRow, SelectState.apply, Request.jobInfo, partEq, rowsEq, placeJob] using
    fits

theorem Kept.start (kept : Kept sys now) (tested : sys.crJobTest now.state req = some res)
    (clear : StartsClear sys now.state req) (listed : req.part ∈ sys.partList)
    (waiting : job ∉ now.jobs) :
    Kept sys ⟨(now.state.apply sys.cluster (.assign job (req.jobInfo res))).apply sys.cluster
      (.addJobToRes job 0), insert job now.jobs⟩ := by
  have unlisted : now.state.isListed job = false :=
    SelectState.isListed_eq_false_iff.mpr fun p _ mem =>
      waiting ((kept.rows.member p job).mp mem).1
  have allowed : now.state.Allowed sys.cluster (.assign job (req.jobInfo res)) :=
    ⟨unlisted, fun _ => crJobTest_wellFormed tested⟩
  have assigned := kept.rows.assign allowed
  have still : (now.state.apply sys.cluster (.assign job (req.jobInfo res))).isListed job = false :=
    SelectState.isListed_eq_false_iff.mpr fun p _ mem =>
      waiting ((assigned.member p job).mp mem).1
  have found : (now.state.apply sys.cluster (.assign job (req.jobInfo res))).findsRow
      sys.cluster job = true := kept.findsRow tested clear listed
  have orderly : (now.state.apply sys.cluster (.assign job (req.jobInfo res))).Orderly
      sys.cluster (.addJobToRes job 0) := fun _ _ => still
  have entered := assigned.addJobToRes orderly
  have single : OneRow sys (now.state.apply sys.cluster (.assign job (req.jobInfo res))) :=
    kept.one.of_parts rfl
  rw [SelectState.observe, if_pos ⟨Nat.zero_ne_one, found⟩] at entered
  obtain ⟨jobsEq, readyEq⟩ := addJobToRes_jobs sys.cluster
    (now.state.apply sys.cluster (.assign job (req.jobInfo res))) job 0
  refine ⟨entered, single.addJobToRes sys.cluster job 0, ?_, ?_⟩
  · rw [readyEq]
    exact kept.ready
  · have own : (now.state.apply sys.cluster (.assign job (req.jobInfo res))).resrcs job = res := by
      simp [SelectState.apply, SelectState.resrcs, Request.jobInfo]
    have others : ∀ other ∈ now.jobs,
        (now.state.apply sys.cluster (.assign job (req.jobInfo res))).resrcs other =
          now.state.resrcs other := by
      intro other running
      have ne : other ≠ job := fun same => waiting (same ▸ running)
      simp [SelectState.apply, SelectState.resrcs, Function.update_of_ne ne]
    intro one oneIn two twoIn ne
    simp only [SelectState.resrcs, jobsEq] at own others ⊢
    rcases Finset.mem_insert.mp oneIn with rfl | oneRunning
    · rcases Finset.mem_insert.mp twoIn with rfl | twoRunning
      · exact absurd rfl ne
      · rw [own, others two twoRunning]
        exact kept.given_apart tested clear twoRunning
    · rcases Finset.mem_insert.mp twoIn with rfl | twoRunning
      · rw [own, others one oneRunning]
        exact (kept.given_apart tested clear oneRunning).symm
      · rw [others one oneRunning, others two twoRunning]
        exact kept.apart one oneRunning two twoRunning ne

theorem Kept.finish (kept : Kept sys now) (job : Nat) :
    Kept sys ⟨now.state.apply sys.cluster (.rmJobFromRes job 0), now.jobs.erase job⟩ := by
  have left := kept.rows.rmJobFromRes job 0
  rw [SelectState.observe, if_neg (by simp [kept.ready])] at left
  obtain ⟨jobsEq, readyEq⟩ := rmJobFromRes_jobs sys.cluster now.state job 0
  refine ⟨left, kept.one.rmJobFromRes sys.cluster job 0, ?_, ?_⟩
  · rw [readyEq]
    exact kept.ready
  · intro one oneIn two twoIn ne
    simp only [SelectState.resrcs, jobsEq]
    exact kept.apart one (Finset.mem_of_mem_erase oneIn) two (Finset.mem_of_mem_erase twoIn) ne

theorem Kept.runStep {next : Running} (kept : Kept sys now) {event : RunEvent}
    (clear : sys.ClearEvent now event) (stepped : sys.runStep now event = some next) :
    Kept sys next := by
  cases event with
  | start job req =>
    simp only [System.runStep] at stepped
    split_ifs at stepped with refused
    obtain ⟨waiting, listed⟩ := not_or.mp refused
    obtain ⟨res, tested, rfl⟩ := Option.map_eq_some_iff.mp stepped
    exact kept.start tested clear (not_not.mp listed) waiting
  | finish job =>
    simp only [System.runStep] at stepped
    split_ifs at stepped with running
    cases stepped
    exact kept.finish job

theorem Kept.run {last : Running} {events : List RunEvent} (kept : Kept sys now)
    (clear : sys.ClearRun now events) (ran : sys.run now events = some last) : Kept sys last := by
  induction events generalizing now with
  | nil =>
    cases ran
    exact kept
  | cons event events ih =>
    obtain ⟨here, later⟩ := clear
    obtain ⟨next, stepped, rest⟩ := Option.bind_eq_some_iff.mp ran
    exact ih (kept.runStep here stepped) (later next stepped) rest

theorem idle_kept : Kept sys sys.idle := by
  refine ⟨RowsKept.blank ⟨?_, ?_⟩, ⟨?_, ?_⟩, rfl, ?_⟩
  · intro p part partEq
    simp only [idle] at partEq
    split_ifs at partEq with listed
    cases partEq
    rfl
  · intro job some_
    cases some_
  · simp [idle]
  · intro p part partEq
    simp only [idle] at partEq
    split_ifs at partEq with listed
    cases partEq
    exact ⟨rfl, fun rows rowEq => by cases rowEq⟩
  · intro job running
    exact absurd running (Finset.notMem_empty job)

/-- In a run of starts and ends from the idle records in which every job starts
clear of others, no core is given to two running jobs. -/
theorem clearRun_coresApart (sys : System) (events : List RunEvent)
    (clear : sys.ClearRun sys.idle events) (last : Running)
    (ran : sys.run sys.idle events = some last) : sys.CoresApart last :=
  (idle_kept.run clear ran).apart

/-! ## Sockets and specialized cores -/

/-- A node with two sockets of three cores in two partitions that overlap. -/
def twoSockets : System where
  nodeCount := 1
  record := fun _ => ⟨6, 1, 2, 3, 1, 1, none⟩
  positive := fun _ => by decide
  partList := [0, 1]
  maxCpusPerNode := fun _ => none
  priorityTier := fun _ => 1
  useSpecResources := true
  specCoresFirst := true
  coreDefaultDistBlock := false

/-- A job of one node without special wishes. -/
def plainDetails (minCpus : Nat) : JobDetails where
  coreSpec := noVal16
  cpusPerTask := 1
  minCpus := minCpus
  minNodes := 1
  mcPtr := some ⟨noVal16, noVal16, 0, 0, noVal16, 0⟩
  ntasksPerNode := 0
  numTasks := minCpus
  overcommit := false
  pnMinCpus := 0
  reqNodeBitmap := none
  shareRes := 254
  taskDist := 0x2000
  wholeNode := 0

/-- The one node is chosen, with no more CPUs than the job needs. -/
def plainRequest (crType : CrType) (part : Nat) (details : JobDetails) : Request where
  part := part
  details := details
  nodeBitmap := {0}
  minNodes := 1
  crType := crType
  nodeReq := .oneRow
  excCoreBitmap := none
  completing := ∅
  backfillTest := false
  chooseNodes := fun nodes cpuCnt => ⟨true, nodes, fun node => min (cpuCnt node) details.minCpus, true⟩

/-- Jobs of both partitions take turns on the two sockets. -/
def turnsRun : List RunEvent :=
  [.start 0 (plainRequest .socket 0 (plainDetails 1)),
    .start 1 (plainRequest .socket 1 (plainDetails 1)), .finish 0,
    .start 2 (plainRequest .socket 0 (plainDetails 2))]

theorem turnsRun_coresApart : ∃ last, twoSockets.run twoSockets.idle turnsRun = some last ∧
    last.jobs = {1, 2} ∧ twoSockets.CoresApart last := by
  obtain ⟨last, ran⟩ := Option.isSome_iff_exists.mp
    (show (twoSockets.run twoSockets.idle turnsRun).isSome = true by decide)
  have clear : twoSockets.ClearRun twoSockets.idle turnsRun := by decide
  have jobs : (twoSockets.run twoSockets.idle turnsRun).map Running.jobs = some {1, 2} := by decide
  rw [ran] at jobs
  exact ⟨last, ran, Option.some.inj jobs, clearRun_coresApart twoSockets turnsRun clear last ran⟩

/-- A job of the second partition, which has had a job before, gets the two cores
of the second socket that a job of the first partition has left; when that one has
ended, the next job of the first partition gets the socket as a whole. -/
def sharedSocketRun : List RunEvent :=
  [.start 0 (plainRequest .socket 1 (plainDetails 1)), .finish 0,
    .start 1 (plainRequest .socket 0 { plainDetails 4 with ntasksPerNode := 4 }),
    .start 2 (plainRequest .socket 1 (plainDetails 1)), .finish 1,
    .start 3 (plainRequest .socket 0 (plainDetails 2))]

theorem sharedSocketRun_overlaps :
    ∃ last, twoSockets.run twoSockets.idle sharedSocketRun = some last ∧
      ¬twoSockets.CoresApart last := by
  have overlap : (twoSockets.run twoSockets.idle sharedSocketRun).any
      (fun last => decide ¬twoSockets.CoresApart last) = true := by decide
  obtain ⟨last, ran, shared⟩ := (Option.any_eq_true _ _).mp overlap
  exact ⟨last, ran, of_decide_eq_true shared⟩

end System

end SlurmSim.Select
