import SlurmSim.Controller.Gang
import SlurmSim.Lib.ServedQueue
import SlurmSim.Lib.ShiftDown

/-!
# The time slicer

`_cycle_job_list` on the array of a partition's jobs: active jobs are moved to the back
within the loop that goes over the array, and the row is filled anew from the front.  All
resource types of a row are here, with the processor counts of `GS_CPU`.
-/

namespace SlurmSim.Controller.TimeSlice

open SlurmSim.Common SlurmSim.Controller.Gang SlurmSim.Lib List

/-! ## The active row -/

/-- `enum entity_type` -/
inductive ResourceType where
  | node
  | socket
  | core
  | cpu
  | cpu2
  deriving DecidableEq, Repr

/-- `jobs_active`, `active_resmap` and `active_cpus`. -/
structure Row where
  jobsActive : Nat
  activeResmap : Option (Finset Nat)
  activeCpus : Option (Nat → Nat)

/-- The values of a job's preemption mode that make a difference. -/
inductive PreemptMode where
  | off
  | suspend
  | other
  deriving DecidableEq, Repr

/-- What is read of a `struct job_record`; `grType` is that of its partition. -/
structure Job where
  jobResrcs : JobResources
  grType : ResourceType
  priority : Nat
  preemptMode : PreemptMode

/-- The tables of the nodes and the global `gr_type`. -/
structure Tables where
  cluster : Cluster
  socketCnt : Nat → Nat
  physBitCnt : Nat → Nat
  grType : ResourceType

/-- `struct gs_part`; the shadows are the ids of their jobs. -/
structure Part where
  priority : Nat
  jobList : List GsJob
  shadow : List Nat
  row : Row

/-- What the cycle does to jobs and to other partitions. -/
inductive Call where
  | preempt (job : Nat)
  | suspend (job : Nat)
  | clearShadow (job : Nat)
  | resume (job : Nat)
  | castShadow (job priority : Nat)
  deriving DecidableEq, Repr

section Cycle

variable (g : Tables) (jobs : Nat → Job)

/-- `_can_cpus_fit` -/
def canCpusFit (job : JobResources) (activeCpus : Option (Nat → Nat)) : Bool :=
  if g.grType ≠ .cpu then false
  else
    match activeCpus with
    | none => false
    | some cpus =>
      (job.nodes g.cluster).zipIdx.all fun (i, j) => cpus i + job.cpus.getD j 0 ≤ g.physBitCnt i

/-- `_job_fits_in_active_row` -/
def jobFitsInActiveRow (job : Job) (row : Row) : Bool :=
  match row.activeResmap with
  | none => true
  | some resmap =>
    if row.jobsActive = 0 then true
    else
      match job.grType with
      | .cpu2 | .core | .socket => job.jobResrcs.jobFitsIntoCores g.cluster resmap
      | .node => (job.jobResrcs.nodeBitmap ∩ resmap).card = 0
      | .cpu =>
        if (job.jobResrcs.nodeBitmap ∩ resmap).card = 0 then true
        else canCpusFit g job.jobResrcs row.activeCpus

/-- The `active_cpus` with a job, in 16 bits. -/
def addCpus (job : JobResources) (row : Row) (i : Nat) : Nat :=
  let own := job.cpus.getD ((job.nodes g.cluster).idxOf i) 0
  let before := (row.activeCpus.map fun cpus => cpus i).getD 0
  if row.jobsActive = 0 then if i ∈ job.nodes g.cluster then own else 0
  else if i ∈ job.nodes g.cluster then min ((before + own) % 2 ^ 16) (g.physBitCnt i)
  else before

/-- `_add_job_to_active` -/
def addJobToActive (row : Row) (job : Job) : Row :=
  let resources := job.jobResrcs
  let cleared := if row.jobsActive = 0 then row.activeResmap.map fun _ => ∅ else row.activeResmap
  let nodes := if row.jobsActive = 0 then resources.nodeBitmap
    else row.activeResmap.getD ∅ ∪ resources.nodeBitmap
  { jobsActive := row.jobsActive + 1
    activeResmap := some (match job.grType with
      | .cpu2 | .core => resources.addJobToCores g.cluster cleared
      | .socket => fillSockets ⟨g.cluster, .socket, g.socketCnt⟩ resources.nodeBitmap
          (resources.addJobToCores g.cluster cleared)
      | .node | .cpu => nodes)
    activeCpus := if job.grType = .cpu then some (addCpus g resources row) else row.activeCpus }

/-- A job enters the row if it fits. -/
def activate (row : Row) (job : GsJob) : GsJob × Row :=
  if (jobs job.jobId).priority = 0 then (job, row)
  else if jobFitsInActiveRow g (jobs job.jobId) row then
    ({ job with rowState := .active }, addJobToActive g row (jobs job.jobId))
  else (job, row)

/-- The loop of `_build_active_row` over the jobs. -/
def activateAll : Row → List GsJob → List GsJob × Row
  | row, [] => ([], row)
  | row, job :: rest =>
    let first := activate g jobs row job
    let others := activateAll first.2 rest
    (first.1 :: others.1, others.2)

/-- `_build_active_row` -/
def buildActiveRow (p : Part) : Part :=
  let row := { p.row with jobsActive := 0 }
  if p.jobList.length = 0 then { p with row := row }
  else
    let row := p.shadow.foldl (fun row job => addJobToActive g row (jobs job)) row
    let filled := activateAll g jobs row p.jobList
    { p with jobList := filled.1, row := filled.2 }

end Cycle

/-! ## Rotating the jobs -/

instance : Inhabited GsJob :=
  ⟨⟨0, .suspend, .noActive⟩⟩

/-- Out of the row. -/
def deactivate (job : GsJob) : GsJob :=
  { job with rowState := .noActive }

/-- The inner loop that shifts the jobs behind `i`, and the job put at the end. -/
def moveToBack (jobList : List GsJob) (i : Nat) (job : GsJob) : List GsJob :=
  (ShiftDown.shiftDown 1 i (jobList.length - 1 - i) jobList).set (jobList.length - 1) job

theorem length_moveToBack (jobList : List GsJob) (i : Nat) (job : GsJob) :
    (moveToBack jobList i job).length = jobList.length := by
  rw [moveToBack, length_set, ShiftDown.length_shiftDown]

theorem moveToBack_eq (done rest : List GsJob) (old job : GsJob) :
    moveToBack (done ++ old :: rest) done.length job = done ++ rest ++ [job] := by
  have length : (done ++ old :: rest).length = done.length + rest.length + 1 := by
    rw [length_append, length_cons, Nat.add_assoc]
  have moved := ShiftDown.take_shiftDown_one (done ++ old :: rest)
    (Nat.le_add_right done.length rest.length) length.ge
  rw [take_of_length_le length.le, eraseIdx_append_of_length_le le_rfl, Nat.sub_self,
    eraseIdx_cons_zero] at moved
  rw [moveToBack, set_eq_take_append_cons_drop, ShiftDown.length_shiftDown, length,
    Nat.add_sub_cancel, if_pos (Nat.lt_succ_self _), moved,
    drop_of_length_le (by rw [ShiftDown.length_shiftDown, length])]

/-- The number of jobs in the row. -/
def activeCount (jobList : List GsJob) : Nat :=
  jobList.countP fun job => job.rowState = .active

theorem activeCount_moveToBack {jobList : List GsJob} {i : Nat} {job : GsJob}
    (here : jobList[i]? = some job) (active : job.rowState = .active) :
    activeCount (moveToBack jobList i (deactivate job)) < activeCount jobList := by
  obtain ⟨done, rest, rfl, rfl⟩ : ∃ done rest, jobList = done ++ job :: rest ∧ i = done.length := by
    obtain ⟨mem, same⟩ := List.getElem?_eq_some_iff.mp here
    refine ⟨jobList.take i, jobList.drop (i + 1), ?_, ?_⟩
    · rw [← same, List.cons_getElem_drop_succ, List.take_append_drop]
    · rw [List.length_take, Nat.min_eq_left mem.le]
  rw [moveToBack_eq]
  simp [activeCount, active, deactivate]

/-- The `while` loop at one index. -/
def rotateAt (i : Nat) (jobList : List GsJob) : List GsJob :=
  match _here : jobList[i]? with
  | none => jobList
  | some job =>
    if job.rowState = .active then rotateAt i (moveToBack jobList i (deactivate job))
    else jobList
termination_by activeCount jobList
decreasing_by exact activeCount_moveToBack _here ‹_›

theorem length_rotateAt (i : Nat) (jobList : List GsJob) :
    (rotateAt i jobList).length = jobList.length := by
  fun_induction rotateAt i jobList with
  | case1 jobList none => rfl
  | case2 jobList job here active ih => rw [ih, length_moveToBack]
  | case3 jobList job here idle => rfl

/-- A filler leaves the row. -/
def settle (job : GsJob) : GsJob :=
  if job.rowState = .filler then deactivate job else job

/-- The first loop of `_cycle_job_list`. -/
def rotateFrom (i : Nat) (jobList : List GsJob) : List GsJob :=
  if i < jobList.length then rotateFrom (i + 1) ((rotateAt i jobList).modify i settle) else jobList
termination_by jobList.length - i
decreasing_by
  rw [length_modify, length_rotateAt]
  omega

/-! ## A cycle -/

section Cycle

variable (g : Tables) (jobs : Nat → Job)

/-- The loop that suspends running jobs out of the row. -/
def suspendJob (shadows : Bool) (job : GsJob) : GsJob × List Call :=
  if job.rowState = .noActive ∧ job.sigState = .resume then
    let mode := (jobs job.jobId).preemptMode
    ({ job with sigState := .suspend },
      [if shadows = true ∧ mode ≠ .off ∧ mode ≠ .suspend then .preempt job.jobId
        else .suspend job.jobId, .clearShadow job.jobId])
  else (job, [])

/-- The loop that resumes suspended jobs of the row. -/
def resumeJob (priority : Nat) (job : GsJob) : GsJob × List Call :=
  if job.rowState = .active ∧ job.sigState = .suspend ∧ (jobs job.jobId).priority ≠ 0 then
    ({ job with sigState := .resume }, [.resume job.jobId, .castShadow job.jobId priority])
  else (job, [])

/-- `_cycle_job_list` -/
def cycleJobList (p : Part) : Part × List Call :=
  let p := buildActiveRow g jobs { p with jobList := rotateFrom 0 p.jobList }
  let idle := p.jobList.map (suspendJob jobs (p.shadow ≠ []))
  let jobList := idle.map Prod.fst
  let awake := jobList.map (resumeJob jobs p.priority)
  ({ p with jobList := awake.map Prod.fst },
    idle.flatMap Prod.snd ++ awake.flatMap Prod.snd)

/-- The partition after so many cycles. -/
def cycles (p : Part) (count : Nat) : Part :=
  (fun p => (cycleJobList g jobs p).1)^[count] p

end Cycle

/-! ## The order of the jobs -/

variable {job : GsJob}

theorem rotateJobs_active {rest : List GsJob} (active : job.rowState = .active) :
    rotateJobs (rest ++ [deactivate job]) = rotateJobs (job :: rest) := by
  simp [rotateJobs, active, deactivate]

theorem rotateJobs_idle {rest : List GsJob} (idle : job.rowState ≠ .active) :
    rotateJobs (job :: rest) = deactivate job :: rotateJobs rest := by
  simp [rotateJobs, idle, deactivate]

theorem settle_eq (idle : job.rowState ≠ .active) : settle job = deactivate job := by
  rw [settle]
  cases state : job.rowState with
  | active => exact absurd state idle
  | noActive =>
    rw [if_neg (by decide), deactivate, ← state]
  | filler => exact if_pos rfl

theorem rotateAt_idle (done : List GsJob) (others : List GsJob) (idle : job.rowState ≠ .active) :
    rotateAt done.length (done ++ job :: others) = done ++ job :: others := by
  rw [rotateAt]
  split
  · rfl
  · rename_i here
    rw [getElem?_append_right le_rfl, Nat.sub_self, getElem?_cons_zero, Option.some.injEq] at here
    exact if_neg (here ▸ idle)

theorem rotateAt_active (done : List GsJob) (others : List GsJob)
    (active : job.rowState = .active) : rotateAt done.length (done ++ job :: others) =
      rotateAt done.length (done ++ (others ++ [deactivate job])) := by
  have here : (done ++ job :: others)[done.length]? = some job := by
    rw [getElem?_append_right le_rfl, Nat.sub_self, getElem?_cons_zero]
  rw [rotateAt]
  split
  · rename_i none
    rw [here] at none
    cases none
  · rename_i same
    obtain rfl := Option.some.inj (here.symm.trans same)
    rw [if_pos active, moveToBack_eq, append_assoc]

theorem rotateAt_spec (done rest : List GsJob) (some_ : rest ≠ []) : ∃ job others,
    rotateAt done.length (done ++ rest) = done ++ job :: others ∧ job.rowState ≠ .active ∧
      rest.length = others.length + 1 ∧ rotateJobs (job :: others) = rotateJobs rest := by
  induction count : activeCount rest using Nat.strong_induction_on generalizing rest with
  | _ n ih =>
    cases rest with
    | nil => exact absurd rfl some_
    | cons job others =>
      by_cases active : job.rowState = .active
      · have less : activeCount (others ++ [deactivate job]) < n := by
          rw [← count]
          simp [activeCount, active, deactivate]
        obtain ⟨job', others', run, idle, length, same⟩ := ih _ less (others ++ [deactivate job])
          (append_ne_nil_of_right_ne_nil _ (cons_ne_nil _ _)) rfl
        refine ⟨job', others', (rotateAt_active done others active).trans run, idle, ?_, ?_⟩
        · rw [← length, length_append, length_cons, length_singleton]
        · exact same.trans (rotateJobs_active active)
      · exact ⟨job, others, rotateAt_idle done others active, active, rfl, rfl⟩

theorem modify_middle (done : List GsJob) (job : GsJob) (others : List GsJob)
    (change : GsJob → GsJob) :
    (done ++ job :: others).modify done.length change = done ++ change job :: others := by
  induction done with
  | nil => rfl
  | cons first done ih =>
    rw [cons_append, length_cons, modify_succ_cons, ih, cons_append]

theorem rotateFrom_eq (done rest : List GsJob) :
    rotateFrom done.length (done ++ rest) = done ++ rotateJobs rest := by
  induction count : rest.length generalizing done rest with
  | zero =>
    obtain rfl : rest = [] := length_eq_zero_iff.mp count
    rw [rotateFrom, if_neg (by simp)]
    rfl
  | succ n ih =>
    have some_ : rest ≠ [] := ne_nil_of_length_eq_add_one count
    obtain ⟨job, others, run, idle, length, same⟩ := rotateAt_spec done rest some_
    have settled : (done ++ job :: others).modify done.length settle =
        (done ++ [deactivate job]) ++ others := by
      rw [modify_middle, settle_eq idle, append_assoc, singleton_append]
    have next := ih (done ++ [deactivate job]) others (by omega)
    rw [length_append, length_singleton] at next
    rw [rotateFrom, if_pos (by rw [length_append]; omega), run, settled, next, ← same,
      rotateJobs_idle idle, append_assoc, singleton_append]

theorem rotateFrom_zero (jobList : List GsJob) : rotateFrom 0 jobList = rotateJobs jobList :=
  rotateFrom_eq [] jobList

/-- Whether a job is in the row. -/
def inRow (job : GsJob) : Bool :=
  job.rowState = .active

theorem rotateJobs_ids (jobList : List GsJob) :
    (rotateJobs jobList).map GsJob.jobId = (ServedQueue.toBack inRow jobList).map GsJob.jobId := by
  have ids : (GsJob.jobId ∘ fun job : GsJob => { job with rowState := .noActive }) = GsJob.jobId :=
    rfl
  have same : (fun job : GsJob => decide (job.rowState = .active)) = inRow := rfl
  rw [rotateJobs, map_map, ids, ServedQueue.toBack, ← same]
  simp

/-! ## The new row -/

section Row

variable (g : Tables) (jobs : Nat → Job)

theorem jobFitsInActiveRow_first (job : Job) {row : Row} (first : row.jobsActive = 0) :
    jobFitsInActiveRow g job row = true := by
  rw [jobFitsInActiveRow]
  split
  · rfl
  · exact if_pos first

theorem activateAll_ids (row : Row) (jobList : List GsJob) :
    (activateAll g jobs row jobList).1.map GsJob.jobId = jobList.map GsJob.jobId := by
  induction jobList generalizing row with
  | nil => rfl
  | cons job rest ih =>
    rw [activateAll, map_cons, map_cons, ih, activate]
    split_ifs <;> rfl

theorem activateAll_first {row : Row} {job : GsJob} {rest : List GsJob}
    (first : row.jobsActive = 0) (priority : (jobs job.jobId).priority ≠ 0) : ∃ others,
    (activateAll g jobs row (job :: rest)).1 = { job with rowState := .active } :: others := by
  rw [activateAll, activate, if_neg priority, if_pos (jobFitsInActiveRow_first g _ first)]
  exact ⟨_, rfl⟩

theorem buildActiveRow_shadow (p : Part) : (buildActiveRow g jobs p).shadow = p.shadow := by
  rw [buildActiveRow]
  split_ifs <;> rfl

theorem buildActiveRow_ids (p : Part) :
    (buildActiveRow g jobs p).jobList.map GsJob.jobId = p.jobList.map GsJob.jobId := by
  rw [buildActiveRow]
  split_ifs
  · rfl
  · exact activateAll_ids g jobs _ p.jobList

theorem buildActiveRow_first {p : Part} (noShadows : p.shadow = []) {job : GsJob}
    {rest : List GsJob} (here : p.jobList = job :: rest)
    (priority : (jobs job.jobId).priority ≠ 0) : ∃ others,
    (buildActiveRow g jobs p).jobList = { job with rowState := .active } :: others := by
  rw [buildActiveRow]
  rw [if_neg (by simp [here]), here, noShadows]
  exact activateAll_first g jobs rfl priority

/-! ## One cycle -/

theorem resume_suspend (shadows : Bool) (priority : Nat) (job : GsJob) :
    (resumeJob jobs priority (suspendJob jobs shadows job).1).1.jobId = job.jobId ∧
    (resumeJob jobs priority (suspendJob jobs shadows job).1).1.rowState = job.rowState := by
  rw [resumeJob, suspendJob]
  split_ifs <;> exact ⟨rfl, rfl⟩

theorem resumed (shadows : Bool) (priority : Nat) {job : GsJob}
    (able : (jobs job.jobId).priority ≠ 0) (active : job.rowState = .active) :
    (resumeJob jobs priority (suspendJob jobs shadows job).1).1.sigState = .resume := by
  have kept : suspendJob jobs shadows job = (job, []) := by
    rw [suspendJob, if_neg]
    rw [active]
    exact fun both => absurd both.1 (by decide)
  rw [kept, resumeJob]
  cases state : job.sigState with
  | suspend => rw [if_pos ⟨active, rfl, able⟩]
  | resume =>
    rw [if_neg fun all => absurd all.2.1 (by decide)]
    exact state

theorem cycleJobList_jobList (p : Part) : (cycleJobList g jobs p).1.jobList =
    (buildActiveRow g jobs { p with jobList := rotateJobs p.jobList }).jobList.map fun job =>
      (resumeJob jobs (buildActiveRow g jobs { p with jobList := rotateJobs p.jobList }).priority
        (suspendJob jobs
          ((buildActiveRow g jobs { p with jobList := rotateJobs p.jobList }).shadow ≠ []) job).1).1 := by
  simp only [cycleJobList, rotateFrom_zero, map_map]
  rfl

/-- What a cycle does to the jobs of a partition. -/
structure CycleRight (before after : Part) : Prop where
  order : after.jobList.map GsJob.jobId =
    (before.jobList.filter fun job => job.rowState ≠ .active).map GsJob.jobId ++
      (before.jobList.filter fun job => job.rowState = .active).map GsJob.jobId
  perm : (after.jobList.map GsJob.jobId).Perm (before.jobList.map GsJob.jobId)
  first : ∀ job rest, after.jobList = job :: rest → job.rowState = .active

/-- The job is in the row and was resumed. -/
def Running (p : Part) (jobId : Nat) : Prop :=
  ∃ job ∈ p.jobList, job.jobId = jobId ∧ job.rowState = .active ∧ job.sigState = .resume

/-- No shadows, and jobs that are not held. -/
structure Sliced (jobs : Nat → Job) (p : Part) : Prop where
  noShadows : p.shadow = []
  able : ∀ job ∈ p.jobList, (jobs job.jobId).priority ≠ 0
  distinct : (p.jobList.map GsJob.jobId).Nodup

variable {g jobs} {p : Part}

theorem cycleJobList_ids (p : Part) : (cycleJobList g jobs p).1.jobList.map GsJob.jobId =
    (ServedQueue.toBack inRow p.jobList).map GsJob.jobId := by
  rw [cycleJobList_jobList, map_map, ← rotateJobs_ids, ← buildActiveRow_ids g jobs
    { p with jobList := rotateJobs p.jobList }]
  exact map_congr_left fun job _ => (resume_suspend jobs _ _ job).1

theorem able_of_perm {ids : List Nat} (sliced : Sliced jobs p)
    (perm : ids.Perm (p.jobList.map GsJob.jobId)) : ∀ id ∈ ids, (jobs id).priority ≠ 0 := by
  intro id mem
  obtain ⟨job, inside, rfl⟩ := mem_map.mp (perm.mem_iff.mp mem)
  exact sliced.able job inside

theorem cycleJobList_right (g : Tables) (sliced : Sliced jobs p) :
    CycleRight p (cycleJobList g jobs p).1 ∧ Sliced jobs (cycleJobList g jobs p).1 ∧
      ∀ job ∈ (cycleJobList g jobs p).1.jobList, job.rowState = .active → job.sigState = .resume := by
  have perm : ((cycleJobList g jobs p).1.jobList.map GsJob.jobId).Perm
      (p.jobList.map GsJob.jobId) := by
    rw [cycleJobList_ids]
    exact (ServedQueue.toBack_perm inRow p.jobList).map _
  have able : ∀ job ∈ (cycleJobList g jobs p).1.jobList, (jobs job.jobId).priority ≠ 0 :=
    fun job mem => able_of_perm sliced perm job.jobId (mem_map_of_mem mem)
  refine ⟨⟨?_, perm, ?_⟩, ⟨?_, able, perm.nodup_iff.mpr sliced.distinct⟩, ?_⟩
  · have same : (fun job : GsJob => decide (job.rowState = .active)) = inRow := rfl
    rw [cycleJobList_ids, ServedQueue.toBack, map_append, ← same]
    simp
  · intro job rest here
    rw [cycleJobList_jobList] at here
    cases order : rotateJobs p.jobList with
    | nil =>
      have none := buildActiveRow_ids g jobs { p with jobList := rotateJobs p.jobList }
      rw [map_eq_nil_iff.mp (none.trans (by rw [order]; rfl))] at here
      cases here
    | cons front others =>
      have frontAble : (jobs front.jobId).priority ≠ 0 := by
        refine able_of_perm sliced
          (rotateJobs_ids p.jobList ▸ (ServedQueue.toBack_perm inRow p.jobList).map _) _ ?_
        rw [order, map_cons]
        exact mem_cons_self
      obtain ⟨built, same⟩ := @buildActiveRow_first g jobs
        { p with jobList := rotateJobs p.jobList } sliced.noShadows front others order frontAble
      rw [same, map_cons] at here
      rw [← (List.cons.inj here).1, (resume_suspend jobs _ _ _).2]
  · exact (buildActiveRow_shadow g jobs _).trans sliced.noShadows
  · intro job mem active
    rw [cycleJobList_jobList] at mem
    obtain ⟨before, inBefore, rfl⟩ := mem_map.mp mem
    have kept := resume_suspend jobs
      ((buildActiveRow g jobs { p with jobList := rotateJobs p.jobList }).shadow ≠ [])
      (buildActiveRow g jobs { p with jobList := rotateJobs p.jobList }).priority before
    refine resumed jobs _ _ ?_ (kept.2 ▸ active)
    have ability := able _ (cycleJobList_jobList g jobs p ▸ mem)
    rw [kept.1] at ability
    exact ability

theorem cycles_succ (g : Tables) (jobs : Nat → Job) (p : Part) (k : Nat) :
    cycles g jobs p (k + 1) = (cycleJobList g jobs (cycles g jobs p k)).1 :=
  Function.iterate_succ_apply' _ k p

theorem cycles_sliced (g : Tables) (sliced : Sliced jobs p) (k : Nat) : Sliced jobs (cycles g jobs p k) ∧
    ((cycles g jobs p k).jobList.map GsJob.jobId).Perm (p.jobList.map GsJob.jobId) := by
  induction k with
  | zero => exact ⟨sliced, List.Perm.refl _⟩
  | succ k ih =>
    obtain ⟨right, next, -⟩ := cycleJobList_right g ih.1
    rw [cycles_succ]
    exact ⟨next, right.perm.trans ih.2⟩

/-- The ids of the jobs in the row. -/
def servedIds (p : Part) (jobId : Nat) : Bool :=
  p.jobList.any fun job => job.jobId = jobId && inRow job

theorem servedIds_eq (sliced : Sliced jobs p) {job : GsJob} (mem : job ∈ p.jobList) :
    servedIds p job.jobId = inRow job := by
  rw [servedIds, Bool.eq_iff_iff, any_eq_true]
  constructor
  · rintro ⟨other, inside, both⟩
    simp only [Bool.and_eq_true, decide_eq_true_eq] at both
    rw [← inj_on_of_nodup_map sliced.distinct inside mem both.1]
    exact both.2
  · exact fun active => ⟨job, mem, by simp [active]⟩

/-- A cycle permutes the jobs, puts those of the row behind the others and starts with the
new front, and every job runs in one of as many cycles as there are jobs. -/
theorem cycles_fair (g : Tables) (jobs : Nat → Job) (p : Part) (sliced : Sliced jobs p) :
    (∀ k, CycleRight (cycles g jobs p k) (cycles g jobs p (k + 1))) ∧
    ∀ k, ∀ job ∈ p.jobList, ∃ m, k < m ∧ m ≤ k + p.jobList.length ∧
      Running (cycles g jobs p m) job.jobId := by
  have step := fun k => cycleJobList_right g (cycles_sliced g sliced k).1
  refine ⟨fun k => cycles_succ g jobs p k ▸ (step k).1, fun k job mem => ?_⟩
  have next : ∀ j, (cycles g jobs p (j + 1 + 1)).jobList.map GsJob.jobId =
      ServedQueue.toBack (servedIds (cycles g jobs p (j + 1)))
        ((cycles g jobs p (j + 1)).jobList.map GsJob.jobId) := by
    intro j
    rw [cycles_succ g jobs p (j + 1), cycleJobList_ids]
    exact (ServedQueue.toBack_map _ fun job mem =>
      servedIds_eq (cycles_sliced g sliced (j + 1)).1 mem).symm
  have first : ∀ j id rest, (cycles g jobs p (j + 1)).jobList.map GsJob.jobId = id :: rest →
      servedIds (cycles g jobs p (j + 1)) id = true := by
    intro j id rest here
    obtain ⟨front, others, list, rfl, -⟩ := map_eq_cons_iff.mp here
    rw [servedIds_eq (cycles_sliced g sliced (j + 1)).1 (list ▸ mem_cons_self)]
    rw [cycles_succ] at list
    exact decide_eq_true ((step j).1.first front others list)
  have perm := (cycles_sliced g sliced (k + 1)).2
  obtain ⟨m, least, most, served⟩ := ServedQueue.served_within next first k
    (perm.mem_iff.mpr (mem_map_of_mem mem))
  rw [perm.length_eq, length_map] at most
  obtain ⟨found, inside, both⟩ := any_eq_true.mp served
  simp only [Bool.and_eq_true, decide_eq_true_eq] at both
  have active : found.rowState = .active := of_decide_eq_true both.2
  refine ⟨m + 1, by omega, by omega, found, inside, both.1, active, ?_⟩
  rw [cycles_succ] at inside
  exact (step m).2.2 found inside active

end Row

/-- One node with one core. -/
def oneNode : Tables :=
  ⟨⟨1, fun _ => 1, fun _ => Nat.one_pos⟩, fun _ => 1, fun _ => 1, .core⟩

/-- A job that uses the core. -/
def wholeJob : Job :=
  ⟨⟨[true], [1], [], {0}, 0, 1, [], 0⟩, .core, 1, .suspend⟩

/-- Two jobs that exclude each other. -/
def contended : Part :=
  ⟨1, [⟨7, .resume, .filler⟩, ⟨8, .suspend, .noActive⟩], [], ⟨0, none, none⟩⟩

theorem cycles_fair_contended : ∃ m, 0 < m ∧ m ≤ 2 ∧
    Running (cycles oneNode (fun _ => wholeJob) contended m) 8 :=
  (cycles_fair oneNode (fun _ => wholeJob) contended
    ⟨rfl, fun _ _ => Nat.one_ne_zero, by decide⟩).2 0 ⟨8, .suspend, .noActive⟩ (by decide)

end SlurmSim.Controller.TimeSlice
