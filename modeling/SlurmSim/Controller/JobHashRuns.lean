import Mathlib.Tactic.FinCases
import SlurmSim.Controller.JobHash

/-!
# Runs over the job hash tables

Each operation is followed table by table: which records its three chains hold
before and after.  A run keeps all three in step with the live records as long
as deleted task records are the last of their array chains.
-/

namespace SlurmSim.Controller

open Lib List
open Finset (card_le_card mem_insert mem_of_mem_erase notMem_erase)

namespace JobTable

/-- The chains of `job_hash` hold `jobs`. -/
def JobsIn (t : JobTable) (jobs : Finset Nat) : Prop :=
  t.jobHash.Holds t.jobIndex jobs

/-- The chains of both array tables hold `tasks`. -/
structure TasksIn (t : JobTable) (tasks : Finset Nat) : Prop where
  arrayJobs : t.arrayHashJ.Holds t.arrayJobIndex tasks
  arrayTasks : t.arrayHashT.Holds t.arrayTaskIndex tasks

section Chains

variable {t : JobTable} {jobs tasks : Finset Nat} {ptr : Nat}

theorem setRec_recs (t : JobTable) (ptr : Nat) (job : JobRecord) :
    (t.setRec ptr job).recs ptr = job ∧
      ∀ other, other ≠ ptr → (t.setRec ptr job).recs other = t.recs other :=
  ⟨Function.update_self .., fun _ ne => Function.update_of_ne ne ..⟩

theorem JobsIn.setRec (held : t.JobsIn jobs) (job : JobRecord)
    (sameId : ptr ∈ jobs → job.jobId = (t.recs ptr).jobId) : (t.setRec ptr job).JobsIn jobs := by
  obtain ⟨recAt, recOther⟩ := setRec_recs t ptr job
  refine Buckets.Holds.congr held fun other mem => ?_
  rcases eq_or_ne other ptr with rfl | different
  · rw [jobIndex, recAt, sameId mem]
    rfl
  · rw [jobIndex, recOther other different]
    rfl

theorem TasksIn.setRec (held : t.TasksIn tasks) (job : JobRecord)
    (sameTask : ptr ∈ tasks → job.arrayJobId = (t.recs ptr).arrayJobId ∧
      job.arrayTaskId = (t.recs ptr).arrayTaskId) : (t.setRec ptr job).TasksIn tasks := by
  obtain ⟨recAt, recOther⟩ := setRec_recs t ptr job
  refine ⟨held.arrayJobs.congr ?_, held.arrayTasks.congr ?_⟩
  · intro other mem
    rcases eq_or_ne other ptr with rfl | different
    · rw [arrayJobIndex, recAt, (sameTask mem).1]
      rfl
    · rw [arrayJobIndex, recOther other different]
      rfl
  · intro other mem
    rcases eq_or_ne other ptr with rfl | different
    · rw [arrayTaskIndex, recAt, (sameTask mem).1, (sameTask mem).2]
      rfl
    · rw [arrayTaskIndex, recOther other different]
      rfl

theorem JobsIn.allocate (held : t.JobsIn jobs) (job : JobRecord) (newJob : ptr ∉ jobs) :
    (t.allocate ptr job).JobsIn jobs :=
  Buckets.Holds.setNext (held.setRec job fun mem => absurd mem newJob) newJob none

theorem TasksIn.allocate (held : t.TasksIn tasks) (job : JobRecord) (newTask : ptr ∉ tasks) :
    (t.allocate ptr job).TasksIn tasks := by
  have written := held.setRec job fun mem => absurd mem newTask
  exact ⟨written.arrayJobs.setNext newTask none, written.arrayTasks.setNext newTask none⟩

theorem JobsIn.addJobHash (held : t.JobsIn jobs) (newJob : ptr ∉ jobs) :
    (t.addJobHash ptr).JobsIn (insert ptr jobs) :=
  Buckets.Holds.push held newJob

theorem TasksIn.addJobArrayHash (held : t.TasksIn tasks)
    (isTask : (t.recs ptr).arrayTaskId ≠ noVal) (newTask : ptr ∉ tasks) :
    (t.addJobArrayHash ptr).TasksIn (insert ptr tasks) := by
  rw [JobTable.addJobArrayHash, if_neg isTask]
  exact ⟨held.arrayJobs.push newTask, held.arrayTasks.push newTask⟩

theorem JobsIn.addJobArrayHash (held : t.JobsIn jobs) : (t.addJobArrayHash ptr).JobsIn jobs := by
  rw [JobTable.addJobArrayHash]
  split_ifs
  · exact held
  · exact held

theorem JobsIn.removeJob (held : t.JobsIn jobs) (mem : ptr ∈ jobs)
    (enough : jobs.card ≤ t.live.card) : (t.removeJobHash ptr .job).JobsIn (jobs.erase ptr) :=
  (Buckets.Holds.unlink held mem enough).setNext (notMem_erase _ _) none

theorem TasksIn.removeArray (held : t.TasksIn tasks) (mem : ptr ∈ tasks)
    (enough : tasks.card ≤ t.live.card) (cleared : t.jobHash.next ptr = none)
    (lastJ : t.arrayHashJ.next ptr = none) (lastT : t.arrayHashT.next ptr = none) :
    ((t.removeJobHash ptr .arrayJob).removeJobHash ptr .arrayTask).TasksIn (tasks.erase ptr) := by
  have arrayJobs := held.arrayJobs.unlink mem enough
  have arrayTasks := held.arrayTasks.unlink mem enough
  have stillCleared : (t.removeJobHash ptr .arrayJob).jobHash.next ptr = none :=
    Function.update_self ..
  constructor
  · rw [lastJ, ← cleared] at arrayJobs
    exact arrayJobs
  · rw [lastT, ← stillCleared] at arrayTasks
    exact arrayTasks

end Chains

/-! ## What the searches find -/

/-- `job_hash` holds the live records, and their ids are distinct. -/
structure IdsHeld (t : JobTable) : Prop where
  jobs : t.JobsIn t.live
  distinctIds : ∀ ptr ∈ t.live, ∀ other ∈ t.live,
    (t.recs ptr).jobId = (t.recs other).jobId → ptr = other

/-- Beyond that, the array tables hold the live task records, all distinct. -/
structure Consistent (t : JobTable) : Prop extends IdsHeld t, TasksIn t t.tasks where
  distinctTasks : ∀ ptr ∈ t.tasks, ∀ other ∈ t.tasks,
    (t.recs ptr).arrayJobId = (t.recs other).arrayJobId →
    (t.recs ptr).arrayTaskId = (t.recs other).arrayTaskId → ptr = other

theorem find?_eq_some_of_unique {cells : List Nat} {wanted : Nat → Bool} {ptr : Nat}
    (mem : ptr ∈ cells) (isWanted : wanted ptr = true)
    (unique : ∀ other ∈ cells, wanted other = true → other = ptr) :
    cells.find? wanted = some ptr := by
  cases found : cells.find? wanted with
  | none =>
    have none_ := find?_eq_none.mp found ptr mem
    exact absurd isWanted none_
  | some other =>
    rw [unique other (mem_of_find?_eq_some found) (find?_some found)]

theorem tasks_subset (t : JobTable) : t.tasks ⊆ t.live := Finset.filter_subset _ _

theorem mem_tasks {t : JobTable} {ptr : Nat} :
    ptr ∈ t.tasks ↔ ptr ∈ t.live ∧ (t.recs ptr).arrayTaskId ≠ noVal := by
  simp [tasks]

section Searches

variable {t : JobTable}

theorem IdsHeld.findJobRecord_iff (held : t.IdsHeld) (jobId : UInt32) (ptr : Nat) :
    t.findJobRecord jobId = some ptr ↔ ptr ∈ t.live ∧ (t.recs ptr).jobId = jobId := by
  obtain ⟨_, exact_⟩ :=
    Buckets.Holds.cells_spec held.jobs le_rfl (t.jobHashInx jobId)
  constructor
  · intro found
    have inside := ((exact_ ptr).mp (mem_of_find?_eq_some found)).1
    exact ⟨inside, by simpa using find?_some found⟩
  · rintro ⟨inside, rfl⟩
    refine find?_eq_some_of_unique ((exact_ ptr).mpr ⟨inside, rfl⟩) (by simp) ?_
    intro other mem same
    exact held.distinctIds other ((exact_ other).mp mem).1 ptr inside (by simpa using same)

theorem arrayTasks_spec (arrayJobs : t.arrayHashJ.Holds t.arrayJobIndex t.tasks)
    (arrayJobId : UInt32) : (t.arrayTasks arrayJobId).Nodup ∧ ∀ ptr, ptr ∈ t.arrayTasks arrayJobId ↔
        ptr ∈ t.tasks ∧ (t.recs ptr).arrayJobId = arrayJobId := by
  obtain ⟨distinct, exact_⟩ := arrayJobs.cells_spec
    (card_le_card t.tasks_subset) (t.jobHashInx arrayJobId)
  refine ⟨distinct.filter _, fun ptr => ?_⟩
  rw [JobTable.arrayTasks, mem_filter, exact_ ptr, decide_eq_true_eq]
  constructor
  · rintro ⟨⟨mem, _⟩, same⟩
    exact ⟨mem, same⟩
  · rintro ⟨mem, same⟩
    refine ⟨⟨mem, ?_⟩, same⟩
    rw [arrayJobIndex, same]

theorem findTask_cell_iff (consistent : t.Consistent) (arrayJobId taskId : UInt32) (ptr : Nat) :
    (t.arrayHashT.cells t.live.card (t.jobArrayHashInx arrayJobId taskId)).find?
        (fun ptr => (t.recs ptr).arrayJobId = arrayJobId ∧ (t.recs ptr).arrayTaskId = taskId) =
      some ptr ↔ ptr ∈ t.tasks ∧ (t.recs ptr).arrayJobId = arrayJobId ∧
        (t.recs ptr).arrayTaskId = taskId := by
  obtain ⟨_, exact_⟩ := consistent.arrayTasks.cells_spec
    (card_le_card t.tasks_subset) (t.jobArrayHashInx arrayJobId taskId)
  constructor
  · intro found
    have inside := ((exact_ ptr).mp (mem_of_find?_eq_some found)).1
    exact ⟨inside, by simpa using find?_some found⟩
  · rintro ⟨inside, sameJob, sameTask⟩
    refine find?_eq_some_of_unique ((exact_ ptr).mpr ⟨inside, ?_⟩) (by simp [sameJob, sameTask]) ?_
    · rw [arrayTaskIndex, sameJob, sameTask]
    · intro other mem same
      have same : (t.recs other).arrayJobId = arrayJobId ∧
          (t.recs other).arrayTaskId = taskId := by simpa using same
      exact consistent.distinctTasks other ((exact_ other).mp mem).1 ptr inside
        (same.1.trans sameJob.symm) (same.2.trans sameTask.symm)

theorem Consistent.faithful (consistent : t.Consistent) : t.Faithful := by
  have findRecord := consistent.findJobRecord_iff
  have scanned := arrayTasks_spec consistent.arrayJobs
  refine ⟨consistent.jobs, consistent.arrayJobs, consistent.arrayTasks, findRecord, ?_, ?_, ?_⟩
  · intro arrayJobId taskId ptr notNoVal notInfinite
    have cell := findTask_cell_iff consistent arrayJobId taskId
    rw [findJobArrayRec, if_neg notNoVal, if_neg notInfinite]
    constructor
    · intro isTask
      rw [(cell ptr).mpr isTask]
    · intro found
      generalize searchEq : (t.arrayHashT.cells t.live.card
        (t.jobArrayHashInx arrayJobId taskId)).find? _ = search at found
      cases search with
      | some first =>
        cases found
        exact Or.inl ((cell _).mp searchEq)
      | none =>
        obtain ⟨meta_, holds⟩ := Option.filter_eq_some_iff.mp found
        obtain ⟨mem, same⟩ := (findRecord arrayJobId ptr).mp meta_
        exact Or.inr ⟨mem, same, holds⟩
  · intro own each arrayJobId
    rw [testJobArray, Bool.and_eq_true, all_eq_true]
    refine and_congr ?_ ?_
    · constructor
      · intro passes ptr mem same
        have found := (findRecord arrayJobId ptr).mpr ⟨mem, same⟩
        rw [found] at passes
        exact passes
      · intro passes
        cases found : t.findJobRecord arrayJobId with
        | none => rfl
        | some ptr =>
          obtain ⟨mem, same⟩ := (findRecord arrayJobId ptr).mp found
          exact passes ptr mem same
    · constructor
      · intro passes ptr isTask same
        exact passes ptr (((scanned arrayJobId).2 ptr).mpr ⟨isTask, same⟩)
      · intro passes ptr member
        obtain ⟨isTask, same⟩ := ((scanned arrayJobId).2 ptr).mp member
        exact passes ptr isTask same
  · intro arrayJobId
    obtain ⟨distinct, exact_⟩ := scanned arrayJobId
    have setEq : (t.tasks.filter fun ptr =>
        (t.recs ptr).arrayJobId = arrayJobId ∧ (t.recs ptr).isPending = true) =
        ((t.arrayTasks arrayJobId).filter fun ptr => (t.recs ptr).isPending).toFinset := by
      ext ptr
      rw [Finset.mem_filter, mem_toFinset, mem_filter, exact_ ptr]
      exact and_assoc.symm
    rw [numPendingJobArrayTasks, countP_eq_length_filter, setEq,
      toFinset_card_of_nodup (distinct.filter _)]

end Searches

/-! ## One operation -/

section Steps

variable {t : JobTable} {ptr pend : Nat} {job : JobRecord} {newId taskId : UInt32}

theorem not_mem_tasks (noTask : (t.recs ptr).arrayTaskId = noVal) : ptr ∉ t.tasks :=
  fun mem => (mem_tasks.mp mem).2 noTask

/-! ### Creation -/

theorem create_recs (fresh : ptr ∉ t.live) :
    (t.apply (.create ptr job)).recs ptr = job ∧
      ∀ other ∈ t.live, (t.apply (.create ptr job)).recs other = t.recs other := by
  refine ⟨Function.update_self .., fun other mem => ?_⟩
  refine Function.update_of_ne ?_ ..
  rintro rfl
  exact fresh mem

theorem IdsHeld.create (held : t.IdsHeld) (fresh : ptr ∉ t.live) (freshId : t.FreshId job.jobId) :
    (t.apply (.create ptr job)).IdsHeld := by
  obtain ⟨recAt, recOther⟩ := @create_recs t ptr job fresh
  refine ⟨(held.jobs.allocate job fresh).addJobHash fresh, ?_⟩
  intro one oneLive two twoLive same
  rcases mem_insert.mp oneLive with rfl | oneOld
  · rcases mem_insert.mp twoLive with rfl | twoOld
    · rfl
    · rw [recAt, recOther two twoOld] at same
      exact absurd same.symm (freshId two twoOld)
  · rcases mem_insert.mp twoLive with rfl | twoOld
    · rw [recAt, recOther one oneOld] at same
      exact absurd same (freshId one oneOld)
    · rw [recOther one oneOld, recOther two twoOld] at same
      exact held.distinctIds one oneOld two twoOld same

theorem Consistent.create (consistent : t.Consistent) (fresh : ptr ∉ t.live)
    (noTask : job.arrayTaskId = noVal) (freshId : t.FreshId job.jobId) :
    (t.apply (.create ptr job)).Consistent := by
  obtain ⟨recAt, recOther⟩ := @create_recs t ptr job fresh
  have tasksEq : (t.apply (.create ptr job)).tasks = t.tasks := by
    ext other
    rw [mem_tasks, mem_tasks]
    change other ∈ insert ptr t.live ∧ _ ↔ _
    rw [mem_insert]
    constructor
    · rintro ⟨rfl | member, isTask⟩
      · rw [recAt] at isTask
        exact absurd noTask isTask
      · rw [recOther other member] at isTask
        exact ⟨member, isTask⟩
    · rintro ⟨member, isTask⟩
      rw [recOther other member]
      exact ⟨Or.inr member, isTask⟩
  have noTaskYet : ptr ∉ t.tasks := fun member => fresh (t.tasks_subset member)
  refine ⟨consistent.toIdsHeld.create fresh freshId, ?_, ?_⟩
  · have allocated := consistent.toTasksIn.allocate job noTaskYet
    rw [tasksEq]
    exact ⟨allocated.arrayJobs, allocated.arrayTasks⟩
  · intro one oneTask two twoTask
    rw [tasksEq] at oneTask twoTask
    rw [recOther one (t.tasks_subset oneTask), recOther two (t.tasks_subset twoTask)]
    exact consistent.distinctTasks one oneTask two twoTask

/-! ### Changes of state -/

theorem setState_fields (jobState : UInt32) (other : Nat) :
    ((t.apply (.setState ptr jobState)).recs other).jobId = (t.recs other).jobId ∧
      ((t.apply (.setState ptr jobState)).recs other).arrayJobId = (t.recs other).arrayJobId ∧
      ((t.apply (.setState ptr jobState)).recs other).arrayTaskId = (t.recs other).arrayTaskId := by
  rcases eq_or_ne other ptr with rfl | different
  · simp [apply, setRec]
  · simp [apply, setRec, Function.update_of_ne different]

theorem IdsHeld.setRec (held : t.IdsHeld) (sameId : job.jobId = (t.recs ptr).jobId) :
    (t.setRec ptr job).IdsHeld := by
  have idOf : ∀ other, ((t.setRec ptr job).recs other).jobId = (t.recs other).jobId := by
    intro other
    rcases eq_or_ne other ptr with rfl | different
    · rw [(setRec_recs t other job).1, sameId]
    · rw [(setRec_recs t ptr job).2 other different]
  refine ⟨held.jobs.setRec job fun _ => sameId, ?_⟩
  intro one oneLive two twoLive same
  rw [idOf, idOf] at same
  exact held.distinctIds one oneLive two twoLive same

theorem IdsHeld.setState (held : t.IdsHeld) (jobState : UInt32) :
    (t.apply (.setState ptr jobState)).IdsHeld := held.setRec rfl

theorem Consistent.setState (consistent : t.Consistent) (jobState : UInt32) :
    (t.apply (.setState ptr jobState)).Consistent := by
  have fields := @setState_fields t ptr jobState
  have tasksEq : (t.apply (.setState ptr jobState)).tasks = t.tasks := by
    ext other
    rw [mem_tasks, mem_tasks, (fields other).2.2]
    rfl
  refine ⟨consistent.toIdsHeld.setState jobState, ?_, ?_⟩
  · rw [tasksEq]
    exact consistent.toTasksIn.setRec _ fun _ => ⟨rfl, rfl⟩
  · intro one oneTask two twoTask
    rw [tasksEq] at oneTask twoTask
    rw [(fields one).2.1, (fields two).2.1, (fields one).2.2, (fields two).2.2]
    exact consistent.distinctTasks one oneTask two twoTask

/-! ### Deletion -/

theorem delete_recs : (t.apply (.delete ptr)).recs = t.recs ∧
    (t.apply (.delete ptr)).live = t.live.erase ptr := by
  simp only [apply, listDeleteJob]
  split_ifs
  · exact ⟨rfl, rfl⟩
  · exact ⟨rfl, rfl⟩

theorem IdsHeld.delete (held : t.IdsHeld) (mem : ptr ∈ t.live) :
    (t.apply (.delete ptr)).IdsHeld := by
  obtain ⟨recsEq, liveEq⟩ := @delete_recs t ptr
  have removed := held.jobs.removeJob mem le_rfl
  have outside : ptr ∉ t.live.erase ptr := notMem_erase _ _
  constructor
  · rw [liveEq]
    simp only [apply, listDeleteJob]
    split_ifs
    · exact removed
    · exact Buckets.Holds.setNext (Buckets.Holds.setNext removed outside none) outside none
  · intro one oneLive two twoLive
    rw [liveEq] at oneLive twoLive
    rw [recsEq]
    exact held.distinctIds one (mem_of_mem_erase oneLive) two (mem_of_mem_erase twoLive)

theorem Consistent.delete (consistent : t.Consistent) (mem : ptr ∈ t.live)
    (last : t.LastInArrayChains (.delete ptr)) : (t.apply (.delete ptr)).Consistent := by
  obtain ⟨recsEq, liveEq⟩ := @delete_recs t ptr
  have tasksEq : (t.apply (.delete ptr)).tasks = t.tasks.erase ptr := by
    rw [tasks, liveEq, recsEq, tasks, Finset.filter_erase]
  have removed : (t.removeJobHash ptr .job).TasksIn t.tasks :=
    ⟨consistent.arrayJobs, consistent.arrayTasks⟩
  refine ⟨consistent.toIdsHeld.delete mem, ?_, ?_⟩
  · rw [tasksEq]
    by_cases noTask : (t.recs ptr).arrayTaskId = noVal
    · rw [apply, listDeleteJob, Finset.erase_eq_of_notMem (not_mem_tasks noTask)]
      rw [if_pos (show ((t.removeJobHash ptr .job).recs ptr).arrayTaskId = noVal from noTask)]
      exact ⟨removed.arrayJobs, removed.arrayTasks⟩
    · obtain ⟨lastJ, lastT⟩ := last noTask
      have isTask : ptr ∈ t.tasks := mem_tasks.mpr ⟨mem, noTask⟩
      have arrays := removed.removeArray isTask (card_le_card t.tasks_subset)
        (Function.update_self ..) lastJ lastT
      rw [apply, listDeleteJob]
      rw [if_neg (show ((t.removeJobHash ptr .job).recs ptr).arrayTaskId ≠ noVal from noTask)]
      exact ⟨arrays.arrayJobs, arrays.arrayTasks⟩
  · intro one oneTask two twoTask
    rw [tasksEq] at oneTask twoTask
    rw [recsEq]
    exact consistent.distinctTasks one (mem_of_mem_erase oneTask) two (mem_of_mem_erase twoTask)

/-! ### Splitting off a task -/

theorem distinctTasks_insert {recs : Nat → JobRecord} (consistent : t.Consistent)
    (splittable : t.Splittable ptr taskId)
    (same : ∀ other ∈ t.tasks, (recs other).arrayJobId = (t.recs other).arrayJobId ∧
      (recs other).arrayTaskId = (t.recs other).arrayTaskId)
    (named : (recs ptr).arrayJobId = (t.recs ptr).jobId ∧ (recs ptr).arrayTaskId = taskId) :
    ∀ one ∈ insert ptr t.tasks, ∀ two ∈ insert ptr t.tasks,
      (recs one).arrayJobId = (recs two).arrayJobId →
      (recs one).arrayTaskId = (recs two).arrayTaskId → one = two := by
  obtain ⟨_, _, _, _, _, freshTask⟩ := splittable
  intro one oneTask two twoTask sameJob sameTask
  rcases mem_insert.mp oneTask with rfl | oneOld
  · rcases mem_insert.mp twoTask with rfl | twoOld
    · rfl
    · rw [named.1, (same two twoOld).1] at sameJob
      rw [named.2, (same two twoOld).2] at sameTask
      exact absurd ⟨sameJob.symm, sameTask.symm⟩ (freshTask two twoOld)
  · rcases mem_insert.mp twoTask with rfl | twoOld
    · rw [named.1, (same one oneOld).1] at sameJob
      rw [named.2, (same one oneOld).2] at sameTask
      exact absurd ⟨sameJob, sameTask⟩ (freshTask one oneOld)
    · rw [(same one oneOld).1, (same two twoOld).1] at sameJob
      rw [(same one oneOld).2, (same two twoOld).2] at sameTask
      exact consistent.distinctTasks one oneOld two twoOld sameJob sameTask

theorem addJobArrayHash_recs (t : JobTable) (ptr : Nat) :
    (t.addJobArrayHash ptr).recs = t.recs ∧ (t.addJobArrayHash ptr).live = t.live := by
  unfold addJobArrayHash
  split_ifs
  · exact ⟨rfl, rfl⟩
  · exact ⟨rfl, rfl⟩

/-- The META record that is left after a task was split off. -/
def metaWithout (job : JobRecord) (taskId : UInt32) : JobRecord :=
  { job with
    arrayJobId := job.jobId
    arrayTaskId := noVal
    arrayRecs := job.arrayRecs.map fun recs =>
      { recs with
        taskIdBitmap := recs.taskIdBitmap.map (·.erase taskId.toNat)
        taskCnt := recs.taskCnt - 1 } }

theorem split_recs (ne : pend ≠ ptr) :
    (t.apply (.split ptr pend newId taskId)).live = insert pend t.live ∧
      (t.apply (.split ptr pend newId taskId)).recs ptr = { t.recs ptr with
          jobId := newId, arrayJobId := (t.recs ptr).jobId, arrayTaskId := taskId,
          arrayRecs := none } ∧
      (t.apply (.split ptr pend newId taskId)).recs pend = metaWithout (t.recs ptr) taskId ∧
      ∀ other, other ≠ ptr → other ≠ pend →
        (t.apply (.split ptr pend newId taskId)).recs other = t.recs other := by
  unfold apply jobArraySplit
  simp only [addJobArrayHash_recs]
  refine ⟨rfl, ?_, ?_, ?_⟩
  · simp [addJobHash, setRec, removeJobHash, allocate, nameTask, ne.symm]
  · simp [addJobHash, setRec, removeJobHash, allocate, nameTask, ne, ne.symm,
      metaWithout]
  · intro other notPtr notPend
    simp [addJobHash, setRec, removeJobHash, allocate, nameTask, notPtr, notPend]

/-- The table of a split between the removal of the META record and its return:
the copy is written, its array links with it, and the task gets its new id. -/
def exchangeRecords (t : JobTable) (ptr pend : Nat) (copy task : JobRecord) : JobTable :=
  ({ t.setRec pend copy with
      arrayHashJ := t.arrayHashJ.setNext pend (t.arrayHashJ.next ptr)
      arrayHashT := t.arrayHashT.setNext pend (t.arrayHashT.next ptr) } : JobTable).setRec ptr task

theorem JobsIn.reinsert {jobs : Finset Nat} (held : t.JobsIn (jobs.erase ptr))
    (member : ptr ∈ jobs) (fresh : pend ∉ jobs) (copy task : JobRecord) :
    ((((t.exchangeRecords ptr pend copy task).addJobHash ptr).addJobHash pend).addJobArrayHash
      ptr).JobsIn (insert pend jobs) := by
  have copied := held.setRec copy fun mem => absurd (mem_of_mem_erase mem) fresh
  have renamed : (t.exchangeRecords ptr pend copy task).JobsIn (jobs.erase ptr) :=
    JobsIn.setRec copied task fun mem => absurd mem (notMem_erase _ _)
  have added := renamed.addJobHash (notMem_erase ptr jobs)
  rw [Finset.insert_erase member] at added
  exact (added.addJobHash fresh).addJobArrayHash

theorem TasksIn.reinsert {tasks : Finset Nat} (held : t.TasksIn tasks) (notTask : ptr ∉ tasks)
    (freshTask : pend ∉ tasks) (copy task : JobRecord) (isTask : task.arrayTaskId ≠ noVal) :
    ((((t.exchangeRecords ptr pend copy task).addJobHash ptr).addJobHash pend).addJobArrayHash
      ptr).TasksIn (insert ptr tasks) := by
  have copied := held.setRec copy fun mem => absurd mem freshTask
  have linked : ({ t.setRec pend copy with
      arrayHashJ := t.arrayHashJ.setNext pend (t.arrayHashJ.next ptr)
      arrayHashT := t.arrayHashT.setNext pend (t.arrayHashT.next ptr) } : JobTable).TasksIn tasks :=
    ⟨copied.arrayJobs.setNext freshTask _, copied.arrayTasks.setNext freshTask _⟩
  have renamed := linked.setRec task fun mem => absurd mem notTask
  have added : (((t.exchangeRecords ptr pend copy task).addJobHash ptr).addJobHash pend).TasksIn
      tasks := ⟨renamed.arrayJobs, renamed.arrayTasks⟩
  refine added.addJobArrayHash ?_ notTask
  have recAt := (setRec_recs { t.setRec pend copy with
    arrayHashJ := t.arrayHashJ.setNext pend (t.arrayHashJ.next ptr)
    arrayHashT := t.arrayHashT.setNext pend (t.arrayHashT.next ptr) } ptr task).1
  exact (congrArg JobRecord.arrayTaskId recAt).trans_ne isTask

theorem IdsHeld.split (held : t.IdsHeld) (member : ptr ∈ t.live) (fresh : pend ∉ t.live)
    (freshId : t.FreshId newId) : (t.apply (.split ptr pend newId taskId)).IdsHeld := by
  have ne : pend ≠ ptr := by
    rintro rfl
    exact fresh member
  obtain ⟨liveEq, ptrRec, pendRec, recOther⟩ := @split_recs t ptr pend newId taskId ne
  constructor
  · rw [liveEq]
    have named : (t.nameTask ptr taskId).JobsIn t.live := held.jobs.setRec _ fun _ => rfl
    have removed := (named.allocate blankRecord fresh).removeJob member
      (card_le_card (Finset.subset_insert pend t.live))
    exact removed.reinsert member fresh _ _
  · rw [liveEq]
    have idOf : ∀ other ∈ t.live, other ≠ ptr →
        ((t.apply (.split ptr pend newId taskId)).recs other).jobId = (t.recs other).jobId := by
      intro other mem notPtr
      rw [recOther other notPtr]
      rintro rfl
      exact fresh mem
    have newOnly : ∀ other ∈ insert pend t.live, other ≠ ptr →
        ((t.apply (.split ptr pend newId taskId)).recs other).jobId ≠ newId := by
      intro other mem notPtr
      rcases mem_insert.mp mem with rfl | old
      · rw [pendRec]
        exact freshId ptr member
      · rw [idOf other old notPtr]
        exact freshId other old
    have oldOnly : ∀ other ∈ t.live, other ≠ ptr →
        ((t.apply (.split ptr pend newId taskId)).recs other).jobId ≠ (t.recs ptr).jobId := by
      intro other mem notPtr same
      rw [idOf other mem notPtr] at same
      exact notPtr (held.distinctIds other mem ptr member same)
    intro one oneLive two twoLive same
    rcases eq_or_ne one ptr with rfl | onePtr
    · by_contra distinct
      rw [ptrRec] at same
      exact newOnly two twoLive (fun equal => distinct equal.symm) same.symm
    · rcases eq_or_ne two ptr with rfl | twoPtr
      · rw [ptrRec] at same
        exact absurd same (newOnly one oneLive onePtr)
      · rcases mem_insert.mp oneLive with rfl | oneOld
        · rcases mem_insert.mp twoLive with rfl | twoOld
          · rfl
          · rw [pendRec] at same
            exact absurd same.symm (oldOnly two twoOld twoPtr)
        · rcases mem_insert.mp twoLive with rfl | twoOld
          · rw [pendRec] at same
            exact absurd same (oldOnly one oneOld onePtr)
          · rw [idOf one oneOld onePtr, idOf two twoOld twoPtr] at same
            exact held.distinctIds one oneOld two twoOld same

theorem Consistent.split (consistent : t.Consistent) (splittable : t.Splittable ptr taskId)
    (fresh : pend ∉ t.live) (freshId : t.FreshId newId) :
    (t.apply (.split ptr pend newId taskId)).Consistent := by
  have ⟨member, noTask, _, isTask, _, _⟩ := splittable
  have notTask := not_mem_tasks noTask
  have freshTask : pend ∉ t.tasks := fun mem => fresh (t.tasks_subset mem)
  have ne : pend ≠ ptr := by
    rintro rfl
    exact fresh member
  obtain ⟨liveEq, ptrRec, pendRec, recOther⟩ := @split_recs t ptr pend newId taskId ne
  have tasksEq : (t.apply (.split ptr pend newId taskId)).tasks = insert ptr t.tasks := by
    ext other
    rw [mem_tasks, liveEq, mem_insert, mem_insert, mem_tasks]
    rcases eq_or_ne other ptr with rfl | notPtr
    · simp [member, ptrRec, isTask]
    · rcases eq_or_ne other pend with rfl | notPend
      · simp [pendRec, metaWithout, notPtr, fresh]
      · rw [recOther other notPtr notPend]
        simp [notPtr, notPend]
  refine ⟨consistent.toIdsHeld.split member fresh freshId, ?_, ?_⟩
  · rw [tasksEq]
    have named : (t.nameTask ptr taskId).TasksIn t.tasks :=
      consistent.toTasksIn.setRec _ fun mem => absurd mem notTask
    have allocated := named.allocate blankRecord freshTask
    have removed : (((t.nameTask ptr taskId).allocate pend blankRecord).removeJobHash ptr
        .job).TasksIn t.tasks := ⟨allocated.arrayJobs, allocated.arrayTasks⟩
    refine removed.reinsert notTask freshTask _ _ ?_
    simpa [removeJobHash, allocate, nameTask, setRec, ne.symm] using isTask
  · rw [tasksEq]
    refine distinctTasks_insert consistent splittable ?_ ⟨by rw [ptrRec], by rw [ptrRec]⟩
    intro other mem
    rw [recOther other]
    · exact ⟨rfl, rfl⟩
    · rintro rfl
      exact notTask mem
    · rintro rfl
      exact fresh (t.tasks_subset mem)

/-! ### Converting the last task -/

/-- The record of the last task of an array. -/
def lastTask (job : JobRecord) (taskId : UInt32) : JobRecord :=
  { job with
    arrayJobId := job.jobId
    arrayTaskId := taskId
    arrayRecs := job.arrayRecs.map fun recs =>
      { recs with
        taskCnt := recs.taskCnt - 1
        taskIdBitmap := if recs.taskCnt - 1 = 0 then none else recs.taskIdBitmap }
    jobState := job.jobState ||| 0x200 }

theorem convert_eq (t : JobTable) (ptr : Nat) (taskId : UInt32) :
    t.apply (.convert ptr taskId) =
      if (((t.nameTask ptr taskId).setRec ptr (lastTask (t.recs ptr) taskId)).findJobArrayRec
          (t.recs ptr).jobId taskId).isNone then
        ((t.nameTask ptr taskId).setRec ptr (lastTask (t.recs ptr) taskId)).addJobArrayHash ptr
      else (t.nameTask ptr taskId).setRec ptr (lastTask (t.recs ptr) taskId) := by
  have named : (t.nameTask ptr taskId).recs ptr =
      { t.recs ptr with arrayJobId := (t.recs ptr).jobId, arrayTaskId := taskId } :=
    (setRec_recs ..).1
  rw [apply, convertLast, named]
  rfl

theorem convert_recs :
    (t.apply (.convert ptr taskId)).live = t.live ∧
      (t.apply (.convert ptr taskId)).recs ptr = lastTask (t.recs ptr) taskId ∧
      ∀ other, other ≠ ptr → (t.apply (.convert ptr taskId)).recs other = t.recs other := by
  have written : ((t.nameTask ptr taskId).setRec ptr (lastTask (t.recs ptr) taskId)).live = t.live ∧
      ((t.nameTask ptr taskId).setRec ptr (lastTask (t.recs ptr) taskId)).recs ptr =
        lastTask (t.recs ptr) taskId ∧
      ∀ other, other ≠ ptr →
        ((t.nameTask ptr taskId).setRec ptr (lastTask (t.recs ptr) taskId)).recs other =
          t.recs other := by
    refine ⟨rfl, (setRec_recs ..).1, fun other ne => ?_⟩
    simp [nameTask, setRec, ne]
  rw [convert_eq]
  split_ifs
  · simpa only [addJobArrayHash_recs] using written
  · exact written

theorem IdsHeld.convert (held : t.IdsHeld) : (t.apply (.convert ptr taskId)).IdsHeld := by
  obtain ⟨liveEq, ptrRec, recOther⟩ := @convert_recs t ptr taskId
  have named : (t.nameTask ptr taskId).JobsIn t.live := held.jobs.setRec _ fun _ => rfl
  have written : ((t.nameTask ptr taskId).setRec ptr (lastTask (t.recs ptr) taskId)).JobsIn
      t.live := named.setRec _ fun _ => by simp [nameTask, JobTable.setRec, lastTask]
  constructor
  · rw [liveEq, convert_eq]
    split_ifs
    · exact written.addJobArrayHash
    · exact written
  · have idOf : ∀ other, ((t.apply (.convert ptr taskId)).recs other).jobId =
        (t.recs other).jobId := by
      intro other
      rcases eq_or_ne other ptr with rfl | different
      · rw [ptrRec, lastTask]
      · rw [recOther other different]
    intro one oneLive two twoLive same
    rw [liveEq] at oneLive twoLive
    rw [idOf, idOf] at same
    exact held.distinctIds one oneLive two twoLive same

/-- The last task of an array is not found before its META record is converted:
no task record has its id, and the bitmap of the META record is gone. -/
theorem convert_not_found (consistent : t.Consistent) (splittable : t.Splittable ptr taskId)
    (lastOne : ((t.recs ptr).arrayRecs.all fun recs => recs.taskCnt ≤ 1) = true) :
    ((t.nameTask ptr taskId).setRec ptr (lastTask (t.recs ptr) taskId)).findJobArrayRec
      (t.recs ptr).jobId taskId = none := by
  obtain ⟨member, noTask, _, notNoVal, notInfinite, freshTask⟩ := splittable
  have notTask := not_mem_tasks noTask
  have named : (t.nameTask ptr taskId).TasksIn t.tasks :=
    consistent.toTasksIn.setRec _ fun mem => absurd mem notTask
  have writtenTasks := named.setRec (lastTask (t.recs ptr) taskId)
    fun mem => absurd mem notTask
  have namedJobs : (t.nameTask ptr taskId).JobsIn t.live :=
    consistent.jobs.setRec _ fun _ => rfl
  have writtenJobs : ((t.nameTask ptr taskId).setRec ptr (lastTask (t.recs ptr) taskId)).JobsIn
      t.live := namedJobs.setRec _ fun _ => by simp [nameTask, setRec, lastTask]
  have ptrRec := (setRec_recs (t.nameTask ptr taskId) ptr (lastTask (t.recs ptr) taskId)).1
  have recOther : ∀ other, other ≠ ptr →
      ((t.nameTask ptr taskId).setRec ptr (lastTask (t.recs ptr) taskId)).recs other =
        t.recs other := by
    intro other different
    simp [nameTask, setRec, different]
  have liveEq : ((t.nameTask ptr taskId).setRec ptr (lastTask (t.recs ptr) taskId)).live =
    t.live := rfl
  generalize (t.nameTask ptr taskId).setRec ptr (lastTask (t.recs ptr) taskId) = u at *
  obtain ⟨_, exact_⟩ := writtenTasks.arrayTasks.cells_spec (card_le_card t.tasks_subset)
    (u.jobArrayHashInx (t.recs ptr).jobId taskId)
  have noCell : (u.arrayHashT.cells u.live.card
      (u.jobArrayHashInx (t.recs ptr).jobId taskId)).find? (fun other =>
        (u.recs other).arrayJobId = (t.recs ptr).jobId ∧ (u.recs other).arrayTaskId = taskId) =
      none := by
    rw [liveEq]
    refine find?_eq_none.mpr fun other mem => ?_
    have isTask := ((exact_ other).mp mem).1
    rw [recOther other fun same => notTask (same ▸ isTask)]
    simpa using freshTask other isTask
  have idOf : ∀ other, (u.recs other).jobId = (t.recs other).jobId := by
    intro other
    rcases eq_or_ne other ptr with rfl | different
    · rw [ptrRec, lastTask]
    · rw [recOther other different]
  have held : u.IdsHeld := by
    constructor
    · rw [liveEq]
      exact writtenJobs
    · rw [liveEq]
      intro one oneLive two twoLive same
      rw [idOf, idOf] at same
      exact consistent.distinctIds one oneLive two twoLive same
  rw [findJobArrayRec, if_neg notNoVal, if_neg notInfinite, noCell,
    (held.findJobRecord_iff (t.recs ptr).jobId ptr).mpr ⟨liveEq ▸ member, idOf ptr⟩]
  have notHeld : u.holdsTask taskId ptr = false := by
    rw [holdsTask, ptrRec, lastTask]
    cases recsEq : (t.recs ptr).arrayRecs with
    | none => rfl
    | some recs =>
      have atMostOne : recs.taskCnt ≤ 1 := by simpa [recsEq] using lastOne
      have noneLeft : recs.taskCnt - 1 = 0 := by omega
      simp [noneLeft]
  simp [Option.filter, notHeld]

theorem Consistent.convert (consistent : t.Consistent) (splittable : t.Splittable ptr taskId)
    (lastOne : ((t.recs ptr).arrayRecs.all fun recs => recs.taskCnt ≤ 1) = true) :
    (t.apply (.convert ptr taskId)).Consistent := by
  have ⟨member, noTask, _, isTask, _, _⟩ := splittable
  have notTask := not_mem_tasks noTask
  obtain ⟨liveEq, ptrRec, recOther⟩ := @convert_recs t ptr taskId
  have tasksEq : (t.apply (.convert ptr taskId)).tasks = insert ptr t.tasks := by
    ext other
    rw [mem_tasks, liveEq, mem_insert, mem_tasks]
    rcases eq_or_ne other ptr with rfl | different
    · simp [member, ptrRec, lastTask, isTask]
    · rw [recOther other different]
      simp [different]
  refine ⟨consistent.toIdsHeld.convert, ?_, ?_⟩
  · rw [tasksEq, convert_eq, convert_not_found consistent splittable lastOne]
    have named : (t.nameTask ptr taskId).TasksIn t.tasks :=
      consistent.toTasksIn.setRec _ fun mem => absurd mem notTask
    have written := named.setRec (lastTask (t.recs ptr) taskId) fun mem => absurd mem notTask
    refine written.addJobArrayHash ?_ notTask
    rw [(setRec_recs (t.nameTask ptr taskId) ptr (lastTask (t.recs ptr) taskId)).1]
    exact isTask
  · rw [tasksEq]
    refine distinctTasks_insert consistent splittable ?_ ?_
    · intro other mem
      rw [recOther other fun same => notTask (same ▸ mem)]
      exact ⟨rfl, rfl⟩
    · rw [ptrRec]
      exact ⟨rfl, rfl⟩

end Steps

/-! ## Every run -/

theorem IdsHeld.init (hashTableSize : Nat) : (JobTable.init hashTableSize).IdsHeld :=
  ⟨Buckets.Holds.empty, fun ptr mem => absurd mem (Finset.notMem_empty ptr)⟩

theorem Consistent.init (hashTableSize : Nat) : (JobTable.init hashTableSize).Consistent := by
  refine ⟨IdsHeld.init hashTableSize, ?_, ?_⟩
  · exact ⟨.empty, .empty⟩
  · intro ptr mem
    exact absurd mem (Finset.notMem_empty ptr)

theorem Consistent.apply {t : JobTable} {op : JobOp} (consistent : t.Consistent)
    (allowed : t.Allowed op) (last : t.LastInArrayChains op) : (t.apply op).Consistent := by
  cases op with
  | create ptr job => exact consistent.create allowed.1 allowed.2.1 allowed.2.2
  | split ptr pend newId taskId => exact consistent.split allowed.1 allowed.2.1 allowed.2.2
  | convert ptr taskId => exact consistent.convert allowed.1 allowed.2
  | delete ptr => exact consistent.delete allowed last
  | setState ptr jobState => exact consistent.setState jobState

theorem Consistent.run {t : JobTable} {ops : List JobOp} (consistent : t.Consistent)
    (runs : Runs (fun t op => t.Allowed op ∧ t.LastInArrayChains op) t ops) :
    (ops.foldl JobTable.apply t).Consistent := by
  induction ops generalizing t with
  | nil => exact consistent
  | cons op ops ih =>
    obtain ⟨⟨allowed, last⟩, rest⟩ := runs
    exact ih (consistent.apply allowed last) rest

end JobTable

/-- In a run whose deletions of task records only meet the last record of both
array chains, every state has faithful hash tables. -/
theorem jobHash_faithful (hashTableSize : Nat) (ops : List JobOp)
    (runs : JobTable.Runs (fun t op => t.Allowed op ∧ t.LastInArrayChains op)
      (.init hashTableSize) ops) :
    (ops.foldl JobTable.apply (.init hashTableSize)).Faithful :=
  ((JobTable.Consistent.init hashTableSize).run runs).faithful

/-- The META record of an array job with three pending tasks. -/
def arrayOfThree : JobRecord := ⟨1, 1, noVal, some ⟨some {0, 1, 2}, 3, 0⟩, 0⟩

/-- Two tasks are split off; the older one, which is the last of its chains, is deleted. -/
theorem jobHash_faithful_oldest_deleted :
    ((([.create 0 arrayOfThree, .split 0 1 2 0, .split 1 2 3 1, .delete 0] : List JobOp).foldl
      JobTable.apply (.init 100)).Faithful) := by
  refine jobHash_faithful 100 _ ⟨⟨?_, ?_⟩, ⟨?_, ?_⟩, ⟨?_, ?_⟩, ⟨?_, ?_⟩, trivial⟩
  · decide
  · decide
  · decide
  · decide
  · decide
  · decide
  · decide
  · decide

/-- Two tasks are split off, both run, and the record of the younger one, which
heads the chains of the older, is deleted. -/
def youngerDeleted : List JobOp :=
  [.create 0 arrayOfThree, .split 0 1 2 0, .split 1 2 3 1, .setState 0 1, .setState 1 3, .delete 1]

/-- The older task is live and runs, but the scans of its array and, when the
tasks collide, the search for it no longer see it. -/
theorem jobHash_loses_older_task :
    (∀ size ∈ [1, 100], JobTable.Runs JobTable.Allowed (.init size) youngerDeleted) ∧
      (let t := youngerDeleted.foldl JobTable.apply (.init 100)
       0 ∈ t.tasks ∧ (t.recs 0).arrayJobId = 1 ∧ t.arrayTasks 1 = [] ∧ ¬t.Faithful) ∧
      (let t := youngerDeleted.foldl JobTable.apply (.init 1)
       0 ∈ t.tasks ∧ (t.recs 0).arrayJobId = 1 ∧ (t.recs 0).arrayTaskId = 0 ∧
        t.findJobArrayRec 1 0 = none) := by
  refine ⟨?_, ⟨by decide, by decide, by decide, ?_⟩, by decide, by decide, by decide, by decide⟩
  · intro size member
    fin_cases member
    · exact ⟨by decide, by decide, by decide, by decide, by decide, by decide, trivial⟩
    · exact ⟨by decide, by decide, by decide, by decide, by decide, by decide, trivial⟩
  · intro faithful
    have scanned := (faithful.scans (fun _ => true) JobRecord.isFinished 1).mp (by decide)
    exact absurd (scanned.2 0 (by decide) (by decide)) (by decide)

end SlurmSim.Controller
