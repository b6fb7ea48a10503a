import Mathlib.Data.List.Pairwise
import Mathlib.Data.List.Sort
import Mathlib.Data.Prod.Lex

/-!
# The order of the job queue

`build_job_queue` queues a job once for each of its partitions, and `sort_job_queue2`
compares two of these records by one key after the other.  Preemption is disabled.  The
numbers of the records are only compared.
-/

namespace SlurmSim.Controller.JobQueueOrder

def noVal : Nat := 0xfffffffe

/-- `struct part_record` -/
structure Part where
  name : String
  priorityTier : Nat
  deriving DecidableEq

/-- What the queue uses of a `struct job_record`; `details` is its `submit_time`. -/
structure Job where
  jobId : Nat
  arrayJobId : Nat
  arrayTaskId : Nat
  resvId : Nat
  priority : Nat
  partition : String
  partPtr : Option Part
  partPtrList : Option (List Part)
  priorityArray : Option (Nat → Nat)
  details : Option Int

/-- `job_queue_rec_t` -/
structure JobQueueRec where
  arrayTaskId : Nat
  jobId : Nat
  jobPtr : Job
  partPtr : Option Part
  priority : Nat

/-- `_job_queue_append` -/
def jobQueueRec (job : Job) (part : Part) (prio : Nat) : JobQueueRec :=
  ⟨job.arrayTaskId, job.jobId, job, some part, prio⟩

/-- What decides whether a job is queued: `_job_runnable_test1`, which reads `details`,
`job_limits_check` for a partition, and `find_part_record`. -/
structure Tests where
  runnable : Job → Bool
  limitsCheck : Job → Part → Bool
  findPartRecord : String → Option Part
  readsDetails : ∀ job, runnable job = true → job.details.isSome = true

/-- The records of one job. -/
def jobRecs (tests : Tests) (job : Job) : List JobQueueRec :=
  match job.partPtrList with
  | some parts =>
    (parts.zipIdx.filter fun (part, _) => tests.limitsCheck job part).map fun (part, inx) =>
      jobQueueRec job part ((job.priorityArray.map fun prios => prios inx).getD job.priority)
  | none =>
    match job.partPtr.or (tests.findPartRecord job.partition) with
    | none => []
    | some part =>
      if tests.limitsCheck job part then [jobQueueRec job part job.priority] else []

/-- `build_job_queue` -/
def buildJobQueue (tests : Tests) (jobs : List Job) : List JobQueueRec :=
  (jobs.filter tests.runnable).flatMap (jobRecs tests)

/-! ## The comparison -/

/-- Smaller keys come first. -/
def ascending {α : Type} [LT α] [DecidableLT α] (first second : α) (rest : Int) : Int :=
  if second < first then 1 else if first < second then -1 else rest

/-- Larger keys come first. -/
def descending {α : Type} [LT α] [DecidableLT α] (first second : α) (rest : Int) : Int :=
  ascending second first rest

namespace JobQueueRec

/-- `p1` and `p2` -/
def prio (r : JobQueueRec) : Nat :=
  if r.jobPtr.partPtrList.isSome && r.jobPtr.priorityArray.isSome then r.priority
  else r.jobPtr.priority

/-- `job_id1` and `job_id2` -/
def sortId (r : JobQueueRec) : Nat :=
  if r.arrayTaskId = noVal then r.jobId else r.jobPtr.arrayJobId

end JobQueueRec

/-- A key that is only compared when both records have it. -/
def ifBoth {α : Type} (compare : α → α → Int → Int) (first second : Option α) (rest : Int) : Int :=
  match first, second with
  | some first, some second => compare first second rest
  | _, _ => rest

/-- `sort_job_queue2` -/
def sortJobQueue2 (a b : JobQueueRec) : Int :=
  ascending (a.jobPtr.resvId == 0) (b.jobPtr.resvId == 0) <|
    ifBoth (fun p q => descending p.priorityTier q.priorityTier) a.partPtr b.partPtr <|
      descending a.prio b.prio <|
        ifBoth ascending a.jobPtr.details b.jobPtr.details <|
          ascending a.sortId b.sortId <|
            if b.arrayTaskId < a.arrayTaskId then 1 else -1

/-- Different records are ordered one way round, transitively, and so that only one
arrangement is sorted. -/
structure Consistent (queue : List JobQueueRec) : Prop where
  opposite : queue.Pairwise fun a b => sortJobQueue2 a b = -sortJobQueue2 b a
  distinct : queue.Pairwise fun a b => sortJobQueue2 a b ≠ 0
  trans : ∀ a ∈ queue, ∀ b ∈ queue, ∀ c ∈ queue, sortJobQueue2 a b < 0 → sortJobQueue2 b c < 0 →
    sortJobQueue2 a c < 0
  sorted : ∀ first second : List JobQueueRec, first.Perm queue → second.Perm queue →
    first.Pairwise (fun a b => sortJobQueue2 a b < 0) →
      second.Pairwise (fun a b => sortJobQueue2 a b < 0) → first = second

/-! ## One key -/

/-- The keys of a record, in the order in which they are compared. -/
abbrev Key := Bool ×ₗ ℕᵒᵈ ×ₗ ℕᵒᵈ ×ₗ ℤ ×ₗ ℕ ×ₗ ℕ

def JobQueueRec.key (r : JobQueueRec) : Key :=
  toLex (r.jobPtr.resvId == 0, toLex (OrderDual.toDual ((r.partPtr.map Part.priorityTier).getD 0),
    toLex (OrderDual.toDual r.prio, toLex (r.jobPtr.details.getD 0,
      toLex (r.sortId, r.arrayTaskId)))))

theorem ascending_lex {α β : Type} [LinearOrder α] [LinearOrder β] (x y : α) (s t : β) :
    ascending x y (if t < s then 1 else -1) =
      if toLex (y, t) < toLex (x, s) then 1 else -1 := by
  simp only [ascending, Prod.Lex.toLex_lt_toLex]
  rcases lt_trichotomy x y with less | rfl | more
  · simp [less, less.asymm, less.ne']
  · simp
  · simp [more]

theorem descending_eq (x y : ℕ) (rest : Int) : descending x y rest =
    ascending (OrderDual.toDual x) (OrderDual.toDual y) rest := rfl

/-- A record of a queue has a partition and details. -/
def JobQueueRec.Whole (r : JobQueueRec) : Prop :=
  r.partPtr.isSome = true ∧ r.jobPtr.details.isSome = true

theorem whole_of_mem {tests : Tests} {jobs : List Job} {r : JobQueueRec}
    (mem : r ∈ buildJobQueue tests jobs) : r.Whole := by
  obtain ⟨job, runs, mem⟩ := List.mem_flatMap.mp mem
  have details := tests.readsDetails job (List.mem_filter.mp runs).2
  rw [jobRecs] at mem
  split at mem
  · obtain ⟨_, _, rfl⟩ := List.mem_map.mp mem
    exact ⟨rfl, details⟩
  · split at mem
    · cases mem
    · split_ifs at mem
      · obtain rfl := List.mem_singleton.mp mem
        exact ⟨rfl, details⟩
      · cases mem

variable {a b : JobQueueRec}

/-- The comparison is the one of the keys, with the second record first on a tie. -/
theorem sortJobQueue2_eq (wholeA : a.Whole) (wholeB : b.Whole) :
    sortJobQueue2 a b = if b.key < a.key then 1 else -1 := by
  obtain ⟨p, isP⟩ := Option.isSome_iff_exists.mp wholeA.1
  obtain ⟨q, isQ⟩ := Option.isSome_iff_exists.mp wholeB.1
  obtain ⟨s, isS⟩ := Option.isSome_iff_exists.mp wholeA.2
  obtain ⟨t, isT⟩ := Option.isSome_iff_exists.mp wholeB.2
  simp only [sortJobQueue2, isP, isQ, isS, isT, ifBoth, descending_eq, ascending_lex,
    JobQueueRec.key, Option.map_some, Option.getD_some]

theorem lt_zero_iff (wholeA : a.Whole) (wholeB : b.Whole) :
    sortJobQueue2 a b < 0 ↔ a.key ≤ b.key := by
  rw [sortJobQueue2_eq wholeA wholeB]
  split_ifs with less
  · simpa using less
  · simpa using less

theorem opposite_iff (wholeA : a.Whole) (wholeB : b.Whole) :
    sortJobQueue2 a b = -sortJobQueue2 b a ↔ a.key ≠ b.key := by
  rw [sortJobQueue2_eq wholeA wholeB, sortJobQueue2_eq wholeB wholeA]
  rcases lt_trichotomy a.key b.key with less | tie | more
  · simp [less, less.asymm, less.ne]
  · simp [tie]
  · simp [more, more.asymm, more.ne']

/-- The order is consistent exactly when no two records agree in all keys, and a record
never compares equal to itself. -/
theorem consistent_iff (tests : Tests) (jobs : List Job) :
    (Consistent (buildJobQueue tests jobs) ↔
      (buildJobQueue tests jobs).Pairwise fun a b => a.key ≠ b.key) ∧
    ∀ a ∈ buildJobQueue tests jobs, sortJobQueue2 a a = -1 := by
  have whole := fun r (inside : r ∈ buildJobQueue tests jobs) => whole_of_mem inside
  generalize buildJobQueue tests jobs = queue at whole
  refine ⟨⟨fun consistent => ?_, fun noTie => ?_⟩, fun a inside => ?_⟩
  · exact consistent.opposite.imp_of_mem fun memA memB =>
      (opposite_iff (whole _ memA) (whole _ memB)).mp
  · refine ⟨?_, ?_, ?_, ?_⟩
    · exact noTie.imp_of_mem fun memA memB => (opposite_iff (whole _ memA) (whole _ memB)).mpr
    · refine noTie.imp_of_mem fun memA memB _ => ?_
      rw [sortJobQueue2_eq (whole _ memA) (whole _ memB)]
      split_ifs <;> decide
    · intro a memA b memB c memC
      rw [lt_zero_iff (whole a memA) (whole b memB), lt_zero_iff (whole b memB) (whole c memC),
        lt_zero_iff (whole a memA) (whole c memC)]
      exact le_trans
    · intro first second isFirst isSecond sortedFirst sortedSecond
      refine List.Perm.eq_of_pairwise (fun a b inFirst inSecond ab ba => ?_) sortedFirst
        sortedSecond (isFirst.trans isSecond.symm)
      have memA := isFirst.mem_iff.mp inFirst
      have memB := isSecond.mem_iff.mp inSecond
      rw [lt_zero_iff (whole a memA) (whole b memB)] at ab
      rw [lt_zero_iff (whole b memB) (whole a memA)] at ba
      have symm : Std.Symm fun a b : JobQueueRec => a.key ≠ b.key := ⟨fun _ _ => Ne.symm⟩
      by_contra different
      exact noTie.forall memA memB different (le_antisymm ab ba)
  · rw [sortJobQueue2_eq (whole a inside) (whole a inside), if_neg (lt_irrefl _)]

/-- A job in two partitions of one tier that has one priority for both. -/
theorem two_partitions_tie : ¬∀ tests jobs, Consistent (buildJobQueue tests jobs) := by
  intro consistent
  let parts : List Part := [⟨"debug", 1⟩, ⟨"batch", 1⟩]
  let job : Job := ⟨7, 0, noVal, 0, 10, "debug,batch", parts.head?, some parts, none, some 0⟩
  let tests : Tests :=
    ⟨fun job => job.details.isSome, fun _ _ => true, fun _ => none, fun _ has => has⟩
  exact absurd (consistent tests [job]).opposite (by decide)

end SlurmSim.Controller.JobQueueOrder
