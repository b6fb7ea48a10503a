import SlurmSim.Common.BitmapRuns
import SlurmSim.Controller.ArrayExpr

/-!
# Signals to array tasks

`job_str_signal` with a list of task ids.  Pending tasks are in a bitmap of the META
record and have no record of their own; the other tasks have one each and are signalled
there.  The two bitmaps are brought to one size and are subtracted from each other.
-/

namespace SlurmSim.Controller.ArraySignal

open SlurmSim.Common SlurmSim.Common.Bitmap SlurmSim.Controller.ArrayExpr List

/-! ## Records -/

/-- `SIGKILL` -/
def sigkill : Nat := 9

/-- `ESLURM_ACCESS_DENIED` -/
def accessDenied : Int := 2002

/-- `ESLURM_INVALID_JOB_ID` -/
def invalidJobId : Int := 2017

/-- `ESLURM_TRANSITION_STATE_NO_UPDATE` -/
def transitionStateNoUpdate : Int := 2020

/-- `NO_VAL` as a task id: the record is not that of one task. -/
def noTaskId : Nat := 0xfffffffe

/-- `JOB_CANCELLED` -/
def jobCancelled : Nat := 4

/-- `job_array_struct_t`, as far as it is used here. -/
structure ArrayRecs where
  taskIdBitmap : Option Bitstr
  taskIdStr : Option (List Char)
  taskCnt : Nat
  totCompTasks : Nat
  minExitCode : Nat
  maxExitCode : Nat

/-- The fields of a job record that are used here. -/
structure Record where
  jobState : Nat
  exitCode : Nat
  arrayTaskId : Nat
  arrayRecs : Option ArrayRecs
  startTime : Int
  endTime : Int
  requid : Nat

/-- `IS_JOB_PENDING` -/
def Record.isPending (record : Record) : Bool :=
  record.jobState % 256 = 0

/-- What the tables hold for one array job id: the record with that job id, and the tasks
with a record of their own. -/
structure JobArray where
  record : Option Record
  own : Finset Nat
  jobCount : Int

/-- What `find_job_array_rec` finds. -/
inductive Found where
  | task (taskId : Nat)
  | record
  deriving DecidableEq, Repr

/-- `find_job_array_rec` for one task id. -/
def findJobArrayRec (job : JobArray) (taskId : Nat) : Option Found :=
  if taskId ∈ job.own then some (.task taskId)
  else
    match (job.record.bind Record.arrayRecs).bind ArrayRecs.taskIdBitmap with
    | none => none
    | some bitmap =>
      if taskId < bitmap.bits ∧ bitTest bitmap taskId then some .record else none

/-- `_job_array_comp` of the META record, which is not complete. -/
def jobArrayComp (record : Record) (recs : ArrayRecs) : ArrayRecs :=
  let status := if record.exitCode = 0 then 9 else record.exitCode
  let min := if recs.totCompTasks = 0 then status else min status recs.minExitCode
  let max := if recs.totCompTasks = 0 then status else max status recs.maxExitCode
  { recs with minExitCode := min, maxExitCode := max, totCompTasks := recs.totCompTasks + 1 }

/-! ## Requests -/

/-- Who asks for what and when; `authorised` is the test for the owner, an operator or a
coordinator of the account. -/
structure Request where
  signal : Nat
  uid : Nat
  authorised : Bool
  now : Int

/-- `bit_fls`, bit by bit. -/
def flsLoop (b : Bitstr) : Nat → Int
  | 0 => -1
  | bit + 1 => if bitTest b bit then bit else flsLoop b bit

/-- `bit_fls` -/
def bitFls (b : Bitstr) : Int :=
  flsLoop b b.bits

/-- The two `bit_realloc`s, for the set of tasks and the pending ones. -/
def matchSizes (array bitmap : Bitstr) (iLast : Nat) :
    { both : Bitstr × Bitstr // both.1.bits = both.2.bits } :=
  if iLast < bitmap.bits then ⟨(bitRealloc array bitmap.bits, bitmap), rfl⟩
  else ⟨(bitRealloc array iLast, bitRealloc bitmap iLast), rfl⟩

/-- The two `bit_and_not`s for `SIGKILL`: the pending tasks that are left, and the set of
tasks without these. -/
def subtractBoth (array bitmap : Bitstr) (same : array.bits = bitmap.bits) : Bitstr × Bitstr :=
  let left := bitAndNot bitmap array same.symm
  (left, bitAndNot array left (show array.bits = left.bits from same))

/-- What is left of the META record when its pending tasks are cut down. -/
def cancelPending (request : Request) (left : Bitstr) (record : Record) (recs : ArrayRecs)
    (job : JobArray) : JobArray :=
  let newTaskCount := bitSetCount left
  if newTaskCount = 0 then
    { job with
      record := some { record with
        jobState := jobCancelled
        startTime := request.now
        endTime := request.now
        requid := request.uid
        arrayRecs := some { recs with
          taskIdBitmap := some left, taskIdStr := none, taskCnt := newTaskCount } }
      jobCount := job.jobCount - (recs.taskCnt - 1) }
  else
    { job with
      record := some { record with
        arrayRecs := some { jobArrayComp record recs with
          taskIdBitmap := some left, taskIdStr := none, taskCnt := newTaskCount } }
      jobCount := job.jobCount - (recs.taskCnt - newTaskCount) }

/-- The part on pending tasks: the code so far, the ids that remain and the array. -/
def signalPending (request : Request) (array : Bitstr) (record : Record) (job : JobArray) :
    Int × Bitstr × JobArray :=
  match record.arrayRecs with
  | none => (0, array, job)
  | some recs =>
    match recs.taskIdBitmap with
    | none => (0, array, job)
    | some bitmap =>
      if ¬record.isPending then (0, array, job)
      else
        let both := matchSizes array bitmap (bitFls array + 1).toNat
        if request.signal = sigkill then
          let rest := subtractBoth both.1.1 both.1.2 both.2
          (0, rest.2, cancelPending request rest.1 record recs job)
        else
          (transitionStateNoUpdate, bitAndNot both.1.1 both.1.2 both.2,
            { job with
              record := some { record with
                arrayRecs := some { recs with taskIdBitmap := some both.1.2 } } })

section Signal

variable (code : Found → Int)

/-- One id of the second loop: the code and the calls of `_job_signal`. -/
def signalOne (job : JobArray) (state : Int × List Found) (i : Nat) : Int × List Found :=
  match findJobArrayRec job i with
  | none => (invalidJobId, state.2)
  | some found => (max state.1 (code found), state.2 ++ [found])

/-- One turn of the second loop. -/
def signalTurn (job : JobArray) (array : Bitstr) (state : Int × List Found) (i : Nat) :
    Int × List Found :=
  if bitTest array i then signalOne code job state i else state

/-- The second loop. -/
def signalLoop (job : JobArray) (array : Bitstr) (iLast : Int) (i : Nat)
    (state : Int × List Found) : Int × List Found :=
  if (i : Int) ≤ iLast then
    signalLoop job array iLast (i + 1) (signalTurn code job array state i)
  else state
termination_by (iLast + 1 - i).toNat

/-- What the caller gets, the calls of `_job_signal` in their order, and the array. -/
structure Outcome where
  rc : Int
  calls : List Found
  job : JobArray

/-- The second loop with its bounds. -/
def signalRest (rest : Int × Bitstr × JobArray) : Outcome :=
  let iFirst := Bitmap.bitFfs true rest.2.1
  let iLast := if 0 ≤ iFirst then bitFls rest.2.1 else -2
  let state := signalLoop code rest.2.2 rest.2.1 iLast iFirst.toNat (rest.1, [])
  ⟨state.1, state.2, rest.2.2⟩

/-- `job_str_signal` from the task list on. -/
def signalTasks (maxArraySize : Nat) (request : Request) (list : List Char) (job : JobArray) :
    Option Outcome :=
  match parseTokens maxArraySize (tokens list) (bitAlloc maxArraySize) with
  | none => none
  | some (valid, array) =>
    if valid = false ∨ bitFls array < 0 then some ⟨invalidJobId, [], job⟩
    else
      match job.record with
      | none =>
        if job.own = ∅ then some ⟨invalidJobId, [], job⟩
        else if ¬request.authorised then some ⟨accessDenied, [], job⟩
        else some (signalRest code (0, array, job))
      | some record =>
        if record.arrayTaskId = noTaskId ∧ record.arrayRecs.isNone then
          some ⟨invalidJobId, [], job⟩
        else if ¬request.authorised then some ⟨accessDenied, [], job⟩
        else some (signalRest code (signalPending request array record job))

/-- The job id and the task list of a job id string; `none` for the other forms. -/
def taskList (jobIdStr : List Char) : Option (Nat × List Char) :=
  let (longId, endPtr) := strtol jobIdStr
  if longId ≤ 0 ∨ longId = 2 ^ 63 - 1 then none
  else
    match endPtr with
    | '_' :: '*' :: c :: list => if c = '+' then none else some ((longId % 2 ^ 32).toNat, list)
    | '_' :: '*' :: [] => none
    | '_' :: list => some ((longId % 2 ^ 32).toNat, list)
    | _ => none

/-- `job_str_signal` with a list of tasks, on the arrays of all job ids. -/
def jobStrSignal (maxArraySize : Nat) (request : Request) (jobIdStr : List Char)
    (arrays : Nat → JobArray) : Option Outcome :=
  match taskList jobIdStr with
  | none => none
  | some (jobId, list) => signalTasks code maxArraySize request list (arrays jobId)

end Signal

/-! ## What is asked for -/

/-- The array has a META record with pending tasks, none of which has its own record. -/
structure PendingMeta (job : JobArray) (record : Record) (recs : ArrayRecs) (bitmap : Bitstr) :
    Prop where
  holds : job.record = some record
  isPending : record.isPending = true
  arrayRecs : record.arrayRecs = some recs
  taskIdBitmap : recs.taskIdBitmap = some bitmap
  clean : ∀ i, bitmap.bits ≤ i → bitTest bitmap i = false
  disjoint : ∀ i ∈ job.own, bitTest bitmap i = false

/-- The task is pending in the META record. -/
def JobArray.pending (job : JobArray) (taskId : Nat) : Prop :=
  ∃ record recs bitmap, job.record = some record ∧ record.arrayRecs = some recs ∧
    recs.taskIdBitmap = some bitmap ∧ bitTest bitmap taskId = true

/-- Exactly the pending tasks of the set are removed, exactly its tasks with a record are
signalled, and the code tells whether all of it went well. -/
structure CancelRight (code : Found → Int) (tasks : Bitstr) (job : JobArray) (outcome : Outcome) :
    Prop where
  removed : ∀ taskId, outcome.job.pending taskId ↔ job.pending taskId ∧ bitTest tasks taskId = false
  once : outcome.calls.Nodup
  signalled : ∀ found, found ∈ outcome.calls ↔
    ∃ taskId ∈ job.own, bitTest tasks taskId = true ∧ found = .task taskId
  success : (∀ taskId, bitTest tasks taskId = true →
    job.pending taskId ∨ taskId ∈ job.own ∧ code (.task taskId) = 0) → outcome.rc = 0
  invalid : outcome.rc = invalidJobId →
    ∃ taskId, bitTest tasks taskId = true ∧ ¬job.pending taskId ∧ taskId ∉ job.own

/-- No pending task is in the set, or one of its tasks is unknown, or the signal to a task
behind the last pending one fails with a larger code. -/
def CodeSafe (code : Found → Int) (tasks : Bitstr) (job : JobArray) : Prop :=
  (∀ taskId, bitTest tasks taskId = true → ¬job.pending taskId) ∨
  (∃ taskId, bitTest tasks taskId = true ∧ ¬job.pending taskId ∧ taskId ∉ job.own) ∨
  ∃ taskId ∈ job.own, bitTest tasks taskId = true ∧ invalidJobId < code (.task taskId) ∧
    ∀ other, bitTest tasks other = true → job.pending other → other < taskId

/-! ## Bitmaps -/

theorem flsLoop_spec (b : Bitstr) (n : Nat) :
    (flsLoop b n = -1 ∧ ∀ i, i < n → bitTest b i = false) ∨
    ∃ last : Nat, flsLoop b n = last ∧ last < n ∧ bitTest b last = true ∧
      ∀ i, last < i → i < n → bitTest b i = false := by
  induction n with
  | zero => exact Or.inl ⟨rfl, fun i less => absurd less (Nat.not_lt_zero i)⟩
  | succ n ih =>
    rw [flsLoop]
    by_cases isSet : bitTest b n = true
    · rw [if_pos isSet]
      exact Or.inr ⟨n, rfl, Nat.lt_succ_self n, isSet, fun i before less => by omega⟩
    · rw [if_neg isSet]
      have clear : bitTest b n = false := Bool.eq_false_iff.mpr isSet
      rcases ih with ⟨none, below⟩ | ⟨last, found, less, last_, above⟩
      · refine Or.inl ⟨none, fun i less => ?_⟩
        rcases eq_or_lt_of_le (Nat.lt_succ_iff.mp less) with rfl | less
        · exact clear
        · exact below i less
      · refine Or.inr ⟨last, found, by omega, last_, fun i before less => ?_⟩
        rcases eq_or_lt_of_le (Nat.lt_succ_iff.mp less) with rfl | less
        · exact clear
        · exact above i before less

/-- No bit behind the size is set. -/
def Clean (b : Bitstr) : Prop :=
  ∀ i, b.bits ≤ i → bitTest b i = false

variable {b : Bitstr} {i : Nat}

theorem Clean.lt (clean : Clean b) (isSet : bitTest b i = true) : i < b.bits := by
  by_contra behind
  rw [clean i (not_lt.mp behind)] at isSet
  cases isSet

theorem Clean.le_fls (clean : Clean b) (isSet : bitTest b i = true) : (i : Int) ≤ bitFls b := by
  rw [bitFls]
  rcases flsLoop_spec b b.bits with ⟨-, below⟩ | ⟨last, found, -, -, above⟩
  · rw [below i (clean.lt isSet)] at isSet
    cases isSet
  · by_contra before
    rw [above i (by omega) (clean.lt isSet)] at isSet
    cases isSet

theorem Clean.ffs_le (clean : Clean b) (isSet : bitTest b i = true) :
    0 ≤ Bitmap.bitFfs true b ∧ (Bitmap.bitFfs true b).toNat ≤ i := by
  rw [Bitmap.bitFfs]
  rcases ffsLoop_isFirst true b clean (dvd_zero 64) with ⟨-, clear⟩ | ⟨first, found, -, before⟩
  · rw [clear i (Nat.zero_le i)] at isSet
    cases isSet
  · rw [found]
    refine ⟨Int.natCast_nonneg first, ?_⟩
    by_contra less
    rw [before i (Nat.zero_le i) (not_le.mp less)] at isSet
    cases isSet

theorem bitTest_bitAndNot {b1 b2 : Bitstr} (same : b1.bits = b2.bits) (i : Nat) :
    bitTest (bitAndNot b1 b2 same) i = (bitTest b1 i && !bitTest b2 i) := by
  by_cases mem : i < b1.room
  · exact @bitTest_wordwise b1 b2 same (· &&& ~~~·) (fun x y => x && !y)
      (fun _ _ _ small => by simp [small]) i mem
  · have room : (bitAndNot b1 b2 same).room = b1.room := by
      rw [Bitstr.room_eq, Bitstr.room_eq]
      rfl
    rw [bitTest_of_room_le (room ▸ not_lt.mp mem), bitTest_of_room_le (not_lt.mp mem),
      Bool.false_and]

theorem subtractBoth_test {array bitmap : Bitstr} (same : array.bits = bitmap.bits) (i : Nat) :
    bitTest (subtractBoth array bitmap same).1 i = (bitTest bitmap i && !bitTest array i) ∧
    bitTest (subtractBoth array bitmap same).2 i = bitTest array i := by
  rw [subtractBoth]
  refine ⟨bitTest_bitAndNot same.symm i, ?_⟩
  rw [bitTest_bitAndNot, bitTest_bitAndNot]
  cases bitTest array i <;> simp

theorem bitTest_realloc {nbits : Nat} (behind : ∀ i, nbits ≤ i → bitTest b i = false) (i : Nat) :
    bitTest (bitRealloc b nbits) i = bitTest b i := by
  rw [bitTest_bitRealloc]
  by_cases mem : i < 64 * wordsFor nbits
  · rw [decide_eq_true mem, Bool.true_and]
  · rw [decide_eq_false mem, Bool.false_and, behind i]
    rw [wordsFor] at mem
    omega

theorem matchSizes_test {array bitmap : Bitstr} (clean : Clean array) (cleanBitmap : Clean bitmap)
    (i : Nat) :
    bitTest (matchSizes array bitmap (bitFls array + 1).toNat).1.1 i = bitTest array i ∧
    bitTest (matchSizes array bitmap (bitFls array + 1).toNat).1.2 i = bitTest bitmap i := by
  have behind : ∀ j, (bitFls array + 1).toNat ≤ j → bitTest array j = false := by
    intro j after
    refine Bool.eq_false_iff.mpr fun isSet => ?_
    have le := clean.le_fls isSet
    omega
  rw [matchSizes]
  split_ifs with small
  · exact ⟨bitTest_realloc (fun j after => behind j (by omega)) i, rfl⟩
  · exact ⟨bitTest_realloc behind i, bitTest_realloc (fun j after => cleanBitmap j (by omega)) i⟩

/-! ## The second loop -/

section Loop

variable (code : Found → Int) {job : JobArray} {array : Bitstr}

theorem signalLoop_eq (iLast : Int) (i : Nat) (state : Int × List Found) :
    signalLoop code job array iLast i state =
      ((List.range' i (iLast + 1 - i).toNat).filter (bitTest array)).foldl (signalOne code job)
        state := by
  fun_induction signalLoop code job array iLast i state with
  | case1 i state more ih =>
    have count : (iLast + 1 - i).toNat = (iLast + 1 - (i + 1 : Nat)).toNat + 1 := by omega
    rw [ih, count, range'_succ, filter_cons, signalTurn]
    split_ifs with isSet
    · rw [foldl_cons]
    · rfl
  | case2 i state stops =>
    have count : (iLast + 1 - i).toNat = 0 := by omega
    rw [count]
    rfl

/-- The ids of a bitmap in their order, each once. -/
structure Listed (array : Bitstr) (ids : List Nat) : Prop where
  sorted : ids.Pairwise (· < ·)
  mem_iff : ∀ i, i ∈ ids ↔ bitTest array i = true

theorem signalRest_eq (clean : Clean array) (rc : Int) : ∃ ids, Listed array ids ∧
    signalRest code (rc, array, job) =
      ⟨(ids.foldl (signalOne code job) (rc, [])).1, (ids.foldl (signalOne code job) (rc, [])).2,
        job⟩ := by
  rw [signalRest]
  dsimp only
  rw [signalLoop_eq]
  refine ⟨_, ⟨?_, fun i => ?_⟩, rfl⟩
  · exact List.Pairwise.filter _ pairwise_lt_range'
  · rw [mem_filter, mem_range'_1]
    refine ⟨And.right, fun isSet => ⟨?_, isSet⟩⟩
    obtain ⟨nonneg, first⟩ := clean.ffs_le isSet
    have last := clean.le_fls isSet
    omega

theorem foldl_calls (ids : List Nat) (state : Int × List Found) :
    (ids.foldl (signalOne code job) state).2 = state.2 ++ ids.filterMap (findJobArrayRec job) := by
  induction ids generalizing state with
  | nil => simp
  | cons i ids ih =>
    rw [foldl_cons, ih, signalOne]
    cases found : findJobArrayRec job i with
    | none => simp [found]
    | some found' => simp [found]

theorem foldl_found (never : ∀ found, code found ≠ invalidJobId) (ids : List Nat)
    (all : ∀ i ∈ ids, findJobArrayRec job i ≠ none) (state : Int × List Found)
    (other : state.1 ≠ invalidJobId) :
    (ids.foldl (signalOne code job) state).1 ≠ invalidJobId := by
  induction ids generalizing state with
  | nil => exact other
  | cons i ids ih =>
    refine ih (fun j mem => all j (mem_cons_of_mem i mem)) _ ?_
    rw [signalOne]
    cases found : findJobArrayRec job i with
    | none => exact absurd found (all i mem_cons_self)
    | some here =>
      dsimp only
      rcases max_choice state.1 (code here) with same | same
      · rw [same]
        exact other
      · rw [same]
        exact never here

theorem foldl_success (ids : List Nat)
    (all : ∀ i ∈ ids, ∃ found, findJobArrayRec job i = some found ∧ code found = 0)
    (state : Int × List Found) (zero : state.1 = 0) :
    (ids.foldl (signalOne code job) state).1 = 0 := by
  induction ids generalizing state with
  | nil => exact zero
  | cons i ids ih =>
    refine ih (fun j mem => all j (mem_cons_of_mem i mem)) _ ?_
    obtain ⟨found, same, success⟩ := all i mem_cons_self
    simp only [signalOne, same, success, zero, max_self]

theorem foldl_unknown (ids : List Nat) (sorted : ids.Pairwise (· < ·))
    (unknown : ∃ i ∈ ids, findJobArrayRec job i = none) (state : Int × List Found) :
    invalidJobId ≤ (ids.foldl (signalOne code job) state).1 ∧
    ((ids.foldl (signalOne code job) state).1 = invalidJobId ↔
      ¬∃ i ∈ ids, ∃ found, findJobArrayRec job i = some found ∧ invalidJobId < code found ∧
        ∀ j ∈ ids, findJobArrayRec job j = none → j < i) := by
  induction ids using List.reverseRecOn with
  | nil =>
    obtain ⟨i, mem, -⟩ := unknown
    exact absurd mem not_mem_nil
  | append_singleton ids i ih =>
    rw [pairwise_append] at sorted
    obtain ⟨sorted, -, before⟩ := sorted
    have less : ∀ j ∈ ids, j < i := fun j mem => before j mem i (mem_singleton_self i)
    rw [foldl_append, foldl_cons, foldl_nil, signalOne]
    cases found : findJobArrayRec job i with
    | none =>
      refine ⟨le_rfl, iff_of_true rfl ?_⟩
      rintro ⟨j, mem, _, -, -, last⟩
      have later := last i (by simp) found
      rcases mem_append.mp mem with mem | mem
      · exact absurd (less j mem) (by omega)
      · exact absurd later (by simp at mem; omega)
    | some here =>
      obtain ⟨j, mem, none⟩ : ∃ j ∈ ids, findJobArrayRec job j = none := by
        obtain ⟨j, mem, none⟩ := unknown
        rcases mem_append.mp mem with mem | mem
        · exact ⟨j, mem, none⟩
        · rw [mem_singleton.mp mem, found] at none
          cases none
      obtain ⟨least, iff⟩ := ih sorted ⟨j, mem, none⟩
      refine ⟨le_max_of_le_left least, ?_⟩
      have unknownBefore : ∀ k ∈ ids ++ [i], findJobArrayRec job k = Option.none → k ∈ ids := by
        intro k mem unknown
        rcases mem_append.mp mem with mem | mem
        · exact mem
        · rw [mem_singleton.mp mem, found] at unknown
          cases unknown
      constructor
      · rintro same ⟨k, mem, there, foundThere, large, last⟩
        have both := max_le_iff.mp same.le
        rcases mem_append.mp mem with mem | mem
        · refine iff.mp (le_antisymm both.1 least) ⟨k, mem, there, foundThere, large, ?_⟩
          exact fun j mem => last j (mem_append_left _ mem)
        · rw [mem_singleton.mp mem, found, Option.some.injEq] at foundThere
          rw [foundThere] at both
          exact absurd both.2 (not_le.mpr large)
      · intro none_
        refine le_antisymm (max_le ?_ ?_) (le_max_of_le_left least)
        · refine (iff.mpr ?_).le
          rintro ⟨k, mem, there, foundThere, large, last⟩
          refine none_ ⟨k, mem_append_left _ mem, there, foundThere, large, ?_⟩
          exact fun j mem unknown => last j (unknownBefore j mem unknown) unknown
        · by_contra large
          refine none_ ⟨i, by simp, here, found, not_le.mp large, ?_⟩
          exact fun j mem unknown => less j (unknownBefore j mem unknown)

end Loop

/-! ## Cancelling tasks -/

section Cancel

variable {code : Found → Int} {request : Request} {array bitmap left : Bitstr} {job : JobArray}
  {record : Record} {recs : ArrayRecs}

theorem PendingMeta.pending_iff (pending : PendingMeta job record recs bitmap) (i : Nat) :
    job.pending i ↔ bitTest bitmap i = true := by
  constructor
  · rintro ⟨record', recs', bitmap', holds, arrayRecs, taskIdBitmap, isSet⟩
    obtain rfl : record = record' := by simpa [pending.holds] using holds
    obtain rfl : recs = recs' := by simpa [pending.arrayRecs] using arrayRecs
    obtain rfl : bitmap = bitmap' := by simpa [pending.taskIdBitmap] using taskIdBitmap
    exact isSet
  · exact fun isSet => ⟨record, recs, bitmap, pending.holds, pending.arrayRecs,
      pending.taskIdBitmap, isSet⟩

theorem cancelPending_spec (request : Request) (left : Bitstr) (record : Record) (recs : ArrayRecs)
    (job : JobArray) :
    (cancelPending request left record recs job).own = job.own ∧
    ∃ record' recs', (cancelPending request left record recs job).record = some record' ∧
      record'.arrayRecs = some recs' ∧ recs'.taskIdBitmap = some left := by
  simp only [cancelPending]
  split_ifs with none
  · exact ⟨rfl, _, _, rfl, rfl, rfl⟩
  · exact ⟨rfl, _, _, rfl, rfl, rfl⟩

theorem cancelPending_pending (i : Nat) :
    (cancelPending request left record recs job).pending i ↔ bitTest left i = true := by
  obtain ⟨-, record', recs', holds, arrayRecs, taskIdBitmap⟩ :=
    cancelPending_spec request left record recs job
  constructor
  · rintro ⟨record₂, recs₂, bitmap, holds₂, arrayRecs₂, taskIdBitmap₂, isSet⟩
    obtain rfl : record' = record₂ := by simpa [holds] using holds₂
    obtain rfl : recs' = recs₂ := by simpa [arrayRecs] using arrayRecs₂
    obtain rfl : left = bitmap := by simpa [taskIdBitmap] using taskIdBitmap₂
    exact isSet
  · exact fun isSet => ⟨record', recs', left, holds, arrayRecs, taskIdBitmap, isSet⟩

theorem cancelPending_find {i : Nat} (gone : bitTest left i = false) :
    findJobArrayRec (cancelPending request left record recs job) i =
      if i ∈ job.own then some (.task i) else none := by
  obtain ⟨own, record', recs', holds, arrayRecs, taskIdBitmap⟩ :=
    cancelPending_spec request left record recs job
  simp [findJobArrayRec, own, holds, arrayRecs, taskIdBitmap, gone]

/-- The set of tasks survives both subtractions, and what is left of the META record are its
other tasks. -/
theorem signalPending_kill (pending : PendingMeta job record recs bitmap) (clean : Clean array)
    (kill : request.signal = sigkill) : ∃ left ids, signalPending request array record job =
        (0, ids, cancelPending request left record recs job) ∧
      (∀ i, bitTest left i = (bitTest bitmap i && !bitTest array i)) ∧
      (∀ i, bitTest ids i = bitTest array i) ∧ Clean ids := by
  have test := matchSizes_test clean pending.clean
  have isPending := pending.isPending
  simp only [signalPending, pending.arrayRecs, pending.taskIdBitmap, isPending, kill, not_true,
    if_false, if_true]
  refine ⟨_, _, rfl, fun i => ?_, fun i => ?_, fun i behind => ?_⟩
  · rw [(subtractBoth_test _ i).1, (test i).1, (test i).2]
  · rw [(subtractBoth_test _ i).2, (test i).1]
  · rw [(subtractBoth_test _ i).2, (test i).1]
    refine Bool.eq_false_iff.mpr fun isSet => ?_
    have le := clean.le_fls isSet
    have size : (bitFls array + 1).toNat ≤
        (matchSizes array bitmap (bitFls array + 1).toNat).1.1.bits := by
      rw [matchSizes]
      split_ifs with small
      · exact small.le
      · exact le_rfl
    have less : (matchSizes array bitmap (bitFls array + 1).toNat).1.1.bits ≤ i := behind
    omega

theorem calls_own {after : JobArray} {ids : List Nat} (listed : Listed array ids)
    (find : ∀ i, bitTest array i = true →
      findJobArrayRec after i = if i ∈ job.own then some (.task i) else none) :
    (ids.filterMap (findJobArrayRec after)).Nodup ∧
    ∀ found, found ∈ ids.filterMap (findJobArrayRec after) ↔
      ∃ taskId ∈ job.own, bitTest array taskId = true ∧ found = .task taskId := by
  have same : ids.filterMap (findJobArrayRec after) =
      ids.filterMap fun i => if i ∈ job.own then some (.task i) else none :=
    filterMap_congr fun i mem => find i ((listed.mem_iff i).mp mem)
  rw [same]
  constructor
  · refine List.Nodup.filterMap ?_ (listed.sorted.imp fun less => less.ne)
    intro i j found here there
    split_ifs at here there
    · exact Found.task.inj ((Option.some.inj here).trans (Option.some.inj there).symm)
    all_goals simp_all
  · intro found
    rw [mem_filterMap]
    constructor
    · rintro ⟨i, mem, here⟩
      split_ifs at here with own
      exact ⟨i, own, (listed.mem_iff i).mp mem, (Option.some.inj here).symm⟩
    · rintro ⟨i, own, isSet, rfl⟩
      exact ⟨i, (listed.mem_iff i).mpr isSet, if_pos own⟩

theorem signalPending_right_iff (never : ∀ found, code found ≠ invalidJobId)
    (pending : PendingMeta job record recs bitmap) (clean : Clean array)
    (kill : request.signal = sigkill) :
    CancelRight code array job (signalRest code (signalPending request array record job)) ↔
      CodeSafe code array job := by
  obtain ⟨left, rest, run, cut, same, cleanRest⟩ := signalPending_kill pending clean kill
  obtain ⟨ids, listed, signal⟩ :=
    @signalRest_eq code (cancelPending request left record recs job) rest cleanRest 0
  have listed : Listed array ids := ⟨listed.sorted, fun i => same i ▸ listed.mem_iff i⟩
  have find : ∀ i, bitTest array i = true →
      findJobArrayRec (cancelPending request left record recs job) i =
        if i ∈ job.own then some (.task i) else none := by
    intro i isSet
    exact cancelPending_find (by rw [cut, isSet]; simp)
  have notPending : ∀ i ∈ job.own, ¬job.pending i := by
    intro i own isPending
    rw [pending.pending_iff, pending.disjoint i own] at isPending
    cases isPending
  have removed : ∀ i, (cancelPending request left record recs job).pending i ↔
      job.pending i ∧ bitTest array i = false := by
    intro i
    rw [cancelPending_pending, pending.pending_iff, cut, Bool.and_eq_true, Bool.not_eq_true']
  obtain ⟨once, signalled⟩ := calls_own listed find
  rw [run, signal]
  have calls : (ids.foldl (signalOne code (cancelPending request left record recs job))
      (0, [])).2 = ids.filterMap (findJobArrayRec (cancelPending request left record recs job)) := by
    rw [foldl_calls, nil_append]
  by_cases unknown : ∃ i, bitTest array i = true ∧ i ∉ job.own
  · obtain ⟨u, inSet, notOwn⟩ := unknown
    obtain ⟨least, iff⟩ := foldl_unknown code ids listed.sorted
      ⟨u, (listed.mem_iff u).mpr inSet, (find u inSet).trans (if_neg notOwn)⟩ (0, [])
    by_cases neither : ∃ i, bitTest array i = true ∧ ¬job.pending i ∧ i ∉ job.own
    · refine iff_of_true ⟨removed, calls ▸ once, calls ▸ signalled, fun success => ?_,
        fun _ => neither⟩ (Or.inr (Or.inl neither))
      obtain ⟨i, inSet, away, other⟩ := neither
      rcases success i inSet with here | ⟨own, -⟩
      · exact absurd here away
      · exact absurd own other
    · have covered : ∀ i, bitTest array i = true → i ∉ job.own → job.pending i := by
        intro i inSet other
        by_contra away
        exact neither ⟨i, inSet, away, other⟩
      constructor
      · intro right
        obtain ⟨i, mem, found, same, large, last⟩ := not_not.mp
          ((not_congr iff).mp fun invalid => neither (right.invalid invalid))
        have inSet := (listed.mem_iff i).mp mem
        rw [find i inSet] at same
        split_ifs at same with own
        obtain rfl : .task i = found := Option.some.inj same
        refine Or.inr (Or.inr ⟨i, own, inSet, large, fun j inSet isPending => ?_⟩)
        exact last j ((listed.mem_iff j).mpr inSet)
          ((find j inSet).trans (if_neg fun own => notPending j own isPending))
      · rintro (none | known | ⟨i, own, inSet, large, last⟩)
        · exact absurd (covered u inSet notOwn) (none u inSet)
        · exact absurd known neither
        · refine ⟨removed, calls ▸ once, calls ▸ signalled, fun success => ?_, fun invalid => ?_⟩
          · obtain ⟨-, zero⟩ := (success i inSet).resolve_left (notPending i own)
            rw [zero] at large
            exact absurd large (by decide)
          · refine absurd ⟨i, (listed.mem_iff i).mpr inSet, .task i,
              (find i inSet).trans (if_pos own), large, fun j mem none => ?_⟩ (iff.mp invalid)
            have inSet := (listed.mem_iff j).mp mem
            refine last j inSet (covered j inSet fun own => ?_)
            rw [find j inSet, if_pos own] at none
            cases none
  · push Not at unknown
    have all : ∀ i ∈ ids, findJobArrayRec (cancelPending request left record recs job) i =
        some (.task i) := by
      intro i mem
      have inSet := (listed.mem_iff i).mp mem
      rw [find i inSet, if_pos (unknown i inSet)]
    refine iff_of_true ⟨removed, calls ▸ once, calls ▸ signalled, fun success => ?_, fun invalid => ?_⟩
      (Or.inl fun i inSet => notPending i (unknown i inSet))
    · refine foldl_success code ids (fun i mem => ⟨.task i, all i mem, ?_⟩) (0, []) rfl
      have inSet := (listed.mem_iff i).mp mem
      exact ((success i inSet).resolve_left (notPending i (unknown i inSet))).2
    · refine absurd invalid (foldl_found code never ids (fun i mem => ?_) (0, []) (by decide))
      rw [all i mem]
      exact Option.some_ne_none _

/-- An authorised request for a list of tasks of an array with a META record. -/
structure ListRequest (maxArraySize : Nat) (request : Request) (jobIdStr list : List Char)
    (jobId : Nat) (array : Bitstr) : Prop where
  kill : request.signal = sigkill
  authorised : request.authorised = true
  split : taskList jobIdStr = some (jobId, list)
  parse : parseTokens maxArraySize (tokens list) (bitAlloc maxArraySize) = some (true, array)
  notEmpty : 0 ≤ bitFls array

section Request

variable {maxArraySize jobId : Nat} {jobIdStr list : List Char}

theorem ListRequest.clean (asked : ListRequest maxArraySize request jobIdStr list jobId array) :
    Clean array := by
  obtain ⟨size, behind⟩ :=
    parseTokens_inside (show (bitAlloc maxArraySize).bits = maxArraySize from rfl) asked.parse
  intro i outside
  rw [behind i (size ▸ outside), bitTest_bitAlloc]

theorem ListRequest.run (asked : ListRequest maxArraySize request jobIdStr list jobId array)
    (arrays : Nat → JobArray) (pending : PendingMeta (arrays jobId) record recs bitmap) :
    jobStrSignal code maxArraySize request jobIdStr arrays =
      some (signalRest code (signalPending request array record (arrays jobId))) := by
  have isArray : ¬(record.arrayTaskId = noTaskId ∧ record.arrayRecs.isNone = true) := by
    rw [pending.arrayRecs]
    simp
  simp only [jobStrSignal, asked.split, signalTasks, asked.parse, pending.holds]
  rw [if_neg (by simp [asked.notEmpty]), if_neg isArray, if_neg (by simp [asked.authorised])]

end Request

/-- A cancellation with a list of tasks does what is asked for exactly when no pending task
is in the list, or some failure hides the code that is left behind for the pending ones. -/
theorem jobStrSignal_right_iff (maxArraySize : Nat) (request : Request) (code : Found → Int)
    (never : ∀ found, code found ≠ invalidJobId) (arrays : Nat → JobArray)
    (jobIdStr list : List Char) (jobId : Nat) (array : Bitstr)
    (asked : ListRequest maxArraySize request jobIdStr list jobId array)
    (record : Record) (recs : ArrayRecs) (bitmap : Bitstr)
    (pending : PendingMeta (arrays jobId) record recs bitmap) :
    ∃ outcome, jobStrSignal code maxArraySize request jobIdStr arrays = some outcome ∧
      (CancelRight code array (arrays jobId) outcome ↔ CodeSafe code array (arrays jobId)) :=
  ⟨_, asked.run arrays pending, signalPending_right_iff never pending asked.clean asked.kill⟩

/-! ## A task alone -/

/-- An array of size 2 with one pending task and some tasks with a record. -/
def loneArray (pending : Nat) (own : Finset Nat) : JobArray :=
  ⟨some ⟨0, 0, noTaskId, some ⟨some (bitSet pending (bitAlloc 2)), none, 1, 0, 0, 0⟩, 0, 0, 0⟩,
    own, 1⟩

theorem loneArray_meta {pending : Nat} {own : Finset Nat} (less : pending < 2)
    (away : pending ∉ own) : ∃ record recs,
      PendingMeta (loneArray pending own) record recs (bitSet pending (bitAlloc 2)) := by
  have writes := bitSet_writes (less.trans_le (bitAlloc 2).bits_le_room)
  refine ⟨_, _, rfl, rfl, rfl, rfl, fun i behind => ?_, fun i mem => ?_⟩
  · have behind : 2 ≤ i := behind
    rw [writes.outside i (by omega), bitTest_bitAlloc]
  · rw [writes.outside i (fun same => away (same ▸ mem)), bitTest_bitAlloc]

theorem parse_one :
    parseTokens 2 (tokens ['1']) (bitAlloc 2) = some (true, bitSet 1 (bitAlloc 2)) := by
  have one : tokens ['1'] = [['1']] := by decide
  have read : readNumbers ['1'] = some (1, 1, 1) := by decide
  rw [one, parseTokens, parseArrayTok_eq, read]
  simp [setLoop, parseTokens]

theorem listRequest_one :
    ListRequest 2 ⟨sigkill, 0, true, 0⟩ ['7', '_', '1'] ['1'] 7 (bitSet 1 (bitAlloc 2)) :=
  ⟨rfl, rfl, by decide, parse_one, by decide⟩

theorem bitTest_one {bit i : Nat} (less : bit < 2) :
    bitTest (bitSet bit (bitAlloc 2)) i = true ↔ i = bit := by
  have writes := bitSet_writes (less.trans_le (bitAlloc 2).bits_le_room)
  by_cases same : i = bit
  · rw [writes.inside i same]
    exact iff_of_true rfl same
  · rw [writes.outside i same, bitTest_bitAlloc]
    exact iff_of_false Bool.false_ne_true same

theorem jobStrSignal_right_iff_started :
    ∃ outcome, jobStrSignal (fun _ => 0) 2 ⟨sigkill, 0, true, 0⟩ ['7', '_', '1']
      (fun _ => loneArray 0 {1}) = some outcome ∧
      CancelRight (fun _ => 0) (bitSet 1 (bitAlloc 2)) (loneArray 0 {1}) outcome := by
  obtain ⟨record, recs, pending⟩ := @loneArray_meta 0 {1} (by decide) (by decide)
  obtain ⟨outcome, run, iff⟩ := jobStrSignal_right_iff 2 ⟨sigkill, 0, true, 0⟩ (fun _ => 0)
    (fun _ => by decide) (fun _ => loneArray 0 {1}) ['7', '_', '1'] ['1'] 7 _ listRequest_one
    record recs _ pending
  refine ⟨outcome, run, iff.mpr (Or.inl fun i inSet isPending => ?_)⟩
  rw [pending.pending_iff, bitTest_one (by decide)] at isPending
  rw [bitTest_one (by decide)] at inSet
  omega

/-- The only pending task is cancelled and the caller hears of an invalid job id. -/
theorem jobStrSignal_right_fails : ¬∀ (maxArraySize : Nat) (request : Request)
    (code : Found → Int), (∀ found, code found ≠ invalidJobId) → ∀ (arrays : Nat → JobArray)
      (jobIdStr list : List Char) (jobId : Nat) (array : Bitstr),
    ListRequest maxArraySize request jobIdStr list jobId array →
    ∀ record recs bitmap, PendingMeta (arrays jobId) record recs bitmap →
    ∃ outcome, jobStrSignal code maxArraySize request jobIdStr arrays = some outcome ∧
      CancelRight code array (arrays jobId) outcome := by
  intro all
  obtain ⟨record, recs, pending⟩ := @loneArray_meta 1 ∅ (by decide) (by decide)
  have never : ∀ found : Found, (fun _ => 0 : Found → Int) found ≠ invalidJobId :=
    fun _ => (by decide : (0 : Int) ≠ invalidJobId)
  obtain ⟨outcome, run, right⟩ := all 2 ⟨sigkill, 0, true, 0⟩ (fun _ => 0) never
    (fun _ => loneArray 1 ∅) ['7', '_', '1'] ['1'] 7 _ listRequest_one record recs _ pending
  obtain rfl := Option.some.inj ((listRequest_one.run (fun _ => loneArray 1 ∅) pending).symm.trans run)
  have isPending := (pending.pending_iff 1).mpr ((bitTest_one (by decide)).mpr rfl)
  rcases (signalPending_right_iff never pending listRequest_one.clean rfl).mp right with
    none | ⟨i, inSet, away, -⟩ | ⟨i, own, -⟩
  · exact none 1 ((bitTest_one (by decide)).mpr rfl) isPending
  · obtain rfl := (bitTest_one (by decide)).mp inSet
    exact away isPending
  · exact absurd own (Finset.notMem_empty i)

end Cancel

end SlurmSim.Controller.ArraySignal
