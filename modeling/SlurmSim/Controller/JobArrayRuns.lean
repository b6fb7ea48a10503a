import Mathlib.Algebra.Order.BigOperators.Group.Finset
import SlurmSim.Controller.JobArray
import SlurmSim.Lib.Sums

/-!
# Conservation of job arrays

Each step moves tasks between the pending set, the started and the cancelled
ones, and changes the count of the records it touches by what it adds to
`job_count`.
-/

namespace SlurmSim.Controller

open Option (map_some some.injEq)
open Finset (card_pos mem_erase mem_insert mem_of_mem_erase notMem_empty sdiff_subset)
open Function (update_of_ne update_self)

/-! ## Partitions -/

namespace Partition

variable {whole one two three : Finset Nat}

theorem move (partition : Partition whole one two three) {task : Nat} (member : task ∈ one) :
    Partition whole (one.erase task) (insert task two) three := by
  obtain ⟨covers, oneTwo, oneThree, twoThree⟩ := partition
  have notThree : task ∉ three := Finset.disjoint_left.mp oneThree member
  refine ⟨?_, ?_, ?_, ?_⟩
  · rw [← covers]
    ext other
    simp only [Finset.mem_union, mem_erase, mem_insert]
    rcases eq_or_ne other task with rfl | different
    · simp [member]
    · simp [different]
  · rw [Finset.disjoint_left] at oneTwo ⊢
    intro other inOne inInsert
    obtain ⟨different, mem⟩ := mem_erase.mp inOne
    rcases mem_insert.mp inInsert with same | inTwo
    · exact different same
    · exact oneTwo mem inTwo
  · exact Finset.disjoint_of_subset_left (Finset.erase_subset _ _) oneThree
  · rw [Finset.disjoint_insert_left]
    exact ⟨notThree, twoThree⟩

theorem drop (partition : Partition whole one two three) (gone : Finset Nat) :
    Partition whole (one \ gone) two (three ∪ (one \ (one \ gone))) := by
  obtain ⟨covers, oneTwo, oneThree, twoThree⟩ := partition
  refine ⟨?_, ?_, ?_, ?_⟩
  · rw [← covers]
    ext other
    simp only [Finset.mem_union, Finset.mem_sdiff]
    tauto
  · exact Finset.disjoint_of_subset_left sdiff_subset oneTwo
  · rw [Finset.disjoint_union_right]
    exact ⟨Finset.disjoint_of_subset_left sdiff_subset oneThree, Finset.disjoint_sdiff⟩
  · rw [Finset.disjoint_union_right]
    exact ⟨twoThree, Finset.disjoint_of_subset_right sdiff_subset oneTwo.symm⟩

theorem whole_pending (tasks : Finset Nat) : Partition tasks tasks ∅ ∅ := by
  refine ⟨?_, ?_, ?_, ?_⟩
  · simp
  · exact Finset.disjoint_empty_right _
  · exact Finset.disjoint_empty_right _
  · exact Finset.disjoint_empty_right _

end Partition

theorem bitFfs_spec {bitmap : Finset Nat} (some_ : bitmap.Nonempty) :
    ∃ taskId, bitFfs bitmap = some taskId ∧ taskId ∈ bitmap ∧ ∀ other ∈ bitmap, taskId ≤ other :=
  ⟨bitmap.min' some_, dif_pos some_, bitmap.min'_mem some_, fun other => bitmap.min'_le other⟩

/-! ## What is kept of every record -/

/-- A record counts its pending tasks, is pending while it has some, and their
ids fit the 32-bit task id. -/
structure RecordKept (job : JobRecord) : Prop where
  counted : ∀ recs, job.arrayRecs = some recs → recs.taskCnt = job.pendingTasks.card
  waits : ∀ recs bitmap, job.arrayRecs = some recs → recs.taskIdBitmap = some bitmap →
    (job.isPending = true ↔ bitmap.Nonempty)
  bounded : ∀ taskId ∈ job.pendingTasks, taskId < noVal.toNat

/-- The invariant of a run with its ledger. -/
structure Kept (s : ArrayState) (l : Ledger) : Prop extends Conserved s l where
  ids : s.table.IdsHeld
  records : ∀ ptr ∈ s.table.live, RecordKept (s.table.recs ptr)

namespace ArrayState

variable {s : ArrayState}

theorem mem_pending (ids : s.table.IdsHeld) {arrayJobId : UInt32} {taskId : Nat} :
    taskId ∈ s.pending arrayJobId ↔ ∃ ptr ∈ s.table.live, (s.table.recs ptr).jobId = arrayJobId ∧
        taskId ∈ (s.table.recs ptr).pendingTasks := by
  unfold pending
  cases found : s.table.findJobRecord arrayJobId with
  | none =>
    constructor
    · intro mem
      exact absurd mem (notMem_empty taskId)
    · rintro ⟨ptr, live, same, _⟩
      rw [(ids.findJobRecord_iff arrayJobId ptr).mpr ⟨live, same⟩] at found
      cases found
  | some ptr =>
    obtain ⟨live, same⟩ := (ids.findJobRecord_iff arrayJobId ptr).mp found
    constructor
    · intro mem
      exact ⟨ptr, live, same, mem⟩
    · rintro ⟨other, otherLive, otherSame, mem⟩
      have equal := ids.distinctIds other otherLive ptr live (otherSame.trans same.symm)
      rwa [equal] at mem

theorem pending_eq (ids : s.table.IdsHeld) {ptr : Nat} (live : ptr ∈ s.table.live) :
    s.pending (s.table.recs ptr).jobId = (s.table.recs ptr).pendingTasks := by
  rw [pending, (ids.findJobRecord_iff _ ptr).mpr ⟨live, rfl⟩]

/-- The pending sets change as the records do: all but the one at `ptr` keep id
and tasks. -/
theorem pending_update {s' : ArrayState} (ids : s.table.IdsHeld) (ids' : s'.table.IdsHeld)
    {ptr : Nat} (live : ptr ∈ s.table.live) (liveEq : s'.table.live = s.table.live)
    (recOther : ∀ other ∈ s.table.live, other ≠ ptr → s'.table.recs other = s.table.recs other)
    (sameId : (s'.table.recs ptr).jobId = (s.table.recs ptr).jobId) (arrayJobId : UInt32) :
    s'.pending arrayJobId =
      if arrayJobId = (s.table.recs ptr).jobId then (s'.table.recs ptr).pendingTasks
      else s.pending arrayJobId := by
  split_ifs with here
  · rw [here, ← sameId]
    exact pending_eq ids' (liveEq ▸ live)
  · ext taskId
    rw [mem_pending ids', mem_pending ids, liveEq]
    constructor
    · rintro ⟨other, otherLive, same, mem⟩
      have ne : other ≠ ptr := by
        rintro rfl
        exact here (same.symm.trans sameId)
      rw [recOther other otherLive ne] at same mem
      exact ⟨other, otherLive, same, mem⟩
    · rintro ⟨other, otherLive, same, mem⟩
      have ne : other ≠ ptr := by
        rintro rfl
        exact here same.symm
      rw [← recOther other otherLive ne] at same mem
      exact ⟨other, otherLive, same, mem⟩

theorem pending_insert {s' : ArrayState} (ids : s.table.IdsHeld) (ids' : s'.table.IdsHeld)
    {pend : Nat} (fresh : pend ∉ s.table.live) (liveEq : s'.table.live = insert pend s.table.live)
    {arrayJobId : UInt32}
    (others : arrayJobId ≠ (s'.table.recs pend).jobId → ∀ other ∈ s.table.live, ∀ taskId,
      ((s'.table.recs other).jobId = arrayJobId ∧ taskId ∈ (s'.table.recs other).pendingTasks ↔
        (s.table.recs other).jobId = arrayJobId ∧ taskId ∈ (s.table.recs other).pendingTasks)) :
    s'.pending arrayJobId =
      if arrayJobId = (s'.table.recs pend).jobId then (s'.table.recs pend).pendingTasks
      else s.pending arrayJobId := by
  split_ifs with here
  · rw [here]
    exact pending_eq ids' (liveEq ▸ Finset.mem_insert_self pend s.table.live)
  · ext taskId
    rw [mem_pending ids', mem_pending ids, liveEq]
    constructor
    · rintro ⟨other, otherLive, same, mem⟩
      have old : other ∈ s.table.live := by
        refine Finset.mem_of_mem_insert_of_ne otherLive ?_
        rintro rfl
        exact here same.symm
      exact ⟨other, old, (others here other old taskId).mp ⟨same, mem⟩⟩
    · rintro ⟨other, old, holds⟩
      exact ⟨other, Finset.mem_insert_of_mem old, (others here other old taskId).mpr holds⟩

end ArrayState

/-! ## Steps -/

section Steps

variable {s s' : ArrayState} {l l' : Ledger}

theorem pendingTasks_of_completed {job : JobRecord} (kept : RecordKept job)
    (completed : job.isPending = false) : job.pendingTasks = ∅ := by
  unfold JobRecord.pendingTasks
  cases recsEq : job.arrayRecs with
  | none => rfl
  | some recs =>
    cases bitmapEq : recs.taskIdBitmap with
    | none => simp [bitmapEq]
    | some bitmap =>
      have noTask : ¬bitmap.Nonempty := by
        rw [← kept.waits recs bitmap recsEq bitmapEq, completed]
        exact Bool.false_ne_true
      simpa [bitmapEq] using Finset.not_nonempty_iff_eq_empty.mp noTask

variable {ptr taskId pend : Nat} {jobId newId : UInt32} {recs : ArrayRecs} {bitmap : Finset Nat}

theorem Kept.update (kept : Kept s l) (live : ptr ∈ s.table.live)
    (liveEq : s'.table.live = s.table.live)
    (recOther : ∀ other ∈ s.table.live, other ≠ ptr → s'.table.recs other = s.table.recs other)
    (sameId : (s'.table.recs ptr).jobId = (s.table.recs ptr).jobId) (ids : s'.table.IdsHeld)
    (record : RecordKept (s'.table.recs ptr)) (quiet : s'.complained = false)
    (count : s'.jobCount = s.jobCount - (s.table.recs ptr).jobArraySize + (s'.table.recs ptr).jobArraySize)
    (original : l'.original = l.original)
    (elsewhere : ∀ arrayJobId, arrayJobId ≠ (s.table.recs ptr).jobId →
      l'.started arrayJobId = l.started arrayJobId ∧ l'.cancelled arrayJobId = l.cancelled arrayJobId)
    (moves : ∀ tasks, Partition tasks (s.table.recs ptr).pendingTasks
      (l.started (s.table.recs ptr).jobId) (l.cancelled (s.table.recs ptr).jobId) →
      Partition tasks (s'.table.recs ptr).pendingTasks (l'.started (s.table.recs ptr).jobId)
      (l'.cancelled (s.table.recs ptr).jobId)) :
    Kept s' l' := by
  have records : ∀ other ∈ s'.table.live, RecordKept (s'.table.recs other) := by
    intro other otherLive
    rw [liveEq] at otherLive
    rcases eq_or_ne other ptr with rfl | different
    · exact record
    · rw [recOther other otherLive different]
      exact kept.records other otherLive
  refine ⟨⟨?_, ?_, quiet, ?_⟩, ids, records⟩
  · intro arrayJobId tasks isOriginal
    rw [original] at isOriginal
    have before := kept.partition arrayJobId tasks isOriginal
    rw [ArrayState.pending_update kept.ids ids live liveEq recOther sameId arrayJobId]
    split_ifs with here
    · rw [here, ArrayState.pending_eq kept.ids live] at before
      rw [here]
      exact moves tasks before
    · rw [(elsewhere arrayJobId here).1, (elsewhere arrayJobId here).2]
      exact before
  · intro other otherLive
    exact (records other otherLive).counted
  · rw [count, kept.jobCount, liveEq]
    have total := Lib.sum_change (fun other => ((s.table.recs other).jobArraySize : Int))
      (fun other => ((s'.table.recs other).jobArraySize : Int)) live
      fun other otherLive different => by simp only [recOther other otherLive different]
    omega

/-- Writing the state of a record whose bitmap, if it has one, stays in step. -/
theorem Kept.writeState (kept : Kept s l) (live : ptr ∈ s.table.live) {jobState : UInt32}
    (stays : ∀ recs bitmap, (s.table.recs ptr).arrayRecs = some recs →
      recs.taskIdBitmap = some bitmap → (s.table.recs ptr).isPending = false ∧ ArrayState.notPending jobState) :
    Kept { s with table := s.table.apply (.setState ptr jobState) } l := by
  have recAt : (s.table.apply (.setState ptr jobState)).recs ptr =
      { s.table.recs ptr with jobState := jobState } := (JobTable.setRec_recs ..).1
  have old := kept.records ptr live
  refine kept.update live rfl ?_ (by rw [recAt]) (kept.ids.setState jobState) ?_ kept.quiet ?_ rfl
    (fun _ _ => ⟨rfl, rfl⟩) ?_
  · intro other _ ne
    exact (JobTable.setRec_recs ..).2 other ne
  · rw [recAt]
    refine ⟨old.counted, ?_, old.bounded⟩
    intro recs bitmap recsEq bitmapEq
    obtain ⟨started, notPending⟩ := stays recs bitmap recsEq bitmapEq
    rw [← old.waits recs bitmap recsEq bitmapEq, started]
    simpa [JobRecord.isPending, JobRecord.baseState, ArrayState.notPending] using notPending
  · rw [recAt]
    change s.jobCount = s.jobCount - ((s.table.recs ptr).jobArraySize : Int) +
      (s.table.recs ptr).jobArraySize
    omega
  · intro tasks partition
    rw [recAt]
    exact partition

theorem Kept.setState (kept : Kept s l) {jobState : UInt32}
    (allowed : s.Allowed (.setState ptr jobState)) : Kept (s.apply (.setState ptr jobState)) l := by
  obtain ⟨live, started, notPending⟩ := allowed
  exact kept.writeState live fun _ _ _ _ => ⟨started, notPending⟩

theorem Kept.purge (kept : Kept s l) (allowed : s.Allowed (.purge ptr)) :
    Kept (s.apply (.purge ptr)) l := by
  obtain ⟨live, completed⟩ := allowed
  obtain ⟨recsEq, liveEq⟩ := @JobTable.delete_recs s.table ptr
  have ids : (s.apply (.purge ptr)).table.IdsHeld := kept.ids.delete live
  have notPending : (s.table.recs ptr).isPending = false := by
    simp only [JobRecord.isCompleted, JobRecord.isFinished, Bool.and_eq_true,
      decide_eq_true_eq] at completed
    have finished := completed.1
    cases waiting : (s.table.recs ptr).isPending with
    | false => rfl
    | true =>
      rw [JobRecord.isPending, beq_iff_eq] at waiting
      rw [waiting] at finished
      exact absurd finished (by decide)
  have noTasks := pendingTasks_of_completed (kept.records ptr live) notPending
  have total := Finset.add_sum_erase s.table.live
    (fun other => ((s.table.recs other).jobArraySize : Int)) live
  have restNonneg : 0 ≤ ∑ other ∈ s.table.live.erase ptr,
      ((s.table.recs other).jobArraySize : Int) :=
    Finset.sum_nonneg fun _ _ => Int.natCast_nonneg _
  have enough : ¬s.jobCount < (s.table.recs ptr).jobArraySize := by
    rw [kept.jobCount, ← total]
    omega
  have tableEq : (s.apply (.purge ptr)).table = s.table.apply (.delete ptr) := rfl
  refine ⟨⟨?_, ?_, ?_, ?_⟩, ids, ?_⟩
  · intro arrayJobId tasks isOriginal
    have samePending : (s.apply (.purge ptr)).pending arrayJobId = s.pending arrayJobId := by
      ext taskId
      rw [ArrayState.mem_pending ids, ArrayState.mem_pending kept.ids, tableEq, recsEq, liveEq]
      constructor
      · rintro ⟨other, otherLive, same, mem⟩
        exact ⟨other, mem_of_mem_erase otherLive, same, mem⟩
      · rintro ⟨other, otherLive, same, mem⟩
        refine ⟨other, mem_erase.mpr ⟨?_, otherLive⟩, same, mem⟩
        rintro rfl
        rw [noTasks] at mem
        exact notMem_empty taskId mem
    rw [samePending]
    exact kept.partition arrayJobId tasks isOriginal
  · intro other otherLive
    rw [tableEq, liveEq] at otherLive
    rw [tableEq, recsEq]
    exact kept.taskCnt other (mem_of_mem_erase otherLive)
  · change (s.complained || decide (s.jobCount < _)) = false
    rw [kept.quiet, decide_eq_false enough]
    rfl
  · change (if s.jobCount < _ then 0 else s.jobCount - _) = _
    rw [if_neg enough, tableEq, recsEq, liveEq, kept.jobCount, ← total]
    omega
  · intro other otherLive
    rw [tableEq, liveEq] at otherLive
    rw [tableEq, recsEq]
    exact kept.records other (mem_of_mem_erase otherLive)

theorem submittedRecord_jobId (jobId : UInt32) (arrayBitmap : Finset Nat) :
    (ArrayState.submittedRecord jobId arrayBitmap).jobId = jobId := by
  unfold ArrayState.submittedRecord
  split_ifs
  · rfl
  · rfl

theorem submittedRecord_pendingTasks (jobId : UInt32) (arrayBitmap : Finset Nat) :
    (ArrayState.submittedRecord jobId arrayBitmap).pendingTasks = arrayBitmap := by
  unfold ArrayState.submittedRecord JobRecord.pendingTasks
  split_ifs with isEmpty
  · exact isEmpty.symm
  · rfl

theorem submittedRecord_jobArraySize (jobId : UInt32) (arrayBitmap : Finset Nat) :
    ((ArrayState.submittedRecord jobId arrayBitmap).jobArraySize : Int) =
      1 + if 1 < arrayBitmap.card then (arrayBitmap.card : Int) - 1 else 0 := by
  unfold ArrayState.submittedRecord JobRecord.jobArraySize
  by_cases isEmpty : arrayBitmap = ∅
  · rw [if_pos isEmpty, isEmpty]
    rfl
  · rw [if_neg isEmpty]
    simp only
    split_ifs
    · omega
    · omega

theorem recordKept_submittedRecord (jobId : UInt32) {arrayBitmap : Finset Nat}
    (bounded : ∀ taskId ∈ arrayBitmap, taskId < noVal.toNat) :
    RecordKept (ArrayState.submittedRecord jobId arrayBitmap) := by
  have tasksEq := submittedRecord_pendingTasks jobId arrayBitmap
  refine ⟨?_, ?_, by rwa [tasksEq]⟩
  · intro recs recsEq
    rw [tasksEq]
    unfold ArrayState.submittedRecord at recsEq
    split_ifs at recsEq
    cases recsEq
    rfl
  · intro recs bitmap recsEq bitmapEq
    unfold ArrayState.submittedRecord at recsEq ⊢
    split_ifs at recsEq ⊢ with isEmpty
    cases recsEq
    cases bitmapEq
    refine ⟨fun _ => Finset.nonempty_iff_ne_empty.mpr isEmpty, fun _ => ?_⟩
    simp [JobRecord.isPending, JobRecord.baseState]

theorem Kept.pending_freshId (kept : Kept s l) (freshId : s.table.FreshId jobId) :
    s.pending jobId = ∅ := by
  refine Finset.eq_empty_of_forall_notMem fun taskId mem => ?_
  obtain ⟨other, old, same, _⟩ := (ArrayState.mem_pending kept.ids).mp mem
  exact freshId other old same

theorem Kept.submit (kept : Kept s l) {arrayBitmap : Finset Nat}
    (allowed : s.Allowed (.submit ptr jobId arrayBitmap)) :
    Kept (s.apply (.submit ptr jobId arrayBitmap))
      (l.observe s (.submit ptr jobId arrayBitmap)) := by
  obtain ⟨fresh, freshId, bounded⟩ := allowed
  have idEq := submittedRecord_jobId jobId arrayBitmap
  have tasksEq := submittedRecord_pendingTasks jobId arrayBitmap
  obtain ⟨recAt, recOther⟩ :=
    @JobTable.create_recs s.table ptr (ArrayState.submittedRecord jobId arrayBitmap) fresh
  have ids : (s.apply (.submit ptr jobId arrayBitmap)).table.IdsHeld :=
    kept.ids.create fresh (by rwa [idEq])
  have records : ∀ other ∈ insert ptr s.table.live, RecordKept
      ((s.apply (.submit ptr jobId arrayBitmap)).table.recs other) := by
    intro other otherLive
    rcases mem_insert.mp otherLive with rfl | old
    · exact recAt ▸ recordKept_submittedRecord jobId bounded
    · exact recOther other old ▸ kept.records other old
  have pendingEq : ∀ arrayJobId, (s.apply (.submit ptr jobId arrayBitmap)).pending arrayJobId =
      if arrayJobId = jobId then arrayBitmap else s.pending arrayJobId := by
    intro arrayJobId
    have inserted := @ArrayState.pending_insert s (s.apply (.submit ptr jobId arrayBitmap)) kept.ids
      ids ptr fresh rfl arrayJobId fun _ other old taskId => by
        rw [show (s.apply (.submit ptr jobId arrayBitmap)).table.recs other = s.table.recs other
          from recOther other old]
    rwa [show (s.apply (.submit ptr jobId arrayBitmap)).table.recs ptr = _ from recAt, idEq,
      tasksEq] at inserted
  refine ⟨⟨?_, ?_, kept.quiet, ?_⟩, ids, records⟩
  · intro arrayJobId tasks isOriginal
    rw [pendingEq arrayJobId]
    simp only [Ledger.observe] at isOriginal ⊢
    by_cases isEmpty : arrayBitmap = ∅
    · rw [if_pos isEmpty] at isOriginal ⊢
      have before := kept.partition arrayJobId tasks isOriginal
      split_ifs with here
      · rw [isEmpty, ← kept.pending_freshId freshId, ← here]
        exact before
      · exact before
    · rw [if_neg isEmpty] at isOriginal ⊢
      by_cases here : arrayJobId = jobId
      · subst here
        simp only [update_self] at isOriginal
        cases isOriginal
        simp only [if_true, update_self]
        exact Partition.whole_pending arrayBitmap
      · simp only [update_of_ne here] at isOriginal ⊢
        rw [if_neg here]
        exact kept.partition arrayJobId tasks isOriginal
  · intro other otherLive
    exact (records other otherLive).counted
  · change s.jobCount + 1 + _ = ∑ other ∈ insert ptr s.table.live,
      (((s.table.apply (.create ptr (ArrayState.submittedRecord jobId arrayBitmap))).recs
        other).jobArraySize : Int)
    have rest : ∑ other ∈ s.table.live, (((s.table.apply (.create ptr
        (ArrayState.submittedRecord jobId arrayBitmap))).recs other).jobArraySize : Int) =
        ∑ other ∈ s.table.live, ((s.table.recs other).jobArraySize : Int) := by
      refine Finset.sum_congr rfl fun other old => ?_
      rw [recOther other old]
    rw [Finset.sum_insert fresh, recAt, submittedRecord_jobArraySize, kept.jobCount, rest]
    omega

theorem Kept.cancel_same (kept : Kept s l) {taskIds : Finset Nat}
    (same : s.cancel jobId taskIds = s) :
    Kept (s.apply (.cancel jobId taskIds)) (l.observe s (.cancel jobId taskIds)) := by
  have stateEq : s.apply (.cancel jobId taskIds) = s := same
  have ledgerEq : l.observe s (.cancel jobId taskIds) = l := by
    unfold Ledger.observe
    simp only [stateEq, Finset.sdiff_self, Finset.union_empty, Function.update_eq_self]
  rw [stateEq, ledgerEq]
  exact kept

/-- The record of an array once its tasks are `left`; without one it is cancelled. -/
def JobRecord.leave (job : JobRecord) (recs : ArrayRecs) (left : Finset Nat) : JobRecord :=
  { job with
    arrayRecs := some { recs with taskIdBitmap := some left, taskCnt := left.card }
    jobState := if left.card = 0 then 4 else job.jobState }

theorem recordKept_leave {job : JobRecord} {left : Finset Nat} (waiting : job.isPending = true)
    (recs : ArrayRecs) (bounded : ∀ taskId ∈ left, taskId < noVal.toNat) :
    RecordKept (job.leave recs left) := by
  refine ⟨?_, ?_, bounded⟩
  · intro recs' recsEq
    cases recsEq
    rfl
  · intro recs' bitmap recsEq bitmapEq
    cases recsEq
    cases bitmapEq
    rw [← card_pos]
    by_cases allGone : left.card = 0
    · simp only [JobRecord.leave, JobRecord.isPending, JobRecord.baseState, allGone, if_true,
        lt_self_iff_false, iff_false]
      decide
    · rw [JobRecord.leave, if_neg allGone]
      exact ⟨fun _ => Nat.pos_of_ne_zero allGone, fun _ => waiting⟩

theorem Kept.cancel_waiting (kept : Kept s l) (taskIds : Finset Nat)
    (found : s.table.findJobRecord jobId = some ptr)
    (recsEq : (s.table.recs ptr).arrayRecs = some recs)
    (bitmapEq : recs.taskIdBitmap = some bitmap) (waiting : (s.table.recs ptr).isPending = true) :
    Kept (s.apply (.cancel jobId taskIds)) (l.observe s (.cancel jobId taskIds)) := by
  obtain ⟨live, idEq⟩ := (kept.ids.findJobRecord_iff jobId ptr).mp found
  have old := kept.records ptr live
  have tasksEq : (s.table.recs ptr).pendingTasks = bitmap := by
    simp [JobRecord.pendingTasks, recsEq, bitmapEq]
  have after : s.apply (.cancel jobId taskIds) = { s with
        table := s.table.setRec ptr ((s.table.recs ptr).leave recs (bitmap \ taskIds))
        jobCount := s.jobCount - if (bitmap \ taskIds).card = 0 then (recs.taskCnt : Int) - 1
          else recs.taskCnt - (bitmap \ taskIds).card } := by
    simp [ArrayState.apply, ArrayState.cancel, found, recsEq, bitmapEq, waiting, JobRecord.leave]
  have recAt : (s.apply (.cancel jobId taskIds)).table.recs ptr =
      (s.table.recs ptr).leave recs (bitmap \ taskIds) := by
    rw [after]
    exact (JobTable.setRec_recs ..).1
  have tasksLeft : ((s.table.recs ptr).leave recs (bitmap \ taskIds)).pendingTasks =
      bitmap \ taskIds := rfl
  have ids : (s.apply (.cancel jobId taskIds)).table.IdsHeld := by
    rw [after]
    exact kept.ids.setRec rfl
  have pendingAfter : (s.apply (.cancel jobId taskIds)).pending jobId = bitmap \ taskIds := by
    have atPtr := @ArrayState.pending_eq _ ids ptr (by rw [after]; exact live)
    have jobIdEq : ((s.table.recs ptr).leave recs (bitmap \ taskIds)).jobId = jobId := idEq
    rwa [recAt, tasksLeft, jobIdEq] at atPtr
  have pendingBefore : s.pending jobId = bitmap := by
    rw [← idEq, ArrayState.pending_eq kept.ids live, tasksEq]
  refine kept.update live (by rw [after]; rfl) ?_ (by rw [recAt]; rfl) ids ?_
    (by rw [after]; exact kept.quiet) ?_ rfl ?_ ?_
  · intro other _ ne
    rw [after]
    exact (JobTable.setRec_recs ..).2 other ne
  · rw [recAt]
    refine recordKept_leave waiting recs fun taskId mem => ?_
    exact old.bounded taskId (tasksEq ▸ (Finset.mem_sdiff.mp mem).1)
  · have counted : recs.taskCnt = bitmap.card := by
      rw [old.counted recs recsEq, tasksEq]
    have hasTask : bitmap.Nonempty := (old.waits recs bitmap recsEq bitmapEq).mp waiting
    have someTask := card_pos.mpr hasTask
    rw [recAt, after]
    simp only [JobRecord.leave, JobRecord.jobArraySize, recsEq, counted]
    split_ifs with allGone
    · omega
    · omega
  · intro arrayJobId ne
    rw [idEq] at ne
    exact ⟨rfl, update_of_ne ne _ _⟩
  · intro tasks partition
    rw [tasksEq, idEq] at partition
    rw [recAt, tasksLeft, idEq]
    have cancelledEq : (l.observe s (.cancel jobId taskIds)).cancelled jobId =
        l.cancelled jobId ∪ (bitmap \ (bitmap \ taskIds)) := by
      rw [← pendingAfter, ← pendingBefore]
      exact update_self jobId _ l.cancelled
    rw [cancelledEq]
    exact partition.drop taskIds

theorem Kept.cancel (kept : Kept s l) (jobId : UInt32) (taskIds : Finset Nat) :
    Kept (s.apply (.cancel jobId taskIds)) (l.observe s (.cancel jobId taskIds)) := by
  cases found : s.table.findJobRecord jobId with
  | none => exact kept.cancel_same (by rw [ArrayState.cancel, found])
  | some ptr =>
  cases recsEq : (s.table.recs ptr).arrayRecs with
  | none => exact kept.cancel_same (by simp only [ArrayState.cancel, found, recsEq])
  | some recs =>
  cases bitmapEq : recs.taskIdBitmap with
  | none => exact kept.cancel_same (by simp only [ArrayState.cancel, found, recsEq, bitmapEq])
  | some bitmap =>
  cases waiting : (s.table.recs ptr).isPending with
  | false =>
    exact kept.cancel_same (by simp [ArrayState.cancel, found, recsEq, bitmapEq, waiting])
  | true => exact kept.cancel_waiting taskIds found recsEq bitmapEq waiting

theorem toNat_ofNat_taskId (bound : taskId < noVal.toNat) :
    (UInt32.ofNat taskId).toNat = taskId := by
  refine UInt32.toNat_ofNat_of_lt' (bound.trans ?_)
  decide

theorem Ledger.observe_start (hasTask : (s.table.recs ptr).pendingTasks.Nonempty)
    (named : ((s.apply (.start ptr pend newId)).table.recs ptr).arrayTaskId.toNat = taskId) :
    l.observe s (.start ptr pend newId) =
      { l with started := Function.update l.started (s.table.recs ptr).jobId
                (insert taskId (l.started (s.table.recs ptr).jobId)) } := by
  simp only [Ledger.observe]
  rw [if_neg hasTask.ne_empty, named]

theorem Kept.start_plain (kept : Kept s l) (live : ptr ∈ s.table.live)
    (noBitmap : (s.table.recs ptr).arrayRecs.bind ArrayRecs.taskIdBitmap = none) :
    Kept (s.apply (.start ptr pend newId)) (l.observe s (.start ptr pend newId)) := by
  have noTask : (s.table.recs ptr).pendingTasks = ∅ := by
    rw [JobRecord.pendingTasks, noBitmap]
    rfl
  have stateEq : s.apply (.start ptr pend newId) =
      { s with table := s.table.apply (.setState ptr 1) } := by
    simp only [ArrayState.apply, ArrayState.start]
    cases recsEq : (s.table.recs ptr).arrayRecs with
    | none => rfl
    | some recs =>
      rw [recsEq, Option.bind_some] at noBitmap
      simp only [noBitmap]
  have ledgerEq : l.observe s (.start ptr pend newId) = l := by
    simp only [Ledger.observe, noTask, if_true]
  rw [stateEq, ledgerEq]
  refine kept.writeState live fun recs bitmap recsEq bitmapEq => ?_
  rw [recsEq, Option.bind_some, bitmapEq] at noBitmap
  cases noBitmap

theorem ArrayState.start_names (ne : pend ≠ ptr)
    (recsEq : (s.table.recs ptr).arrayRecs = some recs)
    (bitmapEq : recs.taskIdBitmap = some bitmap) (first : bitFfs bitmap = some taskId) :
    ((s.apply (.start ptr pend newId)).table.recs ptr).arrayTaskId = UInt32.ofNat taskId := by
  simp only [ArrayState.apply, ArrayState.start, recsEq, bitmapEq, first]
  split_ifs
  · rw [(JobTable.setState_fields 1 ptr).2.2, JobTable.convert_recs.2.1]
    rfl
  · rw [(JobTable.setState_fields 1 ptr).2.2, (JobTable.setState_fields 0 ptr).2.2,
      (JobTable.split_recs ne).2.1]

theorem Kept.start_last (kept : Kept s l) (live : ptr ∈ s.table.live)
    (recsEq : (s.table.recs ptr).arrayRecs = some recs)
    (bitmapEq : recs.taskIdBitmap = some bitmap) (first : bitFfs bitmap = some taskId)
    (member : taskId ∈ bitmap) (one : recs.taskCnt = 1) :
    Kept (s.apply (.start ptr pend newId)) (l.observe s (.start ptr pend newId)) := by
  have old := kept.records ptr live
  have tasksEq : (s.table.recs ptr).pendingTasks = bitmap := by
    simp [JobRecord.pendingTasks, recsEq, bitmapEq]
  have single : bitmap.erase taskId = ∅ := by
    rw [← Finset.card_eq_zero, Finset.card_erase_of_mem member, ← tasksEq,
      ← old.counted recs recsEq, one]
  have idOf : (UInt32.ofNat taskId).toNat = taskId :=
    toNat_ofNat_taskId (old.bounded taskId (tasksEq ▸ member))
  have after : s.apply (.start ptr pend newId) =
      { s with table := (s.table.apply (.convert ptr (UInt32.ofNat taskId))).apply
                (.setState ptr 1) } := by
    simp [ArrayState.apply, ArrayState.start, recsEq, bitmapEq, first, one]
  obtain ⟨liveEq, converted, untouched⟩ := @JobTable.convert_recs s.table ptr (UInt32.ofNat taskId)
  have recAt : (s.apply (.start ptr pend newId)).table.recs ptr =
      { JobTable.lastTask (s.table.recs ptr) (UInt32.ofNat taskId) with jobState := 1 } := by
    rw [after, ← converted]
    exact (JobTable.setRec_recs ..).1
  have noneLeft : ((s.apply (.start ptr pend newId)).table.recs ptr).pendingTasks = ∅ := by
    rw [recAt]
    simp [JobRecord.pendingTasks, JobTable.lastTask, recsEq, one]
  have hasTask : (s.table.recs ptr).pendingTasks.Nonempty := ⟨taskId, tasksEq ▸ member⟩
  have named : ((s.apply (.start ptr pend newId)).table.recs ptr).arrayTaskId.toNat = taskId := by
    rw [recAt]
    exact idOf
  rw [Ledger.observe_start hasTask named]
  refine kept.update live (by rw [after]; exact liveEq) ?_ (by rw [recAt]; rfl) ?_ ?_
    (by rw [after]; exact kept.quiet) ?_ rfl ?_ ?_
  · intro other _ ne
    rw [after, ← untouched other ne]
    exact (JobTable.setRec_recs ..).2 other ne
  · rw [after]
    exact kept.ids.convert.setState 1
  · refine ⟨?_, ?_, ?_⟩
    · intro recs' recsEq'
      rw [noneLeft]
      rw [recAt] at recsEq'
      simp only [JobTable.lastTask, recsEq, map_some, some.injEq] at recsEq'
      rw [← recsEq', one]
      rfl
    · intro recs' bitmap' recsEq' bitmapEq'
      rw [recAt] at recsEq'
      simp only [JobTable.lastTask, recsEq, map_some, some.injEq, one] at recsEq'
      rw [← recsEq'] at bitmapEq'
      cases bitmapEq'
    · intro other mem
      rw [noneLeft] at mem
      exact absurd mem (notMem_empty other)
  · rw [recAt, after]
    simp [JobRecord.jobArraySize, JobTable.lastTask, recsEq, one]
  · intro arrayJobId ne
    exact ⟨update_of_ne ne _ _, rfl⟩
  · intro tasks partition
    rw [tasksEq] at partition
    rw [noneLeft, ← single]
    simp only [update_self]
    exact partition.move member

/-- What a start leaves that splits a task off: the task gets the record of the array, and the
array with its other tasks gets the record `pend`. -/
structure SplitOff (s after : ArrayState) (ptr pend taskId : Nat) (newId : UInt32) : Prop where
  live : after.table.live = insert pend s.table.live
  taskRec : after.table.recs ptr =
    { s.table.recs ptr with
      jobId := newId, arrayJobId := (s.table.recs ptr).jobId
      arrayTaskId := UInt32.ofNat taskId, arrayRecs := none, jobState := 1 }
  metaRec : after.table.recs pend =
    { JobTable.metaWithout (s.table.recs ptr) (UInt32.ofNat taskId) with jobState := 0 }
  untouched : ∀ other, other ≠ ptr → other ≠ pend →
    after.table.recs other = s.table.recs other
  ids : after.table.IdsHeld
  complained : after.complained = s.complained
  jobCount : after.jobCount = s.jobCount

theorem Kept.start_splitOff (kept : Kept s l) (live : ptr ∈ s.table.live)
    (fresh : pend ∉ s.table.live) (freshId : s.table.FreshId newId)
    (recsEq : (s.table.recs ptr).arrayRecs = some recs)
    (bitmapEq : recs.taskIdBitmap = some bitmap) (first : bitFfs bitmap = some taskId)
    (several : ¬recs.taskCnt ≤ 1) :
    SplitOff s (s.apply (.start ptr pend newId)) ptr pend taskId newId := by
  have ne : pend ≠ ptr := by
    rintro rfl
    exact fresh live
  have after : s.apply (.start ptr pend newId) =
      { s with table := ((s.table.apply (.split ptr pend newId (UInt32.ofNat taskId))).apply
                (.setState pend 0)).apply (.setState ptr 1) } := by
    simp only [ArrayState.apply, ArrayState.start, recsEq, bitmapEq, first, if_neg several]
  obtain ⟨liveEq, taskRec, metaRec, untouched⟩ :=
    @JobTable.split_recs s.table ptr pend newId (UInt32.ofNat taskId) ne
  rw [after]
  refine ⟨liveEq, ?_, ?_, ?_, ((kept.ids.split live fresh freshId).setState 0).setState 1, rfl, rfl⟩
  · refine (JobTable.setRec_recs ..).1.trans ?_
    rw [show ∀ t : JobTable, (t.apply (.setState pend 0)).recs ptr = t.recs ptr from
      fun t => (JobTable.setRec_recs ..).2 ptr ne.symm, taskRec]
  · rw [← metaRec]
    exact ((JobTable.setRec_recs ..).2 pend ne).trans (JobTable.setRec_recs ..).1
  · intro other notPtr notPend
    rw [← untouched other notPtr notPend]
    exact ((JobTable.setRec_recs ..).2 other notPtr).trans
      ((JobTable.setRec_recs ..).2 other notPend)

namespace SplitOff

variable {ptr pend taskId : Nat} {newId : UInt32} {recs : ArrayRecs} {bitmap : Finset Nat}

theorem taskTasks (split : SplitOff s s' ptr pend taskId newId) :
    (s'.table.recs ptr).pendingTasks = ∅ := by
  rw [split.taskRec]
  rfl

theorem recordKept_task (split : SplitOff s s' ptr pend taskId newId) :
    RecordKept (s'.table.recs ptr) := by
  refine ⟨?_, ?_, ?_⟩
  · intro recs recsEq
    rw [split.taskRec] at recsEq
    cases recsEq
  · intro recs bitmap recsEq _
    rw [split.taskRec] at recsEq
    cases recsEq
  · intro task mem
    rw [split.taskTasks] at mem
    exact absurd mem (notMem_empty task)

theorem metaTasks (split : SplitOff s s' ptr pend taskId newId)
    (recsEq : (s.table.recs ptr).arrayRecs = some recs)
    (bitmapEq : recs.taskIdBitmap = some bitmap) (idOf : (UInt32.ofNat taskId).toNat = taskId) :
    (s'.table.recs pend).pendingTasks = bitmap.erase taskId := by
  rw [split.metaRec, ← idOf]
  simp [JobRecord.pendingTasks, JobTable.metaWithout, recsEq, bitmapEq]

theorem recordKept_meta (split : SplitOff s s' ptr pend taskId newId)
    (old : RecordKept (s.table.recs ptr)) (recsEq : (s.table.recs ptr).arrayRecs = some recs)
    (bitmapEq : recs.taskIdBitmap = some bitmap) (tasksEq : (s.table.recs ptr).pendingTasks = bitmap)
    (member : taskId ∈ bitmap) (several : ¬recs.taskCnt ≤ 1) : RecordKept (s'.table.recs pend) := by
  have idOf : (UInt32.ofNat taskId).toNat = taskId :=
    toNat_ofNat_taskId (old.bounded taskId (tasksEq ▸ member))
  have counted : recs.taskCnt = bitmap.card := by rw [old.counted recs recsEq, tasksEq]
  have left : (bitmap.erase taskId).card = bitmap.card - 1 := Finset.card_erase_of_mem member
  have metaTasks := split.metaTasks recsEq bitmapEq idOf
  refine ⟨?_, ?_, ?_⟩
  · intro recs' recsEq'
    rw [metaTasks, left, ← counted]
    rw [split.metaRec] at recsEq'
    simp only [JobTable.metaWithout, recsEq, map_some, some.injEq] at recsEq'
    rw [← recsEq']
  · intro recs' bitmap' recsEq' bitmapEq'
    rw [split.metaRec] at recsEq' ⊢
    simp only [JobTable.metaWithout, recsEq, map_some, some.injEq] at recsEq'
    rw [← recsEq', bitmapEq, map_some, some.injEq, idOf] at bitmapEq'
    rw [← bitmapEq', ← card_pos, left]
    refine ⟨fun _ => by omega, fun _ => ?_⟩
    simp [JobRecord.isPending, JobRecord.baseState]
  · intro task mem
    rw [metaTasks] at mem
    exact old.bounded task (tasksEq ▸ mem_of_mem_erase mem)

theorem pending_eq (split : SplitOff s s' ptr pend taskId newId) (ids : s.table.IdsHeld)
    (fresh : pend ∉ s.table.live)
    (metaTasks : (s'.table.recs pend).pendingTasks = bitmap.erase taskId) (arrayJobId : UInt32) :
    s'.pending arrayJobId =
      if arrayJobId = (s.table.recs ptr).jobId then bitmap.erase taskId
      else s.pending arrayJobId := by
  have metaId : (s'.table.recs pend).jobId = (s.table.recs ptr).jobId := by
    rw [split.metaRec]
    rfl
  rw [← metaTasks, ← metaId]
  refine ArrayState.pending_insert ids split.ids fresh split.live fun elsewhere other old task => ?_
  rcases eq_or_ne other ptr with rfl | notPtr
  · rw [split.taskTasks]
    refine ⟨fun holds => absurd holds.2 (notMem_empty task), fun holds => ?_⟩
    exact absurd (holds.1.symm.trans metaId.symm) elsewhere
  · have notPend : other ≠ pend := by
      rintro rfl
      exact fresh old
    rw [split.untouched other notPtr notPend]

theorem sum_jobArraySize (split : SplitOff s s' ptr pend taskId newId) (live : ptr ∈ s.table.live)
    (fresh : pend ∉ s.table.live) (recsEq : (s.table.recs ptr).arrayRecs = some recs)
    (several : ¬recs.taskCnt ≤ 1) :
    ∑ other ∈ s'.table.live, ((s'.table.recs other).jobArraySize : Int) =
      ∑ other ∈ s.table.live, ((s.table.recs other).jobArraySize : Int) := by
  have rest := Lib.sum_change (fun other => ((s.table.recs other).jobArraySize : Int))
    (fun other => ((s'.table.recs other).jobArraySize : Int)) live
    fun other oldOther notPtr => by
      have notPend : other ≠ pend := by
        rintro rfl
        exact fresh oldOther
      simp only [split.untouched other notPtr notPend]
  have sizeBefore : (s.table.recs ptr).jobArraySize = recs.taskCnt := by
    simp only [JobRecord.jobArraySize, recsEq]
    omega
  have sizeTask : (s'.table.recs ptr).jobArraySize = 1 := by
    rw [split.taskRec]
    rfl
  have sizeMeta : (s'.table.recs pend).jobArraySize = recs.taskCnt - 1 := by
    rw [split.metaRec]
    simp only [JobRecord.jobArraySize, JobTable.metaWithout, recsEq, map_some]
    omega
  rw [split.live, Finset.sum_insert fresh, sizeMeta]
  omega

end SplitOff

/-- A task that is not the last one is split off, and the META record moves. -/
theorem Kept.start_split (kept : Kept s l) {ptr pend : Nat} {newId : UInt32}
    (live : ptr ∈ s.table.live) (fresh : pend ∉ s.table.live) (freshId : s.table.FreshId newId)
    {recs : ArrayRecs} {bitmap : Finset Nat} {taskId : Nat}
    (recsEq : (s.table.recs ptr).arrayRecs = some recs)
    (bitmapEq : recs.taskIdBitmap = some bitmap) (first : bitFfs bitmap = some taskId)
    (mem : taskId ∈ bitmap) (several : ¬recs.taskCnt ≤ 1) :
    Kept (s.apply (.start ptr pend newId)) (l.observe s (.start ptr pend newId)) := by
  have split := kept.start_splitOff live fresh freshId recsEq bitmapEq first several
  have old := kept.records ptr live
  have tasksEq : (s.table.recs ptr).pendingTasks = bitmap := by
    simp [JobRecord.pendingTasks, recsEq, bitmapEq]
  have idOf : (UInt32.ofNat taskId).toNat = taskId :=
    toNat_ofNat_taskId (old.bounded taskId (tasksEq ▸ mem))
  have named : ((s.apply (.start ptr pend newId)).table.recs ptr).arrayTaskId.toNat = taskId := by
    rw [split.taskRec]
    exact idOf
  have records : ∀ other ∈ (s.apply (.start ptr pend newId)).table.live,
      RecordKept ((s.apply (.start ptr pend newId)).table.recs other) := by
    intro other otherLive
    rw [split.live] at otherLive
    rcases mem_insert.mp otherLive with rfl | oldOther
    · exact split.recordKept_meta old recsEq bitmapEq tasksEq mem several
    · rcases eq_or_ne other ptr with rfl | notPtr
      · exact split.recordKept_task
      · have notPend : other ≠ pend := by
          rintro rfl
          exact fresh oldOther
        rw [split.untouched other notPtr notPend]
        exact kept.records other oldOther
  rw [Ledger.observe_start ⟨taskId, tasksEq ▸ mem⟩ named]
  refine ⟨⟨?_, ?_, split.complained.trans kept.quiet, ?_⟩, split.ids, records⟩
  · intro arrayJobId tasks isOriginal
    have before := kept.partition arrayJobId tasks isOriginal
    rw [split.pending_eq kept.ids fresh (split.metaTasks recsEq bitmapEq idOf) arrayJobId]
    split_ifs with here
    · subst here
      rw [ArrayState.pending_eq kept.ids live, tasksEq] at before
      simp only [update_self]
      exact before.move mem
    · simp only [update_of_ne here]
      exact before
  · intro other otherLive
    exact (records other otherLive).counted
  · rw [split.sum_jobArraySize live fresh recsEq several, split.jobCount]
    exact kept.jobCount

theorem Kept.start (kept : Kept s l) {ptr pend : Nat} {newId : UInt32}
    (allowed : s.Allowed (.start ptr pend newId)) :
    Kept (s.apply (.start ptr pend newId)) (l.observe s (.start ptr pend newId)) := by
  obtain ⟨live, waiting, fresh, freshId⟩ := allowed
  have old := kept.records ptr live
  cases recsEq : (s.table.recs ptr).arrayRecs with
  | none => exact kept.start_plain live (by rw [recsEq]; rfl)
  | some recs =>
    cases bitmapEq : recs.taskIdBitmap with
    | none => exact kept.start_plain live (by rw [recsEq]; exact bitmapEq)
    | some bitmap =>
      have hasTask := (old.waits recs bitmap recsEq bitmapEq).mp waiting
      obtain ⟨taskId, first, mem, _⟩ := bitFfs_spec hasTask
      have counted := old.counted recs recsEq
      rw [show (s.table.recs ptr).pendingTasks = bitmap by
        simp [JobRecord.pendingTasks, recsEq, bitmapEq]] at counted
      have someTask := card_pos.mpr hasTask
      rcases Nat.lt_or_ge 1 recs.taskCnt with several | atMostOne
      · exact kept.start_split live fresh freshId recsEq bitmapEq first mem
          (Nat.not_le.mpr several)
      · exact kept.start_last live recsEq bitmapEq first mem (by omega)

theorem Kept.apply (kept : Kept s l) {op : ArrayOp} (allowed : s.Allowed op) :
    Kept (s.apply op) (l.observe s op) := by
  cases op with
  | submit ptr jobId arrayBitmap => exact kept.submit allowed
  | start ptr pend newId => exact kept.start allowed
  | cancel jobId taskIds => exact kept.cancel jobId taskIds
  | setState ptr jobState => exact kept.setState allowed
  | purge ptr => exact kept.purge allowed

end Steps

/-! ## Runs -/

theorem Kept.init (hashTableSize : Nat) :
    Kept (ArrayState.init hashTableSize) Ledger.empty := by
  refine ⟨⟨?_, ?_, rfl, ?_⟩, JobTable.IdsHeld.init hashTableSize, ?_⟩
  · intro arrayJobId tasks isOriginal
    cases isOriginal
  · intro ptr live
    exact absurd live (notMem_empty ptr)
  · rfl
  · intro ptr live
    exact absurd live (notMem_empty ptr)

theorem Kept.runWith {ops : List ArrayOp} :
    ∀ {s : ArrayState} {l : Ledger}, Kept s l → s.Runs ops →
      Kept (s.runWith l ops).1 (s.runWith l ops).2 := by
  induction ops with
  | nil =>
    intro s l kept _
    exact kept
  | cons op ops ih =>
    intro s l kept runs
    exact ih (kept.apply runs.1) runs.2

/-- A start gives the task with the least pending id a record of its own. -/
theorem Kept.start_takes_least {s : ArrayState} {l : Ledger} (kept : Kept s l) {ptr pend : Nat}
    {newId : UInt32} (allowed : s.Allowed (.start ptr pend newId))
    (hasTask : (s.table.recs ptr).pendingTasks.Nonempty) :
    ((s.apply (.start ptr pend newId)).table.recs ptr).arrayTaskId.toNat ∈
        (s.table.recs ptr).pendingTasks ∧
      ∀ taskId ∈ (s.table.recs ptr).pendingTasks,
        ((s.apply (.start ptr pend newId)).table.recs ptr).arrayTaskId.toNat ≤ taskId := by
  obtain ⟨live, _, fresh, _⟩ := allowed
  have ne : pend ≠ ptr := by
    rintro rfl
    exact fresh live
  cases recsEq : (s.table.recs ptr).arrayRecs with
  | none => simp [JobRecord.pendingTasks, recsEq] at hasTask
  | some recs =>
    cases bitmapEq : recs.taskIdBitmap with
    | none => simp [JobRecord.pendingTasks, recsEq, bitmapEq] at hasTask
    | some bitmap =>
      have tasksEq : (s.table.recs ptr).pendingTasks = bitmap := by
        simp [JobRecord.pendingTasks, recsEq, bitmapEq]
      rw [tasksEq] at hasTask ⊢
      obtain ⟨taskId, first, mem, least⟩ := bitFfs_spec hasTask
      rw [ArrayState.start_names ne recsEq bitmapEq first,
        toNat_ofNat_taskId ((kept.records ptr live).bounded taskId (tasksEq ▸ mem))]
      exact ⟨mem, least⟩

end SlurmSim.Controller
