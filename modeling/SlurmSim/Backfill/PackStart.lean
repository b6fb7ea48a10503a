import Mathlib.Algebra.Order.Group.Int
import Mathlib.Data.List.Induction
import Mathlib.Order.Bounds.Basic

/-!
# Start times of heterogeneous jobs

The scheduler records for each component of a pack job the earliest time at which it can
start, and starts the pack job when the time it computes from these records has come.
-/

namespace SlurmSim.Backfill

/-- `pack_job_rec_t`.  `delay` is the one of `job_ptr->details`, if the job has details. -/
structure PackJobRec where
  jobId : Nat
  delay : Option Nat
  latestStart : Int
  part : Nat
  deriving DecidableEq

/-- `pack_job_map_t` -/
structure PackJobMap where
  compTimeLimit : Nat
  prevStart : Int
  packJobId : Nat
  packJobList : List PackJobRec

/-- The component is delayed in a workflow. -/
def PackJobRec.delayed (rec : PackJobRec) : Bool := rec.delay.any (· ≠ 0)

/-- The test with which `_pack_start_compute` passes over a record. -/
def PackJobMap.skips (map : PackJobMap) (excludeJobId : Nat) (rec : PackJobRec) : Bool :=
  rec.jobId = excludeJobId || rec.jobId ≠ map.packJobId || rec.delayed

/-- `_pack_start_compute` -/
def packStartCompute (map : PackJobMap) (excludeJobId : Nat) : Int :=
  map.packJobList.foldl
    (fun latestStart rec =>
      if map.skips excludeJobId rec then latestStart else max latestStart rec.latestStart)
    map.prevStart

/-! ## Recording a start time -/

/-- A component that is given to `_pack_start_set`. -/
structure PackCall where
  jobId : Nat
  delay : Option Nat
  packJobId : Nat
  timeLimit : Nat
  part : Nat
  latestStart : Int
  compTimeLimit : Option Nat

def PackCall.newRec (call : PackCall) : PackJobRec :=
  ⟨call.jobId, call.delay, call.latestStart, call.part⟩

/-- `NO_VAL` stands for the limit of the job. -/
def PackCall.limit (call : PackCall) : Nat := call.compTimeLimit.getD call.timeLimit

/-- The records of a map after a call: the first record of the job is kept, unless the new
start is earlier. -/
def recordStart (call : PackCall) : List PackJobRec → List PackJobRec
  | [] => [call.newRec]
  | rec :: rest =>
    if rec.jobId = call.jobId then
      if rec.latestStart ≤ call.latestStart then rec :: rest
      else { rec with latestStart := call.latestStart, part := call.part } :: rest
    else rec :: recordStart call rest

/-- `_pack_start_set` -/
def packStartSet (call : PackCall) : List PackJobMap → List PackJobMap
  | [] =>
    if call.packJobId = 0 then []
    else [⟨call.limit, 0, call.packJobId, [call.newRec]⟩]
  | map :: rest =>
    if call.packJobId = 0 then map :: rest
    else if map.packJobId = call.packJobId then
      { map with
        compTimeLimit := if map.compTimeLimit = 0 then call.limit
          else min map.compTimeLimit call.limit
        packJobList := recordStart call map.packJobList } :: rest
    else map :: packStartSet call rest

/-- The time that is recorded for a component. -/
def recorded (list : List PackJobRec) (jobId : Nat) : Option Int :=
  (list.find? fun rec => rec.jobId = jobId).map PackJobRec.latestStart

/-! ## The computed start time -/

/-- Neither excluded nor delayed. -/
def PackJobRec.counts (excludeJobId : Nat) (rec : PackJobRec) : Prop :=
  rec.jobId ≠ excludeJobId ∧ rec.delayed = false

/-- The time is the latest of `prev_start` and the times of the components that count. -/
structure IsLatestStart (map : PackJobMap) (excludeJobId : Nat) (start : Int) : Prop where
  prevStart_le : map.prevStart ≤ start
  latest_le : ∀ rec ∈ map.packJobList, rec.counts excludeJobId → rec.latestStart ≤ start
  attained : start = map.prevStart ∨
    ∃ rec ∈ map.packJobList, rec.counts excludeJobId ∧ start = rec.latestStart

section Fold

variable {p : PackJobRec → Bool}

theorem foldl_max_spec (list : List PackJobRec) (start : Int) :
    start ≤ list.foldl (fun latest rec => if p rec then latest else max latest rec.latestStart)
        start ∧
      (∀ rec ∈ list, p rec = false → rec.latestStart ≤
        list.foldl (fun latest rec => if p rec then latest else max latest rec.latestStart) start) ∧
      (list.foldl (fun latest rec => if p rec then latest else max latest rec.latestStart) start =
          start ∨
        ∃ rec ∈ list, p rec = false ∧ list.foldl
          (fun latest rec => if p rec then latest else max latest rec.latestStart) start =
            rec.latestStart) := by
  induction list generalizing start with
  | nil => exact ⟨le_refl _, fun _ mem => absurd mem List.not_mem_nil, .inl rfl⟩
  | cons head rest ih =>
    rw [List.foldl_cons]
    obtain ⟨low, all, attained⟩ := ih (if p head then start else max start head.latestStart)
    cases skips : p head with
    | true =>
      simp only [skips, if_true] at low all attained ⊢
      refine ⟨low, fun rec mem counts => ?_, ?_⟩
      · rcases List.mem_cons.mp mem with rfl | later
        · exact absurd (skips.symm.trans counts) (by decide)
        · exact all rec later counts
      · exact attained.imp_right fun ⟨rec, later, rest⟩ =>
          ⟨rec, List.mem_cons_of_mem _ later, rest⟩
    | false =>
      simp only [skips, Bool.false_eq_true, if_false] at low all attained ⊢
      refine ⟨(le_max_left _ _).trans low, fun rec mem counts => ?_, ?_⟩
      · rcases List.mem_cons.mp mem with rfl | later
        · exact (le_max_right _ _).trans low
        · exact all rec later counts
      · rcases attained with same | ⟨rec, later, rest⟩
        · rcases max_choice start head.latestStart with own | heads
          · exact .inl (same.trans own)
          · exact .inr ⟨head, List.mem_cons_self, skips, same.trans heads⟩
        · exact .inr ⟨rec, List.mem_cons_of_mem _ later, rest⟩

end Fold

variable {map : PackJobMap} {excludeJobId : Nat}

theorem not_skips {rec : PackJobRec} : map.skips excludeJobId rec = false ↔
    rec.counts excludeJobId ∧ rec.jobId = map.packJobId := by
  simp only [PackJobMap.skips, PackJobRec.counts, Bool.or_eq_false_iff, decide_eq_false_iff_not,
    not_not]
  exact and_right_comm

/-- The start time is the right one exactly when no component other than the head of the pack
job starts later than `prev_start` and the head. -/
theorem packStartCompute_isLatest_iff (map : PackJobMap) (excludeJobId : Nat) :
    IsLatestStart map excludeJobId (packStartCompute map excludeJobId) ↔
      ∀ rec ∈ map.packJobList, rec.jobId ≠ map.packJobId → rec.counts excludeJobId →
        rec.latestStart ≤ map.prevStart ∨ ∃ head ∈ map.packJobList,
          head.jobId = map.packJobId ∧ head.counts excludeJobId ∧
            rec.latestStart ≤ head.latestStart := by
  obtain ⟨low, heads, attained⟩ := @foldl_max_spec (map.skips excludeJobId) map.packJobList
    map.prevStart
  change map.prevStart ≤ packStartCompute map excludeJobId at low
  change ∀ rec ∈ map.packJobList, _ → rec.latestStart ≤ packStartCompute map excludeJobId at heads
  change packStartCompute map excludeJobId = _ ∨ ∃ rec ∈ map.packJobList, _ ∧
    packStartCompute map excludeJobId = _ at attained
  constructor
  · intro isLatest rec inside _ counts
    have le := isLatest.latest_le rec inside counts
    rcases attained with same | ⟨head, isInside, notSkipped, same⟩
    · exact .inl (same ▸ le)
    · obtain ⟨headCounts, isHead⟩ := not_skips.mp notSkipped
      exact .inr ⟨head, isInside, isHead, headCounts, same ▸ le⟩
  · intro covered
    refine ⟨low, fun rec inside counts => ?_, ?_⟩
    · by_cases isHead : rec.jobId = map.packJobId
      · exact heads rec inside (not_skips.mpr ⟨counts, isHead⟩)
      · rcases covered rec inside isHead counts with le | ⟨head, headInside, isHead, headCounts, le⟩
        · exact le.trans low
        · exact le.trans (heads head headInside (not_skips.mpr ⟨headCounts, isHead⟩))
    · refine attained.imp_right fun ⟨head, inside, notSkipped, same⟩ => ?_
      exact ⟨head, inside, (not_skips.mp notSkipped).1, same⟩

/-- The second component starts 400 seconds after the head, without a delay. -/
def lateComponent : PackJobMap := ⟨60, 0, 10, [⟨10, some 0, 100, 0⟩, ⟨11, some 0, 500, 0⟩]⟩

/-- At time 100 the pack job passes for startable. -/
theorem lateComponent_passed_over :
    packStartCompute lateComponent 0 = 100 ∧
      ¬IsLatestStart lateComponent 0 (packStartCompute lateComponent 0) := by
  refine ⟨by decide, fun isLatest => ?_⟩
  have le := isLatest.latest_le ⟨11, some 0, 500, 0⟩ (by decide) ⟨by decide, rfl⟩
  exact absurd le (by decide)

/-! ## The recorded start times -/

/-- The call is about a component of a pack job. -/
def PackCall.IsFor (call : PackCall) (packJobId jobId : Nat) : Prop :=
  call.packJobId ≠ 0 ∧ call.packJobId = packJobId ∧ call.jobId = jobId

/-- The start times that were set for a component. -/
def startsSet (calls : List PackCall) (packJobId jobId : Nat) : Set Int :=
  {start | ∃ call ∈ calls, call.IsFor packJobId jobId ∧ call.latestStart = start}

/-- The time that the maps hold for a component. -/
def heldFor (maps : List PackJobMap) (packJobId jobId : Nat) : Option Int :=
  (maps.find? fun map => map.packJobId = packJobId).bind fun map =>
    recorded map.packJobList jobId

/-- The least time of a set, if there is any. -/
def Earliest (starts : Set Int) : Option Int → Prop
  | none => starts = ∅
  | some start => IsLeast starts start

instance (call : PackCall) (packJobId jobId : Nat) : Decidable (call.IsFor packJobId jobId) :=
  inferInstanceAs (Decidable (_ ∧ _ ∧ _))

theorem recorded_recordStart (call : PackCall) (list : List PackJobRec) (jobId : Nat) :
    recorded (recordStart call list) jobId =
      if jobId = call.jobId then some ((recorded list jobId).elim call.latestStart
        (min call.latestStart)) else recorded list jobId := by
  induction list with
  | nil =>
    simp only [recordStart, recorded, List.find?_cons, PackCall.newRec, List.find?_nil]
    grind
  | cons rec rest ih =>
    rw [recordStart]
    simp only [recorded] at ih ⊢
    grind

theorem heldFor_packStartSet (call : PackCall) (maps : List PackJobMap) (packJobId jobId : Nat) :
    heldFor (packStartSet call maps) packJobId jobId =
      if call.IsFor packJobId jobId then
        some ((heldFor maps packJobId jobId).elim call.latestStart (min call.latestStart))
      else heldFor maps packJobId jobId := by
  unfold PackCall.IsFor
  induction maps with
  | nil =>
    have new := recorded_recordStart call [] jobId
    simp only [recordStart] at new
    by_cases zero : call.packJobId = 0
    · simp [packStartSet, zero]
    by_cases same : call.packJobId = packJobId
    · simp_all [packStartSet, heldFor, eq_comm, recorded]
    · simp [packStartSet, zero, heldFor, same]
  | cons map rest ih =>
    have own := recorded_recordStart call map.packJobList jobId
    simp only [packStartSet, heldFor] at ih ⊢
    grind

/-- In every sequence of calls the time of a component is the earliest that was set for it in
any partition. -/
theorem packStartSet_earliest (calls : List PackCall) (packJobId jobId : Nat) :
    Earliest (startsSet calls packJobId jobId)
      (heldFor (calls.foldl (fun maps call => packStartSet call maps) []) packJobId jobId) := by
  induction calls using List.reverseRecOn with
  | nil => simp [heldFor, Earliest, startsSet]
  | append_singleton calls call ih =>
    have more : startsSet (calls ++ [call]) packJobId jobId =
        if call.IsFor packJobId jobId then
          insert call.latestStart (startsSet calls packJobId jobId)
        else startsSet calls packJobId jobId := by
      ext start
      split_ifs <;> simp only [startsSet, Set.mem_ofPred_eq, List.mem_append, List.mem_singleton,
        Set.mem_insert_iff] <;> grind
    rw [List.foldl_append, List.foldl_cons, List.foldl_nil, heldFor_packStartSet, more]
    split_ifs with isFor
    · generalize heldFor _ packJobId jobId = old at ih
      cases old with
      | none => simp [Earliest, show startsSet calls packJobId jobId = ∅ from ih]
      | some start => exact IsLeast.insert call.latestStart ih
    · exact ih

end SlurmSim.Backfill
