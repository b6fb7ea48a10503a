import Mathlib.Data.List.Induction
import Mathlib.Data.List.Pairwise
import SlurmSim.Simulator.Dependencies

/-!
# The ids of a submitted trace

The simulation manager submits the records of a trace one after the other. A job
pack has a record for each of its components; it is submitted as a whole, and its
components are recorded under the ids that follow the id of the pack.
-/

namespace SlurmSim.Simulator

open List

/-! ## The submission loop -/

/-- The fields of `job_trace_t` that decide how a record is submitted. -/
structure TraceRecord where
  jobId : Nat
  modularJobId : Nat
  totalComponents : Nat
  deriving DecidableEq

/-- The loop of `generateJob` over the components of a pack. -/
def addPackPairs (modularJobid realJobId : Nat) : Nat → List JobIdPair → List JobIdPair
  | 0, jobIdList => jobIdList
  | comp + 1, jobIdList =>
    addJobPair (modularJobid + comp) ((realJobId + comp) % 2 ^ 32)
      (addPackPairs modularJobid realJobId comp jobIdList)

/-- `generateJob` with the id that the controller answers. A pack without a
modular id is taken for the single job `jobd`. -/
def generateJob (jobd : Option TraceRecord) (modularJobid components realJobId : Nat)
    (jobIdList : List JobIdPair) : Option (List JobIdPair) :=
  if modularJobid = 0 then
    match jobd with
    | none => none
    | some jobd => some (addJobPair jobd.jobId realJobId jobIdList)
  else some (addPackPairs modularJobid realJobId components jobIdList)

/-- One turn of the submission loop of `time_mgr`: the rest of the trace and the
list of pairs. -/
def submitHead (traceFormat realJobId : Nat) :
    List TraceRecord × List JobIdPair → Option (List TraceRecord × List JobIdPair)
  | ([], jobIdList) => some ([], jobIdList)
  | (head :: rest, jobIdList) =>
    if 2 < traceFormat ∧ 1 < head.totalComponents then
      if rest.length + 1 < head.totalComponents then none
      else
        let traceHead := (head :: rest).drop head.totalComponents
        (generateJob traceHead.head? head.modularJobId head.totalComponents realJobId
          jobIdList).map fun jobIdList => (traceHead, jobIdList)
    else
      (generateJob (some head) 0 0 realJobId jobIdList).map fun jobIdList => (rest, jobIdList)

/-- The loop for as many turns as there are answers of the controller. -/
def submitAll (traceFormat : Nat) :
    List Nat → List TraceRecord × List JobIdPair → Option (List TraceRecord × List JobIdPair)
  | [], state => some state
  | realJobId :: answers, state =>
    (submitHead traceFormat realJobId state).bind (submitAll traceFormat answers)

/-! ## Traces of jobs and packs -/

/-- A single job, or a pack of two or more components. -/
inductive TraceJob where
  | single (traceJobId : Nat)
  | pack (modularJobId more : Nat)
  deriving DecidableEq

namespace TraceJob

def traceId : TraceJob → Nat
  | single traceJobId => traceJobId
  | pack modularJobId _ => modularJobId

def components : TraceJob → Nat
  | single _ => 1
  | pack _ more => more + 2

/-- The last id that is recorded for the job. -/
def lastId (job : TraceJob) : Nat :=
  job.traceId + job.components - 1

def records (job : TraceJob) : List TraceRecord :=
  List.replicate job.components ⟨job.traceId, job.traceId, job.components⟩

end TraceJob

/-- A job of the trace with the id that the controller gives to it. The ids of the
controller stay below `NO_VAL`. -/
structure Submission where
  job : TraceJob
  realJobId : Nat
  fits : realJobId + job.components ≤ noVal

namespace Submission

/-- The pairs that belong to a submission, the last component first. -/
def pairs (submission : Submission) : List JobIdPair :=
  (List.range submission.job.components).reverse.map fun comp =>
    ⟨submission.job.traceId + comp, submission.realJobId + comp⟩

/-- The pair of the submission itself. -/
def ownPair (submission : Submission) : JobIdPair :=
  ⟨submission.job.traceId, submission.realJobId⟩

end Submission

/-- The trace format has packs, or the trace has none. -/
def Readable (traceFormat : Nat) (trace : List Submission) : Prop :=
  2 < traceFormat ∨ ∀ submission ∈ trace, submission.job.components = 1

/-- The trace ids never decrease. -/
def NonDecreasing (trace : List Submission) : Prop :=
  trace.Pairwise fun earlier later => earlier.job.traceId ≤ later.job.traceId

/-- The list of pairs after the first submissions of a trace. -/
def jobIdsAfter (traceFormat : Nat) (trace : List Submission) (count : Nat) :
    Option (List JobIdPair) :=
  (submitAll traceFormat ((trace.take count).map (·.realJobId))
    (trace.flatMap (·.job.records), [])).map Prod.snd

/-- The real id of the first pair for a trace id. -/
def answerFrom (pairs : List JobIdPair) (traceJobId : Nat) : Nat :=
  match pairs.find? fun pair => pair.traceJobId = traceJobId with
  | none => noVal
  | some pair => pair.realJobId

/-- The pairs of the submissions so far, the latest first. -/
def recordedPairs (done : List Submission) : List JobIdPair :=
  done.reverse.flatMap (·.pairs)

/-- The pairs of the jobs themselves, the latest first. -/
def ownPairs (done : List Submission) : List JobIdPair :=
  done.reverse.map (·.ownPair)

/-- A list answers for a trace: every id gets the latest submission that was
recorded for it, and the id of a job gets the latest submission of that job. -/
structure Answers (trace done : List Submission) (jobIdList : List JobIdPair) : Prop where
  latest : ∀ traceJobId,
    getRealJobId traceJobId jobIdList = answerFrom (recordedPairs done) traceJobId
  missing : ∀ traceJobId, getRealJobId traceJobId jobIdList = noVal ↔
    ∀ pair ∈ recordedPairs done, pair.traceJobId ≠ traceJobId
  own : ∀ submission ∈ trace, getRealJobId submission.job.traceId jobIdList =
    answerFrom (ownPairs done) submission.job.traceId

/-- Throughout the submission of the trace the list of pairs answers for it. -/
def AnswersThroughout (traceFormat : Nat) (trace : List Submission) : Prop :=
  ∀ count ≤ trace.length, ∃ jobIdList, jobIdsAfter traceFormat trace count = some jobIdList ∧
    Answers trace (trace.take count) jobIdList

/-- No pack has the id 0, and a later job lies above all ids of an earlier one
unless it has the same id and at least as many components. -/
structure ClearIds (trace : List Submission) : Prop where
  packs : ∀ submission ∈ trace, submission.job.components ≠ 1 → submission.job.traceId ≠ 0
  apart : trace.Pairwise fun earlier later =>
    earlier.job.lastId < later.job.traceId ∨
      later.job.traceId = earlier.job.traceId ∧
        earlier.job.components ≤ later.job.components

/-! ## What the loop records -/

theorem TraceJob.components_pos (job : TraceJob) : 0 < job.components := by
  cases job <;> simp [TraceJob.components]

/-- The components of a pack, one by one. -/
def packBlock (modularJobid realJobId components : Nat) : List JobIdPair :=
  (List.range components).reverse.map fun comp => ⟨modularJobid + comp, realJobId + comp⟩

@[simp] theorem packBlock_succ (modularJobid realJobId components : Nat) :
    packBlock modularJobid realJobId (components + 1) =
      ⟨modularJobid + components, realJobId + components⟩ ::
        packBlock modularJobid realJobId components := by
  simp [packBlock, range_succ]

theorem Submission.pairs_eq (submission : Submission) : submission.pairs =
    packBlock submission.job.traceId submission.realJobId submission.job.components := rfl

theorem mem_packBlock {modularJobid realJobId components : Nat} {pair : JobIdPair} :
    pair ∈ packBlock modularJobid realJobId components ↔
      ∃ comp < components, pair = ⟨modularJobid + comp, realJobId + comp⟩ := by
  simp [packBlock, eq_comm]

theorem addPackPairs_eq {modularJobid realJobId components : Nat}
    (fits : realJobId + components ≤ noVal) (jobIdList : List JobIdPair) :
    addPackPairs modularJobid realJobId components jobIdList =
      packBlock modularJobid realJobId components ++ jobIdList := by
  induction components with
  | zero => rfl
  | succ comp ih =>
    have small : (realJobId + comp) % 2 ^ 32 = realJobId + comp := by
      refine Nat.mod_eq_of_lt ?_
      unfold noVal at fits
      omega
    rw [addPackPairs, ih (by omega), small, packBlock_succ]
    rfl

theorem recordedPairs_append (done : List Submission) (submission : Submission) :
    recordedPairs (done ++ [submission]) = submission.pairs ++ recordedPairs done := by
  simp [recordedPairs]

theorem ownPairs_append (done : List Submission) (submission : Submission) :
    ownPairs (done ++ [submission]) = submission.ownPair :: ownPairs done := by
  simp [ownPairs]

theorem TraceJob.records_eq (job : TraceJob) : ∃ rest, job.records =
    ⟨job.traceId, job.traceId, job.components⟩ :: rest ∧ rest.length + 1 = job.components := by
  obtain ⟨more, count⟩ := Nat.exists_eq_succ_of_ne_zero job.components_pos.ne'
  refine ⟨List.replicate more ⟨job.traceId, job.traceId, job.components⟩, ?_, ?_⟩
  · rw [TraceJob.records, count]
    rfl
  · rw [length_replicate, count]

variable {traceFormat : Nat} {submission : Submission} {done trace : List Submission}

theorem submitHead_job (readable : 2 < traceFormat ∨ submission.job.components = 1)
    (named : submission.job.components ≠ 1 → submission.job.traceId ≠ 0) (rest : List TraceRecord)
    (jobIdList : List JobIdPair) :
    submitHead traceFormat submission.realJobId (submission.job.records ++ rest, jobIdList) =
      some (rest, submission.pairs ++ jobIdList) := by
  obtain ⟨others, records, length⟩ := submission.job.records_eq
  rw [records, cons_append, submitHead, submission.pairs_eq]
  by_cases single : submission.job.components = 1
  · have alone : others = [] := by
      rw [← length_eq_zero_iff]
      omega
    have notPack : ¬ (2 < traceFormat ∧ 1 < submission.job.components) := by omega
    rw [if_neg notPack, alone, single]
    rfl
  · have isPack : 2 < traceFormat ∧ 1 < submission.job.components := by
      omega
    have enough : ¬ (others ++ rest).length + 1 < submission.job.components := by
      rw [length_append]
      omega
    have behind : (⟨submission.job.traceId, submission.job.traceId,
        submission.job.components⟩ :: (others ++ rest)).drop submission.job.components = rest := by
      rw [← length, drop_succ_cons, drop_left]
    simp only [if_pos isPack, if_neg enough, behind, generateJob, if_neg (named single),
      addPackPairs_eq submission.fits, Option.map_some]

theorem submitAll_jobs (readable : Readable traceFormat done)
    (named : ∀ submission ∈ done, submission.job.components ≠ 1 → submission.job.traceId ≠ 0)
    (answers : List Nat) (rest : List TraceRecord) (jobIdList : List JobIdPair) :
    submitAll traceFormat (done.map (·.realJobId) ++ answers)
        (done.flatMap (·.job.records) ++ rest, jobIdList) =
      submitAll traceFormat answers (rest, recordedPairs done ++ jobIdList) := by
  induction done generalizing jobIdList with
  | nil => rfl
  | cons submission done ih =>
    have packs : 2 < traceFormat ∨ submission.job.components = 1 :=
      readable.imp_right fun all => all submission mem_cons_self
    have others : Readable traceFormat done :=
      readable.imp_right fun all other mem => all other (mem_cons_of_mem _ mem)
    rw [map_cons, cons_append, flatMap_cons, append_assoc, submitAll,
      submitHead_job packs (named submission mem_cons_self), Option.bind_some,
      ih others fun other mem => named other (mem_cons_of_mem _ mem)]
    simp [recordedPairs]

theorem Readable.take (readable : Readable traceFormat trace) (count : Nat) :
    Readable traceFormat (trace.take count) :=
  readable.imp_right fun all submission mem => all submission (mem_of_mem_take mem)

theorem jobIdsAfter_eq (readable : Readable traceFormat trace)
    (named : ∀ submission ∈ trace, submission.job.components ≠ 1 → submission.job.traceId ≠ 0)
    (count : Nat) :
    jobIdsAfter traceFormat trace count = some (recordedPairs (trace.take count)) := by
  have run := submitAll_jobs (readable.take count)
    (fun submission mem => named submission (mem_of_mem_take mem)) []
    ((trace.drop count).flatMap (·.job.records)) []
  rw [← flatMap_append, take_append_drop, append_nil, append_nil] at run
  rw [jobIdsAfter, run]
  rfl

/-! ## The search for an id -/

theorem getRealJobId_packBlock (traceJobId modularJobid realJobId components : Nat)
    (jobIdList : List JobIdPair) :
    getRealJobId traceJobId (packBlock modularJobid realJobId components ++ jobIdList) =
      if components ≠ 0 ∧ modularJobid + components ≤ traceJobId then noVal
      else if modularJobid ≤ traceJobId ∧ traceJobId < modularJobid + components then
        realJobId + (traceJobId - modularJobid)
      else getRealJobId traceJobId jobIdList := by
  induction components with
  | zero =>
    have empty : ¬ (modularJobid ≤ traceJobId ∧ traceJobId < modularJobid + 0) := by omega
    rw [if_neg (by simp), if_neg empty]
    rfl
  | succ comp ih =>
    rw [packBlock_succ, cons_append, getRealJobId, ih]
    dsimp only
    split_ifs <;> first | rfl | omega

theorem answerFrom_packBlock (traceJobId modularJobid realJobId components : Nat)
    (pairs : List JobIdPair) :
    answerFrom (packBlock modularJobid realJobId components ++ pairs) traceJobId =
      if modularJobid ≤ traceJobId ∧ traceJobId < modularJobid + components then
        realJobId + (traceJobId - modularJobid)
      else answerFrom pairs traceJobId := by
  induction components with
  | zero =>
    have empty : ¬ (modularJobid ≤ traceJobId ∧ traceJobId < modularJobid + 0) := by omega
    rw [if_neg empty]
    rfl
  | succ comp ih =>
    by_cases here : modularJobid + comp = traceJobId
    · have mem : modularJobid ≤ traceJobId ∧ traceJobId < modularJobid + (comp + 1) := by
        omega
      rw [if_pos mem, packBlock_succ, cons_append, answerFrom,
        find?_cons_of_pos (by simpa using here)]
      dsimp only
      omega
    · rw [packBlock_succ, cons_append, answerFrom, find?_cons_of_neg (by simpa using here)]
      change answerFrom (packBlock modularJobid realJobId comp ++ pairs) traceJobId = _
      rw [ih]
      split_ifs <;> first | rfl | omega

theorem answerFrom_missing {pairs : List JobIdPair} {traceJobId : Nat}
    (missing : ∀ pair ∈ pairs, pair.traceJobId ≠ traceJobId) :
    answerFrom pairs traceJobId = noVal := by
  rw [answerFrom, find?_eq_none.mpr (by simpa using missing)]

theorem answerFrom_found {pairs : List JobIdPair} {traceJobId : Nat}
    (real : ∀ pair ∈ pairs, pair.realJobId < noVal)
    (recorded : ∃ pair ∈ pairs, pair.traceJobId = traceJobId) :
    answerFrom pairs traceJobId < noVal := by
  obtain ⟨pair, mem, same⟩ := recorded
  cases found : pairs.find? fun pair => pair.traceJobId = traceJobId with
  | none => exact absurd same (by simpa using find?_eq_none.mp found pair mem)
  | some first =>
    rw [answerFrom, found]
    exact real first (mem_of_find?_eq_some found)

theorem mem_recordedPairs {pair : JobIdPair} :
    pair ∈ recordedPairs done ↔ ∃ submission ∈ done, ∃ comp < submission.job.components,
      pair = ⟨submission.job.traceId + comp, submission.realJobId + comp⟩ := by
  simp [recordedPairs, Submission.pairs_eq, mem_packBlock]

theorem recordedPairs_real : ∀ pair ∈ recordedPairs done, pair.realJobId < noVal := by
  intro pair mem
  obtain ⟨submission, -, comp, small, rfl⟩ := mem_recordedPairs.mp mem
  have fits := submission.fits
  dsimp only
  omega

theorem answerFrom_recorded_iff (done : List Submission) (traceJobId : Nat) :
    answerFrom (recordedPairs done) traceJobId = noVal ↔
      ∀ pair ∈ recordedPairs done, pair.traceJobId ≠ traceJobId := by
  refine ⟨?_, answerFrom_missing⟩
  intro answer pair mem same
  have found := answerFrom_found recordedPairs_real ⟨pair, mem, same⟩
  omega

/-! ## Traces with clear ids -/

theorem ClearIds.lastId_le (clear : ClearIds (done ++ [submission])) {other : Submission}
    (before : other ∈ done) : other.job.lastId ≤ submission.job.lastId := by
  have apart := (pairwise_append.mp clear.apart).2.2 other before submission mem_cons_self
  unfold TraceJob.lastId at apart ⊢
  omega

theorem ClearIds.front (clear : ClearIds (done ++ [submission])) : ClearIds done :=
  ⟨fun other mem => clear.packs other (mem_append_left _ mem),
    (pairwise_append.mp clear.apart).1⟩

theorem ClearIds.take (clear : ClearIds trace) (count : Nat) : ClearIds (trace.take count) :=
  ⟨fun other mem => clear.packs other (mem_of_mem_take mem),
    clear.apart.sublist (take_sublist count trace)⟩

theorem ClearIds.latest (clear : ClearIds done) (traceJobId : Nat) :
    getRealJobId traceJobId (recordedPairs done) = answerFrom (recordedPairs done) traceJobId := by
  induction done using List.reverseRecOn with
  | nil => rfl
  | append_singleton done submission ih =>
    rw [recordedPairs_append, submission.pairs_eq, getRealJobId_packBlock,
      answerFrom_packBlock, ih clear.front]
    split_ifs with above block
    · omega
    · refine (answerFrom_missing ?_).symm
      intro pair mem same
      obtain ⟨other, before, comp, small, rfl⟩ := mem_recordedPairs.mp mem
      have last := clear.lastId_le before
      unfold TraceJob.lastId at last
      dsimp only at same
      omega
    · rfl
    · rfl

theorem ClearIds.ids_apart (clear : ClearIds trace) (ordered : NonDecreasing trace) :
    ∀ first ∈ trace, ∀ second ∈ trace,
      second.job.traceId ≤ first.job.traceId ∨ first.job.lastId < second.job.traceId := by
  have behind : trace.Pairwise fun first second =>
      second.job.traceId ≤ first.job.traceId ∨ first.job.lastId < second.job.traceId := by
    refine clear.apart.imp ?_
    omega
  have before : trace.Pairwise (flip fun first second : Submission =>
      second.job.traceId ≤ first.job.traceId ∨ first.job.lastId < second.job.traceId) :=
    ordered.imp fun order => .inl order
  intro first mem second inside'
  exact List.Pairwise.forall_of_forall_of_flip (fun _ _ => .inl le_rfl) behind before
    mem inside'

theorem ClearIds.own (clear : ClearIds trace) (ordered : NonDecreasing trace)
    (mem : ∀ submission ∈ done, submission ∈ trace) (member : submission ∈ trace) :
    answerFrom (recordedPairs done) submission.job.traceId =
      answerFrom (ownPairs done) submission.job.traceId := by
  induction done using List.reverseRecOn with
  | nil => rfl
  | append_singleton done other ih =>
    have apart := clear.ids_apart ordered other (mem other (by simp)) submission member
    have := other.job.components_pos
    rw [recordedPairs_append, ownPairs_append, other.pairs_eq, answerFrom_packBlock]
    unfold TraceJob.lastId at apart
    by_cases same : other.job.traceId = submission.job.traceId
    · rw [if_pos (by omega), answerFrom, find?_cons_of_pos (by simp [Submission.ownPair, same])]
      dsimp only [Submission.ownPair]
      omega
    · rw [if_neg (by omega), ih fun earlier before => mem earlier (by simp [before]),
        answerFrom, answerFrom,
        find?_cons_of_neg (by simp [Submission.ownPair, same])]

/-! ## Traces whose ids are not clear -/

/-- The first pack with the id 0 is not recorded. -/
theorem packs_of_answers (readable : Readable traceFormat trace) (ordered : NonDecreasing trace)
    (answers : AnswersThroughout traceFormat trace) :
    ∀ submission ∈ trace, submission.job.components ≠ 1 → submission.job.traceId ≠ 0 := by
  by_contra violated
  push Not at violated
  obtain ⟨bad, member, isPack, isZero⟩ := violated
  have exists_first : (trace.find? fun submission =>
      decide (submission.job.components ≠ 1 ∧ submission.job.traceId = 0)).isSome :=
    find?_isSome.mpr ⟨bad, member, decide_eq_true ⟨isPack, isZero⟩⟩
  obtain ⟨submission, found⟩ := Option.isSome_iff_exists.mp exists_first
  obtain ⟨here, before, behind, rfl, clean⟩ := find?_eq_some_iff_append.mp found
  obtain ⟨pack, zero⟩ := of_decide_eq_true here
  have named : ∀ other ∈ before, other.job.components ≠ 1 → other.job.traceId ≠ 0 := by
    intro other mem several isZero
    have test := clean other mem
    simp [several, isZero] at test
  have format : 2 < traceFormat := by
    refine readable.resolve_right fun all => pack (all submission ?_)
    exact mem_append_right _ mem_cons_self
  have zeros : ∀ pair ∈ recordedPairs before, pair.traceJobId = 0 := by
    intro pair mem
    obtain ⟨other, otherIn, comp, small, rfl⟩ := mem_recordedPairs.mp mem
    have order := (pairwise_append.mp ordered).2.2 other otherIn submission mem_cons_self
    have single : other.job.components = 1 := by
      by_contra several
      exact named other otherIn several (by omega)
    dsimp only
    omega
  have several : 2 ≤ submission.job.components := by
    have := submission.job.components_pos
    omega
  have prior : Readable traceFormat before := .inl format
  obtain ⟨others, records, length⟩ := submission.job.records_eq
  obtain ⟨jobIdList, run, good⟩ := answers (before.length + 1) (by simp)
  have front : (before ++ submission :: behind).take (before.length + 1) =
      before ++ [submission] := by
    simp [take_append, take_of_length_le]
  rw [front] at good
  have expected := good.latest 1
  rw [recordedPairs_append, submission.pairs_eq, answerFrom_packBlock, if_pos (by omega)]
    at expected
  rw [jobIdsAfter, front, map_append, flatMap_append, submitAll_jobs prior named,
    append_nil, flatMap_cons, records, map_cons, map_nil, submitAll,
    cons_append, submitHead, if_pos ⟨format, several⟩, if_neg (by simp; omega), zero] at run
  cases next : ((⟨0, 0, submission.job.components⟩ ::
      (others ++ behind.flatMap (·.job.records))).drop submission.job.components).head? with
  | none => simp [generateJob, next] at run
  | some jobd =>
    simp only [generateJob, next, if_true, Option.map_some, Option.bind_some, submitAll,
      addJobPair, Option.some.injEq] at run
    have nothing : getRealJobId 1 (recordedPairs before) = noVal := by
      cases recorded : recordedPairs before with
      | nil => rfl
      | cons pair rest =>
        have isZero := zeros pair (by simp [recorded])
        rw [getRealJobId, isZero, if_neg (by decide), if_pos (by decide)]
    have fits := submission.fits
    rw [← run, getRealJobId, nothing] at expected
    dsimp only at expected
    split_ifs at expected <;> omega

/-- A later job that falls among the ids of an earlier pack is answered for by a
component, or hides one. -/
theorem apart_of_answers {jobs : List Submission} (readable : Readable traceFormat jobs)
    (ordered : NonDecreasing jobs)
    (named : ∀ submission ∈ jobs, submission.job.components ≠ 1 → submission.job.traceId ≠ 0)
    (answers : AnswersThroughout traceFormat jobs) :
    jobs.Pairwise fun earlier later =>
      earlier.job.lastId < later.job.traceId ∨ later.job.traceId = earlier.job.traceId ∧
          earlier.job.components ≤ later.job.components := by
  rw [pairwise_iff_getElem]
  intro i j iSmall jSmall less
  have order := pairwise_iff_getElem.mp ordered i j iSmall jSmall less
  have iPos := jobs[i].job.components_pos
  have jPos := jobs[j].job.components_pos
  by_contra mixed
  unfold TraceJob.lastId at mixed
  by_cases same : jobs[j].job.traceId = jobs[i].job.traceId
  · obtain ⟨jobIdList, run, good⟩ := answers (j + 1) jSmall
    rw [jobIdsAfter_eq readable named, Option.some.injEq] at run
    have hidden : getRealJobId (jobs[i].job.traceId + (jobs[i].job.components - 1))
        jobIdList = noVal := by
      rw [← run, take_succ_eq_append_getElem jSmall, recordedPairs_append,
        Submission.pairs_eq, getRealJobId_packBlock, if_pos (by omega)]
    refine (good.missing _).mp hidden ⟨_, jobs[i].realJobId + (jobs[i].job.components - 1)⟩ ?_ rfl
    refine mem_recordedPairs.mpr ⟨jobs[i], ?_, jobs[i].job.components - 1, by omega, rfl⟩
    exact mem_take_iff_getElem.mpr ⟨i, by omega, rfl⟩
  · obtain ⟨jobIdList, run, good⟩ := answers (i + 1) iSmall
    rw [jobIdsAfter_eq readable named, Option.some.injEq] at run
    have own := good.own jobs[j] (getElem_mem jSmall)
    rw [← run, take_succ_eq_append_getElem iSmall, recordedPairs_append,
      Submission.pairs_eq, getRealJobId_packBlock, if_neg (by omega), if_pos (by omega),
      answerFrom_missing] at own
    · have fits := jobs[i].fits
      omega
    · intro pair mem
      simp only [ownPairs, mem_map, mem_reverse] at mem
      obtain ⟨other, before, rfl⟩ := mem
      rw [← take_succ_eq_append_getElem iSmall] at before
      obtain ⟨k, bound, rfl⟩ := mem_take_iff_getElem.mp before
      have earlier : jobs[k].job.traceId ≤ jobs[i].job.traceId := by
        rcases Nat.lt_or_ge k i with below | above
        · exact pairwise_iff_getElem.mp ordered k i (by omega) iSmall below
        · have here : k = i := by omega
          subst here
          exact le_rfl
      dsimp only [Submission.ownPair]
      omega

/-- Throughout a trace of non-decreasing ids the list of pairs answers for it
exactly when the ids of the trace are clear. -/
theorem answersThroughout_iff {traceFormat : Nat} {trace : List Submission}
    (readable : Readable traceFormat trace) (ordered : NonDecreasing trace) :
    AnswersThroughout traceFormat trace ↔ ClearIds trace := by
  constructor
  · intro answers
    have named := packs_of_answers readable ordered answers
    exact ⟨named, apart_of_answers readable ordered named answers⟩
  · intro clear count _
    refine ⟨_, jobIdsAfter_eq readable clear.packs count, ?_, ?_, ?_⟩
    · exact (clear.take count).latest
    · intro traceJobId
      rw [(clear.take count).latest]
      exact answerFrom_recorded_iff _ _
    · intro submission member
      rw [(clear.take count).latest]
      exact clear.own ordered (fun _ inside => mem_of_mem_take inside) member

/-- A pack of three components, a job with the next free id, and a job behind it. -/
def spacedTrace : List Submission :=
  [⟨.pack 1 1, 10, by decide⟩, ⟨.single 4, 13, by decide⟩, ⟨.single 5, 14, by decide⟩]

theorem spacedTrace_answers : AnswersThroughout 3 spacedTrace :=
  (answersThroughout_iff (.inl (by decide)) (by simp [NonDecreasing, spacedTrace,
    TraceJob.traceId])).mpr
    ⟨by simp [spacedTrace, TraceJob.components, TraceJob.traceId],
      by simp [spacedTrace, TraceJob.components, TraceJob.traceId, TraceJob.lastId]⟩

/-- A pack of two components with the id 1 is recorded as 1 and 2, and job 2 of
the trace is answered for before it was submitted. -/
theorem answersThroughout_fails :
    ¬ ∀ (traceFormat : Nat) (trace : List Submission), Readable traceFormat trace →
      NonDecreasing trace → AnswersThroughout traceFormat trace := by
  intro all
  obtain ⟨jobIdList, run, good⟩ := all 3
    [⟨.pack 1 0, 10, by decide⟩, ⟨.single 2, 12, by decide⟩] (.inl (by decide))
    (by simp [NonDecreasing, TraceJob.traceId]) 1 (by decide)
  have own := good.own ⟨.single 2, 12, by decide⟩ (by simp)
  have list : jobIdList = [⟨2, 11⟩, ⟨1, 10⟩] := by
    simpa [jobIdsAfter, submitAll, submitHead, generateJob, addPackPairs, addJobPair,
      TraceJob.records, TraceJob.components, TraceJob.traceId] using run.symm
  subst list
  simp [getRealJobId, answerFrom, ownPairs, Submission.ownPair, TraceJob.traceId, noVal] at own

end SlurmSim.Simulator
