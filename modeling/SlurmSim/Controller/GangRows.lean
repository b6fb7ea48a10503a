import SlurmSim.Controller.Gang

/-!
# Building an active row

Whatever routine builds a row, the jobs in it are apart from each other and from
the shadows, the jobs in the row are the running ones, and the shadow calls made
on the way leave exactly the running jobs in the arrays of lower partitions.
-/

namespace SlurmSim.Controller.Gang

open SlurmSim.Common List

variable {g : Config} {jobs : Nat → JobInfo}

/-! ## Resources -/

/-- The nodes or cores of a job. -/
def usage (g : Config) (jobs : Nat → JobInfo) (job : Nat) : Finset Nat :=
  match g.grType with
  | .node => (jobs job).jobResrcs.nodeBitmap
  | _ => (jobs job).jobResrcs.cores g.cluster

/-- What the row uses; without jobs its map is out of date. -/
def ActiveRow.occupied (row : ActiveRow) : Finset Nat :=
  if row.jobsActive = 0 then ∅ else row.activeResmap.getD ∅

theorem subset_fillSockets (nodemap resmap : Finset Nat) :
    resmap ⊆ fillSockets g nodemap resmap := by
  have walk : ∀ (cps : Nat) (sockets : List Nat) (state : Nat × Finset Nat),
      state.2 ⊆ (sockets.foldl (fun (walk : Nat × Finset Nat) _ =>
        (walk.1 + cps, if (List.range cps).any fun i => walk.1 + i ∈ walk.2 then
          walk.2 ∪ Finset.Ico walk.1 (walk.1 + cps) else walk.2)) state).2 := by
    intro cps sockets
    induction sockets with
    | nil => exact fun state => Finset.Subset.refl state.2
    | cons socket sockets ih =>
      intro state
      refine Finset.Subset.trans ?_ (ih _)
      simp only
      split_ifs
      · exact Finset.subset_union_left
      · exact Finset.Subset.refl _
  have nodes : ∀ (nodes : List Nat) (state : Nat × Finset Nat),
      state.2 ⊆ (nodes.foldl (fun (walk : Nat × Finset Nat) n =>
        if n ∉ nodemap then (walk.1 + g.cluster.crNodeNumCores n, walk.2)
        else (List.range (g.socketCnt n)).foldl (fun (walk : Nat × Finset Nat) _ =>
          (walk.1 + g.cluster.crNodeNumCores n / g.socketCnt n,
            if (List.range (g.cluster.crNodeNumCores n / g.socketCnt n)).any
                fun i => walk.1 + i ∈ walk.2 then
              walk.2 ∪ Finset.Ico walk.1 (walk.1 + g.cluster.crNodeNumCores n / g.socketCnt n)
            else walk.2)) walk) state).2 := by
    intro nodes
    induction nodes with
    | nil => exact fun state => Finset.Subset.refl state.2
    | cons node nodes ih =>
      intro state
      refine Finset.Subset.trans ?_ (ih _)
      simp only
      split_ifs
      · exact walk _ _ state
      · exact Finset.Subset.refl _
  exact nodes _ (0, resmap)

theorem jobFitsInActiveRow_iff {job : Nat} {row : ActiveRow} :
    jobFitsInActiveRow g jobs job row = true ↔ Disjoint (usage g jobs job) row.occupied := by
  unfold jobFitsInActiveRow ActiveRow.occupied usage
  cases row.activeResmap with
  | none => simp
  | some resmap =>
    by_cases noJobs : row.jobsActive = 0
    · simp [noJobs]
    · cases g.grType with
      | node => simp [noJobs, Finset.disjoint_iff_inter_eq_empty]
      | socket => simp [noJobs, JobResources.jobFitsIntoCores_iff]
      | core => simp [noJobs, JobResources.jobFitsIntoCores_iff]

theorem occupied_addJobToActive (row : ActiveRow) (job : Nat) :
    row.occupied ∪ usage g jobs job ⊆ (addJobToActive g jobs row job).occupied := by
  have cleared : row.occupied = (if row.jobsActive = 0 then row.activeResmap.map fun _ => ∅
      else row.activeResmap).getD ∅ := by
    unfold ActiveRow.occupied
    split_ifs
    · cases row.activeResmap with
      | none => rfl
      | some resmap => rfl
    · rfl
  have after : (addJobToActive g jobs row job).occupied =
      (addJobToActive g jobs row job).activeResmap.getD ∅ := by
    have someJob : (addJobToActive g jobs row job).jobsActive ≠ 0 := Nat.succ_ne_zero _
    rw [ActiveRow.occupied, if_neg someJob]
  rw [after]
  unfold addJobToActive usage
  simp only [Option.getD_some]
  cases g.grType with
  | node =>
    simp only [ActiveRow.occupied]
    split_ifs
    · rw [Finset.empty_union]
    · exact Finset.Subset.refl _
  | socket =>
    simp only [JobResources.addJobToCores]
    rw [← cleared]
    exact subset_fillSockets _ _
  | core =>
    simp only [JobResources.addJobToCores]
    rw [← cleared]

/-- The row after the given jobs have entered it one by one, each because it fitted. -/
inductive Entered (g : Config) (jobs : Nat → JobInfo) : ActiveRow → List Nat → ActiveRow → Prop
  | nil (row : ActiveRow) : Entered g jobs row [] row
  | cons {row after : ActiveRow} {job : Nat} {ids : List Nat}
      (fits : jobFitsInActiveRow g jobs job row = true)
      (rest : Entered g jobs (addJobToActive g jobs row job) ids after) :
      Entered g jobs row (job :: ids) after

namespace Entered

variable {row between after : ActiveRow} {ids more : List Nat}

theorem append (first : Entered g jobs row ids between) (second : Entered g jobs between more after) :
    Entered g jobs row (ids ++ more) after := by
  induction first with
  | nil row => exact second
  | cons fits rest ih => exact .cons fits (ih second)

theorem apart_row (entered : Entered g jobs row ids after) :
    ∀ job ∈ ids, Disjoint (usage g jobs job) row.occupied := by
  induction entered with
  | nil row =>
    intro job mem
    cases mem
  | cons fits rest ih =>
    intro job mem
    rcases mem_cons.mp mem with rfl | later
    · exact jobFitsInActiveRow_iff.mp fits
    · exact Finset.disjoint_of_subset_right
        (Finset.union_subset_iff.mp (occupied_addJobToActive _ _)).1 (ih job later)

theorem pairwise (entered : Entered g jobs row ids after) :
    ids.Pairwise fun job other => Disjoint (usage g jobs job) (usage g jobs other) := by
  induction entered with
  | nil row => exact List.Pairwise.nil
  | cons fits rest ih =>
    refine List.Pairwise.cons ?_ ih
    intro other later
    exact (Finset.disjoint_of_subset_right
      (Finset.union_subset_iff.mp (occupied_addJobToActive _ _)).2 (rest.apart_row other later)).symm

end Entered

theorem shadowRow_occupied (p : GsPart) :
    ∀ job ∈ p.shadow, usage g jobs job ⊆ (shadowRow g jobs p).occupied := by
  have walk : ∀ (ids : List Nat) (row : ActiveRow),
      row.occupied ⊆ (ids.foldl (addJobToActive g jobs) row).occupied ∧
        ∀ job ∈ ids, usage g jobs job ⊆ (ids.foldl (addJobToActive g jobs) row).occupied := by
    intro ids
    induction ids with
    | nil => simp
    | cons id ids ih =>
      intro row
      have both := Finset.union_subset_iff.mp (@occupied_addJobToActive g jobs row id)
      obtain ⟨grows, mem⟩ := ih (addJobToActive g jobs row id)
      refine ⟨both.1.trans grows, ?_⟩
      intro job listed
      rcases mem_cons.mp listed with rfl | later
      · exact both.2.trans grows
      · exact mem job later
  exact (walk p.shadow _).2

/-! ## Shadow calls -/

def ShadowCall.job : ShadowCall → Nat
  | .cast job => job
  | .clear job => job

/-- The shadow array of a partition of lower priority after the calls. -/
def lowerShadow (calls : List ShadowCall) (shadow : List Nat) : List Nat :=
  calls.foldl (ShadowCall.apply 1 0) shadow

theorem apply_lower {priority ofPart : Nat} (lower : ofPart < priority) (shadow : List Nat)
    (call : ShadowCall) :
    ShadowCall.apply priority ofPart shadow call = ShadowCall.apply 1 0 shadow call := by
  cases call with
  | cast job => simp [ShadowCall.apply, Nat.not_le.mpr lower]
  | clear job => rfl

theorem apply_cast (shadow : List Nat) (job : Nat) :
    ShadowCall.apply 1 0 shadow (.cast job) = if job ∈ shadow then shadow else shadow ++ [job] := by
  simp [ShadowCall.apply]

theorem nodup_lowerShadow (calls : List ShadowCall) {shadow : List Nat} (nodup : shadow.Nodup) :
    (lowerShadow calls shadow).Nodup := by
  induction calls generalizing shadow with
  | nil => exact nodup
  | cons call calls ih =>
    refine ih ?_
    cases call with
    | cast job =>
      rw [apply_cast]
      split_ifs with mem
      · exact nodup
      · rw [nodup_append]
        refine ⟨nodup, nodup_singleton job, ?_⟩
        rintro one oneIn two twoIn rfl
        rw [mem_singleton.mp twoIn] at oneIn
        exact mem oneIn
    | clear job => exact nodup.erase job

theorem mem_lowerShadow_of_other {calls : List ShadowCall} {id : Nat}
    (others : ∀ call ∈ calls, call.job ≠ id) (shadow : List Nat) :
    id ∈ lowerShadow calls shadow ↔ id ∈ shadow := by
  induction calls generalizing shadow with
  | nil => exact Iff.rfl
  | cons call calls ih =>
    have here : id ∈ ShadowCall.apply 1 0 shadow call ↔ id ∈ shadow := by
      have different := others call mem_cons_self
      cases call with
      | cast job =>
        rw [apply_cast]
        split_ifs
        · exact Iff.rfl
        · rw [mem_append, mem_singleton]
          exact or_iff_left (Ne.symm different)
      | clear job => exact mem_erase_of_ne (Ne.symm different)
    exact (ih (fun call mem => others call (mem_cons_of_mem _ mem)) _).trans here

/-- What calls for one job do: afterwards it is in the array or not. -/
structure Tracks (calls : List ShadowCall) (job : Nat) (before after : Prop) : Prop where
  only : ∀ call ∈ calls, call.job = job
  member : ∀ shadow : List Nat, shadow.Nodup → (job ∈ shadow ↔ before) →
    (job ∈ lowerShadow calls shadow ↔ after)

namespace Tracks

variable {job : Nat}

theorem none (same : Prop) : Tracks [] job same same := by
  refine ⟨?_, fun _ _ member => member⟩
  intro call mem
  cases mem

theorem cast {before after : Prop} (holds : after) : Tracks [.cast job] job before after := by
  refine ⟨?_, ?_⟩
  · intro call mem
    rw [mem_singleton.mp mem]
    rfl
  · intro shadow _ _
    have applied : lowerShadow [.cast job] shadow =
        if job ∈ shadow then shadow else shadow ++ [job] := apply_cast shadow job
    rw [applied]
    split_ifs with mem
    · exact ⟨fun _ => holds, fun _ => mem⟩
    · exact ⟨fun _ => holds, fun _ => mem_append_right _ mem_cons_self⟩

theorem clear {before after : Prop} (fails : ¬after) : Tracks [.clear job] job before after := by
  refine ⟨?_, ?_⟩
  · intro call mem
    rw [mem_singleton.mp mem]
    rfl
  · intro shadow nodup _
    have applied : lowerShadow [.clear job] shadow = shadow.erase job := rfl
    rw [applied, nodup.mem_erase_iff]
    exact ⟨fun mem => absurd rfl mem.1, fun holds => absurd holds fails⟩

end Tracks

theorem foldl_apply_of_le {priority ofPart : Nat} (notLower : priority ≤ ofPart)
    {calls : List ShadowCall} {shadow : List Nat} (absent : ∀ call ∈ calls, call.job ∉ shadow) :
    calls.foldl (ShadowCall.apply priority ofPart) shadow = shadow := by
  induction calls with
  | nil => rfl
  | cons call calls ih =>
    have here : ShadowCall.apply priority ofPart shadow call = shadow := by
      cases call with
      | cast job => simp [ShadowCall.apply, notLower]
      | clear job => exact erase_of_not_mem (absent _ mem_cons_self)
    rw [foldl_cons, here]
    exact ih fun call mem => absent call (mem_cons_of_mem _ mem)

theorem foldl_apply_of_lt {priority ofPart : Nat} (lower : ofPart < priority)
    (calls : List ShadowCall) (shadow : List Nat) :
    calls.foldl (ShadowCall.apply priority ofPart) shadow = lowerShadow calls shadow := by
  induction calls generalizing shadow with
  | nil => rfl
  | cons call calls ih =>
    rw [foldl_cons, apply_lower lower, ih]
    rfl

/-! ## Loops over the job list -/

/-- The calls of a loop leave exactly the running jobs of the list in the array. -/
structure TracksAll (before after : List GsJob) (calls : List ShadowCall) : Prop where
  only : ∀ call ∈ calls, call.job ∈ before.map GsJob.jobId
  member : ∀ shadow : List Nat, shadow.Nodup →
    (∀ job ∈ before, (job.jobId ∈ shadow ↔ job.sigState = .resume)) →
    ∀ job ∈ after, (job.jobId ∈ lowerShadow calls shadow ↔ job.sigState = .resume)

theorem lowerShadow_append (calls more : List ShadowCall) (shadow : List Nat) :
    lowerShadow (calls ++ more) shadow = lowerShadow more (lowerShadow calls shadow) :=
  foldl_append

namespace TracksAll

variable {before between after : List GsJob} {calls more : List ShadowCall}

theorem same (jobList : List GsJob) : TracksAll jobList jobList [] := by
  refine ⟨?_, fun _ _ member => member⟩
  intro call mem
  cases mem

theorem trans (first : TracksAll before between calls) (second : TracksAll between after more)
    (sameIds : between.map GsJob.jobId = before.map GsJob.jobId) :
    TracksAll before after (calls ++ more) := by
  refine ⟨?_, ?_⟩
  · intro call mem
    rcases mem_append.mp mem with early | late
    · exact first.only call early
    · exact sameIds ▸ second.only call late
  · intro shadow nodup member
    rw [lowerShadow_append]
    exact second.member _ (nodup_lowerShadow calls nodup) (first.member shadow nodup member)

theorem cons {head newHead : GsJob} (sameId : newHead.jobId = head.jobId)
    (notTail : head.jobId ∉ before.map GsJob.jobId)
    (first : Tracks calls head.jobId (head.sigState = .resume) (newHead.sigState = .resume))
    (second : TracksAll before after more) :
    TracksAll (head :: before) (newHead :: after) (calls ++ more) := by
  refine ⟨?_, ?_⟩
  · intro call mem
    rcases mem_append.mp mem with early | late
    · rw [first.only call early]
      exact mem_cons_self
    · exact mem_cons_of_mem _ (second.only call late)
  · intro shadow nodup member
    rw [lowerShadow_append]
    have midNodup := nodup_lowerShadow calls nodup
    intro job mem
    rcases mem_cons.mp mem with rfl | later
    · have skipped : ∀ call ∈ more, call.job ≠ head.jobId := by
        intro call late same
        exact notTail (same ▸ second.only call late)
      rw [sameId, mem_lowerShadow_of_other skipped]
      exact first.member shadow nodup (member head mem_cons_self)
    · refine second.member _ midNodup ?_ job later
      intro old oldInside
      have skipped : ∀ call ∈ calls, call.job ≠ old.jobId := by
        intro call early same
        rw [first.only call early] at same
        exact notTail (same ▸ mem_map_of_mem oldInside)
      rw [mem_lowerShadow_of_other skipped]
      exact member old (mem_cons_of_mem _ oldInside)

end TracksAll

/-- One job of a loop.  It enters the row if it fits; otherwise it is out of the
row, or the loop, which is about jobs in another row state, passes it over. -/
structure StepSpec (g : Config) (jobs : Nat → JobInfo) (state : RowState) (Pre Post : GsJob → Prop)
    (step : ActiveRow → GsJob → GsJob × ActiveRow × List ShadowCall) : Prop where
  sameId : ∀ row job, (step row job).1.jobId = job.jobId
  post : ∀ row job, Pre job → Post (step row job).1
  row : ∀ row job, Pre job →
    ((step row job).2.1 = row ∧ ((step row job).1.rowState = .noActive ∨
      (step row job).1.rowState = job.rowState ∧ job.rowState ≠ state)) ∨
    (jobFitsInActiveRow g jobs job.jobId row = true ∧
      (step row job).2.1 = addJobToActive g jobs row job.jobId)
  tracks : ∀ row job, Pre job → Tracks (step row job).2.2 job.jobId (job.sigState = .resume)
    ((step row job).1.sigState = .resume)

/-- Where a job of the list stands after loops about the given row states. -/
def Fate (states : List RowState) (ids : List Nat) (before : List GsJob) (job : GsJob) : Prop :=
  job.jobId ∈ ids ∨ job.rowState = .noActive ∨
    job.rowState ∉ states ∧ ∃ old ∈ before, old.jobId = job.jobId ∧ old.rowState = job.rowState

/-- Loops over a job list. -/
structure Scanned (g : Config) (jobs : Nat → JobInfo) (states : List RowState)
    (Post : GsJob → Prop) (row : ActiveRow) (before : List GsJob)
    (result : List GsJob × ActiveRow × List ShadowCall) : Prop where
  sameIds : result.1.map GsJob.jobId = before.map GsJob.jobId
  post : ∀ job ∈ result.1, Post job
  entered : ∃ ids, Entered g jobs row ids result.2.1 ∧ ∀ job ∈ result.1, Fate states ids before job
  tracks : TracksAll before result.1 result.2.2

theorem StepSpec.scanned {state : RowState} {Pre Post : GsJob → Prop}
    {step : ActiveRow → GsJob → GsJob × ActiveRow × List ShadowCall}
    (spec : StepSpec g jobs state Pre Post step) (row : ActiveRow) {list : List GsJob}
    (pre : ∀ job ∈ list, Pre job) (distinct : (list.map GsJob.jobId).Nodup) :
    Scanned g jobs [state] Post row list (scanJobs step row list) := by
  induction list generalizing row with
  | nil =>
    refine ⟨rfl, fun job mem => ?_, ⟨[], .nil row, fun job mem => ?_⟩, .same []⟩
    · cases mem
    · cases mem
  | cons head tail ih =>
    have preHead := pre head mem_cons_self
    rw [map_cons, nodup_cons] at distinct
    obtain ⟨notTail, tailDistinct⟩ := distinct
    obtain ⟨sameIds, post, ⟨ids, entered, fate⟩, tracks⟩ :=
      ih (step row head).2.1 (fun job mem => pre job (mem_cons_of_mem _ mem)) tailDistinct
    have headId := spec.sameId row head
    refine ⟨?_, ?_, ?_, .cons headId notTail (spec.tracks row head preHead) tracks⟩
    · rw [scanJobs]
      simp only [map_cons, headId, sameIds]
    · intro job mem
      rcases mem_cons.mp mem with rfl | later
      · exact spec.post row head preHead
      · exact post job later
    · have laterFate : ∀ job ∈ (scanJobs step (step row head).2.1 tail).1,
          Fate [state] ids (head :: tail) job := by
        intro job later
        rcases fate job later with isEntered | isIdle | ⟨ne, old, mem, same⟩
        · exact Or.inl isEntered
        · exact Or.inr (Or.inl isIdle)
        · exact Or.inr (Or.inr ⟨ne, old, mem_cons_of_mem _ mem, same⟩)
      rcases spec.row row head preHead with ⟨sameRow, fateHead⟩ | ⟨fits, newRow⟩
      · refine ⟨ids, ?_, ?_⟩
        · rw [sameRow] at entered
          rw [scanJobs]
          simp only [sameRow]
          exact entered
        · intro job mem
          rcases mem_cons.mp mem with rfl | later
          · rcases fateHead with isIdle | ⟨sameState, ne⟩
            · exact Or.inr (Or.inl isIdle)
            · refine Or.inr (Or.inr ⟨?_, head, mem_cons_self, headId.symm, sameState.symm⟩)
              rw [sameState, mem_singleton]
              exact ne
          · exact laterFate job later
      · refine ⟨head.jobId :: ids, ?_, ?_⟩
        · refine .cons fits ?_
          rw [newRow] at entered
          rw [scanJobs]
          simp only [newRow]
          exact entered
        · intro job mem
          rcases mem_cons.mp mem with rfl | later
          · exact Or.inl (headId ▸ mem_cons_self)
          · rcases laterFate job later with isEntered | others
            · exact Or.inl (mem_cons_of_mem _ isEntered)
            · exact Or.inr others

namespace Scanned

variable {states more : List RowState} {Mid Post : GsJob → Prop} {row : ActiveRow}
  {before : List GsJob} {first second : List GsJob × ActiveRow × List ShadowCall}

theorem trans (one : Scanned g jobs states Mid row before first)
    (two : Scanned g jobs more Post first.2.1 first.1 second) :
    Scanned g jobs (states ++ more) Post row before
      (second.1, second.2.1, first.2.2 ++ second.2.2) := by
  obtain ⟨ids, entered, fate⟩ := one.entered
  obtain ⟨laterIds, laterEntered, laterFate⟩ := two.entered
  refine ⟨two.sameIds.trans one.sameIds, two.post, ⟨ids ++ laterIds, entered.append laterEntered, ?_⟩,
    one.tracks.trans two.tracks one.sameIds⟩
  intro job mem
  rcases laterFate job mem with isEntered | isIdle | ⟨ne, old, oldInside, sameId, sameState⟩
  · exact Or.inl (mem_append_right _ isEntered)
  · exact Or.inr (Or.inl isIdle)
  rcases fate old oldInside with isEntered | isIdle | ⟨oldDifferent, oldest, inBefore, same⟩
  · exact Or.inl (mem_append_left _ (sameId ▸ isEntered))
  · exact Or.inr (Or.inl (sameState ▸ isIdle))
  · refine Or.inr (Or.inr ⟨?_, oldest, inBefore, same.1.trans sameId, same.2.trans sameState⟩)
    intro inStates
    rcases mem_append.mp inStates with early | late
    · exact oldDifferent (sameState ▸ early)
    · exact ne late

end Scanned

/-! ## The loops of the source -/

/-- The jobs out of the row are the suspended ones. -/
def Consistent (job : GsJob) : Prop :=
  job.rowState = .noActive ↔ job.sigState = .suspend

theorem Consistent.resume {job : GsJob} (consistent : Consistent job)
    (inRow : job.rowState ≠ .noActive) : job.sigState = .resume := by
  cases sig : job.sigState with
  | suspend => exact absurd (consistent.mpr sig) inRow
  | resume => rfl

theorem keepJob_spec {state : RowState} (inRow : state ≠ .noActive) :
    StepSpec g jobs state Consistent Consistent (keepJob g jobs state) := by
  refine ⟨?_, ?_, ?_, ?_⟩
  · intro row job
    unfold keepJob
    split_ifs <;> rfl
  · intro row job consistent
    unfold keepJob
    split_ifs
    · exact consistent
    · exact consistent
    · exact ⟨fun _ => rfl, fun _ => rfl⟩
    · exact ⟨fun _ => rfl, fun _ => rfl⟩
  · intro row job consistent
    unfold keepJob
    split_ifs with other fits
    · exact Or.inl ⟨rfl, Or.inr ⟨rfl, other⟩⟩
    · exact Or.inr ⟨fits, rfl⟩
    · exact Or.inl ⟨rfl, Or.inl rfl⟩
    · exact Or.inl ⟨rfl, Or.inl rfl⟩
  · intro row job consistent
    unfold keepJob
    split_ifs with other fits running
    · exact .none _
    · exact .cast (consistent.resume (not_not.mp other ▸ inRow))
    · exact .clear not_false
    · have resumed := consistent.resume (not_not.mp other ▸ inRow)
      exact absurd (resumed ▸ SigState.noConfusion) running

theorem admitJob_spec : StepSpec g jobs .noActive Consistent Consistent (admitJob g jobs) := by
  refine ⟨?_, ?_, ?_, ?_⟩
  · intro row job
    unfold admitJob
    split_ifs <;> rfl
  · intro row job consistent
    unfold admitJob
    split_ifs
    · exact consistent
    · exact ⟨RowState.noConfusion, SigState.noConfusion⟩
    · exact consistent
  · intro row job consistent
    unfold admitJob
    split_ifs with other fits
    · refine Or.inl ⟨rfl, ?_⟩
      by_cases idle : job.rowState = .noActive
      · exact Or.inl idle
      · exact Or.inr ⟨rfl, idle⟩
    · exact Or.inr ⟨fits, rfl⟩
    · exact Or.inl ⟨rfl, Or.inl (not_not.mp (not_or.mp other).1)⟩
  · intro row job consistent
    unfold admitJob
    split_ifs
    · exact .none _
    · exact .cast rfl
    · exact .none _

/-- A job in or out of the row of `_build_active_row`. -/
def Chosen (jobs : Nat → JobInfo) (job : GsJob) : Prop :=
  job.rowState = .noActive ∨ job.rowState = .active ∧ (jobs job.jobId).priority ≠ 0

theorem activateJob_spec :
    StepSpec g jobs .noActive (·.rowState = .noActive) (Chosen jobs) (activateJob g jobs) := by
  refine ⟨?_, ?_, ?_, ?_⟩
  · intro row job
    unfold activateJob
    split_ifs <;> rfl
  · intro row job idle
    unfold activateJob
    split_ifs with held
    · exact Or.inl idle
    · exact Or.inr ⟨rfl, held⟩
    · exact Or.inl idle
  · intro row job idle
    unfold activateJob
    split_ifs with held fits
    · exact Or.inl ⟨rfl, Or.inl idle⟩
    · exact Or.inr ⟨fits, rfl⟩
    · exact Or.inl ⟨rfl, Or.inl idle⟩
  · intro row job idle
    unfold activateJob
    split_ifs
    · exact .none _
    · exact .none _
    · exact .none _

/-- A job in or out of the row, where those out of it are suspended. -/
def Stopped (jobs : Nat → JobInfo) (job : GsJob) : Prop :=
  Chosen jobs job ∧ (job.rowState = .noActive → job.sigState = .suspend)

theorem Chosen.fate {job : GsJob} (chosen : Chosen jobs job) :
    job.rowState = .noActive ∨ job.rowState = job.rowState ∧ job.rowState ≠ .filler := by
  rcases chosen with idle | ⟨active, held⟩
  · exact Or.inl idle
  · exact Or.inr ⟨rfl, active ▸ RowState.noConfusion⟩

theorem suspendIdle_spec : StepSpec g jobs .filler (Chosen jobs) (Stopped jobs) suspendIdle := by
  refine ⟨?_, ?_, ?_, ?_⟩
  · intro row job
    unfold suspendIdle
    split_ifs <;> rfl
  · intro row job chosen
    unfold suspendIdle
    split_ifs with running
    · exact ⟨chosen, fun _ => rfl⟩
    · refine ⟨chosen, fun idle => ?_⟩
      cases sig : job.sigState with
      | suspend => rfl
      | resume => exact absurd ⟨idle, sig⟩ running
  · intro row job chosen
    unfold suspendIdle
    split_ifs
    · exact Or.inl ⟨rfl, chosen.fate⟩
    · exact Or.inl ⟨rfl, chosen.fate⟩
  · intro row job chosen
    unfold suspendIdle
    split_ifs
    · exact .clear not_false
    · exact .none _

theorem resumeActive_spec :
    StepSpec g jobs .filler (Stopped jobs) Consistent (resumeActive jobs) := by
  refine ⟨?_, ?_, ?_, ?_⟩
  · intro row job
    unfold resumeActive
    split_ifs <;> rfl
  · rintro row job ⟨chosen, stopped⟩
    unfold resumeActive
    split_ifs with suspended
    · exact ⟨fun idle => absurd (idle.symm.trans suspended.1) RowState.noConfusion,
        SigState.noConfusion⟩
    · refine ⟨stopped, fun sig => ?_⟩
      rcases chosen with idle | ⟨active, held⟩
      · exact idle
      · exact absurd ⟨active, sig, held⟩ suspended
  · rintro row job ⟨chosen, stopped⟩
    unfold resumeActive
    split_ifs
    · exact Or.inl ⟨rfl, chosen.fate⟩
    · exact Or.inl ⟨rfl, chosen.fate⟩
  · rintro row job ⟨chosen, stopped⟩
    unfold resumeActive
    split_ifs
    · exact .cast rfl
    · exact .none _

/-! ## The three routines -/

/-- The running jobs of a partition are apart from each other and from its shadows. -/
structure Apart (g : Config) (jobs : Nat → JobInfo) (p : GsPart) : Prop where
  within : ∀ job ∈ p.jobList, ∀ other ∈ p.jobList, job.sigState = .resume →
    other.sigState = .resume → job.jobId ≠ other.jobId →
    Disjoint (usage g jobs job.jobId) (usage g jobs other.jobId)
  shadows : ∀ job ∈ p.jobList, job.sigState = .resume → ∀ id ∈ p.shadow,
    Disjoint (usage g jobs job.jobId) (usage g jobs id)

/-- What a routine that builds the row of a partition leaves. -/
structure Rebuilt (p : GsPart) (result : GsPart × List ShadowCall) : Prop where
  priority : result.1.priority = p.priority
  shadow : result.1.shadow = p.shadow
  sameIds : (result.1.jobList.map GsJob.jobId).Perm (p.jobList.map GsJob.jobId)
  consistent : ∀ job ∈ result.1.jobList, Consistent job
  tracks : TracksAll p.jobList result.1.jobList result.2

theorem Scanned.apart {states : List RowState} {p : GsPart} {before : List GsJob}
    {result : List GsJob × ActiveRow × List ShadowCall}
    (scanned : Scanned g jobs states Consistent (shadowRow g jobs p) before result)
    (allStates : ∀ old ∈ before, old.rowState ≠ .noActive → old.rowState ∈ states) :
    Apart g jobs { p with jobList := result.1, row := result.2.1 } := by
  obtain ⟨ids, entered, fate⟩ := scanned.entered
  have inRow : ∀ job ∈ result.1, job.sigState = .resume → job.jobId ∈ ids := by
    intro job mem resumed
    have notIdle : job.rowState ≠ .noActive := by
      intro idle
      rw [(scanned.post job mem).mp idle] at resumed
      cases resumed
    rcases fate job mem with isEntered | isIdle | ⟨ne, old, oldInside, -, sameState⟩
    · exact isEntered
    · exact absurd isIdle notIdle
    · rw [← sameState] at notIdle ne
      exact absurd (allStates old oldInside notIdle) ne
  refine ⟨?_, ?_⟩
  · intro job mem other otherInside resumed otherResumed ne
    exact entered.pairwise.forall (inRow job mem resumed) (inRow other otherInside otherResumed)
      ne
  · intro job mem resumed id shadowed
    exact Finset.disjoint_of_subset_right (shadowRow_occupied p id shadowed)
      (entered.apart_row job.jobId (inRow job mem resumed))

section Update

variable {p : GsPart} (consistent : ∀ job ∈ p.jobList, Consistent job)
  (distinct : (p.jobList.map GsJob.jobId).Nodup)

include consistent distinct

theorem keepJob_scanned :
    let first := scanJobs (keepJob g jobs .active) (shadowRow g jobs p) p.jobList
    let second := scanJobs (keepJob g jobs .filler) first.2.1 first.1
    Scanned g jobs [.active, .filler] Consistent (shadowRow g jobs p) p.jobList
      (second.1, second.2.1, first.2.2 ++ second.2.2) := by
  intro first second
  have one : Scanned g jobs [.active] Consistent (shadowRow g jobs p) p.jobList first :=
    (keepJob_spec RowState.noConfusion).scanned _ consistent distinct
  have two : Scanned g jobs [.filler] Consistent first.2.1 first.1 second :=
    (keepJob_spec RowState.noConfusion).scanned _ one.post (one.sameIds ▸ distinct)
  exact one.trans two

theorem updateActiveRow_rebuilt (addNewJobs : Bool) :
    Rebuilt p (updateActiveRow g jobs addNewJobs p) ∧
      Apart g jobs (updateActiveRow g jobs addNewJobs p).1 := by
  have kept := @keepJob_scanned g jobs p consistent distinct
  cases addNewJobs with
  | false =>
    refine ⟨⟨rfl, rfl, List.Perm.of_eq kept.sameIds, kept.post, kept.tracks⟩, ?_⟩
    refine kept.apart ?_
    intro old mem inRow
    cases state : old.rowState with
    | noActive => exact absurd state inRow
    | active => exact mem_cons_self
    | filler => exact mem_cons_of_mem _ mem_cons_self
  | true =>
    have admitted := kept.trans
      ((@admitJob_spec g jobs).scanned _ kept.post (kept.sameIds ▸ distinct))
    refine ⟨⟨rfl, rfl, List.Perm.of_eq admitted.sameIds, admitted.post, admitted.tracks⟩, ?_⟩
    refine admitted.apart ?_
    intro old mem inRow
    cases state : old.rowState with
    | noActive => exact absurd state inRow
    | active => exact mem_cons_self
    | filler => exact mem_cons_of_mem _ mem_cons_self

end Update

theorem keepJob_resumed {state : RowState} {row : ActiveRow} {list : List GsJob} {job : GsJob}
    (mem : job ∈ (scanJobs (keepJob g jobs state) row list).1)
    (resumed : job.sigState = .resume) :
    ∃ old ∈ list, old.jobId = job.jobId ∧ old.sigState = .resume := by
  induction list generalizing row with
  | nil => cases mem
  | cons head tail ih =>
    rcases mem_cons.mp mem with rfl | later
    · have same : (keepJob g jobs state row head).1.jobId = head.jobId ∧
          ((keepJob g jobs state row head).1.sigState = .resume → head.sigState = .resume) := by
        unfold keepJob
        split_ifs
        · exact ⟨rfl, id⟩
        · exact ⟨rfl, id⟩
        · exact ⟨rfl, False.elim⟩
        · exact ⟨rfl, False.elim⟩
      exact ⟨head, mem_cons_self, same.1.symm, same.2 resumed⟩
    · obtain ⟨old, oldInside, same⟩ := ih later
      exact ⟨old, mem_cons_of_mem _ oldInside, same⟩

theorem mem_rotateJobs {jobList : List GsJob} {job : GsJob} :
    job ∈ rotateJobs jobList ↔ ∃ old ∈ jobList, { old with rowState := .noActive } = job := by
  simp only [rotateJobs, mem_map, mem_append, mem_filter]
  constructor
  · rintro ⟨old, mem, rfl⟩
    rcases mem with idle | active
    · exact ⟨old, idle.1, rfl⟩
    · exact ⟨old, active.1, rfl⟩
  · rintro ⟨old, mem, rfl⟩
    by_cases active : old.rowState = .active
    · exact ⟨old, Or.inr ⟨mem, decide_eq_true active⟩, rfl⟩
    · exact ⟨old, Or.inl ⟨mem, decide_eq_true active⟩, rfl⟩

theorem rotateJobs_ids (jobList : List GsJob) :
    ((rotateJobs jobList).map GsJob.jobId).Perm (jobList.map GsJob.jobId) := by
  have halves : (jobList.filter (·.rowState ≠ .active) ++
      jobList.filter (·.rowState = .active)).Perm jobList := by
    refine perm_append_comm.trans ?_
    have complement := filter_append_perm (fun job : GsJob => decide (job.rowState = .active)) jobList
    simpa [decide_not] using complement
  have sameIds : (rotateJobs jobList).map GsJob.jobId = (jobList.filter (·.rowState ≠ .active) ++
      jobList.filter (·.rowState = .active)).map GsJob.jobId := by
    rw [rotateJobs, map_map]
    rfl
  rw [sameIds]
  exact halves.map _

theorem updateActiveRow_resumed {p : GsPart} {job : GsJob}
    (mem : job ∈ (updateActiveRow g jobs false p).1.jobList) (resumed : job.sigState = .resume) :
    ∃ old ∈ p.jobList, old.jobId = job.jobId ∧ old.sigState = .resume := by
  obtain ⟨middle, middleInside, sameId, middleResumed⟩ := keepJob_resumed mem resumed
  obtain ⟨old, oldInside, oldId, oldResumed⟩ := keepJob_resumed middleInside middleResumed
  exact ⟨old, oldInside, oldId.trans sameId, oldResumed⟩

theorem TracksAll.rotate {jobList after : List GsJob} {calls : List ShadowCall}
    (tracks : TracksAll (rotateJobs jobList) after calls) : TracksAll jobList after calls := by
  refine ⟨fun call mem => (rotateJobs_ids jobList).mem_iff.mp (tracks.only call mem), ?_⟩
  intro shadow nodup member
  refine tracks.member shadow nodup ?_
  intro job mem
  obtain ⟨old, oldInside, rfl⟩ := mem_rotateJobs.mp mem
  exact member old oldInside

theorem activateJob_calls (row : ActiveRow) (list : List GsJob) :
    (scanJobs (activateJob g jobs) row list).2.2 = [] := by
  induction list generalizing row with
  | nil => rfl
  | cons head tail ih =>
    have noCalls : (activateJob g jobs row head).2.2 = [] := by
      unfold activateJob
      split_ifs <;> rfl
    rw [scanJobs]
    simp only [noCalls, ih, append_nil]

theorem cycleJobList_scanned {p : GsPart} (distinct : (p.jobList.map GsJob.jobId).Nodup) :
    let first := scanJobs (activateJob g jobs) (shadowRow g jobs p) (rotateJobs p.jobList)
    let second := scanJobs suspendIdle first.2.1 first.1
    let third := scanJobs (resumeActive jobs) second.2.1 second.1
    Scanned g jobs [.noActive, .filler, .filler] Consistent (shadowRow g jobs p)
      (rotateJobs p.jobList) (third.1, third.2.1, second.2.2 ++ third.2.2) := by
  intro first second third
  have rotated := (rotateJobs_ids p.jobList).nodup_iff.mpr distinct
  have one : Scanned g jobs [.noActive] (Chosen jobs) (shadowRow g jobs p) (rotateJobs p.jobList)
      first := by
    refine activateJob_spec.scanned _ ?_ rotated
    intro job mem
    obtain ⟨old, -, rfl⟩ := mem_rotateJobs.mp mem
    rfl
  have two : Scanned g jobs [.filler] (Stopped jobs) first.2.1 first.1 second :=
    suspendIdle_spec.scanned _ one.post (one.sameIds ▸ rotated)
  have three : Scanned g jobs [.filler] Consistent second.2.1 second.1 third :=
    resumeActive_spec.scanned _ two.post ((two.sameIds.trans one.sameIds) ▸ rotated)
  have all := (one.trans two).trans three
  rw [activateJob_calls, nil_append] at all
  exact all

theorem cycleJobList_rebuilt {p : GsPart} (distinct : (p.jobList.map GsJob.jobId).Nodup) :
    Rebuilt p (cycleJobList g jobs p) ∧ Apart g jobs (cycleJobList g jobs p).1 := by
  by_cases noJobs : rotateJobs p.jobList = []
  · have emptyList : p.jobList = [] := by
      have sameIds := rotateJobs_ids p.jobList
      rw [noJobs] at sameIds
      exact map_eq_nil_iff.mp sameIds.symm.eq_nil
    have result : cycleJobList g jobs p =
        ({ p with jobList := [], row := { p.row with jobsActive := 0 } }, []) := by
      simp [cycleJobList, buildActiveRow, noJobs, scanJobs]
    rw [result]
    refine ⟨⟨rfl, rfl, ?_, ?_, ?_⟩, ?_, ?_⟩
    · rw [emptyList]
    · intro job mem
      cases mem
    · rw [emptyList]
      exact .same []
    · intro job mem
      cases mem
    · intro job mem
      cases mem
  · have scanned := @cycleJobList_scanned g jobs p distinct
    have built : buildActiveRow g jobs { p with jobList := rotateJobs p.jobList } = { p with
          jobList := (scanJobs (activateJob g jobs) (shadowRow g jobs p) (rotateJobs p.jobList)).1
          row := (scanJobs (activateJob g jobs) (shadowRow g jobs p) (rotateJobs p.jobList)).2.1 } :=
      if_neg noJobs
    have apart := scanned.apart fun old mem inRow => by
      obtain ⟨older, -, rfl⟩ := mem_rotateJobs.mp mem
      exact absurd rfl inRow
    unfold cycleJobList
    rw [built]
    exact ⟨⟨rfl, rfl, (List.Perm.of_eq scanned.sameIds).trans (rotateJobs_ids p.jobList),
      scanned.post, scanned.tracks.rotate⟩, apart⟩

end SlurmSim.Controller.Gang
