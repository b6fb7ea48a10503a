import Mathlib.Data.Fintype.EquivFin
import Mathlib.Order.WellFounded
import SlurmSim.Controller.JobDependency

/-!
# Circles of dependencies

A job waits for the records that its dependencies name.  `_scan_depend` follows the
dependencies by their pointers and ids instead, and takes a record with another id
than the dependency for a purged one.
-/

namespace SlurmSim.Controller.JobQueue

open Lib List
open Option (some.inj some.injEq)

variable (q : JobQueue)

/-! ## The graph -/

/-- The live records that a dependency names: by their own id, by array and task id,
or all the records of an array. -/
def Names (spec : DependSpec) (ptr : Nat) : Prop :=
  spec.jobId ≠ 0 ∧ ptr ∈ q.table.live ∧
    if spec.arrayTaskId = noVal then (q.table.recs ptr).jobId = spec.jobId
    else if spec.arrayTaskId = infinite then
      (q.table.recs ptr).jobId = spec.jobId ∨ (q.table.recs ptr).arrayJobId = spec.jobId
    else
      ((q.table.recs ptr).arrayJobId = spec.jobId ∧
        (q.table.recs ptr).arrayTaskId = spec.arrayTaskId) ∨
      ((q.table.recs ptr).jobId = spec.jobId ∧ q.table.holdsTask spec.arrayTaskId ptr = true)

instance (spec : DependSpec) (ptr : Nat) : Decidable (q.Names spec ptr) :=
  inferInstanceAs (Decidable (_ ∧ _ ∧ ite _ _ (ite _ _ _)))

def Unfinished (ptr : Nat) : Prop := (q.table.recs ptr).isFinished = false

instance (ptr : Nat) : Decidable (q.Unfinished ptr) :=
  inferInstanceAs (Decidable (_ = false))

/-- One unfinished job waits for another. -/
def Waits (first second : Nat) : Prop :=
  first ∈ q.table.live ∧ q.Unfinished first ∧ q.Unfinished second ∧
    ∃ list, q.dependList first = some list ∧ ∃ spec ∈ list, q.Names spec second

def Acyclic : Prop := ∀ ptr, ¬Relation.TransGen q.Waits ptr ptr

/-- The list of an unfinished record that a dependency names. -/
def Below (spec : DependSpec) (list : List DependSpec) : Prop :=
  ∃ ptr, q.Names spec ptr ∧ q.Unfinished ptr ∧ q.dependList ptr = some list

/-- A chain of dependencies that ends at the job. -/
def LeadsBack (job : Nat) (list : List DependSpec) : Prop :=
  Leads (fun spec => q.Names spec job) q.Below list

/-- The list of an unfinished record that a dependency points to and has the id of. -/
def BelowById (spec : DependSpec) (list : List DependSpec) : Prop :=
  ∃ ptr, spec.jobId ≠ 0 ∧ spec.jobPtr = some ptr ∧ ptr ∈ q.table.live ∧
    (q.table.recs ptr).jobId = spec.jobId ∧ q.Unfinished ptr ∧ q.dependList ptr = some list

/-- A chain of dependencies with the ids of the records they point to, the last one
with the id of the job. -/
def LeadsBackById (job : Nat) (list : List DependSpec) : Prop :=
  Leads (fun spec => spec.jobId ≠ 0 ∧ spec.jobId = (q.table.recs job).jobId) q.BelowById list

/-! ## The scan -/

variable {q}

variable {list : List DependSpec} {job : Nat}

theorem scanned_eq_some_iff {spec : DependSpec} :
    q.scanned spec = some list ↔ q.BelowById spec list := by
  unfold scanned BelowById Unfinished
  constructor
  · intro isList
    split_ifs at isList with single
    split at isList
    · cases isList
    · next ptr points =>
        split_ifs at isList with purged finished
        push Not at purged
        exact ⟨ptr, single, points, purged.2, purged.1.symm, by simpa using finished, isList⟩
  · rintro ⟨ptr, single, points, live, sameId, unfinished, isList⟩
    simp [single, points, live, sameId, unfinished, isList]

theorem leads_scan_iff :
    Leads (fun spec : DependSpec => (spec.jobId != 0 &&
        spec.jobId == (q.table.recs job).jobId) = true) (fun spec sub => q.scanned spec = some sub)
      list ↔ q.LeadsBackById job list := by
  unfold LeadsBackById
  have hits : (fun spec : DependSpec => (spec.jobId != 0 &&
      spec.jobId == (q.table.recs job).jobId) = true) =
      fun spec => spec.jobId ≠ 0 ∧ spec.jobId = (q.table.recs job).jobId := by
    simp
  have belows : (fun spec sub => q.scanned spec = some sub) = q.BelowById := by
    funext spec sub
    exact propext scanned_eq_some_iff
  rw [hits, belows]

theorem scanDepend_ends (q : JobQueue) (conf : DependConf) (jobId : UInt32)
    (list : List DependSpec) (jobCounter : Nat) :
    ∃ found last, q.scanDepend conf jobId (conf.maxDependDepth + 1) list jobCounter =
      some (found, last) := by
  have enough : conf.maxDependDepth < conf.maxDependDepth + 1 + jobCounter := by omega
  obtain ⟨found, last, searched, -⟩ :=
    BoundedSearch.search_total _ list jobCounter enough (Nat.succ_pos _)
  exact ⟨found, last, searched⟩

theorem scanDepend_sound {conf : DependConf} {fuel : Nat} {jobCounter last : Nat}
    (found : q.scanDepend conf (q.table.recs job).jobId fuel list jobCounter = some (true, last)) :
    q.LeadsBackById job list :=
  leads_scan_iff.mp (BoundedSearch.search_sound found)

theorem scanDepend_complete {conf : DependConf} {fuel : Nat} {jobCounter last : Nat}
    (nothing : q.scanDepend conf (q.table.recs job).jobId fuel list jobCounter = some (false, last))
    (within : last ≤ conf.maxDependDepth) : ¬q.LeadsBackById job list :=
  fun leads => BoundedSearch.search_complete nothing within (leads_scan_iff.mpr leads)

/-! ## The graph after an update -/

variable {job : Nat} {details : JobDetails} {list : List DependSpec}

theorem setDetails_dependList (q : JobQueue) (job : Nat) (details : JobDetails) (ptr : Nat) :
    (q.setDetails job details).dependList ptr =
      if ptr = job then details.dependList else q.dependList ptr := by
  unfold dependList setDetails
  by_cases same : ptr = job
  · simp [same]
  · simp [same]

variable {first second : Nat} {conf : DependConf} {text : Option (List Char)}

theorem waits_setDetails_iff (other : first ≠ job) :
    (q.setDetails job details).Waits first second ↔ q.Waits first second := by
  unfold Waits
  rw [setDetails_dependList, if_neg other]
  rfl

theorem transGen_setDetails
    (path : Relation.TransGen (q.setDetails job details).Waits first second) :
    Relation.TransGen q.Waits first second ∨
      Relation.ReflTransGen (q.setDetails job details).Waits first job ∧
        Relation.TransGen (q.setDetails job details).Waits job second := by
  induction path with
  | single edge =>
    by_cases same : first = job
    · subst same
      exact .inr ⟨.refl, .single edge⟩
    · exact .inl (.single ((waits_setDetails_iff same).mp edge))
  | @tail middle last path edge ih =>
    rcases ih with old | ⟨before, behind⟩
    · by_cases same : middle = job
      · subst same
        exact .inr ⟨path.to_reflTransGen, .single edge⟩
      · exact .inl (old.tail ((waits_setDetails_iff same).mp edge))
    · exact .inr ⟨before, behind.tail edge⟩

theorem leadsBack_of_transGen
    (path : Relation.TransGen (q.setDetails job details).Waits first job) :
    ∀ list, (q.setDetails job details).dependList first = some list → q.LeadsBack job list := by
  induction path using Relation.TransGen.head_induction_on with
  | single edge =>
    intro list isList
    obtain ⟨-, -, -, own, isOwn, spec, mem, names⟩ := edge
    rw [isList, some.injEq] at isOwn
    exact .here (isOwn ▸ mem) names
  | @head first second edge rest ih =>
    intro list isList
    obtain ⟨-, -, unfinished, own, isOwn, spec, mem, names⟩ := edge
    rw [isList, some.injEq] at isOwn
    subst isOwn
    by_cases same : second = job
    · subst same
      exact .here mem names
    · obtain ⟨third, ⟨-, -, -, sub, isSub, -⟩, -⟩ := Relation.TransGen.head'_iff.mp rest
      have oldSub := isSub
      rw [setDetails_dependList, if_neg same] at oldSub
      exact .next mem ⟨second, names, unfinished, oldSub⟩ (ih sub isSub)

theorem LeadsBack.live (leads : q.LeadsBack job list) : job ∈ q.table.live := by
  induction leads with
  | here _ names => exact names.2.1
  | next _ _ _ ih => exact ih

theorem transGen_of_leadsBack (unfinished : q.Unfinished job) (leads : q.LeadsBack job list)
    (live : first ∈ q.table.live) (waiting : q.Unfinished first)
    (isList : (q.setDetails job details).dependList first = some list) :
    Relation.TransGen (q.setDetails job details).Waits first job := by
  induction leads generalizing first with
  | here mem names =>
    exact .single ⟨live, waiting, unfinished, _, isList, _, mem, names⟩
  | next mem below _ ih =>
    obtain ⟨second, names, unfinished', isSub⟩ := below
    by_cases same : second = job
    · subst same
      exact .single ⟨live, waiting, unfinished, _, isList, _, mem, names⟩
    · refine .head ⟨live, waiting, unfinished', _, isList, _, mem, names⟩ ?_
      refine ih names.2.1 unfinished' ?_
      rw [setDetails_dependList, if_neg same]
      exact isSub

theorem acyclic_setDetails (acyclic : q.Acyclic) (nothing : q.Unfinished job → ∀ list,
      details.dependList = some list → ¬q.LeadsBack job list) :
    (q.setDetails job details).Acyclic := by
  intro ptr path
  rcases transGen_setDetails path with old | ⟨before, behind⟩
  · exact acyclic ptr old
  · have circle := behind.trans_left before
    obtain ⟨second, ⟨live, unfinished, -, list, isList, -⟩, -⟩ :=
      Relation.TransGen.head'_iff.mp circle
    have leads := leadsBack_of_transGen circle list isList
    rw [setDetails_dependList, if_pos rfl] at isList
    exact nothing unfinished list isList leads

theorem not_acyclic_setDetails (unfinished : q.Unfinished job)
    (isList : details.dependList = some list) (leads : q.LeadsBack job list) :
    ¬(q.setDetails job details).Acyclic := by
  intro acyclic
  refine acyclic job (transGen_of_leadsBack unfinished leads leads.live unfinished ?_)
  rw [setDetails_dependList, if_pos rfl]
  exact isList

/-! ## The answers of the update -/

theorem names_setOrFlag (q : JobQueue) (spec : DependSpec) (ptr : Nat) :
    q.Names (setOrFlag spec) ptr ↔ q.Names spec ptr := by
  unfold setOrFlag Names
  split_ifs <;> rfl

theorem leadsBack_map_setOrFlag : q.LeadsBack job (list.map setOrFlag) ↔ q.LeadsBack job list := by
  constructor
  · intro leads
    cases leads with
    | here mem names =>
      obtain ⟨spec, isMember, rfl⟩ := mem_map.mp mem
      exact .here isMember ((names_setOrFlag q spec job).mp names)
    | next mem below more =>
      obtain ⟨spec, isMember, rfl⟩ := mem_map.mp mem
      obtain ⟨ptr, names, unfinished, isSub⟩ := below
      exact .next isMember ⟨ptr, (names_setOrFlag q spec ptr).mp names, unfinished, isSub⟩ more
  · intro leads
    cases leads with
    | here mem names =>
      exact .here (mem_map_of_mem mem) ((names_setOrFlag q _ job).mpr names)
    | next mem below more =>
      obtain ⟨ptr, names, unfinished, isSub⟩ := below
      exact .next (mem_map_of_mem mem)
        ⟨ptr, (names_setOrFlag q _ ptr).mpr names, unfinished, isSub⟩ more

theorem leadsBack_dependList2str (orFlag : Bool) {stored : List DependSpec}
    (isStored : (dependList2str details list orFlag).dependList = some stored) :
    q.LeadsBack job stored ↔ q.LeadsBack job list := by
  obtain rfl := some.inj isStored
  cases orFlag with
  | true => exact leadsBack_map_setOrFlag
  | false => exact Iff.rfl

/-- The dependencies that a text stands for, when it is read and does not clear them. -/
def newList (q : JobQueue) (conf : DependConf) (job : Nat) (text : Option (List Char)) :
    Option (List DependSpec) :=
  if (q.details job).isNone || clears text then none
  else
    match q.newDepend conf job (text.getD []) with
    | (_, false) => none
    | (parse, true) => some parse.dependList

/-- The scan of the new dependencies goes through at most `max_depend_depth` lists. -/
def WithinDepth (q : JobQueue) (conf : DependConf) (job : Nat) (text : Option (List Char)) : Prop :=
  ∀ list, q.newList conf job text = some list → ∃ found last,
    q.scanDepend conf (q.table.recs job).jobId (conf.maxDependDepth + 1) list 0 =
      some (found, last) ∧ last ≤ conf.maxDependDepth

theorem update_of_newList_none (noList : q.newList conf job text = none) : ∃ rc after,
      q.updateJobDependency conf job text = some (rc, after) ∧ rc ≠ .circularDependency ∧
      (rc = .success → after = q.setDetails job ⟨0, none, none⟩) := by
  unfold newList at noList
  unfold updateJobDependency
  cases isDetails : q.details job with
  | none => exact ⟨.einval, q, rfl, by decide, by simp⟩
  | some details =>
    simp only [isDetails, Option.isNone_some, Bool.false_or] at noList ⊢
    split_ifs at noList ⊢ with cleared
    · exact ⟨.success, _, rfl, by decide, fun _ => rfl⟩
    · obtain ⟨⟨parse, read⟩, isParse⟩ : ∃ parsed, q.newDepend conf job (text.getD []) = parsed :=
        ⟨_, rfl⟩
      rw [isParse] at noList ⊢
      cases read with
      | false => exact ⟨.dependency, _, rfl, by decide, by simp⟩
      | true => cases noList

theorem update_of_newList (isNew : q.newList conf job text = some list) :
    ∃ details orFlag found last,
      q.scanDepend conf (q.table.recs job).jobId (conf.maxDependDepth + 1) list 0 =
        some (found, last) ∧
      q.updateJobDependency conf job text =
        if found then some (.circularDependency, q.setDetails job details)
        else some (.success, q.setDetails job (dependList2str details list orFlag)) := by
  obtain ⟨found, last, scan⟩ := q.scanDepend_ends conf (q.table.recs job).jobId list 0
  unfold newList at isNew
  unfold updateJobDependency
  cases isDetails : q.details job with
  | none => simp [isDetails] at isNew
  | some details =>
    simp only [isDetails, Option.isNone_some, Bool.false_or] at isNew ⊢
    split_ifs at isNew ⊢ with cleared
    split at isNew
    · cases isNew
    · next parse isParse =>
        obtain rfl := some.inj isNew
        refine ⟨{ details with expandingJobid := parse.expandingJobid }, parse.orFlag, found, last,
          scan, ?_⟩
        simp only [isParse, scan]
        cases found with
        | true => rfl
        | false => rfl

/-! ## Circles are refused -/

/-- An accepted text leaves no circle if the scan stayed within its depth, and a refusal
is the answer to a real one. -/
structure RefusesCircles (q : JobQueue) (conf : DependConf) (job : Nat)
    (text : Option (List Char)) : Prop where
  accepted : ∀ after, q.updateJobDependency conf job text = some (.success, after) →
    q.WithinDepth conf job text → after.Acyclic
  circular : ∀ after, q.updateJobDependency conf job text = some (.circularDependency, after) →
    ∃ list, q.newList conf job text = some list ∧ q.LeadsBack job list

/-- When the dependencies of the text lead back to the job, they do so along dependencies
that have the ids of the records they point to, and the other way round. -/
def BackByIds (q : JobQueue) (conf : DependConf) (job : Nat) (text : Option (List Char)) : Prop :=
  ∀ list, q.newList conf job text = some list →
    (q.Unfinished job → q.LeadsBack job list → q.LeadsBackById job list) ∧
      (q.LeadsBackById job list → q.LeadsBack job list)

theorem BackByIds.refuses (acyclic : q.Acyclic) (byIds : q.BackByIds conf job text) :
    q.RefusesCircles conf job text := by
  cases isNew : q.newList conf job text with
  | none =>
    obtain ⟨rc, after, answer, notCircular, cleared⟩ := update_of_newList_none isNew
    constructor
    · intro after' accepted _
      obtain ⟨rfl, rfl⟩ := Prod.mk.inj (some.inj (answer.symm.trans accepted))
      rw [cleared rfl]
      exact acyclic_setDetails acyclic (by simp)
    · intro after' circular
      have same := Prod.mk.inj (some.inj (answer.symm.trans circular))
      exact absurd same.1 notCircular
  | some list =>
    obtain ⟨details, orFlag, found, last, scan, answer⟩ := update_of_newList isNew
    obtain ⟨forward, backward⟩ := byIds list isNew
    constructor
    · intro after accepted within
      cases found with
      | true => simp [answer] at accepted
      | false =>
        have stored : q.setDetails job (dependList2str details list orFlag) = after := by
          simpa [answer] using accepted
        obtain ⟨found, last', scan', small⟩ := within list isNew
        have same := Prod.mk.inj (some.inj (scan.symm.trans scan'))
        have nothing := scanDepend_complete scan (same.2 ▸ small)
        rw [← stored]
        refine acyclic_setDetails acyclic ?_
        intro unfinished list' isStored leads
        exact nothing (forward unfinished ((leadsBack_dependList2str orFlag isStored).mp leads))
    · intro after circular
      cases found with
      | true => exact ⟨list, isNew, backward (scanDepend_sound scan)⟩
      | false => simp [answer] at circular

theorem RefusesCircles.byIds (refuses : q.RefusesCircles conf job text)
    (within : q.WithinDepth conf job text) : q.BackByIds conf job text := by
  intro list isNew
  obtain ⟨details, orFlag, found, last, scan, answer⟩ := update_of_newList isNew
  cases found with
  | true =>
    obtain ⟨list', isNew', leads⟩ := refuses.circular _ answer
    rw [isNew, some.injEq] at isNew'
    exact ⟨fun _ _ => scanDepend_sound scan, fun _ => isNew' ▸ leads⟩
  | false =>
    obtain ⟨found, last', scan', small⟩ := within list isNew
    have same := Prod.mk.inj (some.inj (scan.symm.trans scan'))
    have nothing := scanDepend_complete scan (same.2 ▸ small)
    refine ⟨?_, fun leads => absurd leads nothing⟩
    intro unfinished leads
    have acyclic := refuses.accepted _ answer within
    have stored : ∃ stored, (dependList2str details list orFlag).dependList = some stored :=
      ⟨_, rfl⟩
    obtain ⟨stored, isStored⟩ := stored
    exact absurd acyclic (not_acyclic_setDetails unfinished isStored
      ((leadsBack_dependList2str orFlag isStored).mpr leads))

/-- Circles are refused whenever they are made of dependencies with the ids of the records
they point to, and within the depth of the scan only then.  The scan itself always ends. -/
theorem circular_dependencies_refused (q : JobQueue) (conf : DependConf) (job : Nat)
    (text : Option (List Char)) (acyclic : q.Acyclic) :
    (∀ (any : JobQueue) (jobId : UInt32) (list : List DependSpec) (jobCounter : Nat),
      (any.scanDepend conf jobId (conf.maxDependDepth + 1) list jobCounter).isSome = true) ∧
    (q.BackByIds conf job text → q.RefusesCircles conf job text) ∧
    (q.WithinDepth conf job text →
      (q.RefusesCircles conf job text ↔ q.BackByIds conf job text)) := by
  refine ⟨?_, BackByIds.refuses acyclic, ?_⟩
  · intro any jobId list jobCounter
    obtain ⟨found, last, ends⟩ := any.scanDepend_ends conf jobId list jobCounter
    rw [ends]
    rfl
  · intro within
    exact ⟨fun refuses => refuses.byIds within, BackByIds.refuses acyclic⟩

theorem acyclic_of_edge (source target : Nat) (ne : source ≠ target)
    (edges : ∀ first second, q.Waits first second → first = source ∧ second = target) :
    q.Acyclic := by
  intro ptr path
  obtain ⟨_, starts, -⟩ := Relation.TransGen.head'_iff.mp path
  obtain ⟨_, -, ends⟩ := Relation.TransGen.tail'_iff.mp path
  exact ne ((edges _ _ starts).1.symm.trans (edges _ _ ends).2)

/-- Pending jobs without dependencies, except that the job at one address depends on the
record at another. -/
def pendingQueue (table : JobTable) (spec : DependSpec) (ptr : Nat) : JobQueue where
  table := table
  details := fun other => some ⟨0, none, if other = ptr then some [spec] else none⟩
  qosId := fun _ => 1
  partPtr := fun _ => some 0

theorem pendingQueue_waits {table : JobTable} {spec : DependSpec} {ptr : Nat}
    (waits : (pendingQueue table spec ptr).Waits first second) :
    first = ptr ∧ (pendingQueue table spec ptr).Names spec second := by
  obtain ⟨-, -, -, list, isList, other, mem, names⟩ := waits
  by_cases same : first = ptr
  · refine ⟨same, ?_⟩
    have single : [spec] = list := by simpa [dependList, pendingQueue, same] using isList
    rw [← single, mem_singleton] at mem
    exact mem ▸ names
  · simp [dependList, pendingQueue, same] at isList

/-- Jobs 100 and 200, of which 200 waits for 100. -/
def plainQueue : JobQueue :=
  pendingQueue (((JobTable.init 10).apply (.create 0 ⟨100, 0, noVal, none, 0⟩)).apply
    (.create 2 ⟨200, 0, noVal, none, 0⟩)) ⟨noVal, .afterAny, false, 100, some 0, fun _ => rfl⟩ 2

/-- The array 100, whose task 3 became the record 105, and the job 200 that waits for it. -/
def taskQueue : JobQueue :=
  pendingQueue ((((JobTable.init 10).apply (.create 0 ⟨100, 100, noVal,
    some ⟨some {1, 2, 3}, 3, 0⟩, 0⟩)).apply (.split 0 1 105 3)).apply
    (.create 2 ⟨200, 0, noVal, none, 0⟩)) ⟨3, .afterAny, false, 100, some 0, fun _ => rfl⟩ 2

theorem pendingQueue_acyclic {table : JobTable} {spec : DependSpec} {ptr : Nat} (target : Nat)
    (ne : ptr ≠ target) (single : ∀ second ∈ table.live,
      (pendingQueue table spec ptr).Names spec second → second = target) :
    (pendingQueue table spec ptr).Acyclic := by
  refine acyclic_of_edge ptr target ne ?_
  intro first second waits
  obtain ⟨rfl, names⟩ := pendingQueue_waits waits
  exact ⟨rfl, single second names.2.1 names⟩

theorem plainQueue_acyclic : plainQueue.Acyclic :=
  pendingQueue_acyclic 0 (by decide) (by decide +kernel)

theorem taskQueue_acyclic : taskQueue.Acyclic :=
  pendingQueue_acyclic 0 (by decide) (by decide +kernel)

/-- The limits of the examples. -/
def exampleConf : DependConf := ⟨10, 100, true⟩

/-- Job 100 cannot wait for job 200, which waits for it. -/
theorem circular_dependencies_refused_plain :
    plainQueue.RefusesCircles exampleConf 0 (some "afterok:200".toList) := by
  refine (circular_dependencies_refused plainQueue exampleConf 0 _ plainQueue_acyclic).2.1 ?_
  intro list isNew
  have expected : plainQueue.newList exampleConf 0 (some "afterok:200".toList) =
      some [plainQueue.newSpec .afterOk noVal 2] := by decide +kernel
  obtain rfl := some.inj (expected.symm.trans isNew)
  have below : plainQueue.dependList 2 = some
      [⟨noVal, .afterAny, false, 100, some 0, fun _ => rfl⟩] := rfl
  refine ⟨fun _ _ => ?_, fun _ => ?_⟩
  · refine .next mem_cons_self ⟨2, by decide +kernel, rfl, by decide +kernel, by decide +kernel,
      by decide +kernel, below⟩ ?_
    exact .here mem_cons_self (by decide +kernel)
  · refine .next mem_cons_self ⟨2, by decide +kernel, by decide +kernel, below⟩ ?_
    exact .here mem_cons_self (by decide +kernel)

/-- The task 100_3 may wait for the job 200, which waits for it: the dependency of job 200 has
the id of the array, and the record of the task has another one. -/
theorem circular_dependencies_refused_task :
    ¬∀ (q : JobQueue) (conf : DependConf) (job : Nat) (text : Option (List Char)),
      q.Acyclic → q.RefusesCircles conf job text := by
  intro all
  have refuses := all taskQueue exampleConf 0 (some "afterok:200".toList) taskQueue_acyclic
  have isNew : taskQueue.newList exampleConf 0 (some "afterok:200".toList) =
      some [taskQueue.newSpec .afterOk noVal 2] := by decide +kernel
  have scan : taskQueue.scanDepend exampleConf (taskQueue.table.recs 0).jobId 11
      [taskQueue.newSpec .afterOk noVal 2] 0 = some (false, 2) := by decide +kernel
  have within : taskQueue.WithinDepth exampleConf 0 (some "afterok:200".toList) := by
    intro list isList
    obtain rfl := some.inj (isNew.symm.trans isList)
    exact ⟨false, 2, scan, by decide⟩
  have below : taskQueue.dependList 2 = some
      [⟨3, .afterAny, false, 100, some 0, fun _ => rfl⟩] := rfl
  have leads : taskQueue.LeadsBack 0 [taskQueue.newSpec .afterOk noVal 2] := by
    refine .next mem_cons_self ⟨2, by decide +kernel, by decide +kernel, below⟩ ?_
    exact .here mem_cons_self (by decide +kernel)
  have unfinished : taskQueue.Unfinished 0 := by decide +kernel
  exact scanDepend_complete scan (by decide) ((refuses.byIds within _ isNew).1 unfinished leads)

/-! ## Runs of updates -/

variable {after : JobQueue}

theorem waits_setDetails_same {details : JobDetails} (same : details.dependList = q.dependList job) :
    (q.setDetails job details).Waits = q.Waits := by
  have lists : (q.setDetails job details).dependList = q.dependList := by
    funext ptr
    rw [setDetails_dependList]
    split_ifs with here
    · rw [here, same]
    · rfl
  unfold Waits
  rw [lists]
  rfl

/-- A refused update leaves the graph as it is. -/
theorem waits_of_refused {rc : DependRc}
    (updated : q.updateJobDependency conf job text = some (rc, after)) (refused : rc ≠ .success) :
    after.Waits = q.Waits := by
  unfold updateJobDependency at updated
  cases isDetails : q.details job with
  | none =>
    simp only [isDetails] at updated
    rw [(Prod.mk.inj (some.inj updated)).2]
  | some details =>
    have kept : details.dependList = q.dependList job := by simp [dependList, isDetails]
    simp only [isDetails] at updated
    split_ifs at updated
    · exact absurd (Prod.mk.inj (some.inj updated)).1.symm refused
    · split at updated
      · rw [← (Prod.mk.inj (some.inj updated)).2]
        exact waits_setDetails_same kept
      · split at updated
        · cases updated
        · rw [← (Prod.mk.inj (some.inj updated)).2]
          exact waits_setDetails_same kept
        · exact absurd (Prod.mk.inj (some.inj updated)).1.symm refused

/-- Updates of any jobs, one after the other, whose scans stay within their depth and find
the circles by ids. -/
inductive Updates (conf : DependConf) (q : JobQueue) : JobQueue → Prop
  | none : Updates conf q q
  | more {before after : JobQueue} {job : Nat} {text : Option (List Char)} {rc : DependRc}
      (run : Updates conf q before) (byIds : before.BackByIds conf job text)
      (within : before.WithinDepth conf job text)
      (updated : before.updateJobDependency conf job text = some (rc, after)) :
      Updates conf q after

theorem Updates.acyclic (updates : Updates conf q after) (acyclic : q.Acyclic) : after.Acyclic := by
  induction updates with
  | none => exact acyclic
  | @more before after job text rc _ byIds within updated ih =>
    by_cases success : rc = .success
    · exact (byIds.refuses ih).accepted after (success ▸ updated) within
    · rw [Acyclic, waits_of_refused updated success]
      exact ih

end SlurmSim.Controller.JobQueue
