import SlurmSim.Select.Resources

/-!
# The rows over whole runs

Every job with cores that found a row is in exactly one row, the jobs of a row
are apart, and the row bitmaps are the unions of their cores, as long as no job
is entered twice and no suspended job in a row loses a node.
-/

namespace SlurmSim.Select

open SlurmSim.Common List
open Function (update update_of_ne)

/-- The calls that touch the rows; in between jobs get their resources and are
suspended and resumed. -/
inductive SelectOp where
  | assign (job : Nat) (info : JobInfo)
  | setSuspended (job : Nat) (suspended : Bool)
  | addJobToRes (job action : Nat)
  | rmJobFromRes (job action : Nat)
  | rmJobFromOneNode (job nodeInx : Nat)
  | crSortPartRows (p : Nat)

namespace SelectState

variable (c : Cluster)

def apply (s : SelectState) : SelectOp → SelectState
  | .assign job info => { s with jobs := update s.jobs job info }
  | .setSuspended job suspended =>
    { s with jobs := update s.jobs job { s.jobs job with suspended := suspended } }
  | .addJobToRes job action => (s.addJobToRes c job action).2
  | .rmJobFromRes job action => (s.rmJobFromRes c job action).2
  | .rmJobFromOneNode job nodeInx => (s.rmJobFromOneNode c job nodeInx).2
  | .crSortPartRows p =>
    match s.parts p with
    | none => s
    | some part =>
      match part.row with
      | none => s
      | some rows => s.setRows p part (Select.crSortPartRows rows)

/-- A job gets well-formed resources while it is in no row. -/
def Allowed (s : SelectState) : SelectOp → Prop
  | .assign job info =>
    s.isListed job = false ∧ (info.hasCores = true → info.jobResrcs.WellFormed c)
  | _ => True

/-- Whether `_add_job_to_res` finds a row for the job. -/
def findsRow (s : SelectState) (job : Nat) : Bool :=
  (s.jobs job).hasCores &&
    match (s.jobs job).partPtr.bind s.parts with
    | none => false
    | some part => (placeJob c s.resrcs job (rowsToFill part)).isSome

/-- No job gets a row while it is in one, and no suspended job in a row loses a node. -/
def Orderly (s : SelectState) : SelectOp → Prop
  | .addJobToRes job action => action ≠ 1 → s.findsRow c job = true → s.isListed job = false
  | .rmJobFromOneNode job nodeInx =>
    (s.jobs job).suspended = true → nodeInx ∈ (s.resrcs job).nodes c →
      (s.resrcs job).cpus.getD (((s.resrcs job).nodes c).idxOf nodeInx) 0 ≠ 0 →
        s.isListed job = false
  | _ => True

/-- The jobs that have cores and found a row, read off the calls. -/
def observe (s : SelectState) (placed : Finset Nat) : SelectOp → Finset Nat
  | .addJobToRes job action =>
    if action ≠ 1 ∧ s.findsRow c job = true then insert job placed else placed
  | .rmJobFromRes job action =>
    if action = 1 ∨ s.initializing = true then placed else placed.erase job
  | _ => placed

/-- A run together with the jobs that are placed. -/
def runWith : SelectState → Finset Nat → List SelectOp → SelectState × Finset Nat
  | s, placed, [] => (s, placed)
  | s, placed, op :: ops => runWith (s.apply c op) (s.observe c placed op) ops

def Runs (ok : SelectState → SelectOp → Prop) : SelectState → List SelectOp → Prop
  | _, [] => True
  | s, op :: ops => s.Allowed c op ∧ ok s op ∧ Runs ok (s.apply c op) ops

/-- Nothing is allocated: no partition has rows. -/
def Blank (s : SelectState) : Prop :=
  (∀ p part, s.parts p = some part → part.row = none) ∧
    ∀ job, (s.jobs job).hasCores = true → (s.resrcs job).WellFormed c

end SelectState

/-- The placed jobs are the listed ones, each once; the jobs of a row are apart,
and the row bitmaps are the unions of their cores. -/
structure RowInvariant (c : Cluster) (s : SelectState) (placed : Finset Nat) : Prop where
  once : ∀ p job, (s.listed p).count job =
    if job ∈ placed ∧ (s.jobs job).partPtr = some p then 1 else 0
  apart : ∀ p part rows, s.parts p = some part → part.row = some rows → ∀ row ∈ rows,
    Apart c s.resrcs row.jobList
  union : ∀ p part rows, s.parts p = some part → part.row = some rows → ∀ row ∈ rows,
    ∀ bitmap, row.rowBitmap = some bitmap → bitmap = unionCores c s.resrcs row.jobList

/-- What a step keeps: besides the rows that the resources are well formed. -/
structure RowsKept (c : Cluster) (s : SelectState) (placed : Finset Nat) : Prop where
  rows : ∀ p part rows, s.parts p = some part → part.row = some rows → RowsOk c s.resrcs rows
  member : ∀ p job, job ∈ s.listed p ↔ job ∈ placed ∧ (s.jobs job).partPtr = some p
  wellFormed : ∀ job, (s.jobs job).hasCores = true → (s.resrcs job).WellFormed c
  cores : ∀ job ∈ placed, (s.jobs job).hasCores = true ∧ (s.jobs job).partPtr.isSome

/-- The same but for the rows of one partition, which are about to be written. -/
structure RowsKeptBut (c : Cluster) (s : SelectState) (placed : Finset Nat) (p : Nat) : Prop where
  rows : ∀ q part rows, q ≠ p → s.parts q = some part → part.row = some rows →
    RowsOk c s.resrcs rows
  member : ∀ q job, q ≠ p → (job ∈ s.listed q ↔ job ∈ placed ∧ (s.jobs job).partPtr = some q)
  wellFormed : ∀ job, (s.jobs job).hasCores = true → (s.resrcs job).WellFormed c

namespace RowsKept

variable {c : Cluster} {s : SelectState} {placed : Finset Nat}

theorem but (kept : RowsKept c s placed) (p : Nat) : RowsKeptBut c s placed p :=
  ⟨fun q part rows _ => kept.rows q part rows, fun q job _ => kept.member q job, kept.wellFormed⟩

variable {p job nodeInx : Nat} {part : PartRes}

theorem listed_eq {rows : List PartRow} (partEq : s.parts p = some part)
    (rowEq : part.row = some rows) : s.listed p = rows.flatMap PartRow.jobList := by
  simp [SelectState.listed, partEq, rowEq]

theorem rowInvariant (kept : RowsKept c s placed) : RowInvariant c s placed := by
  refine ⟨?_, ?_, ?_⟩
  · intro p job
    have nodup : (s.listed p).Nodup := by
      unfold SelectState.listed
      cases partEq : s.parts p with
      | none => exact nodup_nil
      | some part =>
        cases rowEq : part.row with
        | none => simp [rowEq]
        | some rows => simpa [rowEq] using (kept.rows p part rows partEq rowEq).listed
    rw [← if_congr (kept.member p job) rfl rfl]
    split_ifs with mem
    · exact count_eq_one_of_mem nodup mem
    · exact count_eq_zero_of_not_mem mem
  · intro p part rows partEq rowEq row mem
    exact ((kept.rows p part rows partEq rowEq).each row mem).apart
  · intro p part rows partEq rowEq row mem
    exact ((kept.rows p part rows partEq rowEq).each row mem).union

theorem usage (kept : RowsKept c s placed) (usage : Nat → NodeUse) :
    RowsKept c { s with usage := usage } placed :=
  ⟨kept.rows, kept.member, kept.wellFormed, kept.cores⟩

theorem setRows (kept : RowsKeptBut c s placed p) {rows : List PartRow} {placed' : Finset Nat}
    (ok : RowsOk c s.resrcs rows)
    (here : ∀ job, job ∈ rows.flatMap PartRow.jobList ↔ job ∈ placed' ∧ (s.jobs job).partPtr = some p)
    (elsewhere : ∀ job, (s.jobs job).partPtr ≠ some p → (job ∈ placed' ↔ job ∈ placed))
    (cores : ∀ job ∈ placed', (s.jobs job).hasCores = true ∧ (s.jobs job).partPtr.isSome) :
    RowsKept c (s.setRows p part rows) placed' := by
  refine ⟨?_, ?_, kept.wellFormed, cores⟩
  · intro q part' rows' partEq rowEq
    simp only [SelectState.setRows] at partEq
    rcases eq_or_ne q p with rfl | different
    · rw [Function.update_self, Option.some.injEq] at partEq
      rw [← partEq, Option.some.injEq] at rowEq
      exact rowEq ▸ ok
    · rw [update_of_ne different] at partEq
      exact kept.rows q part' rows' different partEq rowEq
  · intro q job
    rcases eq_or_ne q p with rfl | different
    · refine Iff.trans ?_ (here job)
      simp [SelectState.listed, SelectState.setRows]
    · have same : (s.setRows p part rows).listed q = s.listed q := by
        simp [SelectState.listed, SelectState.setRows, update_of_ne different]
      rw [same, kept.member q job different]
      refine and_congr_left fun partEq => (elsewhere job ?_).symm
      rw [show (s.jobs job).partPtr = some q from partEq]
      exact fun same => different (Option.some.inj same)

theorem rowsToFill_spec (kept : RowsKept c s placed) (partEq : s.parts p = some part) (job : Nat) :
    (∀ row ∈ SelectState.rowsToFill part, RowOk c s.resrcs row) ∧
      (SelectState.rowsToFill part).flatMap PartRow.jobList = s.listed p ∧
      ((SelectState.rowsToFill part).flatMap PartRow.jobList).Nodup ∧
      FirstBitmap ((placeJob c s.resrcs job (SelectState.rowsToFill part)).getD
        (SelectState.rowsToFill part)) := by
  cases rowEq : part.row with
  | none =>
    have fresh : SelectState.rowsToFill part = List.replicate part.numRows PartRow.empty := by
      rw [SelectState.rowsToFill, rowEq]
      rfl
    have noJobs : (SelectState.rowsToFill part).flatMap PartRow.jobList = [] := by
      rw [fresh, flatMap_eq_nil_iff]
      intro row mem
      rw [eq_of_mem_replicate mem]
      rfl
    refine ⟨?_, ?_, noJobs ▸ nodup_nil, ?_⟩
    · intro row mem
      rw [fresh] at mem
      rw [eq_of_mem_replicate mem]
      exact ⟨List.Pairwise.nil, fun _ isSome => absurd isSome (by simp [PartRow.empty]),
        fun some_ => absurd rfl some_⟩
    · rw [noJobs]
      simp [SelectState.listed, partEq, rowEq]
    · rw [fresh]
      cases part.numRows with
      | zero =>
        intro row atHead
        cases atHead
      | succ more =>
        intro row atHead
        cases atHead
        rfl
  | some rows =>
    have old : SelectState.rowsToFill part = rows := by
      rw [SelectState.rowsToFill, rowEq]
      rfl
    have ok := kept.rows p part rows partEq rowEq
    rw [old]
    refine ⟨ok.each, (listed_eq partEq rowEq).symm, ok.listed, ?_⟩
    cases placedEq : placeJob c s.resrcs job rows with
    | none => exact ok.first
    | some rows' => exact placeJob_first ok.first placedEq

theorem enterRow (kept : RowsKept c s placed) (coresEq : (s.jobs job).hasCores = true)
    (ptrEq : (s.jobs job).partPtr = some p) (partEq : s.parts p = some part)
    (unlisted : (placeJob c s.resrcs job (SelectState.rowsToFill part)).isSome = true → job ∉ s.listed p) :
    RowsKept c (s.enterRow c job p part)
      (if (placeJob c s.resrcs job (SelectState.rowsToFill part)).isSome then insert job placed
        else placed) := by
  obtain ⟨each, listedEq, nodup, first⟩ := kept.rowsToFill_spec partEq job
  refine RowsKept.usage ?_ _
  cases placedEq : placeJob c s.resrcs job (SelectState.rowsToFill part) with
  | none =>
    rw [placedEq] at first
    refine RowsKept.setRows (kept.but p) ⟨each, nodup, first⟩ ?_ (fun _ _ => Iff.rfl) kept.cores
    intro other
    rw [Option.getD_none, listedEq]
    exact kept.member p other
  | some rows' =>
    rw [placedEq] at first
    have perm := placeJob_perm placedEq
    have cores : ∀ other ∈ insert job placed,
        (s.jobs other).hasCores = true ∧ (s.jobs other).partPtr.isSome := by
      intro other inside
      rcases Finset.mem_insert.mp inside with rfl | old
      · exact ⟨coresEq, by rw [ptrEq]; rfl⟩
      · exact kept.cores other old
    refine RowsKept.setRows (kept.but p) ⟨placeJob_ok each placedEq, ?_, first⟩ ?_ ?_ cores
    · rw [Option.getD_some, perm.nodup_iff, nodup_cons, listedEq]
      exact ⟨unlisted (by rw [placedEq]; rfl), listedEq ▸ nodup⟩
    · intro other
      rw [Option.getD_some, perm.mem_iff, mem_cons, listedEq, kept.member p other]
      simp only [Option.isSome_some, if_true, Finset.mem_insert]
      constructor
      · rintro (rfl | ⟨inside, same⟩)
        · exact ⟨Or.inl rfl, ptrEq⟩
        · exact ⟨Or.inr inside, same⟩
      · rintro ⟨rfl | inside, same⟩
        · exact Or.inl rfl
        · exact Or.inr ⟨inside, same⟩
    · intro other elsewhere
      simp only [Option.isSome_some, if_true, Finset.mem_insert]
      constructor
      · rintro (rfl | inside)
        · exact absurd ptrEq elsewhere
        · exact inside
      · exact Or.inr

theorem addJobToRes (kept : RowsKept c s placed) {job action : Nat}
    (orderly : s.Orderly c (.addJobToRes job action)) :
    RowsKept c (s.apply c (.addJobToRes job action))
      (s.observe c placed (.addJobToRes job action)) := by
  have charged : RowsKept c (s.chargeNodes c job action) placed := kept.usage _
  rcases @SelectState.addJobToRes_cases c s job action with
    ⟨noCores, same⟩ | ⟨_, noRow, same⟩ | ⟨p, part, coresEq, withCores, ptrEq, partEq, same⟩
  · rw [SelectState.apply, same]
    simpa [SelectState.observe, SelectState.findsRow, noCores] using kept
  · rw [SelectState.apply, same]
    rcases noRow with memoryOnly | noPart
    · simpa [SelectState.observe, memoryOnly] using charged
    · simpa [SelectState.observe, SelectState.findsRow, noPart] using charged
  · rw [SelectState.apply, same]
    have found : s.findsRow c job =
        (placeJob c s.resrcs job (SelectState.rowsToFill part)).isSome := by
      simp [SelectState.findsRow, coresEq, ptrEq, partEq]
    have unlisted : (placeJob c s.resrcs job (SelectState.rowsToFill part)).isSome = true →
        job ∉ s.listed p := by
      intro isPlaced
      exact SelectState.isListed_eq_false_iff.mp (orderly withCores (found.trans isPlaced)) p ptrEq
    have entered := charged.enterRow coresEq ptrEq partEq unlisted
    simp only [SelectState.observe, found, ne_eq, withCores, not_false_eq_true, true_and]
    exact entered

theorem not_placed (kept : RowsKept c s placed) (unlisted : s.isListed job = false) :
    job ∉ placed := by
  intro mem
  obtain ⟨p, ptrEq⟩ := Option.isSome_iff_exists.mp (kept.cores job mem).2
  exact SelectState.isListed_eq_false_iff.mp unlisted p ptrEq ((kept.member p job).mpr ⟨mem, ptrEq⟩)

theorem leaveRow (kept : RowsKept c s placed) {rows rows' : List PartRow}
    (ptrEq : (s.jobs job).partPtr = some p) (partEq : s.parts p = some part)
    (rowEq : part.row = some rows) (taken : takeJob job rows = some rows') :
    RowsKept c (s.leaveRow c job p part rows') (placed.erase job) := by
  have ok := kept.rows p part rows partEq rowEq
  obtain ⟨okAfter, perm⟩ := buildRowBitmaps_some ok taken
  have before := takeJob_perm taken
  have notLeft : job ∉ rows'.flatMap PartRow.jobList :=
    (nodup_cons.mp (before.nodup_iff.mp ok.listed)).1
  refine RowsKept.usage (RowsKept.setRows (kept.but p) okAfter ?_ ?_ ?_) _
  · intro other
    have inRows : other ∈ rows.flatMap PartRow.jobList ↔
        other ∈ placed ∧ (s.jobs other).partPtr = some p := by
      rw [← listed_eq partEq rowEq]
      exact kept.member p other
    rw [before.mem_iff, mem_cons] at inRows
    rw [perm.mem_iff, Finset.mem_erase, and_assoc, ← inRows]
    constructor
    · intro left
      refine ⟨?_, Or.inr left⟩
      rintro rfl
      exact notLeft left
    · rintro ⟨ne, rfl | left⟩
      · exact absurd rfl ne
      · exact left
  · intro other elsewhere
    rw [Finset.mem_erase]
    constructor
    · exact And.right
    · intro mem
      refine ⟨?_, mem⟩
      rintro rfl
      exact elsewhere ptrEq
  · intro other mem
    exact kept.cores other (Finset.mem_of_mem_erase mem)

theorem rmJobFromRes (kept : RowsKept c s placed) (job action : Nat) :
    RowsKept c (s.apply c (.rmJobFromRes job action))
      (s.observe c placed (.rmJobFromRes job action)) := by
  have refunded : RowsKept c (s.refundNodes c job action) placed := kept.usage _
  rw [SelectState.apply, SelectState.observe]
  rcases @SelectState.rmJobFromRes_cases c s job action with
    ⟨ignored, same⟩ | ⟨running, coresEq, noRow, same⟩ |
      ⟨p, part, rows, rows', running, coresEq, withCores, ptrEq, partEq, rowEq, taken, same⟩
  · rw [same]
    split_ifs with stays
    · exact kept
    · have noCores : (s.jobs job).hasCores = false := by
        rcases ignored with starting | noCores
        · exact absurd (Or.inr starting) stays
        · exact noCores
      rw [Finset.erase_eq_of_notMem]
      · exact kept
      · intro mem
        rw [(kept.cores job mem).1] at noCores
        cases noCores
  · rw [same]
    split_ifs with stays
    · exact refunded
    · have unlisted := noRow.resolve_left fun memoryOnly => stays (Or.inl memoryOnly)
      rw [Finset.erase_eq_of_notMem (kept.not_placed unlisted)]
      exact refunded
  · rw [same, if_neg (by simp [withCores, running])]
    exact refunded.leaveRow ptrEq partEq rowEq taken

/-- Outside `p` the rows depend on the placed jobs only. -/
theorem changeJobsBut (kept : RowsKeptBut c s placed p) {s' : SelectState}
    (partsEq : s'.parts = s.parts)
    (ptrSame : ∀ job ∈ placed, (s'.jobs job).partPtr = (s.jobs job).partPtr)
    (coresSame : ∀ job ∈ placed, (s.jobs job).partPtr ≠ some p → (s'.resrcs job).cores c = (s.resrcs job).cores c)
    (wellFormed : ∀ job, (s'.jobs job).hasCores = true → (s'.resrcs job).WellFormed c) :
    RowsKeptBut c s' placed p := by
  have listedSame : ∀ q, s'.listed q = s.listed q := by
    intro q
    rw [SelectState.listed, SelectState.listed, partsEq]
  refine ⟨?_, ?_, wellFormed⟩
  · intro q part rows ne partEq rowEq
    rw [partsEq] at partEq
    refine (kept.rows q part rows ne partEq rowEq).congr fun job mem => ?_
    rw [← listed_eq partEq rowEq] at mem
    obtain ⟨inPlaced, ptrEq⟩ := (kept.member q job ne).mp mem
    refine coresSame job inPlaced ?_
    rw [ptrEq]
    exact fun same => ne (Option.some.inj same)
  · intro q job ne
    rw [listedSame, kept.member q job ne]
    refine and_congr_right fun inPlaced => ?_
    rw [ptrSame job inPlaced]

theorem changeJobs (kept : RowsKept c s placed) {s' : SelectState} (partsEq : s'.parts = s.parts)
    (same : ∀ job ∈ placed, (s'.jobs job).partPtr = (s.jobs job).partPtr ∧
      (s'.jobs job).hasCores = (s.jobs job).hasCores ∧
      (s'.resrcs job).cores c = (s.resrcs job).cores c)
    (wellFormed : ∀ job, (s'.jobs job).hasCores = true → (s'.resrcs job).WellFormed c) :
    RowsKept c s' placed := by
  have changed : ∀ p, RowsKeptBut c s' placed p := fun p =>
    changeJobsBut (kept.but p) partsEq (fun job mem => (same job mem).1)
      (fun job mem _ => (same job mem).2.2) wellFormed
  refine ⟨?_, ?_, wellFormed, ?_⟩
  · intro p part rows
    exact (changed (p + 1)).rows p part rows (Nat.ne_of_lt (Nat.lt_succ_self p))
  · intro p job
    exact (changed (p + 1)).member p job (Nat.ne_of_lt (Nat.lt_succ_self p))
  · intro job mem
    rw [(same job mem).1, (same job mem).2.1]
    exact kept.cores job mem

theorem assign (kept : RowsKept c s placed) {info : JobInfo}
    (allowed : s.Allowed c (.assign job info)) :
    RowsKept c (s.apply c (.assign job info)) placed := by
  obtain ⟨unlisted, wf⟩ := allowed
  have notPlaced := kept.not_placed unlisted
  refine kept.changeJobs rfl ?_ ?_
  · intro other mem
    have different : other ≠ job := by
      rintro rfl
      exact notPlaced mem
    simp [SelectState.apply, SelectState.resrcs, update_of_ne different]
  · intro other
    rcases eq_or_ne other job with rfl | different
    · simpa [SelectState.apply, SelectState.resrcs] using wf
    · simpa [SelectState.apply, SelectState.resrcs, update_of_ne different] using
        kept.wellFormed other

theorem setSuspended (kept : RowsKept c s placed) (job : Nat) (suspended : Bool) :
    RowsKept c (s.apply c (.setSuspended job suspended)) placed := by
  have fields : ∀ other,
      ((s.apply c (.setSuspended job suspended)).jobs other).partPtr = (s.jobs other).partPtr ∧
      ((s.apply c (.setSuspended job suspended)).jobs other).hasCores = (s.jobs other).hasCores ∧
      (s.apply c (.setSuspended job suspended)).resrcs other = s.resrcs other := by
    intro other
    rcases eq_or_ne other job with rfl | different
    · simp [SelectState.apply, SelectState.resrcs]
    · simp [SelectState.apply, SelectState.resrcs, update_of_ne different]
  refine kept.changeJobs rfl (fun other _ => ?_) fun other => ?_
  · rw [(fields other).1, (fields other).2.1, (fields other).2.2]
    exact ⟨rfl, rfl, rfl⟩
  · rw [(fields other).2.1, (fields other).2.2]
    exact kept.wellFormed other

theorem crSortPartRows (kept : RowsKept c s placed) (p : Nat) :
    RowsKept c (s.apply c (.crSortPartRows p)) placed := by
  rw [SelectState.apply]
  cases partEq : s.parts p with
  | none => exact kept
  | some part =>
    cases rowEq : part.row with
    | none => simpa only [rowEq] using kept
    | some rows =>
      have sorted := crSortPartRows_rearranged rows
      simp only [rowEq]
      refine RowsKept.setRows (kept.but p)
        ((kept.rows p part rows partEq rowEq).rearranged sorted) ?_ (fun _ _ => Iff.rfl)
        kept.cores
      intro job
      rw [(sorted.perm.flatMap_right _).mem_iff, ← listed_eq partEq rowEq]
      exact kept.member p job

theorem refreshRows {rows : List PartRow} (kept : RowsKeptBut c s placed p)
    (cores : ∀ job ∈ placed, (s.jobs job).hasCores = true ∧ (s.jobs job).partPtr.isSome)
    (mem : ∀ job, job ∈ rows.flatMap PartRow.jobList ↔ job ∈ placed ∧ (s.jobs job).partPtr = some p)
    (apart : ∀ row ∈ rows, Apart c s.resrcs row.jobList)
    (listed : (rows.flatMap PartRow.jobList).Nodup) (first : FirstBitmap rows) :
    RowsKept c (s.refreshRows c job nodeInx p part rows) placed := by
  obtain ⟨ok, perm⟩ := buildRowBitmaps_none apart listed first
  refine RowsKept.usage (RowsKept.setRows kept ok ?_ (fun _ _ => Iff.rfl) cores) _
  intro other
  rw [perm.mem_iff, mem other]

theorem detachNode_less (kept : RowsKept c s placed) (coresEq : (s.jobs job).hasCores = true)
    (mem : nodeInx ∈ (s.resrcs job).nodes c) :
    ((s.detachNode c job nodeInx).resrcs job).WellFormed c ∧
      ((s.detachNode c job nodeInx).resrcs job).cores c ⊆ (s.resrcs job).cores c := by
  have wf := kept.wellFormed job coresEq
  obtain ⟨front, back, split, position⟩ := JobResources.nodes_split mem
  have without := wf.extract split
  rw [SelectState.detachNode_resrcs, position]
  exact ⟨without.wellFormed wf split, without.cores_subset wf split⟩

theorem detachNode_wellFormed (kept : RowsKept c s placed)
    (coresEq : (s.jobs job).hasCores = true) (mem : nodeInx ∈ (s.resrcs job).nodes c)
    (other : Nat) (otherCores : ((s.detachNode c job nodeInx).jobs other).hasCores = true) :
    ((s.detachNode c job nodeInx).resrcs other).WellFormed c := by
  obtain ⟨_, coresSame, _, resrcsSame⟩ := @SelectState.detachNode_jobs c s job nodeInx other
  rcases eq_or_ne other job with rfl | different
  · exact (kept.detachNode_less coresEq mem).1
  · rw [resrcsSame different]
    exact kept.wellFormed other (coresSame ▸ otherCores)

theorem detachNode_unplaced (kept : RowsKept c s placed) (coresEq : (s.jobs job).hasCores = true)
    (mem : nodeInx ∈ (s.resrcs job).nodes c) (unplaced : job ∉ placed) :
    RowsKept c (s.detachNode c job nodeInx) placed := by
  refine kept.changeJobs rfl (fun other inPlaced => ?_) (kept.detachNode_wellFormed coresEq mem)
  obtain ⟨ptrSame, coresSame, _, resrcsSame⟩ := @SelectState.detachNode_jobs c s job nodeInx other
  refine ⟨ptrSame, coresSame, ?_⟩
  rw [resrcsSame]
  rintro rfl
  exact unplaced inPlaced

theorem rmJobFromOneNode (kept : RowsKept c s placed)
    (orderly : s.Orderly c (.rmJobFromOneNode job nodeInx)) :
    RowsKept c (s.apply c (.rmJobFromOneNode job nodeInx)) placed := by
  rw [SelectState.apply]
  rcases @SelectState.rmJobFromOneNode_cases c s job nodeInx with
    same | ⟨coresEq, mem, notLost, same⟩ | ⟨_, _, same⟩
  · rw [same]
    exact kept
  · rw [same]
    rcases @SelectState.detachCores_cases c (s.detachNode c job nodeInx) job nodeInx with
      ⟨unlisted, stays⟩ | ⟨p, part, rows, _, ptrEq, partEq, rowEq, _, refreshed⟩
    · rw [stays]
      refine kept.detachNode_unplaced coresEq mem (kept.not_placed ?_)
      obtain ⟨ptrSame, _, suspSame, _⟩ := @SelectState.detachNode_jobs c s job nodeInx job
      rcases unlisted with suspended | unlisted
      · exact orderly (suspSame ▸ suspended) mem notLost
      · rw [SelectState.isListed, ptrSame] at unlisted
        exact unlisted
    · rw [refreshed]
      have ok := kept.rows p part rows partEq rowEq
      have jobsSame := fun other => @SelectState.detachNode_jobs c s job nodeInx other
      have less := kept.detachNode_less coresEq mem
      have subset : ∀ other, ((s.detachNode c job nodeInx).resrcs other).cores c ⊆
          (s.resrcs other).cores c := by
        intro other
        rcases eq_or_ne other job with rfl | different
        · exact less.2
        · rw [(jobsSame other).2.2.2 different]
      refine RowsKept.refreshRows ?_ ?_ ?_ ?_ ok.listed ok.first
      · refine changeJobsBut (kept.but p) rfl (fun other _ => (jobsSame other).1) ?_
          (kept.detachNode_wellFormed coresEq mem)
        intro other _ elsewhere
        rw [(jobsSame other).2.2.2]
        rintro rfl
        exact elsewhere ((jobsSame other).1.symm.trans ptrEq)
      · intro other inPlaced
        rw [(jobsSame other).1, (jobsSame other).2.1]
        exact kept.cores other inPlaced
      · intro other
        rw [(jobsSame other).1, ← listed_eq partEq rowEq]
        exact kept.member p other
      · intro row inRows
        refine List.Pairwise.imp ?_ (ok.each row inRows).apart
        intro one two away
        exact Finset.disjoint_of_subset_left (subset one)
          (Finset.disjoint_of_subset_right (subset two) away)
  · rw [same]
    rcases @SelectState.detachCores_cases c s job nodeInx with
      ⟨_, stays⟩ | ⟨p, part, rows, _, ptrEq, partEq, rowEq, _, refreshed⟩
    · rw [stays]
      exact kept
    · rw [refreshed]
      have ok := kept.rows p part rows partEq rowEq
      refine RowsKept.refreshRows (kept.but p) kept.cores ?_
        (fun row inRows => (ok.each row inRows).apart) ok.listed ok.first
      intro other
      rw [← listed_eq partEq rowEq]
      exact kept.member p other

theorem apply (kept : RowsKept c s placed) {op : SelectOp} (allowed : s.Allowed c op)
    (orderly : s.Orderly c op) : RowsKept c (s.apply c op) (s.observe c placed op) := by
  cases op with
  | assign job info => exact kept.assign allowed
  | setSuspended job suspended => exact kept.setSuspended job suspended
  | addJobToRes job action => exact kept.addJobToRes orderly
  | rmJobFromRes job action => exact kept.rmJobFromRes job action
  | rmJobFromOneNode job nodeInx => exact kept.rmJobFromOneNode orderly
  | crSortPartRows p => exact kept.crSortPartRows p

theorem runWith {ops : List SelectOp} : ∀ {s : SelectState} {placed : Finset Nat},
    RowsKept c s placed → s.Runs c (SelectState.Orderly c) ops →
      RowsKept c (s.runWith c placed ops).1 (s.runWith c placed ops).2 := by
  induction ops with
  | nil =>
    intro s placed kept _
    exact kept
  | cons op ops ih =>
    intro s placed kept runs
    exact ih (kept.apply runs.1 runs.2.1) runs.2.2

theorem blank (isBlank : s.Blank c) : RowsKept c s ∅ := by
  refine ⟨?_, ?_, isBlank.2, ?_⟩
  · intro p part rows partEq rowEq
    rw [isBlank.1 p part partEq] at rowEq
    cases rowEq
  · intro p job
    cases partEq : s.parts p with
    | none => simp [SelectState.listed, partEq]
    | some part => simp [SelectState.listed, partEq, isBlank.1 p part partEq]
  · intro job mem
    exact absurd mem (Finset.notMem_empty job)

end RowsKept

/-- From an empty state, any orderly run keeps the rows in order: whatever the
number of rows, whether packing succeeds or the rows are restored. -/
theorem rowInvariant_of_orderly (c : Cluster) (s : SelectState) (isBlank : s.Blank c)
    (ops : List SelectOp) (runs : s.Runs c (SelectState.Orderly c) ops) :
    RowInvariant c (s.runWith c ∅ ops).1 (s.runWith c ∅ ops).2 :=
  ((RowsKept.blank isBlank).runWith runs).rowInvariant

/-! ## Two nodes -/

/-- Two nodes with two cores each. -/
def twoNodes : Cluster := ⟨2, fun _ => 2, fun _ => Nat.two_pos⟩

/-- One partition without jobs. -/
def emptyPartition (numRows : Nat) : SelectState where
  parts := fun p => if p = 0 then some ⟨numRows, none⟩ else none
  usage := fun _ => ⟨0, 0, false⟩
  jobs := fun _ => ⟨none, ⟨[], [], [], ∅, 0, 0, [], 0⟩, false, false⟩
  initializing := false

theorem emptyPartition_blank (numRows : Nat) : (emptyPartition numRows).Blank twoNodes := by
  refine ⟨?_, ?_⟩
  · intro p part partEq
    simp only [emptyPartition] at partEq
    split_ifs at partEq
    cases partEq
    rfl
  · intro job hasCores
    cases hasCores

/-- A job with all cores of both nodes. -/
def bothNodes : JobInfo :=
  ⟨some 0, ⟨[true, true, true, true], [2, 2], [1, 1], {0, 1}, 0, 4, [⟨1, 2, 2⟩], 0⟩, true, false⟩

theorem bothNodes_wellFormed : bothNodes.jobResrcs.WellFormed twoNodes :=
  ⟨by decide, by decide, by decide, by decide⟩

/-- Two jobs share the nodes in two rows until each loses one node; then the
rows are packed into one, and the first job ends. -/
def shrinkAndPack : List SelectOp :=
  [.assign 0 bothNodes, .assign 1 bothNodes, .addJobToRes 0 0, .addJobToRes 1 0,
    .rmJobFromOneNode 0 0, .rmJobFromOneNode 1 1, .rmJobFromRes 0 0]

theorem rowInvariant_shrinkAndPack :
    RowInvariant twoNodes ((emptyPartition 2).runWith twoNodes ∅ shrinkAndPack).1
      ((emptyPartition 2).runWith twoNodes ∅ shrinkAndPack).2 := by
  refine rowInvariant_of_orderly twoNodes (emptyPartition 2) (emptyPartition_blank 2) shrinkAndPack
    ⟨⟨?_, fun _ => bothNodes_wellFormed⟩, trivial, ⟨?_, fun _ => bothNodes_wellFormed⟩, trivial,
      trivial, fun _ _ => ?_, trivial, fun _ _ => ?_, trivial, ?_, trivial, ?_, trivial, trivial,
      trivial⟩
  · decide
  · decide
  · decide
  · decide
  · intro suspended
    cases suspended
  · intro suspended
    cases suspended

/-- A job of the only row is suspended by the gang scheduler, which leaves it in
its row, and then loses a node; its cores on the node stay in the row bitmap. -/
def suspendedLosesNode : List SelectOp :=
  [.assign 0 bothNodes, .addJobToRes 0 0, .setSuspended 0 true, .rmJobFromOneNode 0 0]

/-- A job suspended by the gang scheduler is resumed by hand, which enters it
into a second row. -/
def suspendedResumed : List SelectOp :=
  [.assign 0 bothNodes, .addJobToRes 0 0, .setSuspended 0 true, .addJobToRes 0 2]

theorem rowInvariant_fails :
    ((emptyPartition 1).Runs twoNodes (fun _ _ => True) suspendedLosesNode ∧
      ¬RowInvariant twoNodes ((emptyPartition 1).runWith twoNodes ∅ suspendedLosesNode).1
        ((emptyPartition 1).runWith twoNodes ∅ suspendedLosesNode).2) ∧
    ((emptyPartition 2).Runs twoNodes (fun _ _ => True) suspendedResumed ∧
      ¬RowInvariant twoNodes ((emptyPartition 2).runWith twoNodes ∅ suspendedResumed).1
        ((emptyPartition 2).runWith twoNodes ∅ suspendedResumed).2) := by
  refine ⟨⟨?_, ?_⟩, ?_, ?_⟩
  · exact ⟨⟨by decide, fun _ => bothNodes_wellFormed⟩, trivial, trivial, trivial, trivial, trivial,
      trivial, trivial, trivial⟩
  · intro invariant
    have stale := invariant.union 0 ⟨1, some [⟨some {0, 1, 2, 3}, [0]⟩]⟩ [⟨some {0, 1, 2, 3}, [0]⟩]
      (by decide) rfl _ mem_cons_self {0, 1, 2, 3} rfl
    exact absurd stale (by decide)
  · exact ⟨⟨by decide, fun _ => bothNodes_wellFormed⟩, trivial, trivial, trivial, trivial, trivial,
      trivial, trivial, trivial⟩
  · intro invariant
    exact absurd (invariant.once 0 0) (by decide)

end SlurmSim.Select
