import SlurmSim.Select.Rows

/-!
# Row bitmaps

Sorting permutes the rows, placing a job adds it to one row, and both the packed
and the restored rows hold exactly the jobs the rows held before.
-/

namespace SlurmSim.Select

open SlurmSim.Common List
open Option (isSome_map map_eq_some_iff map_some some.injEq)

/-! ## Sorting -/

/-- The first row has a bitmap: its size is read for all rows. -/
def FirstBitmap (rows : List PartRow) : Prop :=
  ∀ row, rows[0]? = some row → row.rowBitmap.isSome

/-- The same rows in another order, the first one still with a bitmap. -/
structure Rearranged (rows rows' : List PartRow) : Prop where
  perm : rows'.Perm rows
  first : FirstBitmap rows → FirstBitmap rows'

namespace Rearranged

variable {rows rows' rows'' : List PartRow}

theorem refl (rows : List PartRow) : Rearranged rows rows := ⟨List.Perm.refl rows, id⟩

theorem trans (one : Rearranged rows rows') (two : Rearranged rows' rows'') :
    Rearranged rows rows'' :=
  ⟨two.perm.trans one.perm, fun first => two.first (one.first first)⟩

theorem foldl {step : List PartRow → Nat → List PartRow} {inxs : List Nat}
    (each : ∀ rows, ∀ inx ∈ inxs, Rearranged rows (step rows inx)) (rows : List PartRow) :
    Rearranged rows (inxs.foldl step rows) := by
  induction inxs generalizing rows with
  | nil => exact refl rows
  | cons inx inxs ih =>
    have here := each rows inx mem_cons_self
    exact here.trans (ih (fun rows inx mem => each rows inx (mem_cons_of_mem _ mem)) _)

end Rearranged

theorem compareRows_rearranged (rows : List PartRow) {i j : Nat} (before : i < j) :
    Rearranged rows (compareRows i rows j) := by
  unfold compareRows
  split_ifs with more
  · unfold swapRows
    cases atI : rows[i]? with
    | none => exact Rearranged.refl rows
    | some a =>
      cases atJ : rows[j]? with
      | none => exact Rearranged.refl rows
      | some b =>
        obtain ⟨iInside, rfl⟩ := List.getElem?_eq_some_iff.mp atI
        obtain ⟨jInside, rfl⟩ := List.getElem?_eq_some_iff.mp atJ
        refine ⟨List.set_set_perm iInside jInside, fun first row atFirst => ?_⟩
        rw [List.getElem?_set_ne (by omega)] at atFirst
        cases i with
        | zero =>
          rw [getElem?_set_self iInside, some.injEq] at atFirst
          rw [bitSetCountAt, bitSetCountAt, atJ, map_some, Option.getD_some, atFirst] at more
          cases bitmapEq : row.rowBitmap with
          | none => simp [PartRow.bitSetCount, bitmapEq] at more
          | some bitmap => rfl
        | succ i =>
          rw [getElem?_set_ne (by omega)] at atFirst
          exact first row atFirst
  · exact Rearranged.refl rows

theorem crSortPartRows_rearranged (rows : List PartRow) :
    Rearranged rows (crSortPartRows rows) := by
  refine Rearranged.foldl (fun rows i _ => ?_) rows
  refine Rearranged.foldl (fun rows j mem => ?_) rows
  rw [mem_range'_1] at mem
  exact compareRows_rearranged rows mem.1

/-! ## Rows that are in order -/

section Jobs

variable {c : Cluster} {resrcs : Nat → JobResources}

/-- The jobs of the row use different cores. -/
def Apart (c : Cluster) (resrcs : Nat → JobResources) (jobs : List Nat) : Prop :=
  jobs.Pairwise fun job other => Disjoint ((resrcs job).cores c) ((resrcs other).cores c)

/-- The cores of all jobs of a list. -/
def unionCores (c : Cluster) (resrcs : Nat → JobResources) (jobs : List Nat) : Finset Nat :=
  jobs.toFinset.biUnion fun job => (resrcs job).cores c

theorem mem_unionCores {jobs : List Nat} {core : Nat} :
    core ∈ unionCores c resrcs jobs ↔ ∃ job ∈ jobs, core ∈ (resrcs job).cores c := by
  simp [unionCores]

/-- The jobs of the row are apart and its bitmap, if it has one, is the union of
their cores; a row with jobs has one. -/
structure RowOk (c : Cluster) (resrcs : Nat → JobResources) (row : PartRow) : Prop where
  apart : Apart c resrcs row.jobList
  union : ∀ bitmap, row.rowBitmap = some bitmap → bitmap = unionCores c resrcs row.jobList
  present : row.jobList ≠ [] → row.rowBitmap.isSome

/-- Every row is in order and no job is listed twice. -/
structure RowsOk (c : Cluster) (resrcs : Nat → JobResources) (rows : List PartRow) : Prop where
  each : ∀ row ∈ rows, RowOk c resrcs row
  listed : (rows.flatMap PartRow.jobList).Nodup
  first : FirstBitmap rows

theorem RowOk.cleared (row : PartRow) : RowOk c resrcs { row.clearBitmap with jobList := [] } := by
  refine ⟨List.Pairwise.nil, ?_, fun some_ => absurd rfl some_⟩
  intro bitmap bitmapEq
  cases before : row.rowBitmap with
  | none => simp [PartRow.clearBitmap, before] at bitmapEq
  | some old =>
    simp only [PartRow.clearBitmap, before, map_some, some.injEq] at bitmapEq
    exact bitmapEq.symm

variable {row : PartRow} {job : Nat} {rows rows' : List PartRow}

theorem RowOk.addJobToRow (ok : RowOk c resrcs row)
    (fits : canJobFitInRow c resrcs job row = true) :
    RowOk c resrcs (addJobToRow c resrcs job row) := by
  have bitmapBefore : (if row.jobList.isEmpty then row.rowBitmap.map fun _ => ∅
      else row.rowBitmap).getD ∅ = unionCores c resrcs row.jobList := by
    cases jobsEq : row.jobList with
    | nil =>
      cases row.rowBitmap with
      | none => rfl
      | some bitmap => rfl
    | cons head tail =>
      have present := ok.present (by simp [jobsEq])
      obtain ⟨bitmap, bitmapEq⟩ := Option.isSome_iff_exists.mp present
      rw [← jobsEq, ← ok.union bitmap bitmapEq, bitmapEq]
      simp [jobsEq]
  have away : ∀ other ∈ row.jobList, Disjoint ((resrcs other).cores c) ((resrcs job).cores c) := by
    intro other listed
    have notEmpty : row.jobList ≠ [] := List.ne_nil_of_mem listed
    obtain ⟨bitmap, bitmapEq⟩ := Option.isSome_iff_exists.mp (ok.present notEmpty)
    simp only [canJobFitInRow, List.isEmpty_iff, notEmpty, bitmapEq, Option.all_some,
      Bool.or_eq_true, false_or, JobResources.jobFitsIntoCores_iff] at fits
    rw [ok.union bitmap bitmapEq] at fits
    refine (Finset.disjoint_of_subset_right (fun core mem => ?_) fits).symm
    exact mem_unionCores.mpr ⟨other, listed, mem⟩
  refine ⟨?_, ?_, fun _ => rfl⟩
  · rw [Apart, Select.addJobToRow, List.pairwise_append]
    refine ⟨ok.apart, List.pairwise_singleton _ _, ?_⟩
    intro other listed job' isJob
    rw [mem_singleton.mp isJob]
    exact away other listed
  · intro bitmap bitmapEq
    simp only [Select.addJobToRow, some.injEq, JobResources.addJobToCores] at bitmapEq
    rw [← bitmapEq, bitmapBefore]
    ext core
    simp [mem_unionCores, or_and_right, exists_or, Select.addJobToRow]

theorem RowOk.congr {resrcs' : Nat → JobResources} (ok : RowOk c resrcs row)
    (same : ∀ job ∈ row.jobList, (resrcs' job).cores c = (resrcs job).cores c) :
    RowOk c resrcs' row := by
  refine ⟨?_, ?_, ok.present⟩
  · refine List.Pairwise.imp_of_mem ?_ ok.apart
    intro job other jobIn otherIn away
    rw [same job jobIn, same other otherIn]
    exact away
  · intro bitmap bitmapEq
    rw [ok.union bitmap bitmapEq]
    ext core
    rw [mem_unionCores, mem_unionCores]
    refine exists_congr fun job => and_congr_right fun jobIn => ?_
    rw [same job jobIn]

theorem RowsOk.congr {resrcs' : Nat → JobResources} (ok : RowsOk c resrcs rows)
    (same : ∀ job ∈ rows.flatMap PartRow.jobList, (resrcs' job).cores c = (resrcs job).cores c) :
    RowsOk c resrcs' rows := by
  refine ⟨?_, ok.listed, ok.first⟩
  intro row mem
  refine (ok.each row mem).congr fun job jobIn => same job ?_
  exact mem_flatMap.mpr ⟨row, mem, jobIn⟩

/-! ## Placing and taking -/

theorem placeJob_spec (placed : placeJob c resrcs job rows = some rows') :
    ∃ front row back, rows = front ++ row :: back ∧ canJobFitInRow c resrcs job row = true ∧
      rows' = front ++ addJobToRow c resrcs job row :: back := by
  induction rows generalizing rows' with
  | nil => cases placed
  | cons row rest ih =>
    rw [placeJob] at placed
    split_ifs at placed with fits
    · cases placed
      exact ⟨[], row, rest, rfl, fits, rfl⟩
    · obtain ⟨rest', placedRest, rfl⟩ := map_eq_some_iff.mp placed
      obtain ⟨front, other, back, rfl, otherFits, rfl⟩ := ih placedRest
      exact ⟨row :: front, other, back, rfl, otherFits, rfl⟩

theorem takeJob_spec (taken : takeJob job rows = some rows') :
    ∃ front row back, rows = front ++ row :: back ∧ job ∈ row.jobList ∧
      rows' = front ++ { row with jobList := row.jobList.erase job } :: back := by
  induction rows generalizing rows' with
  | nil => cases taken
  | cons row rest ih =>
    rw [takeJob] at taken
    split_ifs at taken with mem
    · cases taken
      exact ⟨[], row, rest, rfl, mem, rfl⟩
    · obtain ⟨rest', takenRest, rfl⟩ := map_eq_some_iff.mp taken
      obtain ⟨front, other, back, rfl, otherInside, rfl⟩ := ih takenRest
      exact ⟨row :: front, other, back, rfl, otherInside, rfl⟩

theorem takeJob_isSome_iff : (takeJob job rows).isSome ↔ job ∈ rows.flatMap PartRow.jobList := by
  induction rows with
  | nil => simp [takeJob]
  | cons row rest ih =>
    rw [takeJob, flatMap_cons, mem_append]
    split_ifs with mem
    · simp [mem]
    · simp only [isSome_map, ih, mem, false_or]

theorem jobs_replace {front back : List PartRow} :
    (front ++ row :: back).flatMap PartRow.jobList =
      front.flatMap PartRow.jobList ++ (row.jobList ++ back.flatMap PartRow.jobList) := by
  rw [flatMap_append, flatMap_cons]

theorem placeJob_perm (placed : placeJob c resrcs job rows = some rows') :
    (rows'.flatMap PartRow.jobList).Perm (job :: rows.flatMap PartRow.jobList) := by
  obtain ⟨front, row, back, rfl, _, rfl⟩ := placeJob_spec placed
  rw [jobs_replace, jobs_replace, addJobToRow]
  simp only [append_assoc, cons_append, nil_append]
  rw [← append_assoc, ← append_assoc]
  exact perm_middle

theorem takeJob_perm (taken : takeJob job rows = some rows') :
    (rows.flatMap PartRow.jobList).Perm (job :: rows'.flatMap PartRow.jobList) := by
  obtain ⟨front, row, back, rfl, mem, rfl⟩ := takeJob_spec taken
  rw [jobs_replace, jobs_replace]
  refine ((perm_cons_erase mem).append_right _).append_left _ |>.trans ?_
  exact perm_middle

theorem FirstBitmap.replace {front back : List PartRow} {row' : PartRow}
    (first : FirstBitmap (front ++ row :: back))
    (kept : row.rowBitmap.isSome → row'.rowBitmap.isSome) :
    FirstBitmap (front ++ row' :: back) := by
  intro head atHead
  cases front with
  | nil =>
    cases atHead
    exact kept (first row rfl)
  | cons other front => exact first head atHead

theorem placeJob_ok (each : ∀ row ∈ rows, RowOk c resrcs row)
    (placed : placeJob c resrcs job rows = some rows') : ∀ row ∈ rows', RowOk c resrcs row := by
  obtain ⟨front, row, back, rfl, fits, rfl⟩ := placeJob_spec placed
  intro other mem
  rcases mem_append.mp mem with inFront | inTail
  · exact each other (mem_append_left _ inFront)
  · rcases mem_cons.mp inTail with rfl | inBack
    · exact (each row (mem_append_right _ mem_cons_self)).addJobToRow fits
    · exact each other (mem_append_right _ (mem_cons_of_mem _ inBack))

theorem placeJob_first (first : FirstBitmap rows)
    (placed : placeJob c resrcs job rows = some rows') : FirstBitmap rows' := by
  obtain ⟨front, row, back, rfl, _, rfl⟩ := placeJob_spec placed
  exact first.replace fun _ => rfl

theorem RowsOk.rearranged (ok : RowsOk c resrcs rows) (rearranged : Rearranged rows rows') :
    RowsOk c resrcs rows' := by
  refine ⟨?_, ?_, rearranged.first ok.first⟩
  · intro row mem
    exact ok.each row (rearranged.perm.mem_iff.mp mem)
  · rw [(rearranged.perm.flatMap_right _).nodup_iff]
    exact ok.listed

/-! ## Packing anew -/

theorem sortSupport_perm (jobs : List Nat) : (sortSupport c resrcs jobs).Perm jobs :=
  perm_insertionSort _ _

theorem repack_spec {jobs : List Nat} {rows : List PartRow} {dangling : List Nat}
    (each : ∀ row ∈ rows, RowOk c resrcs row) (first : FirstBitmap rows) :
    (∀ row ∈ (repack c resrcs jobs (rows, dangling)).1, RowOk c resrcs row) ∧
      FirstBitmap (repack c resrcs jobs (rows, dangling)).1 ∧
      ((repack c resrcs jobs (rows, dangling)).1.flatMap PartRow.jobList ++
        (repack c resrcs jobs (rows, dangling)).2).Perm
        (rows.flatMap PartRow.jobList ++ dangling ++ jobs) := by
  induction jobs generalizing rows dangling with
  | nil => exact ⟨each, first, by simp [repack]⟩
  | cons job jobs ih =>
    rw [repack]
    cases placed : placeJob c resrcs job rows with
    | none =>
      have sorted := crSortPartRows_rearranged rows
      obtain ⟨eachAfter, firstAfter, perm⟩ := @ih (crSortPartRows rows) (dangling ++ [job])
        (fun row mem => each row (sorted.perm.mem_iff.mp mem)) (sorted.first first)
      refine ⟨eachAfter, firstAfter, perm.trans ?_⟩
      have same := sorted.perm.flatMap_right PartRow.jobList
      simpa using same.append_right (dangling ++ job :: jobs)
    | some rows' =>
      have sorted := crSortPartRows_rearranged rows'
      obtain ⟨eachAfter, firstAfter, perm⟩ := @ih (crSortPartRows rows') dangling
        (fun row mem => placeJob_ok each placed row (sorted.perm.mem_iff.mp mem))
        (sorted.first (placeJob_first first placed))
      refine ⟨eachAfter, firstAfter, perm.trans ?_⟩
      have same := (sorted.perm.flatMap_right PartRow.jobList).trans (placeJob_perm placed)
      have moved := same.append_right (dangling ++ jobs)
      rw [append_assoc]
      refine moved.trans ?_
      rw [cons_append, ← append_assoc]
      exact perm_middle.symm

theorem rebuildRow_ok (apart : Apart c resrcs row.jobList) :
    RowOk c resrcs (rebuildRow c resrcs row) := by
  have folded : ∀ (jobs : List Nat) (start : Option (Finset Nat)),
      (jobs.foldl (fun bitmap job => some ((resrcs job).addJobToCores c bitmap)) start).getD ∅ =
          start.getD ∅ ∪ unionCores c resrcs jobs ∧
        (jobs ≠ [] →
          (jobs.foldl (fun bitmap job => some ((resrcs job).addJobToCores c bitmap)) start).isSome)
      := by
    intro jobs
    induction jobs with
    | nil => simp [unionCores]
    | cons job jobs ih =>
      intro start
      obtain ⟨union, present⟩ := ih (some ((resrcs job).addJobToCores c start))
      refine ⟨?_, fun _ => ?_⟩
      · rw [foldl_cons, union]
        ext core
        simp [JobResources.addJobToCores, mem_unionCores]
      · cases jobs with
        | nil => rfl
        | cons next jobs => exact present (cons_ne_nil next jobs)
  obtain ⟨union, present⟩ := folded row.jobList (row.rowBitmap.map fun _ => ∅)
  refine ⟨apart, ?_, present⟩
  intro bitmap bitmapEq
  have startEmpty : (row.rowBitmap.map fun _ => (∅ : Finset Nat)).getD ∅ = ∅ := by
    cases row.rowBitmap with
    | none => rfl
    | some old => rfl
  rw [startEmpty, Finset.empty_union] at union
  simp only [rebuildRow] at bitmapEq
  rw [bitmapEq] at union
  exact union

theorem rebuildRow_isSome (present : row.rowBitmap.isSome) :
    (rebuildRow c resrcs row).rowBitmap.isSome := by
  have folded : ∀ (jobs : List Nat) (start : Option (Finset Nat)), start.isSome →
      (jobs.foldl (fun bitmap job => some ((resrcs job).addJobToCores c bitmap)) start).isSome := by
    intro jobs
    induction jobs with
    | nil => exact fun _ some_ => some_
    | cons job jobs ih => exact fun _ _ => ih _ rfl
  exact folded row.jobList _ (by rwa [isSome_map])

theorem FirstBitmap.map (first : FirstBitmap rows) {f : PartRow → PartRow}
    (kept : ∀ row : PartRow, row.rowBitmap.isSome → (f row).rowBitmap.isSome) :
    FirstBitmap (rows.map f) := by
  intro row atHead
  rw [getElem?_map] at atHead
  obtain ⟨before, beforeAt, rfl⟩ := map_eq_some_iff.mp atHead
  exact kept before (first before beforeAt)

theorem clearBitmap_ok (none_ : row.jobList = []) : RowOk c resrcs row.clearBitmap := by
  have cleared := @RowOk.cleared c resrcs row
  rwa [← none_] at cleared

theorem packRows_spec (apart : ∀ row ∈ rows, Apart c resrcs row.jobList)
    (listed : (rows.flatMap PartRow.jobList).Nodup) (first : FirstBitmap rows) :
    RowsOk c resrcs (packRows c resrcs rows) ∧
      ((packRows c resrcs rows).flatMap PartRow.jobList).Perm (rows.flatMap PartRow.jobList) := by
  unfold packRows
  split_ifs with allEmpty
  · have sameJobs : (rows.map PartRow.clearBitmap).flatMap PartRow.jobList =
        rows.flatMap PartRow.jobList := by
      rw [flatMap_map]
      rfl
    refine ⟨⟨?_, sameJobs ▸ listed, first.map fun row present => ?_⟩, sameJobs ▸ List.Perm.refl _⟩
    · intro row mem
      obtain ⟨before, beforeIn, rfl⟩ := mem_map.mp mem
      exact clearBitmap_ok (isEmpty_iff.mp (all_eq_true.mp allEmpty before beforeIn))
    · rwa [PartRow.clearBitmap, isSome_map]
  · obtain ⟨packedOk, packedFirst, packedPerm⟩ :=
      @repack_spec c resrcs (sortSupport c resrcs (rows.flatMap PartRow.jobList))
        (rows.map fun row => { row.clearBitmap with jobList := [] }) []
        (by
          intro row mem
          obtain ⟨before, _, rfl⟩ := mem_map.mp mem
          exact RowOk.cleared before)
        (first.map fun row present => by rwa [PartRow.clearBitmap, isSome_map])
    have noJobs : (rows.map fun row : PartRow =>
        { row.clearBitmap with jobList := [] }).flatMap PartRow.jobList = [] := by
      rw [flatMap_map]
      simp
    rw [noJobs, nil_append, nil_append] at packedPerm
    have samePacked := packedPerm.trans (sortSupport_perm _)
    simp only
    split_ifs with noneDangles
    · rw [isEmpty_iff.mp noneDangles, append_nil] at samePacked
      exact ⟨⟨packedOk, samePacked.nodup_iff.mpr listed, packedFirst⟩, samePacked⟩
    · have sameJobs : (rows.map (rebuildRow c resrcs)).flatMap PartRow.jobList =
          rows.flatMap PartRow.jobList := by
        rw [flatMap_map]
        rfl
      refine ⟨⟨?_, sameJobs ▸ listed, first.map fun _ => rebuildRow_isSome⟩,
        sameJobs ▸ List.Perm.refl _⟩
      intro row mem
      obtain ⟨before, beforeIn, rfl⟩ := mem_map.mp mem
      exact rebuildRow_ok (apart before beforeIn)

theorem rowsOk_singleton (ok : RowOk c resrcs row) (listed : row.jobList.Nodup)
    (present : row.rowBitmap.isSome) : RowsOk c resrcs [row] := by
  refine ⟨?_, by simpa using listed, ?_⟩
  · intro other mem
    rw [mem_singleton.mp mem]
    exact ok
  · intro other atHead
    cases atHead
    exact present

theorem buildRowBitmaps_none (apart : ∀ row ∈ rows, Apart c resrcs row.jobList)
    (listed : (rows.flatMap PartRow.jobList).Nodup) (first : FirstBitmap rows) :
    RowsOk c resrcs (buildRowBitmaps c resrcs rows none) ∧
      ((buildRowBitmaps c resrcs rows none).flatMap PartRow.jobList).Perm
        (rows.flatMap PartRow.jobList) := by
  unfold buildRowBitmaps
  split
  · next row =>
    have present := first row rfl
    have nodup : row.jobList.Nodup := by simpa using listed
    split_ifs with isEmpty
    · refine ⟨rowsOk_singleton (clearBitmap_ok (isEmpty_iff.mp isEmpty)) nodup ?_, List.Perm.refl _⟩
      rwa [PartRow.clearBitmap, isSome_map]
    · exact ⟨rowsOk_singleton (rebuildRow_ok (apart row mem_cons_self)) nodup
        (rebuildRow_isSome present), List.Perm.refl _⟩
  · exact packRows_spec apart listed first

theorem unionCores_erase {jobs : List Nat} (mem : job ∈ jobs) (apart : Apart c resrcs jobs) :
    unionCores c resrcs jobs \ (resrcs job).cores c = unionCores c resrcs (jobs.erase job) := by
  have perm := perm_cons_erase mem
  have apartHead : ∀ other ∈ jobs.erase job,
      Disjoint ((resrcs job).cores c) ((resrcs other).cores c) :=
    (pairwise_cons.mp ((perm.pairwise_iff fun away => away.symm).mp apart)).1
  ext core
  rw [Finset.mem_sdiff, mem_unionCores, mem_unionCores]
  constructor
  · rintro ⟨⟨other, listed, isCore⟩, notJob⟩
    rcases mem_cons.mp (perm.mem_iff.mp listed) with rfl | left
    · exact absurd isCore notJob
    · exact ⟨other, left, isCore⟩
  · rintro ⟨other, left, isCore⟩
    refine ⟨⟨other, mem_of_mem_erase left, isCore⟩, ?_⟩
    exact Finset.disjoint_right.mp (apartHead other left) isCore

/-- A job is taken off its row and its cores leave the bitmaps. -/
theorem buildRowBitmaps_some (ok : RowsOk c resrcs rows) (taken : takeJob job rows = some rows') :
    RowsOk c resrcs (buildRowBitmaps c resrcs rows' (some job)) ∧
      ((buildRowBitmaps c resrcs rows' (some job)).flatMap PartRow.jobList).Perm
        (rows'.flatMap PartRow.jobList) := by
  have perm := takeJob_perm taken
  have listed : (rows'.flatMap PartRow.jobList).Nodup :=
    (nodup_cons.mp (perm.nodup_iff.mp ok.listed)).2
  obtain ⟨front, row, back, rowsEq, mem, rowsEq'⟩ := takeJob_spec taken
  have apart : ∀ other ∈ rows', Apart c resrcs other.jobList := by
    intro other otherIn
    rw [rowsEq'] at otherIn
    have before := ok.each
    rw [rowsEq] at before
    rcases mem_append.mp otherIn with inFront | inTail
    · exact (before other (mem_append_left _ inFront)).apart
    · rcases mem_cons.mp inTail with rfl | inBack
      · exact ((before row (mem_append_right _ mem_cons_self)).apart).sublist erase_sublist
      · exact (before other (mem_append_right _ (mem_cons_of_mem _ inBack))).apart
  have first : FirstBitmap rows' := by
    have firstBefore := ok.first
    rw [rowsEq] at firstBefore
    rw [rowsEq']
    exact firstBefore.replace fun present => present
  unfold buildRowBitmaps
  split
  · next left =>
    have present := first left rfl
    have nodup : left.jobList.Nodup := by simpa using listed
    split_ifs with isEmpty
    · refine ⟨rowsOk_singleton (clearBitmap_ok (isEmpty_iff.mp isEmpty)) nodup ?_, List.Perm.refl _⟩
      rwa [PartRow.clearBitmap, isSome_map]
    · refine ⟨rowsOk_singleton ⟨apart left mem_cons_self, ?_, fun _ => rfl⟩ nodup rfl,
        List.Perm.refl _⟩
      intro bitmap bitmapEq
      obtain ⟨frontNil, rfl, backNil⟩ : front = [] ∧
          { row with jobList := row.jobList.erase job } = left ∧ back = [] := by
        cases front with
        | nil => simpa using rowsEq'.symm
        | cons head tail => simp at rowsEq'
      have before := ok.each row (by rw [rowsEq, frontNil]; exact mem_cons_self)
      obtain ⟨old, oldEq⟩ := Option.isSome_iff_exists.mp present
      have oldBitmap : row.rowBitmap = some old := oldEq
      simp only [JobResources.removeJobFromCores, some.injEq] at bitmapEq
      rw [← bitmapEq, oldBitmap, Option.getD_some, before.union old oldBitmap]
      exact unionCores_erase mem before.apart
  · exact packRows_spec apart listed first

end Jobs

end SlurmSim.Select
