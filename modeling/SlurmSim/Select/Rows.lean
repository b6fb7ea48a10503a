import Mathlib.Data.Finset.Card
import SlurmSim.Common.JobResources

/-!
# Rows of a partition

A partition keeps its jobs in rows; the jobs of one row use different cores, and
the bitmap of a row is the union of their cores.  Jobs go to the first row with
room; when one has left, the rows are packed anew or, if that fails, restored.
-/

namespace SlurmSim.Select

open SlurmSim.Common

/-- `struct part_row_data` -/
structure PartRow where
  rowBitmap : Option (Finset Nat)
  jobList : List Nat
deriving DecidableEq

namespace PartRow

def empty : PartRow := ⟨none, []⟩

/-- `bit_nclear` over the whole bitmap, if there is one. -/
def clearBitmap (row : PartRow) : PartRow := { row with rowBitmap := row.rowBitmap.map fun _ => ∅ }

def bitSetCount (row : PartRow) : Nat := (row.rowBitmap.map Finset.card).getD 0

end PartRow

/-! ## Sorting the rows -/

/-- `_swap_rows` -/
def swapRows (rows : List PartRow) (i j : Nat) : List PartRow :=
  match rows[i]?, rows[j]? with
  | some a, some b => (rows.set i b).set j a
  | _, _ => rows

def bitSetCountAt (rows : List PartRow) (i : Nat) : Nat :=
  (rows[i]?.map PartRow.bitSetCount).getD 0

/-- One comparison of `cr_sort_part_rows`; the array `a` moves with the rows. -/
def compareRows (i : Nat) (rows : List PartRow) (j : Nat) : List PartRow :=
  if bitSetCountAt rows i < bitSetCountAt rows j then swapRows rows i j else rows

/-- `cr_sort_part_rows` -/
def crSortPartRows (rows : List PartRow) : List PartRow :=
  (List.range rows.length).foldl
    (fun rows i => (List.range' (i + 1) (rows.length - (i + 1))).foldl (compareRows i) rows) rows

/-! ## Jobs in rows -/

section Jobs

variable (c : Cluster) (resrcs : Nat → JobResources)

/-- `_can_job_fit_in_row` -/
def canJobFitInRow (job : Nat) (row : PartRow) : Bool :=
  row.jobList.isEmpty || row.rowBitmap.all fun bitmap => (resrcs job).jobFitsIntoCores c bitmap

/-- `_add_job_to_row` -/
def addJobToRow (job : Nat) (row : PartRow) : PartRow :=
  let bitmap := if row.jobList.isEmpty then row.rowBitmap.map fun _ => ∅ else row.rowBitmap
  { rowBitmap := some ((resrcs job).addJobToCores c bitmap)
    jobList := row.jobList ++ [job] }

/-- The loop that adds a job to the first row it fits in. -/
def placeJob (job : Nat) : List PartRow → Option (List PartRow)
  | [] => none
  | row :: rest =>
    if canJobFitInRow c resrcs job row then some (addJobToRow c resrcs job row :: rest)
    else (placeJob job rest).map (row :: ·)

/-- The loop of `_rm_job_from_res` that takes a job off its list. -/
def takeJob (job : Nat) : List PartRow → Option (List PartRow)
  | [] => none
  | row :: rest =>
    if job ∈ row.jobList then some ({ row with jobList := row.jobList.erase job } :: rest)
    else (takeJob job rest).map (row :: ·)

/-- `sort_support.jstart`: the first core of the first node, plus the first packed core. -/
def jstart (job : Nat) : Int :=
  let resources := resrcs job
  c.crGetCoremapOffset ((resources.nodes c).headD 0) +
    if true ∈ resources.coreBitmap then (resources.coreBitmap.idxOf true : Int) else -1

/-- `_compare_support`, which answers 0 or 1. -/
def compareSupport (job other : Nat) : Nat :=
  if jstart c resrcs other < jstart c resrcs job ∨
      jstart c resrcs job = jstart c resrcs other ∧ (resrcs other).ncpus < (resrcs job).ncpus then 1
  else 0

/-- `qsort` with `_compare_support`: a stable sort that leaves a pair in place
unless the comparison is positive. -/
def sortSupport (jobs : List Nat) : List Nat :=
  jobs.insertionSort fun job other => compareSupport c resrcs job other = 0

/-- The repacking: each job goes to the first row it fits in, then the rows are
sorted; the jobs that fit nowhere dangle. -/
def repack : List Nat → List PartRow × List Nat → List PartRow × List Nat
  | [], packed => packed
  | job :: jobs, (rows, dangling) =>
    repack jobs (match placeJob c resrcs job rows with
      | some rows => (crSortPartRows rows, dangling)
      | none => (crSortPartRows rows, dangling ++ [job]))

/-- The bitmap of a row rebuilt from its list. -/
def rebuildRow (row : PartRow) : PartRow :=
  { row with
    rowBitmap := row.jobList.foldl (fun bitmap job => some ((resrcs job).addJobToCores c bitmap))
      (row.rowBitmap.map fun _ => ∅) }

/-- The part of `_build_row_bitmaps` for several rows: clear and pack them, and
restore the original lists when a job dangles. -/
def packRows (rows : List PartRow) : List PartRow :=
  if rows.all (·.jobList.isEmpty) then rows.map PartRow.clearBitmap
  else
    let jobs := sortSupport c resrcs (rows.flatMap PartRow.jobList)
    let cleared := rows.map fun row => { row.clearBitmap with jobList := [] }
    let (packed, dangling) := repack c resrcs jobs (cleared, [])
    if dangling.isEmpty then packed else rows.map (rebuildRow c resrcs)

/-- `_build_row_bitmaps`; `removed` is the job that has left, if it has left as a whole. -/
def buildRowBitmaps (rows : List PartRow) (removed : Option Nat) : List PartRow :=
  match rows with
  | [row] =>
    if row.jobList.isEmpty then [row.clearBitmap]
    else
      match removed with
      | some job =>
        [{ row with rowBitmap := some ((resrcs job).removeJobFromCores c row.rowBitmap) }]
      | none => [rebuildRow c resrcs row]
  | rows => packRows c resrcs rows

end Jobs

end SlurmSim.Select
