import SlurmSim.Select.RowBitmaps

/-!
# Allocating and releasing resources

The functions that enter jobs into the records of the select plugin and take
them out again.  A job has memory on its nodes from start to end, and cores in a
row of its partition while it is not suspended.
-/

namespace SlurmSim.Select

open SlurmSim.Common

/-- `struct part_res_record`; `row` is allocated with the first job. -/
structure PartRes where
  numRows : Nat
  row : Option (List PartRow)
deriving DecidableEq

/-- `struct node_use_record`; `complained` is set by the messages about memory
that is under-allocated and about a node state that is mis-counted. -/
structure NodeUse where
  allocMemory : UInt64
  nodeState : UInt16
  complained : Bool
deriving DecidableEq, Repr

/-- What the functions read of a `struct job_record`; `hasCores` says that there
are job resources with a core bitmap. -/
structure JobInfo where
  partPtr : Option Nat
  jobResrcs : JobResources
  hasCores : Bool
  suspended : Bool

/-- `select_part_record`, `select_node_usage` and the jobs. -/
structure SelectState where
  parts : Nat → Option PartRes
  usage : Nat → NodeUse
  jobs : Nat → JobInfo
  initializing : Bool

/-! ## Node usage -/

section Usage

variable (c : Cluster) (job : JobResources)

/-- The loop over the nodes of a job that have not been lost by resizing. -/
def updateNodes (body : Nat → NodeUse → NodeUse) (usage : Nat → NodeUse) : Nat → NodeUse :=
  (job.nodes c).zipIdx.foldl
    (fun usage (node, n) =>
      if job.cpus.getD n 0 = 0 then usage else Function.update usage node (body n (usage node)))
    usage

def chargeMemory (n : Nat) (use : NodeUse) : NodeUse :=
  { use with allocMemory := use.allocMemory + job.memoryAllocated.getD n 0 }

def refundMemory (n : Nat) (use : NodeUse) : NodeUse :=
  if use.allocMemory < job.memoryAllocated.getD n 0 then
    { use with allocMemory := 0, complained := true }
  else { use with allocMemory := use.allocMemory - job.memoryAllocated.getD n 0 }

def chargeState (use : NodeUse) : NodeUse :=
  { use with nodeState := use.nodeState + job.nodeReq.toUInt16 }

/-- `NODE_CR_AVAILABLE` is 0. -/
def refundState (use : NodeUse) : NodeUse :=
  if job.nodeReq.toNat ≤ use.nodeState.toNat then
    { use with nodeState := use.nodeState - job.nodeReq.toUInt16 }
  else { use with nodeState := 0, complained := true }

end Usage

namespace SelectState

variable (c : Cluster)

def resrcs (s : SelectState) (job : Nat) : JobResources := (s.jobs job).jobResrcs

def setRows (s : SelectState) (p : Nat) (part : PartRes) (rows : List PartRow) : SelectState :=
  { s with parts := Function.update s.parts p (some { part with row := some rows }) }

/-- The rows of a partition, allocated if need be. -/
def rowsToFill (part : PartRes) : List PartRow :=
  part.row.getD (List.replicate part.numRows PartRow.empty)

/-- The first loop of `_add_job_to_res`. -/
def chargeNodes (s : SelectState) (job action : Nat) : SelectState :=
  { s with
    usage := if action = 2 then s.usage
      else updateNodes c (s.resrcs job) (chargeMemory (s.resrcs job)) s.usage }

/-- The first loop of `_rm_job_from_res`. -/
def refundNodes (s : SelectState) (job action : Nat) : SelectState :=
  { s with
    usage := if action = 2 then s.usage
      else updateNodes c (s.resrcs job) (refundMemory (s.resrcs job)) s.usage }

/-- The rest of `_add_job_to_res`: the job enters the first row with room, if
there is one, and its nodes are charged all the same. -/
def enterRow (s : SelectState) (job p : Nat) (part : PartRes) : SelectState :=
  let rows := rowsToFill part
  { s.setRows p part ((placeJob c s.resrcs job rows).getD rows) with
    usage := updateNodes c (s.resrcs job) (fun _ => chargeState (s.resrcs job)) s.usage }

/-- `_add_job_to_res`; the action is 0 for a start, 1 for a suspended job that is
added and 2 for a resumption. -/
def addJobToRes (s : SelectState) (job action : Nat) : Bool × SelectState :=
  if (s.jobs job).hasCores = false then (false, s)
  else if action = 1 then (true, s.chargeNodes c job action)
  else
    match (s.jobs job).partPtr with
    | none => (false, s.chargeNodes c job action)
    | some p =>
      match s.parts p with
      | none => (false, s.chargeNodes c job action)
      | some part => (true, (s.chargeNodes c job action).enterRow c job p part)

/-- The rest of `_rm_job_from_res` for a job that was found and taken off its
list: the bitmaps are refreshed and its nodes refunded. -/
def leaveRow (s : SelectState) (job p : Nat) (part : PartRes) (rows : List PartRow) :
    SelectState :=
  { s.setRows p part (buildRowBitmaps c s.resrcs rows (some job)) with
    usage := updateNodes c (s.resrcs job) (fun _ => refundState (s.resrcs job)) s.usage }

/-- `_rm_job_from_res`; the action is 0 for the end of a running job, 1 for the
end of a suspended one and 2 for a suspension. -/
def rmJobFromRes (s : SelectState) (job action : Nat) : Bool × SelectState :=
  if s.initializing then (true, s)
  else if (s.jobs job).hasCores = false then (false, s)
  else if action = 1 then (true, s.refundNodes c job action)
  else
    match (s.jobs job).partPtr with
    | none => (false, s.refundNodes c job action)
    | some p =>
      match s.parts p with
      | none => (false, s.refundNodes c job action)
      | some part =>
        match part.row.bind (takeJob job) with
        | none => (true, s.refundNodes c job action)
        | some rows => (true, (s.refundNodes c job action).leaveRow c job p part rows)

/-- The first part of `_rm_job_from_one_node`: memory and job resources. -/
def detachNode (s : SelectState) (job nodeInx : Nat) : SelectState :=
  let resources := s.resrcs job
  let n := (resources.nodes c).idxOf nodeInx
  { s with
    usage := Function.update s.usage nodeInx (refundMemory resources n (s.usage nodeInx))
    jobs := Function.update s.jobs job
      { s.jobs job with jobResrcs := resources.extractJobResourcesNode c n } }

/-- The end of `_rm_job_from_one_node` for a job that was found in a row. -/
def refreshRows (s : SelectState) (job nodeInx p : Nat) (part : PartRes) (rows : List PartRow) :
    SelectState :=
  { s.setRows p part (buildRowBitmaps c s.resrcs rows none) with
    usage := Function.update s.usage nodeInx (refundState (s.resrcs job) (s.usage nodeInx)) }

/-- The second part of `_rm_job_from_one_node`: the cores. -/
def detachCores (s : SelectState) (job nodeInx : Nat) : Bool × SelectState :=
  if (s.jobs job).suspended then (true, s)
  else
    match (s.jobs job).partPtr with
    | none => (false, s)
    | some p =>
      match s.parts p with
      | none => (false, s)
      | some part =>
        match part.row with
        | none => (true, s)
        | some rows =>
          if job ∈ rows.flatMap PartRow.jobList then
            (true, s.refreshRows c job nodeInx p part rows)
          else (false, s)

/-- `_rm_job_from_one_node` -/
def rmJobFromOneNode (s : SelectState) (job nodeInx : Nat) : Bool × SelectState :=
  let resources := s.resrcs job
  if (s.jobs job).hasCores = false then (false, s)
  else if nodeInx ∈ resources.nodes c then
    if resources.cpus.getD ((resources.nodes c).idxOf nodeInx) 0 = 0 then (true, s)
    else (s.detachNode c job nodeInx).detachCores c job nodeInx
  else s.detachCores c job nodeInx

/-- The jobs in the rows of a partition. -/
def listed (s : SelectState) (p : Nat) : List Nat :=
  (((s.parts p).bind PartRes.row).getD []).flatMap PartRow.jobList

/-- Whether the job is in a row of its partition. -/
def isListed (s : SelectState) (job : Nat) : Bool :=
  (s.jobs job).partPtr.any fun p => decide (job ∈ s.listed p)

/-! ## What a call can do -/

variable {c} {s : SelectState} {job action : Nat}

theorem isListed_eq_false_iff :
    s.isListed job = false ↔ ∀ p, (s.jobs job).partPtr = some p → job ∉ s.listed p := by
  unfold isListed
  cases (s.jobs job).partPtr with
  | none => simp
  | some p => simp

theorem addJobToRes_cases :
    (s.jobs job).hasCores = false ∧ (s.addJobToRes c job action).2 = s ∨
    ((s.jobs job).hasCores = true ∧ (action = 1 ∨ (s.jobs job).partPtr.bind s.parts = none) ∧
      (s.addJobToRes c job action).2 = s.chargeNodes c job action) ∨
    ∃ p part, (s.jobs job).hasCores = true ∧ action ≠ 1 ∧ (s.jobs job).partPtr = some p ∧
      s.parts p = some part ∧
      (s.addJobToRes c job action).2 = (s.chargeNodes c job action).enterRow c job p part := by
  cases coresEq : (s.jobs job).hasCores with
  | false => exact Or.inl ⟨rfl, by simp [addJobToRes, coresEq]⟩
  | true =>
    refine Or.inr ?_
    rcases eq_or_ne action 1 with memoryOnly | withCores
    · exact Or.inl ⟨rfl, Or.inl memoryOnly, by simp [addJobToRes, coresEq, memoryOnly]⟩
    · cases ptrEq : (s.jobs job).partPtr with
      | none => exact Or.inl ⟨rfl, Or.inr rfl, by simp [addJobToRes, coresEq, withCores, ptrEq]⟩
      | some p =>
        cases partEq : s.parts p with
        | none =>
          exact Or.inl ⟨rfl, Or.inr partEq,
            by simp [addJobToRes, coresEq, withCores, ptrEq, partEq]⟩
        | some part =>
          exact Or.inr ⟨p, part, rfl, withCores, rfl, partEq,
            by simp [addJobToRes, coresEq, withCores, ptrEq, partEq]⟩

theorem rmJobFromRes_cases :
    (s.initializing = true ∨ (s.jobs job).hasCores = false) ∧ (s.rmJobFromRes c job action).2 = s ∨
    (s.initializing = false ∧ (s.jobs job).hasCores = true ∧ (action = 1 ∨ s.isListed job = false) ∧
      (s.rmJobFromRes c job action).2 = s.refundNodes c job action) ∨
    ∃ p part rows rows', s.initializing = false ∧ (s.jobs job).hasCores = true ∧ action ≠ 1 ∧
      (s.jobs job).partPtr = some p ∧ s.parts p = some part ∧ part.row = some rows ∧
      takeJob job rows = some rows' ∧
      (s.rmJobFromRes c job action).2 = (s.refundNodes c job action).leaveRow c job p part rows' := by
  cases initEq : s.initializing with
  | true => exact Or.inl ⟨Or.inl rfl, by simp [rmJobFromRes, initEq]⟩
  | false =>
  cases coresEq : (s.jobs job).hasCores with
  | false => exact Or.inl ⟨Or.inr rfl, by simp [rmJobFromRes, initEq, coresEq]⟩
  | true =>
  refine Or.inr ?_
  rcases eq_or_ne action 1 with memoryOnly | withCores
  · exact Or.inl ⟨rfl, rfl, Or.inl memoryOnly, by simp [rmJobFromRes, initEq, coresEq, memoryOnly]⟩
  cases ptrEq : (s.jobs job).partPtr with
  | none =>
    refine Or.inl ⟨rfl, rfl, Or.inr (isListed_eq_false_iff.mpr fun p same => ?_), ?_⟩
    · rw [ptrEq] at same
      cases same
    · simp [rmJobFromRes, initEq, coresEq, withCores, ptrEq]
  | some p =>
  cases partEq : s.parts p with
  | none =>
    refine Or.inl ⟨rfl, rfl, Or.inr (isListed_eq_false_iff.mpr fun q same => ?_), ?_⟩
    · rw [ptrEq] at same
      cases same
      simp [listed, partEq]
    · simp [rmJobFromRes, initEq, coresEq, withCores, ptrEq, partEq]
  | some part =>
  cases rowEq : part.row with
  | none =>
    refine Or.inl ⟨rfl, rfl, Or.inr (isListed_eq_false_iff.mpr fun q same => ?_), ?_⟩
    · rw [ptrEq] at same
      cases same
      simp [listed, partEq, rowEq]
    · simp [rmJobFromRes, initEq, coresEq, withCores, ptrEq, partEq, rowEq]
  | some rows =>
  cases takenEq : takeJob job rows with
  | none =>
    refine Or.inl ⟨rfl, rfl, Or.inr (isListed_eq_false_iff.mpr fun q same => ?_), ?_⟩
    · rw [ptrEq] at same
      cases same
      intro mem
      have taken := takeJob_isSome_iff.mpr (by simpa [listed, partEq, rowEq] using mem)
      rw [takenEq] at taken
      cases taken
    · simp [rmJobFromRes, initEq, coresEq, withCores, ptrEq, partEq, rowEq, takenEq]
  | some rows' =>
    refine Or.inr ⟨p, part, rows, rows', rfl, rfl, withCores, rfl, partEq, rowEq, takenEq, ?_⟩
    simp [rmJobFromRes, initEq, coresEq, withCores, ptrEq, partEq, rowEq, takenEq]

theorem detachNode_jobs {nodeInx : Nat} (other : Nat) :
    ((s.detachNode c job nodeInx).jobs other).partPtr = (s.jobs other).partPtr ∧
      ((s.detachNode c job nodeInx).jobs other).hasCores = (s.jobs other).hasCores ∧
      ((s.detachNode c job nodeInx).jobs other).suspended = (s.jobs other).suspended ∧
      (other ≠ job → (s.detachNode c job nodeInx).resrcs other = s.resrcs other) := by
  rcases eq_or_ne other job with rfl | different
  · simp [detachNode]
  · simp [detachNode, resrcs, Function.update_of_ne different]

theorem detachNode_resrcs {nodeInx : Nat} :
    (s.detachNode c job nodeInx).resrcs job =
      (s.resrcs job).extractJobResourcesNode c (((s.resrcs job).nodes c).idxOf nodeInx) := by
  simp [detachNode, resrcs]

theorem detachCores_cases {nodeInx : Nat} :
    (((s.jobs job).suspended = true ∨ s.isListed job = false) ∧
      (s.detachCores c job nodeInx).2 = s) ∨
    ∃ p part rows, (s.jobs job).suspended = false ∧ (s.jobs job).partPtr = some p ∧
      s.parts p = some part ∧ part.row = some rows ∧ job ∈ rows.flatMap PartRow.jobList ∧
      (s.detachCores c job nodeInx).2 = s.refreshRows c job nodeInx p part rows := by
  cases suspEq : (s.jobs job).suspended with
  | true => exact Or.inl ⟨Or.inl rfl, by simp [detachCores, suspEq]⟩
  | false =>
  cases ptrEq : (s.jobs job).partPtr with
  | none =>
    refine Or.inl ⟨Or.inr (isListed_eq_false_iff.mpr fun p same => ?_),
      by simp [detachCores, suspEq, ptrEq]⟩
    rw [ptrEq] at same
    cases same
  | some p =>
  cases partEq : s.parts p with
  | none =>
    refine Or.inl ⟨Or.inr (isListed_eq_false_iff.mpr fun q same => ?_),
      by simp [detachCores, suspEq, ptrEq, partEq]⟩
    rw [ptrEq] at same
    cases same
    simp [listed, partEq]
  | some part =>
  cases rowEq : part.row with
  | none =>
    refine Or.inl ⟨Or.inr (isListed_eq_false_iff.mpr fun q same => ?_),
      by simp [detachCores, suspEq, ptrEq, partEq, rowEq]⟩
    rw [ptrEq] at same
    cases same
    simp [listed, partEq, rowEq]
  | some rows =>
    by_cases mem : job ∈ rows.flatMap PartRow.jobList
    · refine Or.inr ⟨p, part, rows, rfl, rfl, partEq, rowEq, mem, ?_⟩
      rw [detachCores, suspEq, ptrEq]
      simp only [partEq, rowEq, if_pos mem, Bool.false_eq_true, if_false]
    · refine Or.inl ⟨Or.inr (isListed_eq_false_iff.mpr fun q same => ?_), ?_⟩
      · rw [ptrEq] at same
        cases same
        simpa only [listed, partEq, rowEq, Option.bind_some, Option.getD_some] using mem
      · rw [detachCores, suspEq, ptrEq]
        simp only [partEq, rowEq, if_neg mem, Bool.false_eq_true, if_false]

theorem rmJobFromOneNode_cases {nodeInx : Nat} :
    (s.rmJobFromOneNode c job nodeInx).2 = s ∨
    ((s.jobs job).hasCores = true ∧ nodeInx ∈ (s.resrcs job).nodes c ∧
      (s.resrcs job).cpus.getD (((s.resrcs job).nodes c).idxOf nodeInx) 0 ≠ 0 ∧
      (s.rmJobFromOneNode c job nodeInx).2 =
        ((s.detachNode c job nodeInx).detachCores c job nodeInx).2) ∨
    ((s.jobs job).hasCores = true ∧ nodeInx ∉ (s.resrcs job).nodes c ∧
      (s.rmJobFromOneNode c job nodeInx).2 = (s.detachCores c job nodeInx).2) := by
  unfold rmJobFromOneNode
  cases coresEq : (s.jobs job).hasCores with
  | false => exact Or.inl rfl
  | true =>
    simp only [Bool.true_eq_false, if_false]
    split_ifs with mem lost
    · exact Or.inl rfl
    · exact Or.inr (Or.inl ⟨trivial, mem, lost, rfl⟩)
    · exact Or.inr (Or.inr ⟨trivial, mem, rfl⟩)

end SelectState

end SlurmSim.Select
