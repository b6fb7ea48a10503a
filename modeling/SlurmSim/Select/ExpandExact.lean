import SlurmSim.Select.CoreRuns
import SlurmSim.Select.ExpandMerge

/-!
# Expansion conserves resources

On every node that one of the two jobs still has, the expanded job has the cores and
the memory of both.  CPUs are added, and scaled down where the jobs shared cores.  In
the records of the plugin the expanded job takes the place of the two.
-/

namespace SlurmSim.Common.JobResources

variable (c : Cluster) (job : JobResources) (node : Nat)

/-- The position of a node in the arrays of the job. -/
def nodeId : Nat := (job.nodes c).idxOf node

end SlurmSim.Common.JobResources

namespace SlurmSim.Select

open SlurmSim.Common SlurmSim.Lib.Packed
open Function (update_of_ne update_self)

/-! ## What a job has on a node -/

section OnNode

variable (c : Cluster) (job : JobResources) (node : Nat)

def coresOn : Finset Nat := if node ∈ job.nodes c then coresAt job (job.nodeId c node) else ∅

def cpusOn : Nat := if node ∈ job.nodes c then job.cpus.getD (job.nodeId c node) 0 else 0

def memoryAllocatedOn : UInt64 :=
  if node ∈ job.nodes c then job.memoryAllocated.getD (job.nodeId c node) 0 else 0

end OnNode

namespace ExpandState

variable (sys : System) (st : ExpandState) (job : Nat)

/-- The job still has the node. -/
def has (node : Nat) : Bool := node ∈ (st.records job).nodeBitmap

def coresHeld (node : Nat) : Finset Nat :=
  if st.has job node then coresOn sys.cluster (st.plugin.resrcs job) node else ∅

def cpusHeld (node : Nat) : Nat :=
  if st.has job node then cpusOn sys.cluster (st.plugin.resrcs job) node else 0

def memoryHeld (node : Nat) : UInt64 :=
  if st.has job node then memoryAllocatedOn sys.cluster (st.plugin.resrcs job) node else 0

/-- The arrays of the job have an entry for each of its nodes, and it has no nodes
beyond them. -/
structure Described : Prop where
  nhosts : (st.records job).nhosts = (st.plugin.resrcs job).cpus.length
  nodes : (st.records job).nodeBitmap ⊆ (st.plugin.resrcs job).nodeBitmap

/-- The CPUs of both jobs on a node. -/
def cpuSum (fromJob toJob node : Nat) : Nat :=
  st.cpusHeld sys fromJob node + st.cpusHeld sys toJob node

/-- The CPUs of both jobs, as if the shared cores were counted once. -/
def cpusMerged (fromJob toJob node : Nat) : Nat :=
  if Disjoint (st.coresHeld sys fromJob node) (st.coresHeld sys toJob node) then
    st.cpuSum sys fromJob toJob node
  else
    st.cpuSum sys fromJob toJob node *
      (st.coresHeld sys fromJob node ∪ st.coresHeld sys toJob node).card /
        ((st.coresHeld sys fromJob node).card + (st.coresHeld sys toJob node).card)

/-- The products stay within 16 bits. -/
def CpusFit (fromJob toJob : Nat) : Prop :=
  ∀ node < sys.nodeCount, st.cpuSum sys fromJob toJob node < 2 ^ 16 ∧
    (Disjoint (st.coresHeld sys fromJob node) (st.coresHeld sys toJob node) ∨
      st.cpuSum sys fromJob toJob node *
        (st.coresHeld sys fromJob node ∪ st.coresHeld sys toJob node).card < 2 ^ 16)

end ExpandState

section Merged

variable {sys : System} {st : ExpandState} {fromJob toJob job node : Nat}

theorem mem_nodes {job : JobResources} :
    node ∈ job.nodes sys.cluster ↔ node < sys.nodeCount ∧ node ∈ job.nodeBitmap :=
  mem_members

theorem nodeId_eq {job : JobResources} (mem : node ∈ job.nodeBitmap)
    (below : node < sys.nodeCount) : job.nodeId sys.cluster node = place job.nodeBitmap node :=
  idxOf_members mem below

theorem held_eq (described : st.Described job) (below : node < sys.nodeCount) :
    st.coresHeld sys job node =
        (if node ∈ (st.plugin.resrcs job).nodeBitmap ∧ node ∈ (st.records job).nodeBitmap then
          coresAt (st.plugin.resrcs job) (place (st.plugin.resrcs job).nodeBitmap node) else ∅) ∧
      st.cpusHeld sys job node =
        (if node ∈ (st.plugin.resrcs job).nodeBitmap ∧ node ∈ (st.records job).nodeBitmap then
          (st.plugin.resrcs job).cpus.getD (place (st.plugin.resrcs job).nodeBitmap node) 0
        else 0) ∧
      st.memoryHeld sys job node =
        (if node ∈ (st.plugin.resrcs job).nodeBitmap ∧ node ∈ (st.records job).nodeBitmap then
          (st.plugin.resrcs job).memoryAllocated.getD
            (place (st.plugin.resrcs job).nodeBitmap node) 0
        else 0) := by
  unfold ExpandState.coresHeld ExpandState.cpusHeld ExpandState.memoryHeld ExpandState.has
  by_cases still : node ∈ (st.records job).nodeBitmap
  · have inside := described.nodes still
    have mem : node ∈ (st.plugin.resrcs job).nodes sys.cluster := mem_nodes.mpr ⟨below, inside⟩
    simp only [still, inside, decide_true, if_true, and_self, coresOn, cpusOn, memoryAllocatedOn,
      mem, nodeId_eq inside below]
  · simp [still]

theorem merger_held (fromDescribed : st.Described fromJob) (toDescribed : st.Described toJob)
    (below : node < sys.nodeCount) :
    (st.merger fromJob toJob).fromCores node = st.coresHeld sys fromJob node ∧
      (st.merger fromJob toJob).toCores node = st.coresHeld sys toJob node ∧
      (st.merger fromJob toJob).fromCpuCount node = st.cpusHeld sys fromJob node ∧
      (st.merger fromJob toJob).toCpuCount node = st.cpusHeld sys toJob node ∧
      (st.merger fromJob toJob).fromMemory node = st.memoryHeld sys fromJob node ∧
      (st.merger fromJob toJob).toMemory node = st.memoryHeld sys toJob node := by
  obtain ⟨fromCores, fromCpus, fromMemory⟩ := held_eq fromDescribed below
  obtain ⟨toCores, toCpus, toMemory⟩ := held_eq toDescribed below
  rw [fromCores, fromCpus, fromMemory, toCores, toCpus, toMemory]
  simp only [Merger.fromCores, Merger.toCores, Merger.fromCpuCount, Merger.toCpuCount,
    Merger.fromMemory, Merger.toMemory, Merger.fromUsed, Merger.toUsed, decide_eq_true_eq]
  exact ⟨rfl, rfl, rfl, rfl, rfl, rfl⟩

theorem used_eq_has (described : st.Described job) :
    (decide (node ∈ (st.plugin.resrcs job).nodeBitmap ∧ node ∈ (st.records job).nodeBitmap)) =
      st.has job node := by
  unfold ExpandState.has
  by_cases still : node ∈ (st.records job).nodeBitmap
  · simp [still, described.nodes still]
  · simp [still]

theorem Upto.coresAt_merged {m : Merger} {merged : Merging} (ok : m.Mergeable sys)
    (upto : Upto sys m sys.nodeCount merged) (mem : node ∈ m.newNodes)
    (below : node < sys.nodeCount) :
    coresAt merged.new (place m.newNodes node) = m.fromCores node ∪ m.toCores node := by
  have layout : SockCore.layout merged.new.sockCore =
      (merged.new.nodes sys.cluster).map sys.cluster.crNodeNumCores := by
    rw [upto.sockCore, layout_newResources, nodes_eq_members, upto.nodeBitmap]
    rfl
  have located := locateNode_of_layout layout (upto.nodeBitmap ▸ mem) below
  rw [upto.nodeBitmap] at located
  ext k
  rw [coresAt, located, Finset.mem_filter, Finset.mem_range, upto.bits]
  constructor
  · rintro ⟨less, ⟨other, member, l, set_, same⟩ | ⟨l, none_, _⟩⟩
    · obtain ⟨otherBelow, otherInside⟩ := mem_members.mp member
      obtain ⟨rfl, rfl⟩ := block_unique sys.width mem otherInside less
        (cores_lt ok otherBelow set_) same
      exact set_
    · cases none_
  · intro set_
    exact ⟨cores_lt ok below set_, Or.inl ⟨node, mem_members.mpr ⟨below, mem⟩, k, set_, rfl⟩⟩

/-! ## The merged resources -/

/-- The resources of the expanded job hold what both jobs held. -/
structure HoldsBoth (sys : System) (st : ExpandState) (fromJob toJob : Nat) (new : JobResources) :
    Prop where
  nodes : ∀ node, node < sys.nodeCount →
    (node ∈ new.nodeBitmap ↔ st.has fromJob node = true ∨ st.has toJob node = true)
  cores : ∀ node, coresOn sys.cluster new node =
    st.coresHeld sys fromJob node ∪ st.coresHeld sys toJob node
  memory : ∀ node, memoryAllocatedOn sys.cluster new node =
    st.memoryHeld sys fromJob node + st.memoryHeld sys toJob node
  cpus : st.CpusFit sys fromJob toJob → ∀ node, cpusOn sys.cluster new node =
    st.cpusMerged sys fromJob toJob node

theorem held_outside (outside : ¬ node < sys.nodeCount) :
    st.coresHeld sys job node = ∅ ∧ st.cpusHeld sys job node = 0 ∧
      st.memoryHeld sys job node = 0 := by
  have notMember : node ∉ (st.plugin.resrcs job).nodes sys.cluster := fun mem =>
    outside (mem_nodes.mp mem).1
  simp [ExpandState.coresHeld, ExpandState.cpusHeld, ExpandState.memoryHeld, coresOn, cpusOn,
    memoryAllocatedOn, notMember]

theorem held_without (lost : st.has job node = false) :
    st.coresHeld sys job node = ∅ ∧ st.cpusHeld sys job node = 0 ∧
      st.memoryHeld sys job node = 0 := by
  simp [ExpandState.coresHeld, ExpandState.cpusHeld, ExpandState.memoryHeld, lost]

/-- The CPU count in 16 bits is the exact one where the products fit. -/
theorem newCpuCount_eq {m : Merger} {cores cores' : Finset Nat} {cpus cpus' : Nat}
    (fromCores : m.fromCores node = cores) (toCores : m.toCores node = cores')
    (fromCpus : m.fromCpuCount node = cpus) (toCpus : m.toCpuCount node = cpus')
    (fits : cpus + cpus' < 2 ^ 16)
    (product : Disjoint cores cores' ∨ (cpus + cpus') * (cores ∪ cores').card < 2 ^ 16) :
    m.newCpuCount node =
      if Disjoint cores cores' then cpus + cpus'
      else (cpus + cpus') * (cores ∪ cores').card / (cores.card + cores'.card) := by
  unfold Merger.newCpuCount
  rw [fromCores, toCores, fromCpus, toCpus, Nat.mod_eq_of_lt fits]
  by_cases used : m.toUsed node = false
  · have none_ : cores' = ∅ := by
      rw [← toCores, Merger.toCores, used]
      rfl
    have zero : cpus' = 0 := by
      rw [← toCpus, Merger.toCpuCount, used]
      rfl
    rw [if_pos used, if_pos (none_ ▸ Finset.disjoint_empty_right _), zero, Nat.add_zero]
  · rw [if_neg used]
    split_ifs with disjoint_
    · rfl
    · rw [Nat.mod_eq_of_lt (product.resolve_left disjoint_)]

theorem merge_holdsBoth (ok : (st.merger fromJob toJob).Mergeable sys)
    (fromDescribed : st.Described fromJob) (toDescribed : st.Described toJob) :
    HoldsBoth sys st fromJob toJob ((st.merger fromJob toJob).merge sys).new := by
  obtain ⟨upto, _⟩ := upto_merge ok
  have bitmap := upto.nodeBitmap
  have nodes : ∀ node, node ∈ (st.merger fromJob toJob).newNodes ↔
      st.has fromJob node = true ∨ st.has toJob node = true := by
    intro node
    rw [mem_newNodes ok, ← used_eq_has fromDescribed, ← used_eq_has toDescribed]
    rfl
  have member : ∀ node, node ∈ ((st.merger fromJob toJob).merge sys).new.nodes sys.cluster ↔
      node < sys.nodeCount ∧ node ∈ (st.merger fromJob toJob).newNodes := by
    intro node
    rw [mem_nodes, bitmap]
  have outside : ∀ node, ¬ (node < sys.nodeCount ∧ node ∈ (st.merger fromJob toJob).newNodes) →
      ∀ job, job = fromJob ∨ job = toJob → st.coresHeld sys job node = ∅ ∧
        st.cpusHeld sys job node = 0 ∧ st.memoryHeld sys job node = 0 := by
    intro node none_ job which
    by_cases below : node < sys.nodeCount
    · have lost := fun mem => none_ ⟨below, (nodes node).mpr mem⟩
      rcases which with rfl | rfl
      · exact held_without (Bool.eq_false_of_not_eq_true fun has => lost (Or.inl has))
      · exact held_without (Bool.eq_false_of_not_eq_true fun has => lost (Or.inr has))
    · exact held_outside below
  have place_ : ∀ node, node < sys.nodeCount → node ∈ (st.merger fromJob toJob).newNodes →
      ((st.merger fromJob toJob).merge sys).new.nodeId sys.cluster node =
        place (st.merger fromJob toJob).newNodes node := by
    intro node below mem
    rw [nodeId_eq (bitmap ▸ mem) below, bitmap]
  refine ⟨fun node _ => ?_, fun node => ?_, fun node => ?_, fun fits node => ?_⟩
  · rw [bitmap]
    exact nodes node
  · unfold coresOn
    by_cases here : node < sys.nodeCount ∧ node ∈ (st.merger fromJob toJob).newNodes
    · obtain ⟨fromCores, toCores, _⟩ := merger_held fromDescribed toDescribed here.1
      rw [if_pos ((member node).mpr here), place_ node here.1 here.2,
        upto.coresAt_merged ok here.2 here.1, fromCores, toCores]
    · rw [if_neg fun mem => here ((member node).mp mem),
        (outside node here fromJob (Or.inl rfl)).1, (outside node here toJob (Or.inr rfl)).1]
      rfl
  · unfold memoryAllocatedOn
    by_cases here : node < sys.nodeCount ∧ node ∈ (st.merger fromJob toJob).newNodes
    · obtain ⟨_, _, _, _, fromMemory, toMemory⟩ := merger_held fromDescribed toDescribed here.1
      rw [if_pos ((member node).mpr here), place_ node here.1 here.2,
        upto.memoryBefore node (mem_members.mpr here), fromMemory, toMemory]
    · rw [if_neg fun mem => here ((member node).mp mem),
        (outside node here fromJob (Or.inl rfl)).2.2, (outside node here toJob (Or.inr rfl)).2.2]
      rfl
  · unfold cpusOn
    by_cases here : node < sys.nodeCount ∧ node ∈ (st.merger fromJob toJob).newNodes
    · obtain ⟨fromCores, toCores, fromCpus, toCpus, _⟩ :=
        merger_held fromDescribed toDescribed here.1
      obtain ⟨sumFits, productFits⟩ := fits node here.1
      rw [if_pos ((member node).mpr here), place_ node here.1 here.2,
        upto.cpusBefore node (mem_members.mpr here)]
      exact newCpuCount_eq fromCores toCores fromCpus toCpus sumFits productFits
    · obtain ⟨fromCores, fromCpus, _⟩ := outside node here fromJob (Or.inl rfl)
      obtain ⟨_, toCpus, _⟩ := outside node here toJob (Or.inr rfl)
      rw [if_neg fun mem => here ((member node).mp mem), ExpandState.cpusMerged, fromCores,
        if_pos (Finset.disjoint_empty_left _), ExpandState.cpuSum, fromCpus, toCpus]

end Merged

/-! ## The records of the plugin -/

section Records

variable {c : Cluster} {s : SelectState}

theorem placeJob_congr {resrcs resrcs' : Nat → JobResources} {job : Nat}
    (same : resrcs' job = resrcs job) (rows : List PartRow) :
    placeJob c resrcs' job rows = placeJob c resrcs job rows := by
  induction rows with
  | nil => rfl
  | cons row rest ih =>
    rw [placeJob, placeJob, ih, canJobFitInRow, canJobFitInRow, addJobToRow, addJobToRow, same]

theorem addJobToRes_assign {job other : Nat} (apart : job ≠ other) (info : JobInfo) (action : Nat) :
    ((s.apply c (.assign other info)).apply c (.addJobToRes job action)) =
      (s.apply c (.addJobToRes job action)).apply c (.assign other info) := by
  have jobEq : (s.apply c (.assign other info)).jobs job = s.jobs job :=
    update_of_ne apart _ _
  have resEq : (s.apply c (.assign other info)).resrcs job = s.resrcs job :=
    congrArg JobInfo.jobResrcs jobEq
  have charged : (s.apply c (.assign other info)).chargeNodes c job action =
      (s.chargeNodes c job action).apply c (.assign other info) := by
    unfold SelectState.chargeNodes
    rw [resEq]
    rfl
  have entered : ∀ p part,
      ((s.chargeNodes c job action).apply c (.assign other info)).enterRow c job p part =
        ((s.chargeNodes c job action).enterRow c job p part).apply c (.assign other info) := by
    intro p part
    have resrcsEq : ((s.chargeNodes c job action).apply c (.assign other info)).resrcs job =
        (s.chargeNodes c job action).resrcs job := resEq
    unfold SelectState.enterRow
    dsimp only
    rw [resrcsEq, placeJob_congr resrcsEq]
    rfl
  change ((s.apply c (.assign other info)).addJobToRes c job action).2 =
    (s.addJobToRes c job action).2.apply c (.assign other info)
  unfold SelectState.addJobToRes
  rw [jobEq, charged]
  split_ifs with none_ memoryOnly
  · rfl
  · rfl
  · cases (s.jobs job).partPtr with
    | none => rfl
    | some p =>
      dsimp only
      rw [show (s.apply c (.assign other info)).parts = s.parts from rfl]
      cases s.parts p with
      | none => rfl
      | some part => exact entered p part

theorem invariants_assign {j : Jobs} {other : Nat} (absent : other ∉ j.all) (info : JobInfo)
    (samePart : info.partPtr = (s.jobs other).partPtr) (rows : RowInvariant c s j.running)
    (usage : UsageInvariant c s j) :
    RowInvariant c (s.apply c (.assign other info)) j.running ∧
      UsageInvariant c (s.apply c (.assign other info)) j := by
  have jobsEq : ∀ job, job ≠ other → (s.apply c (.assign other info)).jobs job = s.jobs job :=
    fun job apart => update_of_ne apart _ _
  have ptrEq : ∀ job, ((s.apply c (.assign other info)).jobs job).partPtr = (s.jobs job).partPtr := by
    intro job
    by_cases same : job = other
    · rw [same]
      exact (congrArg JobInfo.partPtr (update_self _ _ _)).trans samePart
    · rw [jobsEq job same]
  have resEq : ∀ job, job ≠ other → (s.apply c (.assign other info)).resrcs job = s.resrcs job :=
    fun job apart => congrArg JobInfo.jobResrcs (jobsEq job apart)
  have notRunning : other ∉ j.running := fun running => absent (Finset.mem_union_left _ running)
  have notListed : ∀ p part rowList, s.parts p = some part → part.row = some rowList →
      ∀ row ∈ rowList, other ∉ row.jobList := by
    intro p part rowList partEq rowEq row mem listed
    have count := rows.once p other
    rw [if_neg fun running => notRunning running.1, List.count_eq_zero] at count
    refine count ?_
    rw [SelectState.listed, partEq, Option.bind_some, rowEq, Option.getD_some]
    exact List.mem_flatMap.mpr ⟨row, mem, listed⟩
  refine ⟨⟨fun p job => ?_, fun p part rowList partEq rowEq row mem => ?_,
    fun p part rowList partEq rowEq row mem bitmap bitmapEq => ?_⟩, ?_, ?_, usage.quiet, usage.idle⟩
  · rw [ptrEq]
    exact rows.once p job
  · refine (rows.apart p part rowList partEq rowEq row mem).imp_of_mem ?_
    intro a b memberA memberB disjoint_
    have fresh := notListed p part rowList partEq rowEq row mem
    rw [resEq a (ne_of_mem_of_not_mem memberA fresh), resEq b (ne_of_mem_of_not_mem memberB fresh)]
    exact disjoint_
  · rw [rows.union p part rowList partEq rowEq row mem bitmap bitmapEq]
    refine Finset.biUnion_congr rfl fun job member => ?_
    have fresh := notListed p part rowList partEq rowEq row mem
    rw [resEq job (ne_of_mem_of_not_mem (List.mem_toFinset.mp member) fresh)]
  · intro node
    refine (usage.memory node).trans (Finset.sum_congr rfl fun job member => ?_)
    rw [resEq job (ne_of_mem_of_not_mem member absent)]
  · intro node
    refine (usage.nodeState node).trans (Finset.sum_congr rfl fun job member => ?_)
    rw [resEq job (ne_of_mem_of_not_mem member notRunning)]

end Records

/-! ## The whole call -/

namespace ExpandState

variable (sys : System) (st : ExpandState) (fromJob toJob : Nat)

/-- The expanded job with its new resources. -/
def expandedInfo : JobInfo :=
  { st.plugin.jobs toJob with jobResrcs := ((st.merger fromJob toJob).merge sys).new }

/-- Without the two jobs there is a row of the partition with room for the expanded job,
and its resources fit into the counters. -/
def Room (j : Jobs) : Prop :=
  (st.leave sys fromJob toJob).plugin.Roomy sys.cluster
    ((j.observe (.endRunning fromJob)).observe (.endRunning toJob))
    (.start toJob (st.expandedInfo sys fromJob toJob))

/-- The job has no CPUs and no nodes any more. -/
structure GivenUp (st' : ExpandState) : Prop where
  resources : (st'.plugin.resrcs fromJob).nodeBitmap = ∅ ∧ (st'.plugin.resrcs fromJob).ncpus = 0
  cpus : ∀ node < sys.nodeCount, st.has fromJob node = true →
    (st'.plugin.resrcs fromJob).cpus.getD ((st.plugin.resrcs fromJob).nodeId sys.cluster node) 0 = 0
  record : (st'.records fromJob).nodeBitmap = ∅ ∧ (st'.records fromJob).nhosts = 0 ∧
    (st'.records fromJob).totalCpus = 0 ∧ (st'.records fromJob).totalNodes = 0

variable {sys st fromJob toJob}

theorem leave_jobs : (st.leave sys fromJob toJob).plugin.jobs = st.plugin.jobs :=
  (rmJobFromRes_jobs _ _ _ _).1.trans (rmJobFromRes_jobs _ _ _ _).1

theorem leave_merger : (st.leave sys fromJob toJob).merger fromJob toJob = st.merger fromJob toJob := by
  unfold merger SelectState.resrcs
  rw [leave_jobs]
  rfl

theorem swapData_records_self (merged : Merging) :
    (st.swapData sys fromJob toJob merged).records fromJob = { st.records fromJob with
        nodeBitmap := ∅, totalCpus := 0, minCpus := 0, maxCpus := 0
        totalNodes := 0, nodeCnt := 0, minNodes := 0, nhosts := 0 } :=
  update_self _ _ _

theorem jobExpand_eq (apart : fromJob ≠ toJob) (fromCores : (st.plugin.jobs fromJob).hasCores = true)
    (toCores : (st.plugin.jobs toJob).hasCores = true) :
    (st.jobExpand sys fromJob toJob).1 = true ∧ (st.jobExpand sys fromJob toJob).2.records =
        ((st.leave sys fromJob toJob).swapData sys fromJob toJob
          ((st.merger fromJob toJob).merge sys)).records ∧
      (st.jobExpand sys fromJob toJob).2.plugin =
        ((st.leave sys fromJob toJob).plugin.applyCalls sys.cluster
          (.start toJob (st.expandedInfo sys fromJob toJob))).apply sys.cluster
          (.assign fromJob { st.plugin.jobs fromJob with
              jobResrcs := { st.plugin.resrcs fromJob with
                cpus := ((st.merger fromJob toJob).merge sys).fromCpus
                ncpus := 0
                nodeBitmap := ∅ } }) := by
  unfold jobExpand
  rw [if_neg apart, if_neg (by rw [fromCores, toCores]; decide)]
  dsimp only
  rw [leave_merger]
  refine ⟨rfl, rfl, ?_⟩
  unfold swapData
  rw [addJobToRes_assign (Ne.symm apart), SelectState.resrcs, leave_jobs]
  rfl

end ExpandState

theorem assign_resrcs_self (c : Cluster) (s : SelectState) (job : Nat) (info : JobInfo) :
    (s.apply c (.assign job info)).resrcs job = info.jobResrcs :=
  congrArg JobInfo.jobResrcs (update_self _ _ _)

theorem assign_resrcs_of_ne (c : Cluster) (s : SelectState) {job other : Nat} (info : JobInfo)
    (apart : other ≠ job) : (s.apply c (.assign job info)).resrcs other = s.resrcs other :=
  congrArg JobInfo.jobResrcs (update_of_ne apart _ _)

theorem start_jobs (c : Cluster) (s : SelectState) (job : Nat) (info : JobInfo) :
    (s.applyCalls c (.start job info)).jobs = Function.update s.jobs job info :=
  (addJobToRes_jobs c (s.apply c (.assign job info)) job 0).1

section Conserves

variable {sys : System} {st : ExpandState} {j : Jobs} {fromJob toJob : Nat}

theorem jobs_expanded (toRuns : toJob ∈ j.running) (apart : fromJob ≠ toJob) (info : JobInfo) :
    ((j.observe (.endRunning fromJob)).observe (.endRunning toJob)).observe (.start toJob info) =
      ⟨j.running.erase fromJob, j.suspended⟩ := by
  have mem : toJob ∈ j.running.erase fromJob := Finset.mem_erase.mpr ⟨Ne.symm apart, toRuns⟩
  simp only [Jobs.observe, Finset.insert_erase mem]

theorem merger_mergeable (kept : UsageKept sys.cluster st.plugin j) (small : sys.nodeCount ≤ 2 ^ 16)
    (fromRuns : fromJob ∈ j.running) (toRuns : toJob ∈ j.running)
    (fromDescribed : st.Described fromJob) (toDescribed : st.Described toJob) :
    (st.merger fromJob toJob).Mergeable sys := by
  have wf : ∀ job ∈ j.running, (st.plugin.resrcs job).WellFormed sys.cluster := fun job runs =>
    kept.rows.wellFormed job (kept.cores job (Finset.mem_union_left _ runs))
  exact ⟨wf fromJob fromRuns, wf toJob toRuns, fromDescribed.nhosts, toDescribed.nhosts,
    fromDescribed.nodes, toDescribed.nodes, small⟩

theorem jobExpand_accounts (kept : UsageKept sys.cluster st.plugin j)
    (small : sys.nodeCount ≤ 2 ^ 16) (fromRuns : fromJob ∈ j.running) (toRuns : toJob ∈ j.running)
    (apart : fromJob ≠ toJob) (fromDescribed : st.Described fromJob)
    (toDescribed : st.Described toJob) (room : st.Room sys fromJob toJob j) :
    RowInvariant sys.cluster (st.jobExpand sys fromJob toJob).2.plugin (j.running.erase fromJob) ∧
      UsageInvariant sys.cluster (st.jobExpand sys fromJob toJob).2.plugin
        ⟨j.running.erase fromJob, j.suspended⟩ := by
  have fromCores := kept.cores fromJob (Finset.mem_union_left _ fromRuns)
  have toCores := kept.cores toJob (Finset.mem_union_left _ toRuns)
  obtain ⟨_, _, pluginEq⟩ := ExpandState.jobExpand_eq apart fromCores toCores
  have stillRuns : toJob ∈ (j.observe (.endRunning fromJob)).running :=
    Finset.mem_erase.mpr ⟨Ne.symm apart, toRuns⟩
  have left : UsageKept sys.cluster (st.leave sys fromJob toJob).plugin
      ((j.observe (.endRunning fromJob)).observe (.endRunning toJob)) :=
    (kept.endRunning fromRuns).endRunning stillRuns
  have fresh : toJob ∉ ((j.observe (.endRunning fromJob)).observe (.endRunning toJob)).all := by
    rw [Jobs.all, Finset.mem_union, not_or]
    exact ⟨Finset.notMem_erase _ _, kept.apart toRuns⟩
  have ok := merger_mergeable kept small fromRuns toRuns fromDescribed toDescribed
  have allowed : (st.leave sys fromJob toJob).plugin.UsageAllowed sys.cluster
      ((j.observe (.endRunning fromJob)).observe (.endRunning toJob))
      (.start toJob (st.expandedInfo sys fromJob toJob)) :=
    ⟨fresh, toCores, kept.runs toJob toRuns, merge_wellFormed ok⟩
  have entered := left.start allowed room
  rw [jobs_expanded toRuns apart] at entered
  have absent : fromJob ∉ (Jobs.mk (j.running.erase fromJob) j.suspended).all := by
    rw [Jobs.all, Finset.mem_union, not_or]
    exact ⟨Finset.notMem_erase _ _, kept.apart fromRuns⟩
  rw [pluginEq]
  refine invariants_assign absent _ ?_ entered.rows.rowInvariant entered.invariant
  rw [start_jobs, update_of_ne apart, ExpandState.leave_jobs]

end Conserves

/-! ## Two nodes shared by two jobs -/

/-- Two nodes with three cores each. -/
def sharedPair : System where
  nodeCount := 2
  record := fun _ => ⟨3, 1, 1, 3, 1, 1, none⟩
  positive := fun _ => by decide
  partList := [0]
  maxCpusPerNode := fun _ => none
  priorityTier := fun _ => 1
  useSpecResources := false
  specCoresFirst := false
  coreDefaultDistBlock := false

/-- A job of the one partition. -/
def pairJob (coreBitmap : List Bool) (cpus : List Nat) (nodeBitmap : Finset Nat) : JobInfo :=
  ⟨some 0, ⟨coreBitmap, cpus, cpus.map UInt64.ofNat, nodeBitmap, 0, cpus.sum,
    [⟨1, 3, cpus.length⟩], 0⟩, true, false⟩

/-- The second job shares a core of the second node. -/
def sharedStarts : List UsageOp :=
  [.start 0 (pairJob [true, false, false, true, true, false] [1, 2] {0, 1}),
    .start 1 (pairJob [false, true, true] [2] {1})]

/-- The state after some starts; the records of the jobs have the given nodes. -/
def expandAfter (starts : List UsageOp) (nodes : Nat → Finset Nat) : ExpandState where
  plugin := ((emptyPartition 2).usageRunWith sharedPair.cluster ⟨∅, ∅⟩ starts).1
  records := fun job => ⟨nodes job, 0, 0, 0, 0, 0, 0, 0, 0,
    ((((emptyPartition 2).usageRunWith sharedPair.cluster ⟨∅, ∅⟩ starts).1).resrcs job).cpus.length⟩

theorem sharedPair_idle : (emptyPartition 2).Idle sharedPair.cluster := by
  refine ⟨⟨(emptyPartition_blank 2).1, ?_⟩, fun _ => rfl, rfl⟩
  intro job hasCores
  cases hasCores

theorem pairJob_wellFormed {coreBitmap : List Bool} {cpus : List Nat} {nodeBitmap : Finset Nat}
    (nodes : ((List.range 2).filter (· ∈ nodeBitmap)).length = cpus.length)
    (bits : coreBitmap.length = 3 * cpus.length) :
    (pairJob coreBitmap cpus nodeBitmap).jobResrcs.WellFormed sharedPair.cluster := by
  have cores : ((List.range 2).filter (· ∈ nodeBitmap)).map sharedPair.cluster.crNodeNumCores =
      List.replicate cpus.length 3 := by
    rw [← nodes, show sharedPair.cluster.crNodeNumCores = fun _ => 3 from rfl, List.map_const']
  refine ⟨?_, ?_, nodes.symm, ?_⟩
  · refine Eq.trans ?_ cores.symm
    simp [SockCore.layout, SockCore.coreCnt, pairJob]
  · refine Eq.trans bits ?_
    refine Eq.trans ?_ (congrArg List.sum cores).symm
    simp [Nat.mul_comm]
  · exact (List.length_map ..).trans nodes.symm

theorem sharedStarts_runs : (emptyPartition 2).UsageRuns sharedPair.cluster
    (SelectState.Roomy sharedPair.cluster) ⟨∅, ∅⟩ sharedStarts := by
  refine ⟨⟨?_, rfl, rfl, pairJob_wellFormed ?_ ?_⟩, ⟨?_, ?_⟩,
    ⟨?_, rfl, rfl, pairJob_wellFormed ?_ ?_⟩, ⟨?_, ?_⟩, trivial⟩
  all_goals decide

/-- Both jobs have the nodes of their resources. -/
def sharedNodes (job : Nat) : Finset Nat := if job = 0 then {0, 1} else {1}

/-- Two jobs that share a core take the two rows; one more job fits into each. -/
def crowdedStarts : List UsageOp :=
  [.start 2 (pairJob [false, true, true] [2] {0}), .start 3 (pairJob [true, false, true] [2] {0}),
    .start 0 (pairJob [true, false, false] [1] {0}), .start 1 (pairJob [false, true, false] [1] {0})]

theorem crowdedStarts_runs : (emptyPartition 2).UsageRuns sharedPair.cluster
    (SelectState.Roomy sharedPair.cluster) ⟨∅, ∅⟩ crowdedStarts := by
  refine ⟨⟨?_, rfl, rfl, pairJob_wellFormed ?_ ?_⟩, ⟨?_, ?_⟩,
    ⟨?_, rfl, rfl, pairJob_wellFormed ?_ ?_⟩, ⟨?_, ?_⟩,
    ⟨?_, rfl, rfl, pairJob_wellFormed ?_ ?_⟩, ⟨?_, ?_⟩,
    ⟨?_, rfl, rfl, pairJob_wellFormed ?_ ?_⟩, ⟨?_, ?_⟩, trivial⟩
  all_goals decide

end SlurmSim.Select
