import SlurmSim.Select.EvalNodes
import SlurmSim.Select.JobTest

/-!
# Testing a job with memory

`cr_job_test` where memory is allocated along with CPUs, cores or sockets, or on
its own.  The memory of a node limits the CPUs that a job can have on it, and at
the end the job is charged for the memory of the CPUs that the distribution of
its tasks has left.  Gang scheduling and preemption may be on, and what generic
resources leave of a node is a parameter.
-/

namespace SlurmSim.Select.Memory

open SlurmSim.Common

/-- `MEM_PER_CPU` -/
def memPerCpu : UInt64 := 0x8000000000000000

/-- `CR_CPU_MEMORY`, `CR_CORE_MEMORY`, `CR_SOCKET_MEMORY` and `CR_MEMORY`. -/
inductive CrMemory where
  | cpu
  | core
  | socket
  | alone
deriving DecidableEq, Repr

/-- What is allocated; CPUs when nothing is said. -/
def CrMemory.crType : CrMemory → CrType
  | .cpu => .cpu
  | .core => .core
  | .socket => .socket
  | .alone => .cpu

/-- `NODE_CR_AVAILABLE`, `NODE_CR_ONE_ROW` and `NODE_CR_RESERVED`. -/
inductive JobNodeReq where
  | available
  | oneRow
  | reserved
deriving DecidableEq, Repr

def JobNodeReq.toUInt32 : JobNodeReq → UInt32
  | .available => 0
  | .oneRow => 1
  | .reserved => 64000

/-- The nodes with their memory, and more of the configuration. -/
structure MemorySystem extends System where
  realMemory : Nat → UInt64
  memSpecLimit : Nat → UInt64
  gangMode : Bool
  preemptByPart : Bool
  preemptByQos : Bool
  preemptModeOff : Nat → Bool

/-- What `_choose_nodes` leaves: its return code, the bitmap of nodes, the
`best_switch` of the job, and for each node the remaining CPUs and nodes in the
calls of `_cpus_to_use`, which alone write to `cpu_cnt`. -/
structure Choice where
  success : Bool
  nodes : Finset Nat
  uses : Nat → List (Int32 × Int32)
  bestSwitch : Bool

/-- The arguments of `cr_job_test`.  `gresCores` are the cores that the generic
resources of a node allow, `none` for `NO_VAL`, with the ones they keep of those
that are open; `lacksGres` says that the node has none for the job.
`pn_min_cpus` has 16 bits. -/
structure MemoryRequest where
  part : Nat
  details : JobDetails
  narrow : details.pnMinCpus < 2 ^ 16
  pnMinMemory : UInt64
  nodeBitmap : Finset Nat
  minNodes : Nat
  crMemory : CrMemory
  nodeReq : JobNodeReq
  excCoreBitmap : Option (List Bool)
  qosPreemptor : Bool
  completing : Finset Nat
  backfillTest : Bool
  gresCores : Nat → Finset Nat → Option Nat × Finset Nat
  lacksGres : Nat → Bool
  chooseNodes : Finset Nat → (Nat → Nat) → Choice

namespace MemoryRequest

variable (req : MemoryRequest)

/-- The memory is given for each CPU. -/
def perCpu : Bool := req.pnMinMemory &&& memPerCpu ≠ 0

/-- The memory without the flag. -/
def reqMem : UInt64 := req.pnMinMemory &&& ~~~memPerCpu

/-- `min_mem` of `_verify_node_state` -/
def minMem : UInt64 :=
  let d := req.details
  let minCpus := max (max d.ntasksPerNode d.pnMinCpus) d.cpusPerTask
  if req.perCpu then
    if 0 < minCpus then req.reqMem * UInt64.ofNat minCpus else req.reqMem
  else req.pnMinMemory

/-- `cpu_alloc_size` as `_allocate_sc` leaves it. -/
def cpuAllocSize (r : NodeRes) : Nat :=
  let size := match req.crMemory with
    | .core => r.vpus
    | .socket => r.cores * r.vpus
    | _ => 1
  match req.details.mcPtr with
  | none => size
  | some _ => min size (req.details.ncpusPerCore r)

end MemoryRequest

/-- The loops that take CPUs away, `size` at a time, until there are few enough.
The first argument bounds the rounds. -/
def lowerCpus (enough : Nat → Bool) (size : Nat) : Nat → Nat → Nat
  | 0, _ => 0
  | n + 1, cpus =>
    if enough cpus then cpus else if size ≤ cpus then lowerCpus enough size n (cpus - size) else 0

namespace MemorySystem

variable (sys : MemorySystem)

/-! ## Nodes and cores -/

/-- The row bitmaps of a partition in the first of its rows. -/
def firstRows (s : SelectState) (p rows : Nat) : List (Finset Nat) :=
  ((((s.parts p).bind PartRes.row).getD []).take rows).filterMap PartRow.rowBitmap

/-- `_is_node_busy`; the row for preemption by QOS is left to jobs that use it. -/
def isNodeBusy (s : SelectState) (req : MemoryRequest) (node : Nat) (sharingOnly : Bool) : Bool :=
  sys.partList.any fun p =>
    let numRows := ((s.parts p).map PartRes.numRows).getD 0
    let numRows := if sys.preemptByQos && !req.qosPreemptor then numRows - 1 else numRows
    !(sharingOnly && (decide (numRows < 2) || p == req.part)) &&
      decide (sys.coresOn node (fun core => (firstRows s p numRows).any (core ∈ ·)) ≠ ∅)

/-- The memory of the node is too small or, for a job that wants all of it, in use. -/
def lacksMemory (s : SelectState) (req : MemoryRequest) (node : Nat) : Bool :=
  let alloc := (s.usage node).allocMemory
  if req.pnMinMemory ≠ 0 then
    let freeMem := if alloc < sys.realMemory node then sys.realMemory node - alloc else 0
    decide (freeMem < req.minMem)
  else decide (alloc ≠ 0)

/-- A job that wants whole nodes is kept from those that have a core outside of
the excluded ones. -/
def nodeExcluded (req : MemoryRequest) (node : Nat) : Bool :=
  decide (req.details.wholeNode = 1) && req.excCoreBitmap.any fun exc =>
    decide (sys.coresOn node (fun core => !exc.getD core false) ≠ ∅)

/-- The test of `_verify_node_state` for one node. -/
def nodeUsable (s : SelectState) (req : MemoryRequest) (node : Nat) : Bool :=
  if sys.lacksMemory s req node ∨ sys.nodeExcluded req node ∨ req.lacksGres node ∨
      64000 ≤ (s.usage node).nodeState then false
  else if 1 ≤ (s.usage node).nodeState then
    decide (req.nodeReq = .oneRow) && !sys.isNodeBusy s req node true
  else
    match req.nodeReq with
    | .available => true
    | .oneRow => !sys.isNodeBusy s req node true
    | .reserved => !sys.isNodeBusy s req node false

/-- `_verify_node_state`; it fails when a required node is not usable. -/
def verifyNodeState (s : SelectState) (req : MemoryRequest) : Option (Finset Nat) :=
  let nodes := (Finset.range sys.nodeCount).filter (· ∈ req.nodeBitmap)
  if ∃ node ∈ nodes, sys.nodeUsable s req node = false ∧
      req.details.reqNodeBitmap.any (node ∈ ·) = true then none
  else some (nodes.filter fun node => sys.nodeUsable s req node)

/-! ## The CPUs of a node -/

/-- `avail_mem` -/
def availMem (s : SelectState) (node : Nat) : UInt64 :=
  sys.realMemory node - sys.memSpecLimit node - (s.usage node).allocMemory

/-- The memory check of `_can_job_run_on_node`.  Where tasks have cores of their
own, the CPUs stand for cores. -/
def memoryCpus (s : SelectState) (req : MemoryRequest) (node cpus : Nat) : Nat :=
  let d := req.details
  let r := sys.record node
  let availMem := sys.availMem s node
  if req.perCpu then
    let cpus := if req.crMemory ≠ .cpu ∧ d.ntasksPerCore = 1 ∧ d.cpusPerTask = 1 then
        lowerCpus (fun cpus => req.reqMem * UInt64.ofNat (cpus * r.vpus) ≤ availMem) 1 (cpus + 1)
          cpus
      else
        lowerCpus (fun cpus => req.reqMem * UInt64.ofNat cpus ≤ availMem) (req.cpuAllocSize r)
          (cpus + 1) cpus
    let cpus := if 1 < d.cpusPerTask then cpus - cpus % d.cpusPerTask else cpus
    if cpus < d.ntasksPerNode then 0 else cpus
  else if availMem < req.reqMem then 0 else cpus

/-- The end of `_can_job_run_on_node`: the CPUs that generic resources allow. -/
def gresCpus (req : MemoryRequest) (node : Nat) (gresCores : Option Nat) (cpus : Nat) : Nat :=
  let d := req.details
  let r := sys.record node
  match gresCores with
  | none => cpus
  | some cores =>
    let most := cores * (r.cpus / r.coreCnt)
    let most := if most < d.ntasksPerNode ∨ (1 < d.cpusPerTask ∧ most < d.cpusPerTask) then 0
      else most
    lowerCpus (· ≤ most) (req.cpuAllocSize r) (cpus + 1) cpus

/-- `_can_job_run_on_node` -/
def canJobRunOnNode (s : SelectState) (req : MemoryRequest) (node : Nat) (coreMap : Finset Nat)
    (partCoreMap : Option (Finset Nat)) : Nat × Finset Nat :=
  if req.backfillTest = false ∧ node ∈ req.completing then (0, coreMap)
  else
    let (gresCores, kept) := req.gresCores node coreMap
    let coreMap := coreMap ∩ kept
    if gresCores = some 0 then (0, coreMap)
    else
      let (cpus, cores) := allocateSc req.details (sys.record node) (sys.maxCpusPerNode req.part)
        coreMap partCoreMap (decide (req.crMemory = .socket))
      let cpus := sys.gresCpus req node gresCores (sys.memoryCpus s req node cpus)
      if cpus = 0 then (0, ∅) else (cpus, cores)

/-! ## Selecting nodes -/

/-- The entry of `cpu_cnt` after the calls of `_cpus_to_use` for a node. -/
def usedCpus (req : MemoryRequest) (node cpus : Nat) (uses : List (Int32 × Int32)) : Nat :=
  let evalRequest : EvalNodes.EvalRequest :=
    ⟨req.details, false, EvalNodes.noVal, sys.record, decide (req.crMemory = .socket)⟩
  (uses.foldl
    (fun cpuCnt (remCpus, remNodes) =>
      (EvalNodes.cpusToUse evalRequest (EvalNodes.cpusOn (fun _ => cpuCnt) node) remCpus remNodes
        cpuCnt node).2)
    (UInt16.ofNat cpus)).toNat

/-- `_select_nodes`; the second result is the `best_switch` of the job. -/
def selectNodes (s : SelectState) (req : MemoryRequest) (nodes : Finset Nat) (cores : CoreMap)
    (partCoreMap : Option CoreMap) (bestSwitch : Bool) : Option System.Selection × Bool :=
  let usage := fun node => sys.canJobRunOnNode s req node (cores node) (partCoreMap.map (· node))
  let usable := nodes.filter fun node => (usage node).1 ≠ 0
  if nodes.card < req.minNodes ∨ usable.card < req.minNodes ∨
      ∃ node ∈ nodes, (usage node).1 = 0 ∧ req.details.reqNodeBitmap.any (node ∈ ·) = true then
    (none, bestSwitch)
  else
    let choice := req.chooseNodes usable fun node => if node ∈ nodes then (usage node).1 else 0
    if choice.success then
      (some ⟨usable.filter (· ∈ choice.nodes), fun node => (usage node).2,
        fun node => sys.usedCpus req node (usage node).1 (choice.uses node)⟩, choice.bestSwitch)
    else (none, choice.bestSwitch)

/-- `_block_whole_nodes`, for a job that wants whole nodes. -/
def blockWholeNodes (req : MemoryRequest) (nodes : Finset Nat) (orig new : CoreMap) : Finset Nat :=
  if req.details.wholeNode = 1 then nodes.filter fun node => orig node ⊆ new node else nodes

/-- The excluded cores are removed, if the bitmap has the right size. -/
def withoutExcluded (req : MemoryRequest) (cores : CoreMap) : CoreMap := fun node =>
  match req.excCoreBitmap with
  | none => cores node
  | some exc =>
    if exc.length = sys.cluster.crGetCoremapOffset sys.nodeCount then
      cores node \ sys.coresOn node fun core => exc.getD core false
    else cores node

/-- The cores of the job's own partition in use; there is a map once one of its
rows has a bitmap. -/
def partCoreMap (s : SelectState) (req : MemoryRequest) : Option CoreMap :=
  if req.part ∈ sys.partList ∧ System.rowBitmaps s req.part ≠ [] then
    some (sys.inUse s req.part)
  else none

/-- The partitions whose jobs this job cannot preempt. -/
def protectedParts (req : MemoryRequest) : List Nat :=
  if sys.preemptByPart then
    sys.partList.filter fun p =>
      decide (sys.priorityTier req.part < sys.priorityTier p) || sys.preemptModeOff p
  else []

section Steps

variable (s : SelectState) (req : MemoryRequest) (orig : Finset Nat) (avail : CoreMap)

/-- One of the tests on cores that are left of the available ones. -/
def testCores (cores : CoreMap) (bestSwitch : Bool) : Option System.Selection × Bool :=
  sys.selectNodes s req (blockWholeNodes req orig avail cores) cores (sys.partCoreMap s req)
    bestSwitch

/-- Step 1: idle cores across all partitions. -/
def step1 (bestSwitch : Bool) : Option System.Selection × Bool :=
  sys.testCores s req orig avail (sys.without s sys.partList (sys.withoutExcluded req avail))
    bestSwitch

/-- The end of step 3: as far as possible without the partitions of lower priority. -/
def avoidLower : List Nat → Finset Nat → CoreMap → System.Selection → Bool →
    Option System.Selection × Bool
  | [], _, _, sel, bestSwitch => (some sel, bestSwitch)
  | p :: rest, nodes, cores, sel, bestSwitch =>
    if sys.priorityTier req.part ≤ sys.priorityTier p ∨
        ((s.parts p).bind PartRes.row).isNone = true then
      avoidLower rest nodes cores sel bestSwitch
    else
      let cores := sys.without s [p] cores
      let nodes := blockWholeNodes req nodes avail cores
      match sys.selectNodes s req nodes cores (sys.partCoreMap s req) bestSwitch with
      | (none, bestSwitch) => (some sel, bestSwitch)
      | (some sel, bestSwitch) => avoidLower rest nodes cores sel bestSwitch

/-- Step 3: idle cores among the partitions of the same priority. -/
def step3 (bestSwitch : Bool) : Option System.Selection × Bool :=
  let cores := sys.without s
    (sys.partList.filter fun p => sys.priorityTier p = sys.priorityTier req.part) avail
  match sys.testCores s req orig avail cores bestSwitch with
  | (none, bestSwitch) => (none, bestSwitch)
  | (some sel, bestSwitch) =>
    sys.avoidLower s req avail sys.partList (blockWholeNodes req orig avail cores) cores sel
      bestSwitch

/-- The rows of step 4, up to the first one without a bitmap. -/
def tryRows : List PartRow → Bool → Option System.Selection × Bool
  | [], bestSwitch => (none, bestSwitch)
  | row :: rest, bestSwitch =>
    match row.rowBitmap with
    | none => sys.selectNodes s req orig avail (sys.partCoreMap s req) bestSwitch
    | some bitmap =>
      match sys.testCores s req orig avail
          (fun node => avail node \ sys.coresOn node (· ∈ bitmap)) bestSwitch with
      | (none, bestSwitch) => tryRows rest bestSwitch
      | found => found

/-- Step 4: a row of the job's partition. -/
def step4 (bestSwitch : Bool) : Option System.Selection × Bool :=
  match (s.parts req.part).bind PartRes.row with
  | none => sys.selectNodes s req orig avail (sys.partCoreMap s req) bestSwitch
  | some rows =>
    let sorted := if 1 < rows.length ∧ sys.preemptByQos = false then crSortPartRows rows else rows
    let c := if sys.preemptByQos ∧ req.qosPreemptor = false then rows.length - 1 else rows.length
    let c := if sys.preemptByQos ∧ req.nodeReq ≠ .available then 1 else c
    sys.tryRows s req orig avail (sorted.take c) bestSwitch

/-- The steps from 2 on.  Step 2 leaves out the excluded cores and those of jobs
that cannot be preempted, for good. -/
def laterSteps (bestSwitch : Bool) : Option (System.Selection × CoreMap) :=
  if req.part ∉ sys.partList then none
  else
    let free := sys.without s (sys.protectedParts req) (sys.withoutExcluded req avail)
    match sys.testCores s req orig avail free bestSwitch with
    | (none, _) => none
    | (some _, bestSwitch) =>
      let (found, bestSwitch) := match sys.step3 s req orig free bestSwitch with
        | (none, bestSwitch) => sys.step4 s req orig free bestSwitch
        | found => found
      if bestSwitch then found.map (·, free) else none

/-- The nodes and cores for the job, with the cores that are available to it.  At
first the job must fit on the nodes without regard to other jobs; where memory is
allocated on its own, that is all. -/
def findCores : Option (System.Selection × CoreMap) :=
  let nodes := orig.filter fun node => sys.tooSmall req.details.coreSpec node = false
  match sys.selectNodes s req nodes avail none true with
  | (some sel, true) =>
    if req.crMemory = .alone then some (sel, avail)
    else
      match sys.step1 s req orig avail true with
      | (some sel, true) => some (sel, avail)
      | (_, bestSwitch) =>
        if sys.gangMode = false ∧ req.nodeReq = .oneRow then none
        else sys.laterSteps s req orig avail bestSwitch
  | _ => none

end Steps

/-! ## The resources of the job -/

/-- `memory_allocated` of a node. -/
def memoryAllocated (req : MemoryRequest) (share : NodeShare) : UInt64 :=
  if req.perCpu then UInt64.ofNat share.cpus * req.reqMem
  else if req.pnMinMemory ≠ 0 then req.pnMinMemory
  else sys.realMemory share.node - sys.memSpecLimit share.node

/-- The job resources that `cr_job_test` builds from the shares. -/
def jobResources (req : MemoryRequest) (sel : System.Selection) (ncpus : Nat)
    (shares : List NodeShare) : JobResources where
  coreBitmap := shares.flatMap sys.nodeBits
  cpus := shares.map NodeShare.cpus
  memoryAllocated := shares.map (sys.memoryAllocated req)
  nodeBitmap := sel.nodes
  nodeReq := req.nodeReq.toUInt32
  ncpus := ncpus
  sockCore := System.buildSockCore (shares.map fun share => sys.record share.node)
  wholeNode := req.details.wholeNode

/-- The end of `cr_job_test`. -/
def allocJob (req : MemoryRequest) (sel : System.Selection) (avail : CoreMap) :
    Option JobResources :=
  let shares := sys.shares sel
  let ncpus := System.ncpus req.details shares.length (shares.map NodeShare.cpus).sum
  (crDist sys.record req.details req.crMemory.crType sys.coreDefaultDistBlock
    (decide (req.nodeReq = .reserved)) ncpus avail shares).map (sys.jobResources req sel ncpus)

/-- `cr_job_test` in mode `SELECT_MODE_RUN_NOW`. -/
def crJobTest (s : SelectState) (req : MemoryRequest) : Option JobResources :=
  (sys.verifyNodeState s req).bind fun nodes =>
    (sys.findCores s req nodes (sys.makeCoreBitmap req.details.coreSpec)).bind
      fun (sel, avail) => sys.allocJob req sel avail

end MemorySystem

end SlurmSim.Select.Memory
