import SlurmSim.Select.DistTasks
import SlurmSim.Select.Resources

/-!
# Testing a job

`cr_job_test` looks for nodes and cores for a job that is to run now: first among
the cores that nobody uses, then, for jobs that have their nodes to themselves,
with less and less regard to other partitions.  What it finds it turns into the
resources of the job.  Gang scheduling and preemption are off, memory is not
allocated, and generic resources place no restriction.
-/

namespace SlurmSim.Select

open SlurmSim.Common

/-- The nodes, the partitions in the order of `select_part_record`, and what is
read of the configuration. -/
structure System where
  nodeCount : Nat
  record : Nat → NodeRes
  positive : ∀ node, 0 < (record node).coreCnt
  partList : List Nat
  maxCpusPerNode : Nat → Option Nat
  priorityTier : Nat → Nat
  useSpecResources : Bool
  specCoresFirst : Bool
  coreDefaultDistBlock : Bool

def System.cluster (sys : System) : Cluster :=
  ⟨sys.nodeCount, fun node => (sys.record node).coreCnt, sys.positive⟩

/-- `NODE_CR_ONE_ROW` and `NODE_CR_RESERVED`. -/
inductive NodeReq where
  | oneRow
  | reserved
deriving DecidableEq, Repr

def NodeReq.toUInt32 : NodeReq → UInt32
  | .oneRow => 1
  | .reserved => 64000

/-- What `_choose_nodes` leaves: its return code, the bitmap of nodes, `cpu_cnt`
and the `best_switch` of the job. -/
structure Choice where
  success : Bool
  nodes : Finset Nat
  cpuCnt : Nat → Nat
  bestSwitch : Bool

/-- The arguments of `cr_job_test`, with the states of nodes it reads.  Which of
the nodes with enough resources are chosen, and how many of their CPUs, is left
open. -/
structure Request where
  part : Nat
  details : JobDetails
  nodeBitmap : Finset Nat
  minNodes : Nat
  crType : CrType
  nodeReq : NodeReq
  excCoreBitmap : Option (List Bool)
  completing : Finset Nat
  backfillTest : Bool
  chooseNodes : Finset Nat → (Nat → Nat) → Choice

/-- A bitmap of all cores, node by node; the cores are numbered within the node. -/
abbrev CoreMap : Type := Nat → Finset Nat

namespace System

variable (sys : System)

/-! ## Cores in use -/

/-- The cores of a node that satisfy a test on the full-length bitmap. -/
def coresOn (node : Nat) (test : Nat → Bool) : Finset Nat :=
  (Finset.range (sys.record node).coreCnt).filter fun i =>
    test (sys.cluster.crGetCoremapOffset node + i)

def rowBitmaps (s : SelectState) (p : Nat) : List (Finset Nat) :=
  (((s.parts p).bind PartRes.row).getD []).filterMap PartRow.rowBitmap

/-- The cores in the row bitmaps of a partition. -/
def inUse (s : SelectState) (p : Nat) : CoreMap := fun node =>
  sys.coresOn node fun core => (rowBitmaps s p).any (core ∈ ·)

/-- The cores without those in use in some partitions. -/
def without (s : SelectState) (parts : List Nat) (cores : CoreMap) : CoreMap := fun node =>
  (cores node).filter fun i => ∀ p ∈ parts, i ∉ sys.inUse s p node

/-- `_is_node_busy` -/
def isNodeBusy (s : SelectState) (node : Nat) (sharingOnly : Bool) (myPart : Nat) : Bool :=
  sys.partList.any fun p =>
    !(sharingOnly && (decide (((s.parts p).map PartRes.numRows).getD 0 < 2) || p == myPart)) &&
      decide (sys.inUse s p node ≠ ∅)

/-- A job that wants whole nodes is kept from those that have a core outside of
the excluded ones. -/
def nodeExcluded (req : Request) (node : Nat) : Bool :=
  decide (req.details.wholeNode = 1) && req.excCoreBitmap.any fun exc =>
    decide (sys.coresOn node (fun core => !exc.getD core false) ≠ ∅)

/-- The test of `_verify_node_state` for one node. -/
def nodeUsable (s : SelectState) (req : Request) (node : Nat) : Bool :=
  if sys.nodeExcluded req node = true ∨ 64000 ≤ (s.usage node).nodeState then false
  else if 1 ≤ (s.usage node).nodeState then
    decide (req.nodeReq = .oneRow) && !sys.isNodeBusy s node true req.part
  else !sys.isNodeBusy s node (decide (req.nodeReq = .oneRow)) req.part

/-- `_verify_node_state`; it fails when a required node is not usable. -/
def verifyNodeState (s : SelectState) (req : Request) : Option (Finset Nat) :=
  let nodes := (Finset.range sys.nodeCount).filter (· ∈ req.nodeBitmap)
  if ∃ node ∈ nodes, sys.nodeUsable s req node = false ∧
      req.details.reqNodeBitmap.any (node ∈ ·) = true then none
  else some (nodes.filter fun node => sys.nodeUsable s req node)

/-! ## Available cores -/

/-- The specialized cores of the node are removed; with the use of specialized
resources at most as many as the job leaves to the system. -/
def dropSpecialized (kept : Finset Nat) : List Nat → Finset Nat → Nat → Finset Nat × Nat
  | [], cores, specCores => (cores, specCores)
  | i :: rest, cores, specCores =>
    if i ∈ kept then dropSpecialized kept rest cores specCores
    else if sys.useSpecResources = false then
      dropSpecialized kept rest (cores.erase i) specCores
    else if specCores - 1 = 0 then (cores.erase i, 0)
    else dropSpecialized kept rest (cores.erase i) (specCores - 1)

/-- The order in which more cores are specialized. -/
def specOrder (r : NodeRes) : List Nat :=
  let cores := List.range r.cores
  let sockets := List.range r.sockets
  if sys.specCoresFirst then cores.flatMap fun core => sockets.map (· * r.cores + core)
  else cores.reverse.flatMap fun core => sockets.reverse.map (· * r.cores + core)

def specialize : List Nat → Finset Nat → Nat → Finset Nat
  | [], cores, _ => cores
  | core :: rest, cores, specCores =>
    if specCores = 0 then cores
    else if core ∈ cores then specialize rest (cores.erase core) (specCores - 1)
    else specialize rest cores specCores

/-- The cores that are to be specialized; a count of threads is none of cores. -/
def specCount (coreSpec : Nat) : Nat :=
  if coreSpec ≠ noVal16 ∧ coreSpec &&& coreSpecThread ≠ 0 then noVal16 else coreSpec

/-- All cores of the node are to be specialized: `make_core_bitmap` clears it. -/
def tooSmall (coreSpec node : Nat) : Bool :=
  decide (specCount coreSpec ≠ noVal16 ∧ (sys.record node).coreCnt ≤ specCount coreSpec)

/-- `make_core_bitmap` -/
def makeCoreBitmap (coreSpec : Nat) : CoreMap := fun node =>
  let r := sys.record node
  let wanted := specCount coreSpec
  let all := Finset.range r.coreCnt
  if sys.tooSmall coreSpec node then ∅
  else if sys.useSpecResources = true ∧ wanted = 0 then all
  else
    let dropped := match r.nodeSpecBitmap with
      | none => (all, wanted)
      | some kept => sys.dropSpecialized kept (List.range r.coreCnt) all wanted
    if sys.useSpecResources = false ∨ dropped.2 = 0 ∨ wanted = noVal16 then dropped.1
    else specialize (sys.specOrder r) dropped.1 dropped.2

/-! ## Selecting nodes -/

/-- `_can_job_run_on_node` -/
def canJobRunOnNode (req : Request) (node : Nat) (coreMap : Finset Nat)
    (partCoreMap : Option (Finset Nat)) : Nat × Finset Nat :=
  if req.backfillTest = false ∧ node ∈ req.completing then (0, coreMap)
  else
    let (cpus, cores) := allocateSc req.details (sys.record node) (sys.maxCpusPerNode req.part)
      coreMap partCoreMap (decide (req.crType = .socket))
    if cpus = 0 then (0, ∅) else (cpus, cores)

/-- The bitmaps and the counts of `_select_nodes` when it succeeds. -/
structure Selection where
  nodes : Finset Nat
  cores : CoreMap
  cpuCnt : Nat → Nat

/-- `_select_nodes`; the second result is the `best_switch` of the job. -/
def selectNodes (req : Request) (nodes : Finset Nat) (cores : CoreMap)
    (partCoreMap : Option CoreMap) (bestSwitch : Bool) : Option Selection × Bool :=
  let usage := fun node => sys.canJobRunOnNode req node (cores node) (partCoreMap.map (· node))
  let usable := nodes.filter fun node => (usage node).1 ≠ 0
  if nodes.card < req.minNodes ∨ usable.card < req.minNodes ∨
      ∃ node ∈ nodes, (usage node).1 = 0 ∧ req.details.reqNodeBitmap.any (node ∈ ·) = true then
    (none, bestSwitch)
  else
    let choice := req.chooseNodes usable fun node => if node ∈ nodes then (usage node).1 else 0
    if choice.success then
      (some ⟨usable.filter (· ∈ choice.nodes), fun node => (usage node).2, choice.cpuCnt⟩,
        choice.bestSwitch)
    else (none, choice.bestSwitch)

/-- `_block_whole_nodes`, for a job that wants whole nodes. -/
def blockWholeNodes (req : Request) (nodes : Finset Nat) (orig new : CoreMap) : Finset Nat :=
  if req.details.wholeNode = 1 then nodes.filter fun node => orig node ⊆ new node else nodes

/-- The excluded cores are removed, if the bitmap has the right size. -/
def withoutExcluded (req : Request) (cores : CoreMap) : CoreMap := fun node =>
  match req.excCoreBitmap with
  | none => cores node
  | some exc =>
    if exc.length = sys.cluster.crGetCoremapOffset sys.nodeCount then
      cores node \ sys.coresOn node fun core => exc.getD core false
    else cores node

/-- The cores of the job's own partition in use; there is a map once one of its
rows has a bitmap. -/
def partCoreMap (s : SelectState) (req : Request) : Option CoreMap :=
  if req.part ∈ sys.partList ∧ rowBitmaps s req.part ≠ [] then some (sys.inUse s req.part) else none

/-- `free_cores` of the first step. -/
def freeCores (s : SelectState) (req : Request) (avail : CoreMap) : CoreMap :=
  sys.without s sys.partList (sys.withoutExcluded req avail)

section Steps

variable (s : SelectState) (req : Request) (orig : Finset Nat) (avail : CoreMap)

/-- Step 1: idle cores across all partitions. -/
def step1 (bestSwitch : Bool) : Option Selection × Bool :=
  let free := sys.freeCores s req avail
  sys.selectNodes req (blockWholeNodes req orig avail free) free (sys.partCoreMap s req) bestSwitch

/-- Step 2, which only the excluded cores keep from a selection. -/
def step2 (bestSwitch : Bool) : Option Selection × Bool :=
  let free := sys.withoutExcluded req avail
  sys.selectNodes req (blockWholeNodes req orig avail free) free (sys.partCoreMap s req) bestSwitch

/-- The end of step 3: as far as possible without the partitions of lower priority. -/
def avoidLower : List Nat → Finset Nat → CoreMap → Selection → Bool → Option Selection × Bool
  | [], _, _, sel, bestSwitch => (some sel, bestSwitch)
  | p :: rest, nodes, cores, sel, bestSwitch =>
    if sys.priorityTier req.part ≤ sys.priorityTier p ∨
        ((s.parts p).bind PartRes.row).isNone = true then
      avoidLower rest nodes cores sel bestSwitch
    else
      let cores := sys.without s [p] cores
      let nodes := blockWholeNodes req nodes avail cores
      match sys.selectNodes req nodes cores (sys.partCoreMap s req) bestSwitch with
      | (none, bestSwitch) => (some sel, bestSwitch)
      | (some sel, bestSwitch) => avoidLower rest nodes cores sel bestSwitch

/-- Step 3: idle cores among the partitions of the same priority. -/
def step3 (bestSwitch : Bool) : Option Selection × Bool :=
  let cores := sys.without s
    (sys.partList.filter fun p => sys.priorityTier p = sys.priorityTier req.part) avail
  let nodes := blockWholeNodes req orig avail cores
  match sys.selectNodes req nodes cores (sys.partCoreMap s req) bestSwitch with
  | (none, bestSwitch) => (none, bestSwitch)
  | (some sel, bestSwitch) => sys.avoidLower s req avail sys.partList nodes cores sel bestSwitch

/-- The rows of step 4, up to the first one without a bitmap. -/
def tryRows : List PartRow → Bool → Option Selection × Bool
  | [], bestSwitch => (none, bestSwitch)
  | row :: rest, bestSwitch =>
    match row.rowBitmap with
    | none => sys.selectNodes req orig avail (sys.partCoreMap s req) bestSwitch
    | some bitmap =>
      let cores := fun node => avail node \ sys.coresOn node (· ∈ bitmap)
      match sys.selectNodes req (blockWholeNodes req orig avail cores) cores
          (sys.partCoreMap s req) bestSwitch with
      | (none, bestSwitch) => tryRows rest bestSwitch
      | found => found

/-- Step 4: a row of the job's partition. -/
def step4 (bestSwitch : Bool) : Option Selection × Bool :=
  match (s.parts req.part).bind PartRes.row with
  | none => sys.selectNodes req orig avail (sys.partCoreMap s req) bestSwitch
  | some rows =>
    sys.tryRows s req orig avail
      (if 1 < rows.length then crSortPartRows rows else rows) bestSwitch

/-- The steps from 2 on, for a job that has its nodes to itself; they leave the
excluded cores out of those available. -/
def laterSteps (bestSwitch : Bool) : Option (Selection × CoreMap) :=
  if req.part ∉ sys.partList then none
  else
    match sys.step2 s req orig avail bestSwitch with
    | (none, _) => none
    | (some _, bestSwitch) =>
      let avail := sys.withoutExcluded req avail
      let (found, bestSwitch) := match sys.step3 s req orig avail bestSwitch with
        | (none, bestSwitch) => sys.step4 s req orig avail bestSwitch
        | found => found
      if bestSwitch then found.map (·, avail) else none

/-- The nodes and cores for the job, with the cores that are available to it.  At
first the job must fit on the nodes without regard to other jobs. -/
def findCores : Option (Selection × CoreMap) :=
  let nodes := orig.filter fun node => sys.tooSmall req.details.coreSpec node = false
  match sys.selectNodes req nodes avail none true with
  | (some _, true) =>
    match sys.step1 s req orig avail true, req.nodeReq with
    | (some sel, true), _ => some (sel, avail)
    | _, .oneRow => none
    | (_, bestSwitch), .reserved => sys.laterSteps s req orig avail bestSwitch
  | _ => none

end Steps

/-! ## The resources of the job -/

/-- `min_cpus` when it is equal to `min_nodes`, which is taken for overcommit. -/
def minCpus (d : JobDetails) : Nat :=
  match d.mcPtr with
  | none => d.minCpus
  | some mc =>
    if d.minCpus = d.minNodes then
      [mc.threadsPerCore, mc.coresPerSocket, mc.socketsPerNode].foldl
        (fun cpus count => if count ≠ noVal16 ∧ 1 < count then cpus * count else cpus) d.minCpus
    else d.minCpus

/-- `ncpus` of the job resources. -/
def ncpus (d : JobDetails) (nhosts totalCpus : Nat) : Nat :=
  let ncpus := if d.ntasksPerNode ≠ 0 then nhosts * d.ntasksPerNode else nhosts
  if d.overcommit = true ∧ d.numTasks ≠ 0 then min totalCpus d.numTasks
  else max (max ncpus (minCpus d)) (nhosts * d.pnMinCpus)

/-- `build_job_resources`: one entry for each run of nodes with the same sockets
and cores. -/
def buildSockCore : List NodeRes → List SockCore
  | [] => []
  | r :: rest =>
    match buildSockCore rest with
    | [] => [⟨r.sockets, r.cores, 1⟩]
    | entry :: entries =>
      if r.sockets = entry.socketsPerNode ∧ r.cores = entry.coresPerSocket then
        { entry with repCount := entry.repCount + 1 } :: entries
      else ⟨r.sockets, r.cores, 1⟩ :: entry :: entries

/-- The nodes of a selection in order, with their CPUs and cores. -/
def shares (sel : Selection) : List NodeShare :=
  ((List.range sys.nodeCount).filter (· ∈ sel.nodes)).map fun node =>
    ⟨node, sel.cpuCnt node, sel.cores node⟩

/-- The bits of a node in the core bitmap. -/
def nodeBits (share : NodeShare) : List Bool :=
  (List.range (sys.record share.node).coreCnt).map fun i => decide (i ∈ share.bits)

/-- The job resources that `cr_job_test` builds from the shares. -/
def jobResources (req : Request) (sel : Selection) (ncpus : Nat) (shares : List NodeShare) :
    JobResources where
  coreBitmap := shares.flatMap sys.nodeBits
  cpus := shares.map NodeShare.cpus
  memoryAllocated := List.replicate shares.length 0
  nodeBitmap := sel.nodes
  nodeReq := req.nodeReq.toUInt32
  ncpus := ncpus
  sockCore := buildSockCore (shares.map fun share => sys.record share.node)
  wholeNode := req.details.wholeNode

/-- The end of `cr_job_test`. -/
def allocJob (req : Request) (sel : Selection) (avail : CoreMap) : Option JobResources :=
  let shares := sys.shares sel
  let ncpus := ncpus req.details shares.length (shares.map NodeShare.cpus).sum
  (crDist sys.record req.details req.crType sys.coreDefaultDistBlock
    (decide (req.nodeReq = .reserved)) ncpus avail shares).map (sys.jobResources req sel ncpus)

/-- `cr_job_test` in mode `SELECT_MODE_RUN_NOW`. -/
def crJobTest (s : SelectState) (req : Request) : Option JobResources :=
  (sys.verifyNodeState s req).bind fun nodes =>
    (sys.findCores s req nodes (sys.makeCoreBitmap req.details.coreSpec)).bind
      fun (sel, avail) => sys.allocJob req sel avail

end System

end SlurmSim.Select
