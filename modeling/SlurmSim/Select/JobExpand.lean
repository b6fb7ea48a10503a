import SlurmSim.Select.JobTest
import SlurmSim.Select.NodeUsage
import SlurmSim.Select.PowerLayout

/-!
# Expanding a job

`_job_expand` moves all resources of one job to another.  Both jobs leave the records
of the plugin; the resources are merged node by node, each of the three arrays with an
offset of its own; and the job that was expanded is entered again.
-/

namespace SlurmSim.Select

open SlurmSim.Common

/-- What `_job_expand` reads and writes of a `struct job_record` and its details, and
`nhosts` of its resources. -/
structure JobRecord where
  nodeBitmap : Finset Nat
  wholeNode : Nat
  totalCpus : Nat
  cpuCnt : Nat
  minCpus : Nat
  maxCpus : Nat
  totalNodes : Nat
  nodeCnt : Nat
  minNodes : Nat
  nhosts : Nat
deriving DecidableEq

structure ExpandState where
  plugin : SelectState
  records : Nat → JobRecord

/-! ## Bits of a node -/

/-- `count_job_resources_node` -/
def countJobResourcesNode (job : JobResources) (nodeId : Nat) : Nat :=
  ((nodeCoreBits job nodeId).getD []).count true

/-- `job_resources_bits_copy` for the core bitmap; the offsets are 16 bits wide. -/
def jobResourcesBitsCopy (new : JobResources) (newOffset : Nat) (old : JobResources)
    (oldOffset oldNhosts : Nat) : JobResources :=
  let newNode := newOffset % 2 ^ 16
  let oldNode := oldOffset % 2 ^ 16
  if new.cpus.length ≤ newNode ∨ oldNhosts ≤ oldNode then new
  else
    let (newBit, newCnt) := locateNode new.sockCore newNode 0
    let (oldBit, oldCnt) := locateNode old.sockCore oldNode 0
    { new with
      coreBitmap := (List.range (min newCnt oldCnt)).foldl
        (fun bits i => if old.coreBitmap.getD (oldBit + i) false then bits.set (newBit + i) true
          else bits)
        new.coreBitmap }

/-! ## The loop over the nodes -/

/-- The arguments of the merge: the resources of the two jobs, `nhosts`, and the nodes
that the jobs still have. -/
structure Merger where
  fromRes : JobResources
  toRes : JobResources
  fromNhosts : Nat
  toNhosts : Nat
  fromNodes : Finset Nat
  toNodes : Finset Nat
  wholeNode : Nat

/-- The variables of the loop; the offsets are counted from 0. -/
structure Merging where
  fromOffset : Nat
  toOffset : Nat
  newOffset : Nat
  new : JobResources
  fromCpus : List Nat
  totalCpus : Nat

namespace Merger

variable (sys : System) (m : Merger)

def fromUsed (node : Nat) : Bool := node ∈ m.fromRes.nodeBitmap ∧ node ∈ m.fromNodes

def toUsed (node : Nat) : Bool := node ∈ m.toRes.nodeBitmap ∧ node ∈ m.toNodes

/-- `tmp_bitmap` -/
def newNodes : Finset Nat :=
  (m.toRes.nodeBitmap ∪ m.fromRes.nodeBitmap) ∩ (m.toNodes ∪ m.fromNodes)

/-- `_create_job_resources` and `build_job_resources`. -/
def newResources : JobResources :=
  let nodes := (List.range sys.nodeCount).filter (· ∈ m.newNodes)
  { coreBitmap := List.replicate ((nodes.map fun node => (sys.record node).coreCnt).sum) false
    cpus := List.replicate nodes.length 0
    memoryAllocated := List.replicate nodes.length 0
    nodeBitmap := m.newNodes
    nodeReq := m.toRes.nodeReq
    ncpus := m.fromRes.ncpus + m.toRes.ncpus
    sockCore := System.buildSockCore (nodes.map sys.record)
    wholeNode := m.toRes.wholeNode }

/-- The part of a node that comes from the job that is given up. -/
def takeFrom (st : Merging) : Merging :=
  { st with
    new := jobResourcesBitsCopy
      { st.new with
        cpus := st.new.cpus.set st.newOffset (m.fromRes.cpus.getD st.fromOffset 0)
        memoryAllocated := st.new.memoryAllocated.set st.newOffset
          (m.fromRes.memoryAllocated.getD st.fromOffset 0) }
      st.newOffset m.fromRes st.fromOffset m.fromNhosts
    fromCpus := st.fromCpus.set st.fromOffset 0 }

/-- The part of a node that comes from the job that is expanded; CPUs are 16 bits wide. -/
def takeTo (st : Merging) : Merging :=
  { st with
    new := jobResourcesBitsCopy
      { st.new with
        cpus := st.new.cpus.set st.newOffset
          ((st.new.cpus.getD st.newOffset 0 + m.toRes.cpus.getD st.toOffset 0) % 2 ^ 16)
        memoryAllocated := st.new.memoryAllocated.set st.newOffset
          (st.new.memoryAllocated.getD st.newOffset 0 +
            m.toRes.memoryAllocated.getD st.toOffset 0) }
      st.newOffset m.toRes st.toOffset m.toNhosts }

/-- The CPU count of a node with cores of both jobs. -/
def adjustCpus (st : Merging) : Merging :=
  let fromCoreCnt := countJobResourcesNode m.fromRes st.fromOffset
  let toCoreCnt := countJobResourcesNode m.toRes st.toOffset
  let newCoreCnt := countJobResourcesNode st.new st.newOffset
  if fromCoreCnt + toCoreCnt = newCoreCnt then st
  else
    { st with
      new := { st.new with
        cpus := st.new.cpus.set st.newOffset
          (st.new.cpus.getD st.newOffset 0 * newCoreCnt % 2 ^ 16 / (fromCoreCnt + toCoreCnt)) } }

/-- The body of the loop for a node that one of the jobs still has. -/
def mergeUsed (node : Nat) (st : Merging) : Merging :=
  let st := if m.fromUsed node then m.takeFrom st else st
  let st := if m.toUsed node then m.takeTo st else st
  let st := if m.fromUsed node ∧ m.toUsed node then m.adjustCpus st else st
  { st with
    newOffset := st.newOffset + 1
    totalCpus := st.totalCpus +
      if m.wholeNode = 1 then (sys.record node).cpus else st.new.cpus.getD st.newOffset 0 }

/-- One node of the loop. -/
def mergeNode (st : Merging) (node : Nat) : Merging :=
  let merged := if m.fromUsed node ∨ m.toUsed node then m.mergeUsed sys node st else st
  { merged with
    fromOffset := st.fromOffset + if node ∈ m.fromRes.nodeBitmap then 1 else 0
    toOffset := st.toOffset + if node ∈ m.toRes.nodeBitmap then 1 else 0 }

/-- The loop; nodes before the first and behind the last one of both jobs are passed
over. -/
def merge : Merging :=
  (List.range sys.nodeCount).foldl (m.mergeNode sys)
    ⟨0, 0, 0, m.newResources sys, m.fromRes.cpus, 0⟩

end Merger

/-! ## The whole function -/

namespace ExpandState

variable (sys : System)

/-- What is merged for two jobs. -/
def merger (st : ExpandState) (fromJob toJob : Nat) : Merger where
  fromRes := st.plugin.resrcs fromJob
  toRes := st.plugin.resrcs toJob
  fromNhosts := (st.records fromJob).nhosts
  toNhosts := (st.records toJob).nhosts
  fromNodes := (st.records fromJob).nodeBitmap
  toNodes := (st.records toJob).nodeBitmap
  wholeNode := (st.records toJob).wholeNode

/-- The end of `_job_expand`: "new" becomes "to", and "from" is cleared. -/
def swapData (st : ExpandState) (fromJob toJob : Nat) (merged : Merging) : ExpandState where
  plugin := (st.plugin.apply sys.cluster
      (.assign toJob { st.plugin.jobs toJob with jobResrcs := merged.new })).apply sys.cluster
      (.assign fromJob
        { st.plugin.jobs fromJob with
          jobResrcs := { st.plugin.resrcs fromJob with
            cpus := merged.fromCpus, ncpus := 0, nodeBitmap := ∅ } })
  records := Function.update
    (Function.update st.records toJob
      { st.records toJob with
        nodeBitmap := (st.records toJob).nodeBitmap ∪ (st.records fromJob).nodeBitmap
        totalCpus := merged.totalCpus, cpuCnt := merged.totalCpus
        minCpus := merged.totalCpus, maxCpus := merged.totalCpus
        totalNodes := merged.new.cpus.length, nodeCnt := merged.new.cpus.length
        nhosts := merged.new.cpus.length })
    fromJob
    { st.records fromJob with
      nodeBitmap := ∅, totalCpus := 0, minCpus := 0, maxCpus := 0
      totalNodes := 0, nodeCnt := 0, minNodes := 0, nhosts := 0 }

/-- Both jobs leave the records. -/
def leave (st : ExpandState) (fromJob toJob : Nat) : ExpandState :=
  { st with
    plugin := (st.plugin.apply sys.cluster (.rmJobFromRes fromJob 0)).apply sys.cluster
      (.rmJobFromRes toJob 0) }

/-- `_job_expand` -/
def jobExpand (st : ExpandState) (fromJob toJob : Nat) : Bool × ExpandState :=
  if fromJob = toJob then (false, st)
  else if (st.plugin.jobs fromJob).hasCores = false ∨ (st.plugin.jobs toJob).hasCores = false then
    (false, st)
  else
    let left := st.leave sys fromJob toJob
    let swapped := left.swapData sys fromJob toJob ((left.merger fromJob toJob).merge sys)
    (true, { swapped with plugin := swapped.plugin.apply sys.cluster (.addJobToRes toJob 0) })

end ExpandState

end SlurmSim.Select
