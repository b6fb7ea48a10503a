import Mathlib.Data.List.GetD
import SlurmSim.Lib.Packed
import SlurmSim.Select.GivenCores
import SlurmSim.Select.JobExpand

/-!
# Merging resources node by node

After the nodes below some index the new resources hold what the two jobs had on them,
packed as the new set of nodes demands, and nothing yet for the nodes that follow.
-/

namespace SlurmSim.Select

open SlurmSim.Common SlurmSim.Lib SlurmSim.Lib.Packed List

/-! ## Where the bits of a node stand -/

/-- The cores whose bits are set for a node of the job. -/
def coresAt (job : JobResources) (nodeId : Nat) : Finset Nat :=
  (Finset.range (locateNode job.sockCore nodeId 0).2).filter fun k =>
    job.coreBitmap.getD ((locateNode job.sockCore nodeId 0).1 + k) false = true

theorem locateNode_eq (entries : List SockCore) (nodeId bitInx : Nat) :
    locateNode entries nodeId bitInx = (bitInx + ((SockCore.layout entries).take nodeId).sum,
        (SockCore.layout entries).getD nodeId 0) := by
  induction entries generalizing nodeId bitInx with
  | nil => simp [locateNode, SockCore.layout]
  | cons entry rest ih =>
    rw [locateNode, SockCore.layout_cons]
    split_ifs with behind
    · rw [ih, take_append, getD_append_right _ _ _ _ (by simpa using behind)]
      simp [take_of_length_le, behind, Nat.mul_comm, Nat.add_assoc]
    · rw [take_append_of_le_length (by simp; omega), take_replicate,
        getD_append _ _ _ _ (by simp; omega), getD_replicate _ (by omega)]
      simp [Nat.min_eq_left (by omega : nodeId ≤ entry.repCount), Nat.mul_comm]

section Located

variable {c : Cluster} {job : JobResources} {node : Nat}

theorem nodes_eq_members (c : Cluster) (job : JobResources) :
    job.nodes c = members job.nodeBitmap c.nodeRecordCount := rfl

theorem locateNode_of_layout (layout : SockCore.layout job.sockCore =
      (job.nodes c).map c.crNodeNumCores)
    (mem : node ∈ job.nodeBitmap) (below : node < c.nodeRecordCount) :
    locateNode job.sockCore (place job.nodeBitmap node) 0 =
      (blockStart job.nodeBitmap c.crNodeNumCores node, c.crNodeNumCores node) := by
  rw [locateNode_eq, layout, nodes_eq_members, ← map_take,
    take_members (Nat.le_of_lt below), Nat.zero_add, getD_eq_getElem?_getD, getElem?_map,
    getElem?_members mem below]
  rfl

theorem countJobResourcesNode_eq (layout : SockCore.layout job.sockCore =
      (job.nodes c).map c.crNodeNumCores)
    (bits : job.coreBitmap.length = ((job.nodes c).map c.crNodeNumCores).sum)
    (mem : node ∈ job.nodeBitmap) (below : node < c.nodeRecordCount) :
    countJobResourcesNode job (place job.nodeBitmap node) =
      (coresAt job (place job.nodeBitmap node)).card := by
  have located := locateNode_of_layout layout mem below
  have within : blockStart job.nodeBitmap c.crNodeNumCores node + c.crNodeNumCores node ≤
      job.coreBitmap.length := by
    rw [bits]
    exact blockStart_add_le c.crNodeNumCores mem below
  have positive := c.positive node
  unfold countJobResourcesNode nodeCoreBits coresAt
  rw [located]
  dsimp only
  rw [if_neg (by omega), if_neg (by omega), Option.getD_some]
  generalize blockStart job.nodeBitmap c.crNodeNumCores node = start at within ⊢
  generalize c.crNodeNumCores node = width at within ⊢
  have spelled : (job.coreBitmap.drop start).take width =
      (List.range width).map fun k => job.coreBitmap.getD (start + k) false := by
    refine ext_getElem (by simp; omega) fun k inTake inRange => ?_
    rw [length_map, length_range] at inRange
    simp [getElem?_eq_getElem (by omega : start + k < job.coreBitmap.length)]
  rw [spelled, ← Nat.count_eq_card_filter_range, Nat.count, List.count, countP_map]
  congr 1

end Located

/-! ## Copying the bits of a node -/

theorem foldl_copyBits (bits old : List Bool) (newBit oldBit count : Nat)
    (within : newBit + count ≤ bits.length) :
    let copied := (List.range count).foldl
      (fun bits i => if old.getD (oldBit + i) false then bits.set (newBit + i) true else bits) bits
    copied.length = bits.length ∧ ∀ j, copied.getD j false = true ↔ bits.getD j false = true ∨
        ∃ k < count, j = newBit + k ∧ old.getD (oldBit + k) false = true := by
  induction count with
  | zero => simp
  | succ count ih =>
    obtain ⟨length, bit⟩ := ih (by omega)
    rw [range_succ, foldl_append, foldl_cons, foldl_nil]
    have more : ∀ j, (∃ k < count + 1, j = newBit + k ∧ old.getD (oldBit + k) false = true) ↔
        (∃ k < count, j = newBit + k ∧ old.getD (oldBit + k) false = true) ∨
          j = newBit + count ∧ old.getD (oldBit + count) false = true := by
      intro j
      constructor
      · rintro ⟨k, less, at_, set_⟩
        rcases Nat.lt_succ_iff_lt_or_eq.mp less with earlier | rfl
        · exact Or.inl ⟨k, earlier, at_, set_⟩
        · exact Or.inr ⟨at_, set_⟩
      · rintro (⟨k, less, at_, set_⟩ | ⟨at_, set_⟩)
        · exact ⟨k, by omega, at_, set_⟩
        · exact ⟨count, by omega, at_, set_⟩
    split_ifs with isSet
    · refine ⟨by rw [length_set, length], fun j => ?_⟩
      rw [more, ← or_assoc, ← bit]
      by_cases here : j = newBit + count
      · subst here
        simp only [isSet, and_self, or_true, iff_true]
        rw [getD_eq_getElem?_getD, getElem?_set_self (by omega)]
        rfl
      · rw [getD_eq_getElem?_getD, getElem?_set_ne (by omega), ← getD_eq_getElem?_getD]
        simp [here]
    · refine ⟨length, fun j => ?_⟩
      rw [more, ← or_assoc, ← bit]
      exact (or_iff_left fun last => isSet last.2).symm

/-- What a copy of the bits of a node does to the new bitmap. -/
structure BitsCopied (new copied : JobResources) (start : Nat) (cores : Finset Nat) : Prop where
  same : copied = { new with coreBitmap := copied.coreBitmap }
  length : copied.coreBitmap.length = new.coreBitmap.length
  bits : ∀ j, copied.coreBitmap.getD j false = true ↔
    new.coreBitmap.getD j false = true ∨ ∃ k ∈ cores, j = start + k

theorem jobResourcesBitsCopy_copied {new old : JobResources} {newOffset oldOffset oldNhosts : Nat}
    {start width oldStart : Nat} (newSmall : newOffset < 2 ^ 16) (oldSmall : oldOffset < 2 ^ 16)
    (newInside : newOffset < new.cpus.length) (oldInside : oldOffset < oldNhosts)
    (newAt : locateNode new.sockCore newOffset 0 = (start, width))
    (oldAt : locateNode old.sockCore oldOffset 0 = (oldStart, width))
    (within : start + width ≤ new.coreBitmap.length) :
    BitsCopied new (jobResourcesBitsCopy new newOffset old oldOffset oldNhosts) start
      (coresAt old oldOffset) := by
  obtain ⟨length, bit⟩ := foldl_copyBits new.coreBitmap old.coreBitmap start oldStart width within
  unfold jobResourcesBitsCopy
  rw [Nat.mod_eq_of_lt newSmall, Nat.mod_eq_of_lt oldSmall]
  rw [if_neg (by omega), newAt, oldAt]
  dsimp only
  rw [Nat.min_self]
  refine ⟨rfl, length, fun j => (bit j).trans (or_congr_right ?_)⟩
  simp only [coresAt, oldAt, Finset.mem_filter, Finset.mem_range]
  constructor
  · rintro ⟨k, less, at_, set_⟩
    exact ⟨k, ⟨less, set_⟩, at_⟩
  · rintro ⟨k, ⟨less, set_⟩, at_⟩
    exact ⟨k, less, at_, set_⟩

/-! ## What the new resources hold -/

namespace Merger

variable (m : Merger) (node : Nat)

def fromCores : Finset Nat :=
  if m.fromUsed node then coresAt m.fromRes (place m.fromRes.nodeBitmap node) else ∅

def toCores : Finset Nat :=
  if m.toUsed node then coresAt m.toRes (place m.toRes.nodeBitmap node) else ∅

def fromCpuCount : Nat :=
  if m.fromUsed node then m.fromRes.cpus.getD (place m.fromRes.nodeBitmap node) 0 else 0

def toCpuCount : Nat :=
  if m.toUsed node then m.toRes.cpus.getD (place m.toRes.nodeBitmap node) 0 else 0

def fromMemory : UInt64 :=
  if m.fromUsed node then m.fromRes.memoryAllocated.getD (place m.fromRes.nodeBitmap node) 0 else 0

def toMemory : UInt64 :=
  if m.toUsed node then m.toRes.memoryAllocated.getD (place m.toRes.nodeBitmap node) 0 else 0

/-- The CPU count as it is computed, in 16 bits. -/
def newCpuCount : Nat :=
  if m.toUsed node = false then m.fromCpuCount node
  else if Disjoint (m.fromCores node) (m.toCores node) then
    (m.fromCpuCount node + m.toCpuCount node) % 2 ^ 16
  else
    (m.fromCpuCount node + m.toCpuCount node) % 2 ^ 16 *
      (m.fromCores node ∪ m.toCores node).card % 2 ^ 16 /
        ((m.fromCores node).card + (m.toCores node).card)

/-- What the merge relies on: the resources of both jobs describe their nodes as the
node table does, and the jobs have no nodes beyond them. -/
structure Mergeable (sys : System) (m : Merger) : Prop where
  fromWf : m.fromRes.WellFormed sys.cluster
  toWf : m.toRes.WellFormed sys.cluster
  fromHosts : m.fromNhosts = m.fromRes.cpus.length
  toHosts : m.toNhosts = m.toRes.cpus.length
  fromNodes : m.fromNodes ⊆ m.fromRes.nodeBitmap
  toNodes : m.toNodes ⊆ m.toRes.nodeBitmap
  small : sys.nodeCount ≤ 2 ^ 16

end Merger

/-! ## The state of the loop at a node -/

/-- The number of cores of a node. -/
def System.width (sys : System) (node : Nat) : Nat := sys.cluster.crNodeNumCores node

/-- The variables when some of the entry of a node has been written: the cores, the
CPUs and the memory of that node so far. -/
structure AtNode (sys : System) (m : Merger) (i : Nat) (st : Merging) (cores : Finset Nat)
    (cpus : Nat) (memory : UInt64) : Prop where
  fromOffset : st.fromOffset = place m.fromRes.nodeBitmap i
  toOffset : st.toOffset = place m.toRes.nodeBitmap i
  newOffset : st.newOffset = place m.newNodes i
  sockCore : st.new.sockCore = (m.newResources sys).sockCore
  nodeBitmap : st.new.nodeBitmap = m.newNodes
  bitsLength : st.new.coreBitmap.length = blockStart m.newNodes sys.width sys.nodeCount
  cpusLength : st.new.cpus.length = place m.newNodes sys.nodeCount
  memoryLength : st.new.memoryAllocated.length = place m.newNodes sys.nodeCount
  bits : ∀ j, st.new.coreBitmap.getD j false = true ↔
    (∃ node ∈ members m.newNodes i, ∃ k ∈ m.fromCores node ∪ m.toCores node,
      j = blockStart m.newNodes sys.width node + k) ∨
    ∃ k ∈ cores, j = blockStart m.newNodes sys.width i + k
  cpusHere : st.new.cpus.getD (place m.newNodes i) 0 = cpus
  cpusBefore : ∀ node ∈ members m.newNodes i,
    st.new.cpus.getD (place m.newNodes node) 0 = m.newCpuCount node
  cpusBehind : ∀ j, place m.newNodes i < j → st.new.cpus.getD j 0 = 0
  memoryHere : st.new.memoryAllocated.getD (place m.newNodes i) 0 = memory
  memoryBefore : ∀ node ∈ members m.newNodes i,
    st.new.memoryAllocated.getD (place m.newNodes node) 0 = m.fromMemory node + m.toMemory node
  memoryBehind : ∀ j, place m.newNodes i < j → st.new.memoryAllocated.getD j 0 = 0

section AtNode

variable {sys : System} {m : Merger} {i : Nat} {st : Merging} {cores : Finset Nat} {cpus : Nat}
  {memory : UInt64}

variable {node p : Nat}

theorem mem_newNodes (ok : m.Mergeable sys) :
    node ∈ m.newNodes ↔ m.fromUsed node = true ∨ m.toUsed node = true := by
  have fromInside := @ok.fromNodes node
  have toInside := @ok.toNodes node
  simp only [Merger.newNodes, Merger.fromUsed, Merger.toUsed, Finset.mem_inter, Finset.mem_union,
    decide_eq_true_eq]
  tauto

theorem layout_newResources (sys : System) (m : Merger) :
    SockCore.layout (m.newResources sys).sockCore =
      (members m.newNodes sys.nodeCount).map sys.width := by
  refine (System.layout_buildSockCore _).trans ?_
  rw [map_map]
  rfl

theorem AtNode.locate (at_ : AtNode sys m i st cores cpus memory) (mem : i ∈ m.newNodes)
    (below : i < sys.nodeCount) :
    locateNode st.new.sockCore (place m.newNodes i) 0 =
      (blockStart m.newNodes sys.width i, sys.width i) := by
  have layout : SockCore.layout st.new.sockCore =
      (st.new.nodes sys.cluster).map sys.cluster.crNodeNumCores := by
    rw [at_.sockCore, layout_newResources, nodes_eq_members, at_.nodeBitmap]
    rfl
  have located := locateNode_of_layout layout (at_.nodeBitmap ▸ mem) below
  rwa [at_.nodeBitmap] at located

theorem getD_set_self {α : Type} {l : List α} (mem : p < l.length) (value d : α) :
    (l.set p value).getD p d = value := by
  rw [getD_eq_getElem?_getD, getElem?_set_self mem]
  rfl

theorem getD_set_of_ne {α : Type} (l : List α) {j : Nat} (other : j ≠ p) (value d : α) :
    (l.set p value).getD j d = l.getD j d := by
  rw [getD_eq_getElem?_getD, getElem?_set_ne (Ne.symm other), ← getD_eq_getElem?_getD]

theorem getD_set_zero (l : List Nat) {j : Nat} (zero : l.getD j 0 = 0 ∨ j = p) :
    (l.set p 0).getD j 0 = 0 := by
  by_cases here : j = p
  · rw [here, getD_eq_getElem?_getD, getElem?_set, if_pos rfl]
    split_ifs
    · rfl
    · rfl
  · rw [getD_set_of_ne _ here]
    exact zero.resolve_right here

theorem AtNode.write (at_ : AtNode sys m i st cores cpus memory) (small : sys.nodeCount ≤ 2 ^ 16)
    (mem : i ∈ m.newNodes) (below : i < sys.nodeCount) {old : JobResources}
    {oldOffset oldNhosts oldStart : Nat} (oldSmall : oldOffset < 2 ^ 16)
    (oldInside : oldOffset < oldNhosts)
    (oldAt : locateNode old.sockCore oldOffset 0 = (oldStart, sys.width i)) (cpus' : Nat)
    (memory' : UInt64) :
    AtNode sys m i { st with
        new := jobResourcesBitsCopy { st.new with
            cpus := st.new.cpus.set st.newOffset cpus'
            memoryAllocated := st.new.memoryAllocated.set st.newOffset memory' }
          st.newOffset old oldOffset oldNhosts }
      (cores ∪ coresAt old oldOffset) cpus' memory' := by
  have placeLt : place m.newNodes i < place m.newNodes sys.nodeCount := place_lt mem below
  have placeSmall : place m.newNodes sys.nodeCount ≤ sys.nodeCount := place_le _ _
  have copied : BitsCopied { st.new with
        cpus := st.new.cpus.set st.newOffset cpus'
        memoryAllocated := st.new.memoryAllocated.set st.newOffset memory' }
      (jobResourcesBitsCopy { st.new with
          cpus := st.new.cpus.set st.newOffset cpus'
          memoryAllocated := st.new.memoryAllocated.set st.newOffset memory' }
        st.newOffset old oldOffset oldNhosts)
      (blockStart m.newNodes sys.width i) (coresAt old oldOffset) := by
    rw [at_.newOffset]
    refine jobResourcesBitsCopy_copied (by omega) oldSmall ?_ oldInside (at_.locate mem below)
      oldAt ?_
    · rw [length_set, at_.cpusLength]
      exact placeLt
    · rw [at_.bitsLength]
      exact blockStart_add_le _ mem below
  generalize jobResourcesBitsCopy { st.new with
      cpus := st.new.cpus.set st.newOffset cpus'
      memoryAllocated := st.new.memoryAllocated.set st.newOffset memory' }
    st.newOffset old oldOffset oldNhosts = result at copied
  obtain ⟨same, length, bits⟩ := copied
  have cpusEq : result.cpus = st.new.cpus.set (place m.newNodes i) cpus' := by
    rw [same, at_.newOffset]
  have memoryEq : result.memoryAllocated =
      st.new.memoryAllocated.set (place m.newNodes i) memory' := by
    rw [same, at_.newOffset]
  have before : ∀ node ∈ members m.newNodes i, place m.newNodes node ≠ place m.newNodes i := by
    intro node member
    obtain ⟨less, nodeInside⟩ := mem_members.mp member
    exact Nat.ne_of_lt (place_lt nodeInside less)
  refine ⟨at_.fromOffset, at_.toOffset, at_.newOffset, ?_, ?_, length.trans at_.bitsLength, ?_, ?_,
    fun j => ?_, ?_, fun node member => ?_, fun j behind => ?_, ?_, fun node member => ?_,
    fun j behind => ?_⟩
  · rw [same]
    exact at_.sockCore
  · rw [same]
    exact at_.nodeBitmap
  · rw [cpusEq, length_set, at_.cpusLength]
  · rw [memoryEq, length_set, at_.memoryLength]
  · rw [bits, at_.bits, or_assoc]
    simp only [Finset.mem_union, or_and_right, exists_or]
  · rw [cpusEq, getD_set_self (by rw [at_.cpusLength]; exact placeLt)]
  · rw [cpusEq, getD_set_of_ne _ (before node member)]
    exact at_.cpusBefore node member
  · rw [cpusEq, getD_set_of_ne _ (Nat.ne_of_gt behind)]
    exact at_.cpusBehind j behind
  · rw [memoryEq, getD_set_self (by rw [at_.memoryLength]; exact placeLt)]
  · rw [memoryEq, getD_set_of_ne _ (before node member)]
    exact at_.memoryBefore node member
  · rw [memoryEq, getD_set_of_ne _ (Nat.ne_of_gt behind)]
    exact at_.memoryBehind j behind

/-! ## The parts of the body -/

theorem place_lt_cpus {job : JobResources} (wf : job.WellFormed sys.cluster)
    (mem : i ∈ job.nodeBitmap) (below : i < sys.nodeCount) :
    place job.nodeBitmap i < job.cpus.length := by
  rw [wf.cpus, nodes_eq_members, length_members]
  exact place_lt mem below

theorem place_small (small : sys.nodeCount ≤ 2 ^ 16) (nodes : Finset Nat)
    (below : i < sys.nodeCount) : place nodes i < 2 ^ 16 :=
  (place_le nodes i).trans_lt (below.trans_le small)

theorem fromUsed_mem (used : m.fromUsed node = true) : node ∈ m.fromRes.nodeBitmap :=
  (of_decide_eq_true used).1

theorem toUsed_mem (used : m.toUsed node = true) : node ∈ m.toRes.nodeBitmap :=
  (of_decide_eq_true used).1

theorem AtNode.takeFrom (at_ : AtNode sys m i st ∅ 0 0) (ok : m.Mergeable sys)
    (below : i < sys.nodeCount) (used : m.fromUsed i = true) :
    AtNode sys m i (m.takeFrom st) (m.fromCores i) (m.fromCpuCount i) (m.fromMemory i) := by
  have member := fromUsed_mem used
  have located : locateNode m.fromRes.sockCore st.fromOffset 0 =
      (blockStart m.fromRes.nodeBitmap sys.width i, sys.width i) := by
    rw [at_.fromOffset]
    exact locateNode_of_layout ok.fromWf.layout member below
  have offsetSmall : st.fromOffset < 2 ^ 16 := by
    rw [at_.fromOffset]
    exact place_small ok.small _ below
  have offsetInside : st.fromOffset < m.fromNhosts := by
    rw [at_.fromOffset, ok.fromHosts]
    exact place_lt_cpus ok.fromWf member below
  have written := at_.write ok.small ((mem_newNodes ok).mpr (Or.inl used)) below offsetSmall
    offsetInside located
    (m.fromRes.cpus.getD st.fromOffset 0) (m.fromRes.memoryAllocated.getD st.fromOffset 0)
  have coresEq : m.fromCores i = coresAt m.fromRes st.fromOffset := by
    rw [Merger.fromCores, if_pos used, at_.fromOffset]
  have cpusEq : m.fromCpuCount i = m.fromRes.cpus.getD st.fromOffset 0 := by
    rw [Merger.fromCpuCount, if_pos used, at_.fromOffset]
  have memoryEq : m.fromMemory i = m.fromRes.memoryAllocated.getD st.fromOffset 0 := by
    rw [Merger.fromMemory, if_pos used, at_.fromOffset]
  rw [coresEq, cpusEq, memoryEq]
  exact { written with }

theorem AtNode.takeTo (at_ : AtNode sys m i st (m.fromCores i) (m.fromCpuCount i) (m.fromMemory i))
    (ok : m.Mergeable sys) (below : i < sys.nodeCount) (used : m.toUsed i = true) :
    AtNode sys m i (m.takeTo st) (m.fromCores i ∪ m.toCores i)
      ((m.fromCpuCount i + m.toCpuCount i) % 2 ^ 16) (m.fromMemory i + m.toMemory i) := by
  have member := toUsed_mem used
  have located : locateNode m.toRes.sockCore st.toOffset 0 =
      (blockStart m.toRes.nodeBitmap sys.width i, sys.width i) := by
    rw [at_.toOffset]
    exact locateNode_of_layout ok.toWf.layout member below
  have offsetSmall : st.toOffset < 2 ^ 16 := by
    rw [at_.toOffset]
    exact place_small ok.small _ below
  have offsetInside : st.toOffset < m.toNhosts := by
    rw [at_.toOffset, ok.toHosts]
    exact place_lt_cpus ok.toWf member below
  have written := at_.write ok.small ((mem_newNodes ok).mpr (Or.inr used)) below offsetSmall
    offsetInside located
    ((st.new.cpus.getD st.newOffset 0 + m.toRes.cpus.getD st.toOffset 0) % 2 ^ 16)
    (st.new.memoryAllocated.getD st.newOffset 0 + m.toRes.memoryAllocated.getD st.toOffset 0)
  have coresEq : m.toCores i = coresAt m.toRes st.toOffset := by
    rw [Merger.toCores, if_pos used, at_.toOffset]
  have cpusEq : (m.fromCpuCount i + m.toCpuCount i) % 2 ^ 16 =
      (st.new.cpus.getD st.newOffset 0 + m.toRes.cpus.getD st.toOffset 0) % 2 ^ 16 := by
    rw [at_.newOffset, at_.cpusHere, Merger.toCpuCount, if_pos used, at_.toOffset]
  have memoryEq : m.fromMemory i + m.toMemory i =
      st.new.memoryAllocated.getD st.newOffset 0 + m.toRes.memoryAllocated.getD st.toOffset 0 := by
    rw [at_.newOffset, at_.memoryHere, Merger.toMemory, if_pos used, at_.toOffset]
  rw [coresEq, cpusEq, memoryEq]
  exact { written with }

theorem cores_lt (ok : m.Mergeable sys) {k : Nat} (below : node < sys.nodeCount)
    (mem : k ∈ m.fromCores node ∪ m.toCores node) : k < sys.width node := by
  rcases Finset.mem_union.mp mem with inFrom | inTo
  · unfold Merger.fromCores at inFrom
    split_ifs at inFrom with used
    · rw [coresAt, locateNode_of_layout ok.fromWf.layout (fromUsed_mem used) below] at inFrom
      exact Finset.mem_range.mp (Finset.mem_of_mem_filter _ inFrom)
    · cases inFrom
  · unfold Merger.toCores at inTo
    split_ifs at inTo with used
    · rw [coresAt, locateNode_of_layout ok.toWf.layout (toUsed_mem used) below] at inTo
      exact Finset.mem_range.mp (Finset.mem_of_mem_filter _ inTo)
    · cases inTo

theorem AtNode.coresAt_new (at_ : AtNode sys m i st cores cpus memory) (ok : m.Mergeable sys)
    (mem : i ∈ m.newNodes) (below : i < sys.nodeCount) (bound : ∀ k ∈ cores, k < sys.width i) :
    coresAt st.new (place m.newNodes i) = cores := by
  ext k
  rw [coresAt, at_.locate mem below, Finset.mem_filter, Finset.mem_range, at_.bits]
  constructor
  · rintro ⟨less, ⟨node, member, l, set_, same⟩ | ⟨l, set_, same⟩⟩
    · obtain ⟨earlier, nodeInside⟩ := mem_members.mp member
      have unique := block_unique sys.width mem nodeInside less
        (cores_lt ok (earlier.trans below) set_) same
      exact absurd unique.1.symm (Nat.ne_of_lt earlier)
    · rw [Nat.add_left_cancel same]
      exact set_
  · exact fun set_ => ⟨bound k set_, Or.inr ⟨k, set_, rfl⟩⟩

theorem AtNode.adjustCpus {sum : Nat}
    (at_ : AtNode sys m i st (m.fromCores i ∪ m.toCores i) sum memory) (ok : m.Mergeable sys)
    (below : i < sys.nodeCount) (fromUsed : m.fromUsed i = true) (toUsed : m.toUsed i = true) :
    AtNode sys m i (m.adjustCpus st) (m.fromCores i ∪ m.toCores i)
      (if Disjoint (m.fromCores i) (m.toCores i) then sum
        else sum * (m.fromCores i ∪ m.toCores i).card % 2 ^ 16 /
          ((m.fromCores i).card + (m.toCores i).card)) memory := by
  have inside := (mem_newNodes ok).mpr (Or.inl fromUsed)
  have fromCnt : countJobResourcesNode m.fromRes st.fromOffset = (m.fromCores i).card := by
    rw [at_.fromOffset, Merger.fromCores, if_pos fromUsed]
    exact countJobResourcesNode_eq ok.fromWf.layout ok.fromWf.bits (fromUsed_mem fromUsed) below
  have toCnt : countJobResourcesNode m.toRes st.toOffset = (m.toCores i).card := by
    rw [at_.toOffset, Merger.toCores, if_pos toUsed]
    exact countJobResourcesNode_eq ok.toWf.layout ok.toWf.bits (toUsed_mem toUsed) below
  have newCnt : countJobResourcesNode st.new st.newOffset = (m.fromCores i ∪ m.toCores i).card := by
    have layout : SockCore.layout st.new.sockCore =
        (st.new.nodes sys.cluster).map sys.cluster.crNodeNumCores := by
      rw [at_.sockCore, layout_newResources, nodes_eq_members, at_.nodeBitmap]
      rfl
    have bits : st.new.coreBitmap.length =
        ((st.new.nodes sys.cluster).map sys.cluster.crNodeNumCores).sum := by
      rw [at_.bitsLength, nodes_eq_members, at_.nodeBitmap]
      rfl
    have counted := countJobResourcesNode_eq layout bits (at_.nodeBitmap ▸ inside) below
    rw [at_.nodeBitmap] at counted
    rw [at_.newOffset, counted,
      at_.coresAt_new ok inside below fun k mem => cores_lt ok below mem]
  unfold Merger.adjustCpus
  rw [fromCnt, toCnt, newCnt]
  by_cases apart : Disjoint (m.fromCores i) (m.toCores i)
  · rw [if_pos (Finset.card_union_of_disjoint apart).symm, if_pos apart]
    exact at_
  · have shared : (m.fromCores i).card + (m.toCores i).card ≠
        (m.fromCores i ∪ m.toCores i).card := fun same =>
      apart (Finset.card_union_eq_card_add_card.mp same.symm)
    have placeLt : place m.newNodes i < st.new.cpus.length := by
      rw [at_.cpusLength]
      exact place_lt inside below
    rw [if_neg shared, if_neg apart]
    refine { at_ with cpusLength := ?_, cpusHere := ?_, cpusBefore := ?_, cpusBehind := ?_ }
    · rw [length_set, at_.cpusLength]
    · rw [at_.newOffset, getD_set_self placeLt, at_.cpusHere]
    · intro node mem
      obtain ⟨less, nodeInside⟩ := mem_members.mp mem
      rw [at_.newOffset, getD_set_of_ne _ (Nat.ne_of_lt (place_lt nodeInside less))]
      exact at_.cpusBefore node mem
    · intro j behind
      rw [at_.newOffset, getD_set_of_ne _ (Nat.ne_of_gt behind)]
      exact at_.cpusBehind j behind

/-! ## One node -/

/-- The variables before a node: everything below is merged, nothing behind. -/
def Upto (sys : System) (m : Merger) (i : Nat) (st : Merging) : Prop :=
  AtNode sys m i st ∅ 0 0

/-- The entry of the node is complete. -/
def Complete (sys : System) (m : Merger) (i : Nat) (st : Merging) : Prop :=
  AtNode sys m i st (m.fromCores i ∪ m.toCores i) (m.newCpuCount i) (m.fromMemory i + m.toMemory i)

theorem Upto.complete (upto : Upto sys m i st) (ok : m.Mergeable sys) (below : i < sys.nodeCount) :
    Complete sys m i (let st := if m.fromUsed i then m.takeFrom st else st
       let st := if m.toUsed i then m.takeTo st else st
       if m.fromUsed i ∧ m.toUsed i then m.adjustCpus st else st) := by
  have first : AtNode sys m i (if m.fromUsed i then m.takeFrom st else st) (m.fromCores i)
      (m.fromCpuCount i) (m.fromMemory i) := by
    cases used : m.fromUsed i with
    | true => exact AtNode.takeFrom upto ok below used
    | false =>
      rw [Merger.fromCores, Merger.fromCpuCount, Merger.fromMemory, used]
      exact upto
  generalize (if m.fromUsed i then m.takeFrom st else st) = one at first ⊢
  unfold Complete Merger.newCpuCount
  cases used : m.toUsed i with
  | false =>
    have none_ : m.toCores i = ∅ := by rw [Merger.toCores, used]; rfl
    have noMemory : m.toMemory i = 0 := by rw [Merger.toMemory, used]; rfl
    rw [none_, noMemory, Finset.union_empty, UInt64.add_zero]
    simpa using first
  | true =>
    have second := first.takeTo ok below used
    simp only [if_true, Bool.true_eq_false, if_false, and_true]
    cases fromUsed : m.fromUsed i with
    | true =>
      rw [if_pos rfl]
      exact second.adjustCpus ok below fromUsed used
    | false =>
      have none_ : m.fromCores i = ∅ := by rw [Merger.fromCores, fromUsed]; rfl
      rw [if_neg (by decide), if_pos (none_ ▸ Finset.disjoint_empty_left _)]
      exact second

theorem Upto.skip (upto : Upto sys m i st) (outside : i ∉ m.newNodes) :
    Upto sys m (i + 1) { st with
        fromOffset := st.fromOffset + if i ∈ m.fromRes.nodeBitmap then 1 else 0
        toOffset := st.toOffset + if i ∈ m.toRes.nodeBitmap then 1 else 0 } := by
  have placeEq : place m.newNodes (i + 1) = place m.newNodes i := by
    rw [place_succ, if_neg outside, Nat.add_zero]
  have membersEq : members m.newNodes (i + 1) = members m.newNodes i := by
    rw [members_succ, if_neg outside, append_nil]
  refine ⟨?_, ?_, placeEq ▸ upto.newOffset, upto.sockCore, upto.nodeBitmap, upto.bitsLength,
    upto.cpusLength, upto.memoryLength, fun j => ?_, placeEq ▸ upto.cpusHere,
    membersEq ▸ upto.cpusBefore, placeEq ▸ upto.cpusBehind, placeEq ▸ upto.memoryHere,
    membersEq ▸ upto.memoryBefore, placeEq ▸ upto.memoryBehind⟩
  · rw [place_succ, upto.fromOffset]
  · rw [place_succ, upto.toOffset]
  · rw [membersEq, upto.bits]
    simp

theorem Complete.next {done : Merging} (complete : Complete sys m i done) (mem : i ∈ m.newNodes)
    (totalCpus : Nat) :
    Upto sys m (i + 1) { done with
        newOffset := done.newOffset + 1
        totalCpus := totalCpus
        fromOffset := done.fromOffset + if i ∈ m.fromRes.nodeBitmap then 1 else 0
        toOffset := done.toOffset + if i ∈ m.toRes.nodeBitmap then 1 else 0 } := by
  have placeEq : place m.newNodes (i + 1) = place m.newNodes i + 1 := by
    rw [place_succ, if_pos mem]
  have membersEq : ∀ node, node ∈ members m.newNodes (i + 1) ↔
      node ∈ members m.newNodes i ∨ node = i := by
    intro node
    rw [members_succ, if_pos mem, mem_append, mem_singleton]
  have behind : place m.newNodes i < place m.newNodes (i + 1) := by omega
  refine ⟨?_, ?_, ?_, complete.sockCore, complete.nodeBitmap, complete.bitsLength,
    complete.cpusLength, complete.memoryLength, fun j => ?_, complete.cpusBehind _ behind,
    fun node member => ?_, fun j later => complete.cpusBehind j (behind.trans later),
    complete.memoryBehind _ behind, fun node member => ?_,
    fun j later => complete.memoryBehind j (behind.trans later)⟩
  · rw [place_succ, complete.fromOffset]
  · rw [place_succ, complete.toOffset]
  · rw [placeEq, complete.newOffset]
  · rw [complete.bits]
    constructor
    · rintro (⟨node, member, set_⟩ | set_)
      · exact Or.inl ⟨node, (membersEq node).mpr (Or.inl member), set_⟩
      · exact Or.inl ⟨i, (membersEq i).mpr (Or.inr rfl), set_⟩
    · rintro (⟨node, member, set_⟩ | ⟨_, none_, _⟩)
      · rcases (membersEq node).mp member with earlier | rfl
        · exact Or.inl ⟨node, earlier, set_⟩
        · exact Or.inr set_
      · cases none_
  · rcases (membersEq node).mp member with earlier | rfl
    · exact complete.cpusBefore node earlier
    · exact complete.cpusHere
  · rcases (membersEq node).mp member with earlier | rfl
    · exact complete.memoryBefore node earlier
    · exact complete.memoryHere

theorem Upto.mergeNode (upto : Upto sys m i st) (ok : m.Mergeable sys) (below : i < sys.nodeCount) :
    Upto sys m (i + 1) (m.mergeNode sys st i) := by
  unfold Merger.mergeNode
  by_cases used : m.fromUsed i = true ∨ m.toUsed i = true
  · rw [if_pos used]
    have complete := upto.complete ok below
    unfold Merger.mergeUsed
    rw [upto.fromOffset, upto.toOffset, ← complete.fromOffset, ← complete.toOffset]
    exact complete.next ((mem_newNodes ok).mpr used) _
  · rw [if_neg used]
    exact upto.skip fun mem => used ((mem_newNodes ok).mp mem)

theorem upto_start (sys : System) (m : Merger) :
    Upto sys m 0 ⟨0, 0, 0, m.newResources sys, m.fromRes.cpus, 0⟩ := by
  have length : (members m.newNodes sys.nodeCount).length = place m.newNodes sys.nodeCount :=
    length_members _ _
  have zeros : ∀ {α : Type} (n : Nat) (d : α) (j : Nat), (List.replicate n d).getD j d = d :=
    fun n d j => getElem?_getD_replicate_default_eq d n j
  refine ⟨rfl, rfl, rfl, rfl, rfl, length_replicate, length_replicate.trans length,
    length_replicate.trans length, fun j => ?_, zeros _ _ _, fun node none_ => ?_,
    fun j _ => zeros _ _ _, zeros _ _ _, fun node none_ => ?_, fun j _ => zeros _ _ _⟩
  · simp only [Merger.newResources, zeros]
    simp [members]
  · cases none_
  · cases none_

theorem mergeNode_fromCpus (sys : System) (m : Merger) (st : Merging) (i : Nat) :
    (m.mergeNode sys st i).fromCpus =
      if m.fromUsed i then st.fromCpus.set st.fromOffset 0 else st.fromCpus := by
  have adjusted : ∀ st : Merging, (m.adjustCpus st).fromCpus = st.fromCpus := by
    intro st
    unfold Merger.adjustCpus
    dsimp only
    split_ifs
    · rfl
    · rfl
  unfold Merger.mergeNode Merger.mergeUsed
  cases m.fromUsed i with
  | false =>
    cases m.toUsed i with
    | false => rfl
    | true => rfl
  | true =>
    cases m.toUsed i with
    | false => rfl
    | true => exact adjusted _

/-- The entries of the old job that have been moved. -/
def Cleared (m : Merger) (i : Nat) (st : Merging) : Prop :=
  ∀ node < i, m.fromUsed node = true → st.fromCpus.getD (place m.fromRes.nodeBitmap node) 0 = 0

theorem Cleared.mergeNode (cleared : Cleared m i st)
    (offset : st.fromOffset = place m.fromRes.nodeBitmap i) :
    Cleared m (i + 1) (m.mergeNode sys st i) := by
  intro node less used
  rw [mergeNode_fromCpus, offset]
  rcases Nat.lt_succ_iff_lt_or_eq.mp less with earlier | rfl
  · split_ifs
    · exact getD_set_zero _ (Or.inl (cleared node earlier used))
    · exact cleared node earlier used
  · rw [if_pos used]
    exact getD_set_zero _ (Or.inr rfl)

theorem upto_merge (ok : m.Mergeable sys) :
    Upto sys m sys.nodeCount (m.merge sys) ∧ Cleared m sys.nodeCount (m.merge sys) := by
  have each : ∀ n ≤ sys.nodeCount, Upto sys m n ((List.range n).foldl (m.mergeNode sys)
        ⟨0, 0, 0, m.newResources sys, m.fromRes.cpus, 0⟩) ∧
      Cleared m n ((List.range n).foldl (m.mergeNode sys)
        ⟨0, 0, 0, m.newResources sys, m.fromRes.cpus, 0⟩) := by
    intro n le
    induction n with
    | zero => exact ⟨upto_start sys m, fun node none_ => absurd none_ (Nat.not_lt_zero _)⟩
    | succ n ih =>
      obtain ⟨upto, cleared⟩ := ih (Nat.le_of_lt le)
      rw [range_succ, foldl_append]
      exact ⟨upto.mergeNode ok le, cleared.mergeNode upto.fromOffset⟩
  exact each _ le_rfl

theorem merge_wellFormed (ok : m.Mergeable sys) : (m.merge sys).new.WellFormed sys.cluster := by
  obtain ⟨upto, _⟩ := upto_merge ok
  have nodesEq : (m.merge sys).new.nodes sys.cluster = members m.newNodes sys.nodeCount := by
    rw [nodes_eq_members, upto.nodeBitmap]
    rfl
  refine ⟨?_, ?_, ?_, ?_⟩
  · rw [upto.sockCore, layout_newResources, nodesEq]
    rfl
  · rw [upto.bitsLength, nodesEq]
    rfl
  · rw [upto.cpusLength, nodesEq, length_members]
  · rw [upto.memoryLength, nodesEq, length_members]

end AtNode

end SlurmSim.Select
