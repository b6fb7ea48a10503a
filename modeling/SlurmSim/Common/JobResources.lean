import Mathlib.Algebra.GroupWithZero.Nat
import Mathlib.Data.Finset.Union
import Mathlib.Data.List.Sort

/-!
# Job resources

The resources of a job name its nodes and, packed node after node, the cores it
has on them.  Three walks spread the packed bitmap over the cores of the whole
cluster: to test it against a set of used cores, to add it and to remove it.
-/

namespace SlurmSim.Common

open List

/-- The nodes of the cluster with `cr_node_num_cores`. -/
structure Cluster where
  nodeRecordCount : Nat
  crNodeNumCores : Nat → Nat
  positive : ∀ node, 0 < crNodeNumCores node

namespace Cluster

/-- `cr_get_coremap_offset`, `cr_node_cores_offset`: the first core of a node. -/
def crGetCoremapOffset (c : Cluster) (node : Nat) : Nat :=
  ((List.range node).map c.crNodeNumCores).sum

end Cluster

/-- One entry of `sockets_per_node`, `cores_per_socket` and `sock_core_rep_count`. -/
structure SockCore where
  socketsPerNode : Nat
  coresPerSocket : Nat
  repCount : Nat
deriving DecidableEq, Repr

namespace SockCore

/-- The cores of each node the entry describes. -/
def coreCnt (entry : SockCore) : Nat := entry.socketsPerNode * entry.coresPerSocket

/-- The core counts of the described nodes, one for each node. -/
def layout (entries : List SockCore) : List Nat :=
  entries.flatMap fun entry => List.replicate entry.repCount entry.coreCnt

/-- The search of `extract_job_resources_node`: the entries without the node, its
first bit and its number of cores. -/
def extract : List SockCore → Nat → Nat → Option (List SockCore × Nat × Nat)
  | [], _, _ => none
  | entry :: rest, nodeInx, bitInx =>
    if entry.repCount ≤ nodeInx then
      (extract rest (nodeInx - entry.repCount) (bitInx + entry.coreCnt * entry.repCount)).map
        fun (entries, found) => (entry :: entries, found)
    else if entry.repCount = 1 then
      some (rest, bitInx + entry.coreCnt * nodeInx, entry.coreCnt)
    else
      some ({ entry with repCount := entry.repCount - 1 } :: rest,
        bitInx + entry.coreCnt * nodeInx, entry.coreCnt)

end SockCore

/-- The fields of `struct job_resources` that the select plugin and the gang
scheduler read; the arrays have one entry for each node of the job. -/
structure JobResources where
  coreBitmap : List Bool
  cpus : List Nat
  memoryAllocated : List UInt64
  nodeBitmap : Finset Nat
  nodeReq : UInt32
  ncpus : Nat
  sockCore : List SockCore
  wholeNode : Nat
deriving DecidableEq

namespace JobResources

/-- The nodes of the job in the order of the bitmap. -/
def nodes (c : Cluster) (job : JobResources) : List Nat :=
  (List.range c.nodeRecordCount).filter (· ∈ job.nodeBitmap)

/-- The cores of one node; `bits` is the packed bitmap from the node's first bit on. -/
def nodeCores (c : Cluster) (wholeNode : Nat) (node : Nat) (bits : List Bool) : List Nat :=
  ((List.range (c.crNodeNumCores node)).filter fun i =>
    wholeNode = 1 || bits.getD i false).map (c.crGetCoremapOffset node + ·)

/-- The walk over the nodes with `job_bit_inx` that `job_fits_into_cores`,
`add_job_to_cores` and `remove_job_from_cores` share. -/
def walkCores (c : Cluster) (wholeNode : Nat) : List Nat → List Bool → List Nat
  | [], _ => []
  | node :: rest, bits =>
    nodeCores c wholeNode node bits ++
      walkCores c wholeNode rest (bits.drop (c.crNodeNumCores node))

/-- The cores of the job in the full-length bitmap. -/
def cores (c : Cluster) (job : JobResources) : Finset Nat :=
  (walkCores c job.wholeNode (job.nodes c) job.coreBitmap).toFinset

/-- `job_fits_into_cores` -/
def jobFitsIntoCores (c : Cluster) (job : JobResources) (fullBitmap : Finset Nat) : Bool :=
  (walkCores c job.wholeNode (job.nodes c) job.coreBitmap).all (· ∉ fullBitmap)

/-- `add_job_to_cores`; a missing bitmap is allocated. -/
def addJobToCores (c : Cluster) (job : JobResources) (fullBitmap : Option (Finset Nat)) :
    Finset Nat :=
  fullBitmap.getD ∅ ∪ job.cores c

/-- `remove_job_from_cores` -/
def removeJobFromCores (c : Cluster) (job : JobResources) (fullBitmap : Option (Finset Nat)) :
    Finset Nat :=
  fullBitmap.getD ∅ \ job.cores c

/-- `extract_job_resources_node`: the node with the position `nodeId` leaves the job. -/
def extractJobResourcesNode (c : Cluster) (job : JobResources) (nodeId : Nat) : JobResources :=
  match SockCore.extract job.sockCore nodeId 0 with
  | none => job
  | some (entries, bitInx, coreCnt) =>
    if coreCnt < 1 then { job with sockCore := entries }
    else
      { job with
        sockCore := entries
        coreBitmap := job.coreBitmap.take bitInx ++ job.coreBitmap.drop (bitInx + coreCnt)
        nodeBitmap := (((job.nodes c)[nodeId]?).map job.nodeBitmap.erase).getD job.nodeBitmap
        cpus := job.cpus.eraseIdx nodeId
        memoryAllocated := job.memoryAllocated.eraseIdx nodeId
        ncpus := (job.cpus.eraseIdx nodeId).sum }

/-- The socket and core description agrees with the nodes, and every array has
one entry for each of them. -/
structure WellFormed (c : Cluster) (job : JobResources) : Prop where
  layout : SockCore.layout job.sockCore = (job.nodes c).map c.crNodeNumCores
  bits : job.coreBitmap.length = ((job.nodes c).map c.crNodeNumCores).sum
  cpus : job.cpus.length = (job.nodes c).length
  memoryAllocated : job.memoryAllocated.length = (job.nodes c).length

/-- Whether the job has the node and has not lost it by resizing. -/
def UsesNode (c : Cluster) (job : JobResources) (node : Nat) : Prop :=
  node ∈ job.nodes c ∧ job.cpus.getD ((job.nodes c).idxOf node) 0 ≠ 0

instance (c : Cluster) (job : JobResources) (node : Nat) : Decidable (job.UsesNode c node) :=
  inferInstanceAs (Decidable (_ ∧ _))

/-- The memory of the job on the node. -/
def memoryOn (c : Cluster) (job : JobResources) (node : Nat) : Nat :=
  if job.UsesNode c node then (job.memoryAllocated.getD ((job.nodes c).idxOf node) 0).toNat else 0

/-- What the job adds to the state of the node. -/
def nodeReqOn (c : Cluster) (job : JobResources) (node : Nat) : Nat :=
  if job.UsesNode c node then job.nodeReq.toNat else 0

/-! ## The walks as operations on sets -/

variable {c : Cluster} {job : JobResources}

theorem jobFitsIntoCores_iff {fullBitmap : Finset Nat} :
    job.jobFitsIntoCores c fullBitmap = true ↔ Disjoint (job.cores c) fullBitmap := by
  simp [jobFitsIntoCores, cores, Finset.disjoint_left]

theorem walkCores_append (wholeNode : Nat) (front back : List Nat) (bits : List Bool) :
    walkCores c wholeNode (front ++ back) bits = walkCores c wholeNode front bits ++
        walkCores c wholeNode back (bits.drop (front.map c.crNodeNumCores).sum) := by
  induction front generalizing bits with
  | nil => rfl
  | cons node front ih =>
    simp only [cons_append, walkCores, ih, append_assoc, drop_drop, map_cons, sum_cons]

theorem walkCores_congr (wholeNode : Nat) {nodes : List Nat} {bits bits' : List Bool}
    (same : ∀ i < (nodes.map c.crNodeNumCores).sum, bits.getD i false = bits'.getD i false) :
    walkCores c wholeNode nodes bits = walkCores c wholeNode nodes bits' := by
  induction nodes generalizing bits bits' with
  | nil => rfl
  | cons node nodes ih =>
    rw [map_cons, sum_cons] at same
    have here : nodeCores c wholeNode node bits = nodeCores c wholeNode node bits' := by
      refine congrArg (List.map _) (filter_congr fun i mem => ?_)
      rw [mem_range] at mem
      rw [same i (by omega)]
    have rest : ∀ i < (nodes.map c.crNodeNumCores).sum,
        (bits.drop (c.crNodeNumCores node)).getD i false =
          (bits'.drop (c.crNodeNumCores node)).getD i false := by
      intro i mem
      have shifted := same (c.crNodeNumCores node + i) (by omega)
      simpa only [getD_eq_getElem?_getD, getElem?_drop] using shifted
    rw [walkCores, walkCores, here, ih rest]

end JobResources

/-! ## Taking a node out -/

namespace SockCore

theorem layout_cons (entry : SockCore) (entries : List SockCore) :
    layout (entry :: entries) = List.replicate entry.repCount entry.coreCnt ++ layout entries := rfl

theorem split_within {entry : SockCore} {more front back : List Nat} {cnt : Nat}
    (split : List.replicate entry.repCount entry.coreCnt ++ more = front ++ cnt :: back)
    (within : front.length < entry.repCount) :
    front = List.replicate front.length entry.coreCnt ∧ cnt = entry.coreCnt ∧
      back = List.replicate (entry.repCount - front.length - 1) entry.coreCnt ++ more := by
  rcases append_eq_append_iff.mp split with ⟨between, frontEq, _⟩ | ⟨between, repEq, restEq⟩
  · rw [frontEq, length_append, length_replicate] at within
    omega
  · obtain ⟨lengths, frontEq, betweenEq⟩ := replicate_eq_append_iff.mp repEq
    obtain ⟨left, leftEq⟩ : ∃ left, between.length = left + 1 := ⟨between.length - 1, by omega⟩
    rw [betweenEq, leftEq, replicate_succ, cons_append, List.cons.injEq] at restEq
    refine ⟨frontEq, restEq.1, ?_⟩
    rw [restEq.2]
    congr 2
    omega

theorem split_behind {entry : SockCore} {more front back : List Nat} {cnt : Nat}
    (split : List.replicate entry.repCount entry.coreCnt ++ more = front ++ cnt :: back)
    (behind : entry.repCount ≤ front.length) :
    ∃ front', front = List.replicate entry.repCount entry.coreCnt ++ front' ∧
      more = front' ++ cnt :: back := by
  rcases append_eq_append_iff.mp split with ⟨between, frontEq, moreEq⟩ | ⟨between, repEq, restEq⟩
  · exact ⟨between, frontEq, moreEq⟩
  · have lengths := congrArg List.length repEq
    rw [length_replicate, length_append] at lengths
    have noneBetween : between = [] := eq_nil_of_length_eq_zero (by omega)
    rw [noneBetween, append_nil] at repEq
    rw [noneBetween, nil_append] at restEq
    exact ⟨[], by rw [repEq, append_nil], restEq.symm⟩

/-- The search finds the bits of the node and leaves the description of the others. -/
theorem extract_spec {entries : List SockCore} {front back : List Nat} {cnt bitInx : Nat}
    (split : layout entries = front ++ cnt :: back) :
    ∃ entries', extract entries front.length bitInx = some (entries', bitInx + front.sum, cnt) ∧
      layout entries' = front ++ back := by
  induction entries generalizing front bitInx with
  | nil => simp [layout] at split
  | cons entry entries ih =>
    rw [layout_cons] at split
    rcases Nat.lt_or_ge front.length entry.repCount with within | behind
    · obtain ⟨frontEq, rfl, rfl⟩ := split_within split within
      obtain ⟨nodeInx, rfl⟩ : ∃ nodeInx, front = List.replicate nodeInx entry.coreCnt :=
        ⟨_, frontEq⟩
      rw [length_replicate] at within ⊢
      rw [extract, if_neg (Nat.not_le.mpr within), sum_replicate_nat, Nat.mul_comm nodeInx]
      split_ifs with single
      · refine ⟨entries, rfl, ?_⟩
        have first : nodeInx = 0 := by omega
        simp [first, single]
      · refine ⟨_, rfl, ?_⟩
        rw [layout_cons, ← append_assoc, replicate_append_replicate]
        have left : entry.repCount - 1 = nodeInx + (entry.repCount - nodeInx - 1) := by omega
        exact congrArg (List.replicate · entry.coreCnt ++ layout entries) left
    · obtain ⟨front', rfl, rest⟩ := split_behind split behind
      obtain ⟨entries', found, left⟩ :=
        @ih front' (bitInx + entry.coreCnt * entry.repCount) rest
      rw [extract, if_pos behind]
      refine ⟨entry :: entries', ?_, ?_⟩
      · rw [length_append, length_replicate, Nat.add_sub_cancel_left, found,
          sum_append, sum_replicate_nat, Nat.mul_comm entry.repCount, ← Nat.add_assoc]
        rfl
      · rw [layout_cons, left, append_assoc]

end SockCore

namespace JobResources

variable {c : Cluster} {job : JobResources}

theorem nodes_nodup : (job.nodes c).Nodup := nodup_range.filter _

variable {front back : List Nat} {node : Nat} {less : JobResources}

theorem nodes_erase (split : job.nodes c = front ++ node :: back)
    (erased : less.nodeBitmap = job.nodeBitmap.erase node) : less.nodes c = front ++ back := by
  have nodup : (front ++ node :: back).Nodup := split ▸ nodes_nodup
  have filtered : less.nodes c = (job.nodes c).filter (· != node) := by
    unfold nodes
    rw [filter_filter, erased]
    refine filter_congr fun other _ => ?_
    rw [Bool.eq_iff_iff]
    simp [Finset.mem_erase]
  rw [filtered, split, ← nodup.erase_eq_filter, erase_append_right, erase_cons_head]
  intro inFront
  exact (nodup_append.mp nodup).2.2 node inFront node mem_cons_self rfl

theorem usage_outside (outside : c.nodeRecordCount ≤ node) :
    job.memoryOn c node = 0 ∧ job.nodeReqOn c node = 0 := by
  have unused : ¬job.UsesNode c node := by
    intro uses
    have inRange := mem_range.mp (mem_of_mem_filter uses.1)
    omega
  exact ⟨if_neg unused, if_neg unused⟩

theorem nodes_split (mem : node ∈ job.nodes c) :
    ∃ front back, job.nodes c = front ++ node :: back ∧ (job.nodes c).idxOf node = front.length := by
  obtain ⟨front, back, split, notFront⟩ := eq_append_cons_of_mem mem
  refine ⟨front, back, split, ?_⟩
  rw [split, idxOf_append_of_notMem notFront, idxOf_cons_self, Nat.add_zero]

/-- What is left of a job without one of its nodes. -/
structure LessNode (c : Cluster) (job less : JobResources) (front back : List Nat) (node : Nat) :
    Prop where
  nodes : less.nodes c = front ++ back
  bitmap : less.nodeBitmap = job.nodeBitmap.erase node
  layout : SockCore.layout less.sockCore = (front ++ back).map c.crNodeNumCores
  coreBitmap : less.coreBitmap = job.coreBitmap.take (front.map c.crNodeNumCores).sum ++
    job.coreBitmap.drop ((front.map c.crNodeNumCores).sum + c.crNodeNumCores node)
  cpus : less.cpus = job.cpus.eraseIdx front.length
  memoryAllocated : less.memoryAllocated = job.memoryAllocated.eraseIdx front.length
  nodeReq : less.nodeReq = job.nodeReq
  wholeNode : less.wholeNode = job.wholeNode

theorem WellFormed.extract (wf : job.WellFormed c) (split : job.nodes c = front ++ node :: back) :
    LessNode c job (job.extractJobResourcesNode c front.length) front back node := by
  have layoutEq : SockCore.layout job.sockCore =
      front.map c.crNodeNumCores ++ c.crNodeNumCores node :: back.map c.crNodeNumCores := by
    rw [wf.layout, split, map_append, map_cons]
  obtain ⟨entries, found, left⟩ := @SockCore.extract_spec _ _ _ _ 0 layoutEq
  rw [length_map, Nat.zero_add] at found
  have nodeAt : (job.nodes c)[front.length]? = some node := by
    rw [split, getElem?_append_right le_rfl, Nat.sub_self]
    rfl
  have extracted : job.extractJobResourcesNode c front.length = { job with
        sockCore := entries
        coreBitmap := job.coreBitmap.take (front.map c.crNodeNumCores).sum ++
          job.coreBitmap.drop ((front.map c.crNodeNumCores).sum + c.crNodeNumCores node)
        nodeBitmap := job.nodeBitmap.erase node
        cpus := job.cpus.eraseIdx front.length
        memoryAllocated := job.memoryAllocated.eraseIdx front.length
        ncpus := (job.cpus.eraseIdx front.length).sum } := by
    have some_ : ¬c.crNodeNumCores node < 1 := Nat.not_lt.mpr (c.positive node)
    simp only [extractJobResourcesNode, found, if_neg some_, nodeAt, Option.map_some,
      Option.getD_some]
  rw [extracted]
  exact ⟨nodes_erase split rfl, rfl, by rw [left, map_append], rfl, rfl, rfl, rfl, rfl⟩

theorem LessNode.wellFormed (wf : job.WellFormed c) (split : job.nodes c = front ++ node :: back)
    (without : LessNode c job less front back node) : less.WellFormed c := by
  have bits := wf.bits
  have cpus := wf.cpus
  have memory := wf.memoryAllocated
  rw [split] at bits cpus memory
  simp only [map_append, map_cons, sum_append, sum_cons, length_append,
    length_cons] at bits cpus memory
  refine ⟨?_, ?_, ?_, ?_⟩
  · rw [without.nodes, without.layout]
  · rw [without.nodes, without.coreBitmap, map_append, sum_append, length_append,
      length_take, length_drop]
    omega
  · rw [without.nodes, without.cpus, length_eraseIdx_of_lt (by omega), length_append]
    omega
  · rw [without.nodes, without.memoryAllocated, length_eraseIdx_of_lt (by omega), length_append]
    omega

/-- Without the node the job has the cores it had on the other nodes. -/
theorem LessNode.walkCores_eq (wf : job.WellFormed c)
    (split : job.nodes c = front ++ node :: back) (without : LessNode c job less front back node) :
    walkCores c less.wholeNode (less.nodes c) less.coreBitmap =
      walkCores c job.wholeNode front job.coreBitmap ++ walkCores c job.wholeNode back
          (job.coreBitmap.drop ((front.map c.crNodeNumCores).sum + c.crNodeNumCores node)) := by
  have enough : (front.map c.crNodeNumCores).sum ≤ job.coreBitmap.length := by
    rw [wf.bits, split, map_append, sum_append]
    exact Nat.le_add_right _ _
  rw [without.wholeNode, without.nodes, walkCores_append, without.coreBitmap]
  congr 1
  · refine walkCores_congr job.wholeNode fun i mem => ?_
    rw [getD_eq_getElem?_getD, getElem?_append_left (by rw [length_take]; omega),
      getElem?_take_of_lt mem, getD_eq_getElem?_getD]
  · rw [drop_append_of_le_length (by rw [length_take]; omega), drop_take]
    simp

theorem LessNode.cores_subset (wf : job.WellFormed c)
    (split : job.nodes c = front ++ node :: back) (without : LessNode c job less front back node) :
    less.cores c ⊆ job.cores c := by
  intro core mem
  rw [cores, without.walkCores_eq wf split, mem_toFinset, mem_append] at mem
  rw [cores, split, walkCores_append, mem_toFinset, mem_append, walkCores, mem_append, drop_drop]
  rcases mem with inFront | inBack
  · exact Or.inl inFront
  · exact Or.inr (Or.inr inBack)

theorem getD_eraseIdx_idxOf {α : Type} {other : Nat} (nodup : (front ++ node :: back).Nodup)
    (mem : other ∈ front ++ back) (values : List α) (default : α) :
    (values.eraseIdx front.length).getD ((front ++ back).idxOf other) default =
      values.getD ((front ++ node :: back).idxOf other) default := by
  obtain ⟨_, tailNodup, apart⟩ := nodup_append.mp nodup
  simp only [getD_eq_getElem?_getD]
  by_cases inFront : other ∈ front
  · have early : front.idxOf other < front.length := idxOf_lt_length_iff.mpr inFront
    rw [idxOf_append_of_mem inFront, idxOf_append_of_mem inFront, getElem?_eraseIdx_of_lt early]
  · have inBack : other ∈ back := (mem_append.mp mem).resolve_left inFront
    have ne : node ≠ other := by
      rintro rfl
      exact (nodup_cons.mp tailNodup).1 inBack
    rw [idxOf_append_of_notMem inFront, idxOf_append_of_notMem inFront,
      idxOf_cons_ne _ ne, getElem?_eraseIdx_of_ge (Nat.le_add_right _ _)]
    rfl

theorem LessNode.usesNode_iff (split : job.nodes c = front ++ node :: back)
    (without : LessNode c job less front back node) (other : Nat) :
    less.UsesNode c other ↔ other ≠ node ∧ job.UsesNode c other := by
  have nodup : (front ++ node :: back).Nodup := split ▸ nodes_nodup
  obtain ⟨_, tailNodup, apart⟩ := nodup_append.mp nodup
  have insideIff : other ∈ front ++ back ↔ other ≠ node ∧ other ∈ front ++ node :: back := by
    simp only [mem_append, mem_cons]
    constructor
    · rintro (inFront | inBack)
      · exact ⟨apart other inFront node mem_cons_self, Or.inl inFront⟩
      · refine ⟨?_, Or.inr (Or.inr inBack)⟩
        rintro rfl
        exact (nodup_cons.mp tailNodup).1 inBack
    · rintro ⟨ne, inFront | same | inBack⟩
      · exact Or.inl inFront
      · exact absurd same ne
      · exact Or.inr inBack
  unfold UsesNode
  rw [without.nodes, without.cpus, split, ← and_assoc, ← insideIff]
  refine and_congr_right fun mem => ?_
  rw [getD_eraseIdx_idxOf nodup mem]

/-- Without the node the job uses the other nodes as before. -/
theorem LessNode.usage (split : job.nodes c = front ++ node :: back)
    (without : LessNode c job less front back node) (other : Nat) :
    less.memoryOn c other = (if other = node then 0 else job.memoryOn c other) ∧
      less.nodeReqOn c other = if other = node then 0 else job.nodeReqOn c other := by
  have nodup : (front ++ node :: back).Nodup := split ▸ nodes_nodup
  have usesIff := without.usesNode_iff split other
  by_cases uses : less.UsesNode c other
  · obtain ⟨different, usedBefore⟩ := usesIff.mp uses
    have mem : other ∈ front ++ back := without.nodes ▸ uses.1
    rw [memoryOn, nodeReqOn, if_pos uses, if_pos uses, if_neg different, if_neg different,
      memoryOn, nodeReqOn, if_pos usedBefore, if_pos usedBefore, without.nodes,
      without.memoryAllocated, getD_eraseIdx_idxOf nodup mem, without.nodeReq, split]
    exact ⟨rfl, rfl⟩
  · rw [memoryOn, nodeReqOn, if_neg uses, if_neg uses]
    rcases eq_or_ne other node with same | different
    · rw [if_pos same, if_pos same]
      exact ⟨rfl, rfl⟩
    · have unused : ¬job.UsesNode c other := fun usedBefore => uses (usesIff.mpr ⟨different, usedBefore⟩)
      rw [if_neg different, if_neg different, memoryOn, nodeReqOn, if_neg unused, if_neg unused]
      exact ⟨rfl, rfl⟩

end JobResources

end SlurmSim.Common
