import Mathlib.Data.List.GetD
import SlurmSim.Common.CpuArray
import SlurmSim.Common.JobResources
import SlurmSim.Lib.ShiftDown

/-!
# Taking a node out of all arrays

`extract_job_resources_node` on the arrays as they are: the socket and core description
is a prefix of arrays with a capacity, bitmaps and arrays are shifted by loops of their
own, and entries behind the last host keep what they had.
-/

namespace SlurmSim.Common.ExtractNode

open SlurmSim.Lib.ShiftDown SlurmSim.Common.CpuArray List

/-- `struct job_resources`; an entry of `sockCore` holds those of the three arrays of
sockets, cores and repetitions, and bit `i` of `nodeBitmap` stands for node `i`. -/
structure ResourcesArrays where
  nhosts : Nat
  nodeBitmap : List Bool
  sockCore : List SockCore
  coreBitmap : List Bool
  coreBitmapUsed : Option (List Bool)
  cpus : List UInt16
  cpusUsed : List UInt16
  memoryAllocated : List UInt64
  memoryUsed : List UInt64
  cpuArrayValue : List UInt16
  cpuArrayReps : List Nat
  ncpus : UInt32
deriving DecidableEq

/-! ## The function -/

/-- The inner loop over the entries behind an emptied one. -/
def moveEntries : List SockCore → Int → List SockCore
  | entry :: next :: rest, hostCnt =>
    if 0 < hostCnt then next :: moveEntries (next :: rest) (hostCnt - next.repCount)
    else entry :: next :: rest
  | entries, _ => entries

/-- The loop over the entries: the entries without the node, its first bit, and its
number of cores, which is zero if the node was not found. -/
def findEntry : Nat → List SockCore → Int → Nat → Nat → List SockCore × Nat × Nat
  | steps + 1, entry :: rest, hostCnt, nodeInx, bitInx =>
    if entry.repCount ≤ nodeInx then
      let (entries, found) := findEntry steps rest (hostCnt - entry.repCount)
        (nodeInx - entry.repCount) (bitInx + entry.coreCnt * entry.repCount)
      (entry :: entries, found)
    else if entry.repCount - 1 = 0 then
      (moveEntries ({ entry with repCount := 0 } :: rest) (hostCnt - entry.repCount),
        bitInx + entry.coreCnt * nodeInx, entry.coreCnt)
    else
      ({ entry with repCount := entry.repCount - 1 } :: rest,
        bitInx + entry.coreCnt * nodeInx, entry.coreCnt)
  | _, entries, _, _, bitInx => (entries, bitInx, 0)

/-- The loop over a core bitmap and `bit_realloc`. -/
def extractCores (bitInx coreCnt : Nat) (bitmap : List Bool) : List Bool :=
  (shiftDown coreCnt bitInx (bitmap.length - coreCnt - bitInx) bitmap).take
    (bitmap.length - coreCnt)

/-- The loop over the node bitmap, with the position of the last node that was seen. -/
def clearNode (nodeId : Nat) : List Bool → Int → List Bool × Int
  | [], n => ([], n)
  | false :: rest, n =>
    let (bits, last) := clearNode nodeId rest n
    (false :: bits, last)
  | true :: rest, n =>
    if n + 1 = nodeId then (false :: rest, n + 1)
    else
      let (bits, last) := clearNode nodeId rest (n + 1)
      (true :: bits, last)

/-- `extract_job_resources_node`, and whether it returns `SLURM_SUCCESS`. -/
def extractJobResourcesNode (job : ResourcesArrays) (nodeId : Nat) : Bool × ResourcesArrays :=
  let (sockCore, bitInx, coreCnt) := findEntry job.nhosts job.sockCore job.nhosts nodeId 0
  if coreCnt < 1 then (false, { job with sockCore := sockCore })
  else
    let (nodeBitmap, n) := clearNode nodeId job.nodeBitmap (-1)
    let nhosts := job.nhosts - 1
    let cpus := shiftDown 1 n.toNat (nhosts - n.toNat) job.cpus
    let (ncpus, arrays) := buildJobResourcesCpuArray
      ⟨cpus.take nhosts, job.cpuArrayValue, job.cpuArrayReps⟩
    (true,
      { nhosts := nhosts
        nodeBitmap := nodeBitmap
        sockCore := sockCore
        coreBitmap := extractCores bitInx coreCnt job.coreBitmap
        coreBitmapUsed := job.coreBitmapUsed.map (extractCores bitInx coreCnt)
        cpus := cpus
        cpusUsed := shiftDown 1 n.toNat (nhosts - n.toNat) job.cpusUsed
        memoryAllocated := shiftDown 1 n.toNat (nhosts - n.toNat) job.memoryAllocated
        memoryUsed := shiftDown 1 n.toNat (nhosts - n.toNat) job.memoryUsed
        cpuArrayValue := arrays.value
        cpuArrayReps := arrays.reps
        ncpus := ncpus.toUInt32 })

/-! ## What the arrays describe -/

/-- The sockets and cores of each node the entries describe. -/
def expandEntries (entries : List SockCore) : List (Nat × Nat) :=
  entries.flatMap fun entry =>
    List.replicate entry.repCount (entry.socketsPerNode, entry.coresPerSocket)

/-- The positions of the bits that are set. -/
def setBits (bits : List Bool) (first : Nat) : List Nat :=
  match bits with
  | [] => []
  | false :: rest => setBits rest (first + 1)
  | true :: rest => first :: setBits rest (first + 1)

/-- All that is said about the nodes, with one entry for each of them. -/
structure Description where
  nodes : List Nat
  sockCore : List (Nat × Nat)
  cores : List (List Bool)
  coresUsed : Option (List (List Bool))
  cpus : List UInt16
  cpusUsed : List UInt16
  memoryAllocated : List UInt64
  memoryUsed : List UInt64
deriving DecidableEq

/-- The description of all nodes but one. -/
def Description.eraseIdx (d : Description) (k : Nat) : Description where
  nodes := d.nodes.eraseIdx k
  sockCore := d.sockCore.eraseIdx k
  cores := d.cores.eraseIdx k
  coresUsed := d.coresUsed.map (·.eraseIdx k)
  cpus := d.cpus.eraseIdx k
  cpusUsed := d.cpusUsed.eraseIdx k
  memoryAllocated := d.memoryAllocated.eraseIdx k
  memoryUsed := d.memoryUsed.eraseIdx k

namespace ResourcesArrays

variable (job : ResourcesArrays)

def sockCoreOfNodes : List (Nat × Nat) := (expandEntries job.sockCore).take job.nhosts

/-- The numbers of cores. -/
def sizes : List Nat := job.sockCoreOfNodes.map fun node => node.1 * node.2

def description : Description where
  nodes := setBits job.nodeBitmap 0
  sockCore := job.sockCoreOfNodes
  cores := blocks job.sizes job.coreBitmap
  coresUsed := job.coreBitmapUsed.map (blocks job.sizes)
  cpus := job.cpus.take job.nhosts
  cpusUsed := job.cpusUsed.take job.nhosts
  memoryAllocated := job.memoryAllocated.take job.nhosts
  memoryUsed := job.memoryUsed.take job.nhosts

/-- Entries whose repetitions sum up to the hosts, perhaps with others behind them; every
node has cores. -/
def EntriesFit (entries : List SockCore) (nhosts : Nat) : Prop :=
  ∃ front back, entries = front ++ back ∧ (front.map SockCore.repCount).sum = nhosts ∧
    ∀ entry ∈ front, 0 < entry.repCount ∧ 0 < entry.coreCnt

/-- Bitmaps have the size that is described, and arrays have an entry for each host. -/
structure WellFormed : Prop where
  nodes : (setBits job.nodeBitmap 0).length = job.nhosts
  entries : EntriesFit job.sockCore job.nhosts
  coreBitmap : job.coreBitmap.length = job.sizes.sum
  coreBitmapUsed : ∀ bitmap, job.coreBitmapUsed = some bitmap → bitmap.length = job.sizes.sum
  cpus : job.nhosts ≤ job.cpus.length
  cpusUsed : job.nhosts ≤ job.cpusUsed.length
  memoryAllocated : job.nhosts ≤ job.memoryAllocated.length
  memoryUsed : job.nhosts ≤ job.memoryUsed.length

end ResourcesArrays

/-! ## The entries -/

theorem expandEntries_cons (entry : SockCore) (entries : List SockCore) :
    expandEntries (entry :: entries) =
      List.replicate entry.repCount (entry.socketsPerNode, entry.coresPerSocket) ++
        expandEntries entries := rfl

theorem length_expandEntries (entries : List SockCore) :
    (expandEntries entries).length = (entries.map SockCore.repCount).sum := by
  induction entries with
  | nil => rfl
  | cons entry entries ih =>
    rw [expandEntries_cons, length_append, length_replicate, ih, map_cons, sum_cons]

theorem moveEntries_eq {rest back : List SockCore} :
    ∀ {entry : SockCore}, (∀ next ∈ rest, 0 < next.repCount) →
      ∃ back', moveEntries (entry :: (rest ++ back)) ((rest.map SockCore.repCount).sum : Nat) =
        rest ++ back' := by
  induction rest with
  | nil =>
    intro entry _
    cases back with
    | nil => exact ⟨[entry], rfl⟩
    | cons next back => exact ⟨entry :: next :: back, rfl⟩
  | cons next rest ih =>
    intro entry pos
    obtain ⟨back', moved⟩ := @ih next fun other mem =>
      pos other (mem_cons_of_mem _ mem)
    have some_ := pos next mem_cons_self
    refine ⟨back', ?_⟩
    rw [cons_append, moveEntries, map_cons, sum_cons, if_pos (by omega)]
    have left : ((next.repCount + (rest.map SockCore.repCount).sum : Nat) : Int) -
        next.repCount = ((rest.map SockCore.repCount).sum : Nat) := by omega
    rw [left, moved, cons_append]

/-- The search: the entries that are left, the bits before the node, and its cores. -/
theorem findEntry_spec {front back : List SockCore} :
    ∀ {steps nodeInx bitInx : Nat}, (∀ entry ∈ front, 0 < entry.repCount ∧ 0 < entry.coreCnt) →
      front.length ≤ steps → nodeInx < (front.map SockCore.repCount).sum →
      ∃ front' back',
        findEntry steps (front ++ back) ((front.map SockCore.repCount).sum : Nat) nodeInx bitInx =
          (front' ++ back',
            bitInx + (((expandEntries front).take nodeInx).map fun node => node.1 * node.2).sum,
            (((expandEntries front).map fun node => node.1 * node.2).getD nodeInx 0)) ∧
        expandEntries front' = (expandEntries front).eraseIdx nodeInx ∧
        ∀ entry ∈ front', 0 < entry.repCount ∧ 0 < entry.coreCnt := by
  induction front with
  | nil =>
    intro steps nodeInx bitInx _ _ below
    cases below
  | cons entry rest ih =>
    intro steps nodeInx bitInx pos enough below
    obtain ⟨steps, rfl⟩ : ∃ left, steps = left + 1 := ⟨steps - 1, by
      rw [length_cons] at enough
      omega⟩
    rw [map_cons, sum_cons] at below ⊢
    have positiveRest := fun other (mem : other ∈ rest) =>
      pos other (mem_cons_of_mem _ mem)
    obtain ⟨some_, cores⟩ := pos entry mem_cons_self
    have left : ((entry.repCount + (rest.map SockCore.repCount).sum : Nat) : Int) -
        entry.repCount = ((rest.map SockCore.repCount).sum : Nat) := by omega
    rw [cons_append, findEntry, left, expandEntries_cons]
    by_cases behind : entry.repCount ≤ nodeInx
    · obtain ⟨front', back', found, erased, positive'⟩ :=
        @ih steps (nodeInx - entry.repCount) (bitInx + entry.coreCnt * entry.repCount)
          positiveRest (by rw [length_cons] at enough; omega) (by omega)
      have long : (List.replicate entry.repCount
          (entry.socketsPerNode, entry.coresPerSocket)).length ≤ nodeInx := by
        rw [length_replicate]
        exact behind
      have longCores : ((List.replicate entry.repCount
          (entry.socketsPerNode, entry.coresPerSocket)).map fun node => node.1 * node.2).length ≤
            nodeInx := by
        rw [length_map]
        exact long
      rw [if_pos behind, found]
      refine ⟨entry :: front', back', ?_, ?_, ?_⟩
      · rw [take_append, take_of_length_le long, length_replicate, map_append,
          sum_append, map_append, getD_append_right _ _ _ _ longCores,
          length_map, length_replicate, map_replicate, sum_replicate_nat,
          Nat.mul_comm entry.repCount, ← Nat.add_assoc]
        rfl
      · rw [expandEntries_cons, erased, eraseIdx_append_of_length_le long, length_replicate]
      · intro other mem
        rcases mem_cons.mp mem with rfl | further
        · exact ⟨some_, cores⟩
        · exact positive' other further
    · have within : nodeInx < entry.repCount := Nat.not_le.mp behind
      have before : (((List.replicate entry.repCount
            (entry.socketsPerNode, entry.coresPerSocket) ++ expandEntries rest).take
            nodeInx).map fun node => node.1 * node.2).sum = entry.coreCnt * nodeInx := by
        rw [take_append_of_le_length (by rw [length_replicate]; omega),
          take_replicate, Nat.min_eq_left (by omega), map_replicate,
          sum_replicate_nat, Nat.mul_comm]
        rfl
      have own : ((List.replicate entry.repCount
            (entry.socketsPerNode, entry.coresPerSocket) ++ expandEntries rest).map
            fun node => node.1 * node.2).getD nodeInx 0 = entry.coreCnt := by
        rw [map_append, map_replicate, getD_append _ _ _ _ (by
            rw [length_replicate]
            exact within),
          getD_replicate _ within]
        rfl
      rw [if_neg behind, before, own, eraseIdx_append_of_lt_length (by
        rw [length_replicate]
        exact within)]
      by_cases single : entry.repCount - 1 = 0
      · obtain ⟨back', moved⟩ := @moveEntries_eq rest back { entry with repCount := 0 }
          fun next mem => (positiveRest next mem).1
        rw [if_pos single, moved]
        refine ⟨rest, back', rfl, ?_, positiveRest⟩
        have one : entry.repCount = 1 := by omega
        have first : nodeInx = 0 := by omega
        rw [one, first]
        rfl
      · rw [if_neg single]
        refine ⟨{ entry with repCount := entry.repCount - 1 } :: rest, back, rfl, ?_, ?_⟩
        · rw [expandEntries_cons, eraseIdx_replicate, if_pos within]
        · intro other mem
          rcases mem_cons.mp mem with rfl | further
          · exact ⟨Nat.pos_of_ne_zero single, cores⟩
          · exact positiveRest other further

/-! ## The bitmaps -/

theorem clearNode_spec {nodeId : Nat} {bits : List Bool} :
    ∀ {n : Int} {first k : Nat}, (nodeId : Int) = n + 1 + k → k < (setBits bits first).length →
      (clearNode nodeId bits n).2 = nodeId ∧
        setBits (clearNode nodeId bits n).1 first = (setBits bits first).eraseIdx k ∧
        (clearNode nodeId bits n).1 = bits.set ((setBits bits first).getD k 0 - first) false ∧
        first ≤ (setBits bits first).getD k 0 := by
  induction bits with
  | nil =>
    intro n first k _ mem
    cases mem
  | cons bit rest ih =>
    intro n first k counted mem
    cases bit with
    | false =>
      have positions : setBits (false :: rest) first = setBits rest (first + 1) := rfl
      have cleared : clearNode nodeId (false :: rest) n =
          (false :: (clearNode nodeId rest n).1, (clearNode nodeId rest n).2) := rfl
      obtain ⟨last, erased, bitsEq, below⟩ := ih counted mem
      rw [positions, cleared]
      refine ⟨last, erased, ?_, by omega⟩
      have shifted : (setBits rest (first + 1)).getD k 0 - first =
          ((setBits rest (first + 1)).getD k 0 - (first + 1)) + 1 := by omega
      rw [bitsEq, shifted, set_cons_succ]
    | true =>
      have positions : setBits (true :: rest) first = first :: setBits rest (first + 1) := rfl
      rw [positions]
      cases k with
      | zero =>
        have here : n + 1 = nodeId := by omega
        rw [clearNode, if_pos here]
        refine ⟨here, ?_, ?_, ?_⟩
        · rw [setBits, eraseIdx_cons_zero]
        · rw [getD_cons_zero, Nat.sub_self, set_cons_zero]
        · rw [getD_cons_zero]
      | succ k =>
        have later : ¬n + 1 = nodeId := by omega
        have next : (nodeId : Int) = n + 1 + 1 + k := by omega
        have cleared : clearNode nodeId (true :: rest) n =
            (true :: (clearNode nodeId rest (n + 1)).1, (clearNode nodeId rest (n + 1)).2) := by
          rw [clearNode, if_neg later]
        obtain ⟨last, erased, bitsEq, below⟩ := @ih (n + 1) (first + 1) k next
          (Nat.lt_of_succ_lt_succ mem)
        rw [cleared, getD_cons_succ, eraseIdx_cons_succ]
        refine ⟨last, ?_, ?_, by omega⟩
        · rw [← erased]
          rfl
        · have shifted : (setBits rest (first + 1)).getD k 0 - first =
              ((setBits rest (first + 1)).getD k 0 - (first + 1)) + 1 := by omega
          rw [bitsEq, shifted, set_cons_succ]

theorem extractCores_eq {bitInx coreCnt : Nat} {bitmap : List Bool} (some_ : 0 < coreCnt)
    (room : bitInx + coreCnt ≤ bitmap.length) :
    extractCores bitInx coreCnt bitmap = bitmap.take bitInx ++ bitmap.drop (bitInx + coreCnt) := by
  have moved := @take_shiftDown Bool _ coreCnt bitInx (bitmap.length - coreCnt - bitInx) some_
    bitmap (by omega)
  have all : bitInx + (bitmap.length - coreCnt - bitInx) = bitmap.length - coreCnt := by omega
  rw [all, take_of_length_le (l := bitmap.drop _) (by
    rw [length_drop]
    omega)] at moved
  exact moved

theorem blocks_extractCores {sizes : List Nat} {k : Nat} {bitmap : List Bool}
    (mem : k < sizes.length) (some_ : 0 < sizes.getD k 0) (length : bitmap.length = sizes.sum) :
    blocks (sizes.eraseIdx k) (extractCores (sizes.take k).sum (sizes.getD k 0) bitmap) =
        (blocks sizes bitmap).eraseIdx k ∧
      (extractCores (sizes.take k).sum (sizes.getD k 0) bitmap).length = (sizes.eraseIdx k).sum := by
  have own : sizes.getD k 0 = sizes[k] := getD_eq_getElem _ _ mem
  have split : sizes = sizes.take k ++ sizes[k] :: sizes.drop (k + 1) := by
    rw [getElem_cons_drop, take_append_drop]
  have position : (sizes.take k).length = k := by
    rw [length_take]
    omega
  have total : sizes.sum = (sizes.take k).sum + (sizes[k] + (sizes.drop (k + 1)).sum) := by
    conv_lhs => rw [split]
    rw [sum_append, sum_cons]
  have erased : sizes.eraseIdx k = sizes.take k ++ sizes.drop (k + 1) :=
    eraseIdx_eq_take_drop_succ ..
  rw [extractCores_eq some_ (by omega), own, erased]
  constructor
  · rw [blocks_erase bitmap (by omega), ← split, position]
  · rw [length_append, length_take, length_drop, sum_append]
    omega

/-! ## One node -/

namespace ResourcesArrays

variable {job : ResourcesArrays}

variable {front : List SockCore} {k : Nat}

theorem sockCoreOfNodes_append {back : List SockCore} (entries : job.sockCore = front ++ back)
    (hosts : (front.map SockCore.repCount).sum = job.nhosts) :
    job.sockCoreOfNodes = expandEntries front := by
  have length : (expandEntries front).length = job.nhosts :=
    (length_expandEntries front).trans hosts
  rw [sockCoreOfNodes, entries, expandEntries, flatMap_append]
  exact take_left' length

/-- The structure without its node `k`. -/
structure Without (job : ResourcesArrays) (k : Nat) (less : ResourcesArrays) : Prop where
  wellFormed : less.WellFormed
  nhosts : less.nhosts = job.nhosts - 1
  description : less.description = job.description.eraseIdx k
  nodeBitmap : less.nodeBitmap = job.nodeBitmap.set (job.description.nodes.getD k 0) false
  ncpus : less.ncpus = UInt32.ofNat (less.description.cpus.map UInt16.toNat).sum

theorem total_buildJobResourcesCpuArray (arrays : CpuArrays) :
    (buildJobResourcesCpuArray arrays).1.toUInt32 =
      UInt32.ofNat (arrays.cpus.map UInt16.toNat).sum := by
  unfold buildJobResourcesCpuArray
  split_ifs with none_
  · rw [none_]
    rfl
  · rw [(encode_encodes arrays.cpus).cpuCount]
    rfl

theorem sizes_positive (pos : ∀ entry ∈ front, 0 < entry.repCount ∧ 0 < entry.coreCnt) :
    ∀ size ∈ (expandEntries front).map fun node => node.1 * node.2, 0 < size := by
  intro size mem
  obtain ⟨node, member, rfl⟩ := mem_map.mp mem
  obtain ⟨entry, entryInside, repeated⟩ := mem_flatMap.mp member
  rw [eq_of_mem_replicate repeated]
  exact (pos entry entryInside).2

theorem length_le_hosts (pos : ∀ entry ∈ front, 0 < entry.repCount ∧ 0 < entry.coreCnt) :
    front.length ≤ (front.map SockCore.repCount).sum := by
  rw [← length_map SockCore.repCount]
  refine length_le_sum_of_one_le _ fun reps mem => ?_
  obtain ⟨entry, member, rfl⟩ := mem_map.mp mem
  exact (pos entry member).1

/-- With the entry of the node found, every array loses the node. -/
theorem extractJobResourcesNode_of_found {bitInx coreCnt : Nat} {sockCore : List SockCore}
    (found : findEntry job.nhosts job.sockCore job.nhosts k 0 = (sockCore, bitInx, coreCnt))
    (some_ : 0 < coreCnt) (last : (clearNode k job.nodeBitmap (-1)).2 = k) :
    extractJobResourcesNode job k = (true,
      { nhosts := job.nhosts - 1
        nodeBitmap := (clearNode k job.nodeBitmap (-1)).1
        sockCore := sockCore
        coreBitmap := extractCores bitInx coreCnt job.coreBitmap
        coreBitmapUsed := job.coreBitmapUsed.map (extractCores bitInx coreCnt)
        cpus := shiftDown 1 k (job.nhosts - 1 - k) job.cpus
        cpusUsed := shiftDown 1 k (job.nhosts - 1 - k) job.cpusUsed
        memoryAllocated := shiftDown 1 k (job.nhosts - 1 - k) job.memoryAllocated
        memoryUsed := shiftDown 1 k (job.nhosts - 1 - k) job.memoryUsed
        cpuArrayValue := (buildJobResourcesCpuArray
          ⟨(shiftDown 1 k (job.nhosts - 1 - k) job.cpus).take (job.nhosts - 1),
            job.cpuArrayValue, job.cpuArrayReps⟩).2.value
        cpuArrayReps := (buildJobResourcesCpuArray
          ⟨(shiftDown 1 k (job.nhosts - 1 - k) job.cpus).take (job.nhosts - 1),
            job.cpuArrayValue, job.cpuArrayReps⟩).2.reps
        ncpus := (buildJobResourcesCpuArray
          ⟨(shiftDown 1 k (job.nhosts - 1 - k) job.cpus).take (job.nhosts - 1),
            job.cpuArrayValue, job.cpuArrayReps⟩).1.toUInt32 }) := by
  unfold extractJobResourcesNode
  rw [found]
  dsimp only
  rw [if_neg (Nat.not_lt.mpr some_)]
  rcases cleared : clearNode k job.nodeBitmap (-1) with ⟨nodeBitmap, n⟩
  rw [cleared] at last
  rw [last, Int.toNat_natCast]

theorem take_shiftDown_erase {α : Type} [Inhabited α] {n : Nat} {a : List α} (below : k < n)
    (room : n ≤ a.length) : (shiftDown 1 k (n - 1 - k) a).take (n - 1) = (a.take n).eraseIdx k := by
  have moved := take_shiftDown_one (i := k) (n := n - 1) a (by omega) (by omega)
  rw [Nat.sub_add_cancel (by omega)] at moved
  exact moved

theorem hosts_erased {nhosts : Nat} {front' : List SockCore} (below : k < nhosts)
    (hosts : (front.map SockCore.repCount).sum = nhosts)
    (erased : expandEntries front' = (expandEntries front).eraseIdx k) :
    (front'.map SockCore.repCount).sum = nhosts - 1 := by
  have length : (expandEntries front).length = nhosts := (length_expandEntries front).trans hosts
  rw [← length_expandEntries, erased, length_eraseIdx_of_lt (by omega), length]

theorem extract_without (wf : job.WellFormed) (below : k < job.nhosts) :
    (extractJobResourcesNode job k).1 = true ∧ job.Without k (extractJobResourcesNode job k).2 := by
  obtain ⟨front, back, entries, hosts, pos⟩ := wf.entries
  have described := sockCoreOfNodes_append entries hosts
  have sizesEq : job.sizes = (expandEntries front).map fun node => node.1 * node.2 := by
    rw [sizes, described]
  obtain ⟨front', back', found, erased, positive'⟩ := @findEntry_spec front back job.nhosts k 0
    pos (hosts ▸ length_le_hosts pos) (by omega)
  rw [hosts, ← entries, Nat.zero_add, map_take, ← sizesEq] at found
  have mem : k < job.sizes.length := by
    rw [sizesEq, length_map, length_expandEntries]
    omega
  have some_ : 0 < job.sizes.getD k 0 := by
    rw [getD_eq_getElem _ _ mem]
    refine sizes_positive pos _ ?_
    rw [← sizesEq]
    exact getElem_mem mem
  obtain ⟨last, positions, bitmapEq, _⟩ := @clearNode_spec k job.nodeBitmap (-1) 0 k (by omega)
    (by rw [wf.nodes]; exact below)
  have hosts' := hosts_erased below hosts erased
  have described' : (expandEntries (front' ++ back')).take (job.nhosts - 1) =
      job.sockCoreOfNodes.eraseIdx k := by
    have fits : (expandEntries front').length = job.nhosts - 1 :=
      (length_expandEntries front').trans hosts'
    rw [expandEntries, flatMap_append, described, ← erased]
    exact take_left' fits
  have sizes' : (((expandEntries (front' ++ back')).take (job.nhosts - 1)).map
      fun node => node.1 * node.2) = job.sizes.eraseIdx k := by
    rw [described', ← eraseIdx_map]
    rfl
  have coresEq := blocks_extractCores mem some_ wf.coreBitmap
  rw [extractJobResourcesNode_of_found found some_ last]
  refine ⟨rfl, ⟨?_, ⟨front', back', rfl, hosts', positive'⟩, ?_, ?_, ?_, ?_, ?_, ?_⟩, rfl, ?_,
    bitmapEq, ?_⟩
  · rw [positions, length_eraseIdx_of_lt (by rw [wf.nodes]; exact below), wf.nodes]
  · exact coresEq.2.trans (congrArg List.sum sizes').symm
  · intro bitmap used
    obtain ⟨before, isUsed, rfl⟩ := Option.map_eq_some_iff.mp used
    exact (blocks_extractCores mem some_ (wf.coreBitmapUsed before isUsed)).2.trans
      (congrArg List.sum sizes').symm
  · rw [length_shiftDown]
    exact Nat.le_trans (Nat.sub_le _ _) wf.cpus
  · rw [length_shiftDown]
    exact Nat.le_trans (Nat.sub_le _ _) wf.cpusUsed
  · rw [length_shiftDown]
    exact Nat.le_trans (Nat.sub_le _ _) wf.memoryAllocated
  · rw [length_shiftDown]
    exact Nat.le_trans (Nat.sub_le _ _) wf.memoryUsed
  · simp only [description, Description.eraseIdx, Description.mk.injEq]
    refine ⟨positions, described', ?_, ?_, take_shiftDown_erase below wf.cpus,
      take_shiftDown_erase below wf.cpusUsed, take_shiftDown_erase below wf.memoryAllocated,
      take_shiftDown_erase below wf.memoryUsed⟩
    · exact (congrArg (blocks · _) sizes').trans coresEq.1
    · cases used : job.coreBitmapUsed with
      | none => rfl
      | some bitmap =>
        simp only [Option.map_some, Option.some.injEq]
        exact (congrArg (blocks · _) sizes').trans
          (blocks_extractCores mem some_ (wf.coreBitmapUsed bitmap used)).1
  · exact total_buildJobResourcesCpuArray _

end ResourcesArrays

/-! ## Sequences of nodes -/

/-- One node after the other is taken out, until a call fails. -/
def extractAll (job : ResourcesArrays) : List Nat → Bool × ResourcesArrays
  | [] => (true, job)
  | k :: ks =>
    let (success, less) := extractJobResourcesNode job k
    if success then extractAll less ks else (false, less)

/-- Each node is one of those that are left. -/
def InRange : Nat → List Nat → Prop
  | _, [] => True
  | nhosts, k :: ks => k < nhosts ∧ InRange (nhosts - 1) ks

instance instDecidableInRange : (nhosts : Nat) → (ks : List Nat) → Decidable (InRange nhosts ks)
  | _, [] => inferInstanceAs (Decidable True)
  | nhosts, _ :: ks =>
    have := instDecidableInRange (nhosts - 1) ks
    inferInstanceAs (Decidable (_ ∧ _))

theorem extractAll_without {ks : List Nat} : ∀ {job : ResourcesArrays}, job.WellFormed →
    InRange job.nhosts ks → (extractAll job ks).1 = true ∧ (extractAll job ks).2.WellFormed ∧
        (extractAll job ks).2.nhosts = job.nhosts - ks.length ∧
        (extractAll job ks).2.description = ks.foldl Description.eraseIdx job.description := by
  induction ks with
  | nil =>
    intro job wf _
    exact ⟨rfl, wf, rfl, rfl⟩
  | cons k ks ih =>
    intro job wf inRange
    obtain ⟨success, without⟩ := ResourcesArrays.extract_without wf inRange.1
    have next : InRange (extractJobResourcesNode job k).2.nhosts ks := by
      rw [without.nhosts]
      exact inRange.2
    obtain ⟨successes, wf', nhosts, description⟩ := ih without.wellFormed next
    rw [extractAll]
    dsimp only
    rw [if_pos success]
    refine ⟨successes, wf', ?_, ?_⟩
    · rw [nhosts, without.nhosts, length_cons]
      omega
    · rw [description, without.description, foldl_cons]

/-- Every node of a well-formed structure can be taken out and leaves a well-formed one that
describes the other nodes as before, and so can any nodes one after the other, down to
the last. -/
theorem extractJobResourcesNode_describes (job : ResourcesArrays) (wf : job.WellFormed) :
    (∀ k < job.nhosts, (extractJobResourcesNode job k).1 = true ∧
      job.Without k (extractJobResourcesNode job k).2) ∧
    ∀ ks, InRange job.nhosts ks → (extractAll job ks).1 = true ∧ (extractAll job ks).2.WellFormed ∧
        (extractAll job ks).2.nhosts = job.nhosts - ks.length ∧
        (extractAll job ks).2.description = ks.foldl Description.eraseIdx job.description :=
  ⟨fun _ below => ResourcesArrays.extract_without wf below,
    fun _ inRange => extractAll_without wf inRange⟩

/-- A node with two cores and two nodes with one core, and room for a fourth host. -/
def threeNodes : ResourcesArrays where
  nhosts := 3
  nodeBitmap := [false, true, true, false, true]
  sockCore := [⟨1, 2, 1⟩, ⟨1, 1, 2⟩, ⟨0, 0, 0⟩]
  coreBitmap := [true, false, true, true]
  coreBitmapUsed := some [false, false, true, false]
  cpus := [2, 1, 1, 0]
  cpusUsed := [0, 0, 1, 0]
  memoryAllocated := [100, 200, 300, 0]
  memoryUsed := [0, 0, 0, 0]
  cpuArrayValue := [2, 1]
  cpuArrayReps := [1, 2]
  ncpus := 4

theorem threeNodes_wellFormed : threeNodes.WellFormed := by
  refine ⟨by decide, ⟨[⟨1, 2, 1⟩, ⟨1, 1, 2⟩], [⟨0, 0, 0⟩], rfl, rfl, by decide⟩, by decide, ?_,
    by decide, by decide, by decide, by decide⟩
  intro bitmap used
  rw [← Option.some.inj used]
  decide

theorem threeNodes_describes :
    threeNodes.Without 0 (extractJobResourcesNode threeNodes 0).2 ∧
      (extractAll threeNodes [1, 0, 0]).1 = true := by
  have describes := extractJobResourcesNode_describes threeNodes threeNodes_wellFormed
  exact ⟨(describes.1 0 (by decide)).2, (describes.2 [1, 0, 0] (by decide)).1⟩

end SlurmSim.Common.ExtractNode
