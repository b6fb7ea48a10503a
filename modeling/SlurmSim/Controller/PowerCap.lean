import Mathlib.Data.List.Pairwise
import Mathlib.Data.List.Perm.Subperm
import Mathlib.Data.UInt
import Mathlib.Order.Basic

/-!
# The power that a job may reach

`powercap_get_node_bitmap_maxwatts_dvfs` adds up the power of all nodes as it would be with
the selected ones at work, once for the highest power of a core and once for every allowed
frequency.  The number of CPUs is clamped to the cores of a selected node in the variable
that the later nodes read.  All numbers have 32 bits.
-/

namespace SlurmSim.Controller.PowerCap

open List

/-- What the layouts answer: the keys of a node, then those of an entity `virtualcore<n>`.
The branch that reads `MaxWatts` is for a `CurrentPower` below zero. -/
structure Layouts where
  idleWatts : Nat → UInt32
  coresCount : Nat → UInt32
  lastCore : Nat → UInt32
  currentPower : Nat → UInt32
  powerSaveWatts : Nat → UInt32
  downWatts : Nat → UInt32
  idleCoreWatts : UInt32 → UInt32
  maxCoreWatts : UInt32 → UInt32
  cpufreqWatts : Int → UInt32 → UInt32

/-- A node with its bits in `idle_bitmap`, `power_node_bitmap`, `select_bitmap` and
`up_node_bitmap`. -/
structure Node where
  name : Nat
  idle : Bool
  powerSave : Bool
  select : Bool
  up : Bool

/-- The node is one that the job would use. -/
def Node.selected (node : Node) : Bool := !node.idle && node.select

/-- `num_cpus` for a node of `cores` cores. -/
def clamp (numCpus cores : UInt32) : UInt32 :=
  if numCpus = 0 ∨ cores < numCpus then cores else numCpus

/-- `max_watts`, `tmp_max_watts`, `num_cpus` and `tmp_max_watts_dvfs`. -/
structure Estimate where
  maxWatts : UInt32
  tmpMaxWatts : UInt32
  numCpus : UInt32
  dvfs : Nat → UInt32

namespace Layouts

variable (l : Layouts)

/-- `val` of a node that is not selected. -/
def val (node : Node) : UInt32 :=
  if node.idle then
    if node.powerSave then l.powerSaveWatts node.name else l.idleWatts node.name
  else if node.up then l.currentPower node.name else l.downWatts node.name

/-- The power of a selected node before the job. -/
def baseWatts (node : Node) : UInt32 :=
  if l.currentPower node.name = 0 then l.idleWatts node.name else l.currentPower node.name

/-- The power of a selected node with `n` of its cores at full power. -/
def selectWatts (node : Node) (n : UInt32) : UInt32 :=
  l.baseWatts node - n * l.idleCoreWatts (l.lastCore node.name) +
    n * l.maxCoreWatts (l.lastCore node.name)

/-- The power of a selected node with `n` of its cores at a frequency. -/
def freqWatts (node : Node) (n : UInt32) (freq : Int) : UInt32 :=
  if n = l.coresCount node.name then n * l.cpufreqWatts freq (l.lastCore node.name)
  else
    l.baseWatts node - n * l.idleCoreWatts (l.lastCore node.name) +
      n * l.cpufreqWatts freq (l.lastCore node.name)

/-- One turn of the loop over the nodes; `freqs` is `allowed_freqs`. -/
def addNode (freqs : Nat → Int) (e : Estimate) (node : Node) : Estimate :=
  if node.selected then
    let n := clamp e.numCpus (l.coresCount node.name)
    { e with
      numCpus := n
      tmpMaxWatts := e.tmpMaxWatts + l.selectWatts node n
      dvfs := fun p => e.dvfs p + l.freqWatts node n (freqs p) }
  else { e with maxWatts := e.maxWatts + l.val node }

/-- `powercap_get_node_bitmap_maxwatts_dvfs` with a power cap: the returned power and the
entries of `max_watts_dvfs`. -/
def maxwattsDvfs (freqs : Nat → Int) (numCpus : UInt32) (nodes : List Node) :
    UInt32 × (Nat → UInt32) :=
  let e := nodes.foldl (l.addNode freqs) ⟨0, 0, numCpus, fun _ => 0⟩
  (e.maxWatts + e.tmpMaxWatts, fun p => e.maxWatts + e.dvfs p)

/-- The part of one node in the power, from its own data and the requested CPUs. -/
def share (numCpus : UInt32) (node : Node) : UInt32 :=
  if node.selected then l.selectWatts node (clamp numCpus (l.coresCount node.name))
  else l.val node

/-- The part of one node in the power at a frequency. -/
def freqShare (numCpus : UInt32) (freq : Int) (node : Node) : UInt32 :=
  if node.selected then l.freqWatts node (clamp numCpus (l.coresCount node.name)) freq
  else l.val node

end Layouts

/-- The nodes with their bits, each under its own name, and their cores. -/
structure Cluster where
  nodes : List Node
  cores : Nat → UInt32
  distinct : (nodes.map Node.name).Nodup

/-- In every numbering of the nodes and whatever their power is, the power is the sum of
the parts of the nodes. -/
def Cluster.AddsShares (cluster : Cluster) (numCpus : UInt32) : Prop :=
  ∀ (l : Layouts) (freqs : Nat → Int) (numbering : List Node), l.coresCount = cluster.cores →
    numbering.Perm cluster.nodes →
      l.maxwattsDvfs freqs numCpus numbering = ((cluster.nodes.map (l.share numCpus)).sum,
        fun p => (cluster.nodes.map (l.freqShare numCpus (freqs p))).sum)

/-- The node behind one of `first` cores is not clamped by that. -/
def Leaves (numCpus first second : UInt32) : Prop :=
  clamp numCpus second ≤ first ∨ first = 0 ∧ (numCpus = 0 ∨ second ≤ numCpus)

theorem clamp_clamp_iff {numCpus first second : UInt32} :
    clamp (clamp numCpus first) second = clamp numCpus second ↔ Leaves numCpus first second := by
  simp only [clamp, Leaves, UInt32.lt_iff_toNat_lt, UInt32.le_iff_toNat_le,
    ← UInt32.toNat_inj, UInt32.toNat_zero]
  split_ifs <;> omega

/-- The cores of the selected nodes. -/
def selectedCores (cores : Nat → UInt32) (nodes : List Node) : List UInt32 :=
  (nodes.filter Node.selected).map fun node => cores node.name

/-- The CPUs that the loop goes on with are those requested, clamped at most once. -/
def Follows (numCpus n : UInt32) (cores : List UInt32) : Prop :=
  n = numCpus ∧ cores.IsChain (Leaves numCpus) ∨
    ∃ first, n = clamp numCpus first ∧ (first :: cores).IsChain (Leaves numCpus)

theorem Follows.next {numCpus n first : UInt32} {cores : List UInt32}
    (follows : Follows numCpus n (first :: cores)) :
    clamp n first = clamp numCpus first ∧ Follows numCpus (clamp n first) cores := by
  obtain ⟨rfl, chain⟩ | ⟨before, rfl, chain⟩ := follows
  · exact ⟨rfl, Or.inr ⟨first, rfl, chain⟩⟩
  · obtain ⟨leaves, chain⟩ := isChain_cons_cons.mp chain
    have same := clamp_clamp_iff.mpr leaves
    exact ⟨same, Or.inr ⟨first, same, chain⟩⟩

variable {numCpus : UInt32} {nodes : List Node}

/-- The loop adds the parts of the nodes when no node clamps a later one. -/
theorem foldl_addNode {l : Layouts} (freqs : Nat → Int) {e : Estimate}
    (follows : Follows numCpus e.numCpus (selectedCores l.coresCount nodes)) :
    (nodes.foldl (l.addNode freqs) e).maxWatts + (nodes.foldl (l.addNode freqs) e).tmpMaxWatts =
        e.maxWatts + e.tmpMaxWatts + (nodes.map (l.share numCpus)).sum ∧
      ∀ p, (nodes.foldl (l.addNode freqs) e).maxWatts + (nodes.foldl (l.addNode freqs) e).dvfs p =
        e.maxWatts + e.dvfs p + (nodes.map (l.freqShare numCpus (freqs p))).sum := by
  induction nodes generalizing e with
  | nil => simp
  | cons node rest ih =>
    rw [foldl_cons, Layouts.addNode]
    by_cases selected : node.selected = true
    · rw [selectedCores, filter_cons_of_pos selected, map_cons] at follows
      obtain ⟨same, behind⟩ := follows.next
      obtain ⟨total, freq⟩ := ih (e := l.addNode freqs e node)
        (by rw [Layouts.addNode, if_pos selected]; exact behind)
      rw [Layouts.addNode, if_pos selected] at total freq
      rw [if_pos selected]
      refine ⟨total.trans ?_, fun p => (freq p).trans ?_⟩
      · simp only [map_cons, sum_cons, Layouts.share, if_pos selected, same]
        grind
      · simp only [map_cons, sum_cons, Layouts.freqShare, if_pos selected, same]
        grind
    · rw [selectedCores, filter_cons_of_neg selected] at follows
      obtain ⟨total, freq⟩ := ih (e := l.addNode freqs e node)
        (by rw [Layouts.addNode, if_neg selected]; exact follows)
      rw [Layouts.addNode, if_neg selected] at total freq
      rw [if_neg selected]
      refine ⟨total.trans ?_, fun p => (freq p).trans ?_⟩
      · simp only [map_cons, sum_cons, Layouts.share, if_neg selected]
        grind
      · simp only [map_cons, sum_cons, Layouts.freqShare, if_neg selected]
        grind

/-! ## One core that draws power -/

/-- Layouts in which only the cores of one node draw power. -/
def probe (cores : Nat → UInt32) (name : Nat) : Layouts where
  idleWatts := fun _ => 0
  coresCount := cores
  lastCore := fun other => if other = name then 1 else 0
  currentPower := fun _ => 0
  powerSaveWatts := fun _ => 0
  downWatts := fun _ => 0
  idleCoreWatts := fun _ => 0
  maxCoreWatts := id
  cpufreqWatts := fun _ _ => 0

variable {cores : Nat → UInt32} {name : Nat}

@[simp] theorem probe_coresCount : (probe cores name).coresCount = cores := rfl

theorem probe_val (node : Node) : (probe cores name).val node = 0 := by
  simp [probe, Layouts.val]

theorem probe_selectWatts (node : Node) (n : UInt32) :
    (probe cores name).selectWatts node n = if node.name = name then n else 0 := by
  simp only [Layouts.selectWatts, Layouts.baseWatts, probe, id]
  split_ifs <;> simp

theorem probe_others (cores : Nat → UInt32) (numCpus : UInt32) (freqs : Nat → Int) (e : Estimate)
    (others : name ∉ nodes.map Node.name) :
    (nodes.foldl ((probe cores name).addNode freqs) e).maxWatts = e.maxWatts ∧
      (nodes.foldl ((probe cores name).addNode freqs) e).tmpMaxWatts = e.tmpMaxWatts ∧
      (nodes.map ((probe cores name).share numCpus)).sum = 0 := by
  induction nodes generalizing e with
  | nil => exact ⟨rfl, rfl, rfl⟩
  | cons node rest ih =>
    rw [map_cons, mem_cons, not_or] at others
    obtain ⟨maxWatts, tmpMaxWatts, shares⟩ :=
      ih ((probe cores name).addNode freqs e node) others.2
    rw [foldl_cons, maxWatts, tmpMaxWatts, map_cons, sum_cons, shares]
    simp only [Layouts.addNode, Layouts.share, probe_val, probe_selectWatts,
      if_neg (Ne.symm others.1)]
    split_ifs <;> simp

theorem probe_second (cores : Nat → UInt32) (numCpus : UInt32) {first second : Node}
    (freqs : Nat → Int) (firstSelected : first.selected)
    (secondSelected : second.selected)
    (distinct : ((first :: second :: nodes).map Node.name).Nodup) :
    ((probe cores second.name).maxwattsDvfs freqs numCpus (first :: second :: nodes)).1 =
        clamp (clamp numCpus (cores first.name)) (cores second.name) ∧
      ((first :: second :: nodes).map ((probe cores second.name).share numCpus)).sum =
        clamp numCpus (cores second.name) := by
  simp only [map_cons, nodup_cons, mem_cons, not_or] at distinct
  obtain ⟨⟨ne, _⟩, others, _⟩ := distinct
  have drawn := fun e => probe_others cores numCpus freqs e others
  constructor
  · simp only [Layouts.maxwattsDvfs, foldl_cons, (drawn _).1, (drawn _).2.1]
    simp [Layouts.addNode, firstSelected, secondSelected, probe_selectWatts, ne]
  · rw [map_cons, map_cons, sum_cons, sum_cons, (drawn ⟨0, 0, 0, fun _ => 0⟩).2.2]
    simp [Layouts.share, firstSelected, secondSelected, probe_selectWatts, ne]

theorem sum_perm {numbering : List Node} (same : numbering.Perm nodes) (part : Node → UInt32) :
    (numbering.map part).sum = (nodes.map part).sum := by
  exact (same.map part).foldr_eq 0

namespace Cluster

variable (cluster : Cluster) (numCpus : UInt32)

/-- The power is the sum of the parts of the nodes exactly when no selected node has fewer
cores than a CPU count that another selected node is given. -/
theorem addsShares_iff : cluster.AddsShares numCpus ↔
    (cluster.nodes.filter Node.selected).Pairwise fun first second =>
      Leaves numCpus (cluster.cores first.name) (cluster.cores second.name) ∧
        Leaves numCpus (cluster.cores second.name) (cluster.cores first.name) := by
  constructor
  · intro adds
    have leaves : ∀ {first second : Node} {rest : List Node}, first.selected → second.selected →
        (first :: second :: rest).Perm cluster.nodes →
          Leaves numCpus (cluster.cores first.name) (cluster.cores second.name) := by
      intro first second rest firstSelected secondSelected numbering
      have distinct := (numbering.map Node.name).nodup_iff.mpr cluster.distinct
      obtain ⟨total, shares⟩ := probe_second cluster.cores numCpus (fun _ => 0) firstSelected
        secondSelected distinct
      have same := adds (probe cluster.cores second.name) (fun _ => 0) _ rfl numbering
      rw [← sum_perm numbering, shares] at same
      exact clamp_clamp_iff.mp (total.symm.trans (congrArg Prod.fst same))
    rw [pairwise_iff_forall_sublist]
    intro first second inside
    obtain ⟨rest, split⟩ := (inside.trans filter_sublist).exists_perm_append
    have selected : ∀ node ∈ [first, second], node.selected := fun node member =>
      (mem_filter.mp (inside.subset member)).2
    have firstSelected := selected first mem_cons_self
    have secondSelected := selected second (mem_cons_of_mem first mem_cons_self)
    exact ⟨leaves firstSelected secondSelected split.symm, leaves secondSelected firstSelected
      ((List.Perm.swap first second rest).trans split.symm)⟩
  · rintro leaves l freqs numbering same numbered
    have chain : (selectedCores l.coresCount numbering).IsChain (Leaves numCpus) := by
      have pairs := ((numbered.filter Node.selected).pairwise_iff fun both => both.symm).mpr leaves
      rw [same, selectedCores]
      exact (pairwise_map.mpr (pairs.imp fun both => both.1)).isChain
    have start : Follows numCpus numCpus (selectedCores l.coresCount numbering) :=
      Or.inl ⟨rfl, chain⟩
    obtain ⟨total, freq⟩ := foldl_addNode freqs (e := ⟨0, 0, numCpus, fun _ => 0⟩) start
    simp only [← sum_perm numbered]
    exact Prod.ext (total.trans (by simp)) (funext fun p => (freq p).trans (by simp))

end Cluster

/-- A node of two cores in front of one of four, with four CPUs requested. -/
theorem small_node_first : ¬∀ (cluster : Cluster) (numCpus : UInt32),
    cluster.AddsShares numCpus := by
  intro adds
  let node (name : Nat) : Node := ⟨name, false, false, true, true⟩
  let cluster : Cluster := ⟨[node 0, node 1], fun name => if name = 0 then 2 else 4, by decide⟩
  have same := adds cluster 4 (probe cluster.cores 1) (fun _ => 0) cluster.nodes rfl
    (List.Perm.refl _)
  exact absurd (congrArg Prod.fst same) (by decide)

end SlurmSim.Controller.PowerCap
