import SlurmSim.Common.JobResources

/-!
# The power layout

With a power cap on the cluster the layout knows the power of every core.
`adapt_layouts` brings it up to date for one node of a job that starts or ends:
the cores of a job that ends are switched off if nothing else runs on the node,
and else are set to the power of an idle core.
-/

namespace SlurmSim.Select

open SlurmSim.Common List

/-- The keys of the layout `power` that `adapt_layouts` reads and writes: those of
the nodes, then those of the entities `virtualcore<n>`. -/
structure PowerLayout where
  numFreqChoices : Nat → UInt16
  cpufreq : Nat → Nat → UInt32
  coresCount : Nat → UInt32
  lastCore : Nat → UInt32
  cpufreqWatts : UInt32 → Nat → UInt32
  maxCoreWatts : UInt32 → UInt32
  idleCoreWatts : UInt32 → UInt32
  currentCorePower : UInt32 → UInt32

/-- The walk over `sock_core_rep_count`: the first bit of a node and its number of
cores, which stays 0 when the node is not described. -/
def locateNode : List SockCore → Nat → Nat → Nat × Nat
  | [], _, bitInx => (bitInx, 0)
  | entry :: rest, nodeId, bitInx =>
    if entry.repCount ≤ nodeId then
      locateNode rest (nodeId - entry.repCount) (bitInx + entry.coreCnt * entry.repCount)
    else (bitInx + entry.coreCnt * nodeId, entry.coreCnt)

/-- The bits of a node of the job, unless one of the two checks fails. -/
def nodeCoreBits (job : JobResources) (nodeId : Nat) : Option (List Bool) :=
  let (bitInx, coreCnt) := locateNode job.sockCore nodeId 0
  if coreCnt < 1 then none
  else if job.coreBitmap.length < bitInx + coreCnt then none
  else some ((job.coreBitmap.drop bitInx).take coreCnt)

namespace PowerLayout

variable (l : PowerLayout) (node : Nat)

/-- `LastCore + 1 - CoresCount + i` -/
def virtualcore (i : Nat) : UInt32 :=
  l.lastCore node + 1 - l.coresCount node + UInt32.ofNat i

def setPower (core watts : UInt32) : PowerLayout :=
  { l with currentCorePower := Function.update l.currentCorePower core watts }

/-- `k`: the first frequency of the node that is the maximum of the job, else 0. -/
def freqChoice (cpuFreqMax : UInt32) : Nat :=
  if cpuFreqMax = 0 then 0
  else ((List.range' 1 (l.numFreqChoices node).toNat).find?
    fun i => l.cpufreq node i = cpuFreqMax).getD 0

/-- The power of a core of a job that starts. -/
def startWatts (cpuFreqMax : UInt32) (core : UInt32) : UInt32 :=
  if cpuFreqMax ≠ 0 ∧ l.freqChoice node cpuFreqMax ≠ 0 then
    l.cpufreqWatts core (l.freqChoice node cpuFreqMax)
  else l.maxCoreWatts core

/-- A core of the node of a job that starts. -/
def startCore (cpuFreqMax : UInt32) (l : PowerLayout) (bit : Bool × Nat) : PowerLayout :=
  let core := l.virtualcore node bit.2
  if bit.1 then l.setPower core (l.startWatts node cpuFreqMax core)
  else if l.currentCorePower core = 0 then l.setPower core (l.idleCoreWatts core)
  else l

end PowerLayout

/-- The variables of the loop over the cores of a job that ends: `desalloc_cores`,
`activate` and the idle power that was read last. -/
structure Release where
  layout : PowerLayout
  desallocCores : List Nat
  activate : Bool
  idle : UInt32

/-- A core of the node of a job that ends. -/
def Release.core (node : Nat) (st : Release) (bit : Bool × Nat) : Release :=
  let core := st.layout.virtualcore node bit.2
  if bit.1 then
    { st with layout := st.layout.setPower core 0, desallocCores := st.desallocCores ++ [bit.2] }
  else if st.layout.idleCoreWatts core ≠ st.layout.currentCorePower core then
    { st with activate := true, idle := st.layout.idleCoreWatts core }
  else
    { st with
      layout := st.layout.setPower core 0
      desallocCores := st.desallocCores ++ [bit.2]
      idle := st.layout.idleCoreWatts core }

/-- The loop after `activate` was set. -/
def Release.finish (node : Nat) (st : Release) : PowerLayout :=
  if st.activate then
    st.desallocCores.foldl (fun l i => l.setPower (l.virtualcore node i) st.idle) st.layout
  else st.layout

/-- `adapt_layouts`; the idle power is read before it is used. -/
def PowerLayout.adaptLayouts (l : PowerLayout) (job : JobResources) (cpuFreqMax : UInt32)
    (nodeId node : Nat) (newValue : Bool) : PowerLayout :=
  match nodeCoreBits job nodeId with
  | none => l
  | some bits =>
    if newValue then bits.zipIdx.foldl (PowerLayout.startCore node cpuFreqMax) l
    else (bits.zipIdx.foldl (Release.core node) ⟨l, [], false, 0⟩).finish node

/-! ## Idle cores -/

/-- Every core takes the same power when idle, and now takes that or none. -/
structure PowerLayout.Idle (watts : UInt32) (l : PowerLayout) : Prop where
  idle : ∀ core, l.idleCoreWatts core = watts
  current : ∀ core, l.currentCorePower core = 0 ∨ l.currentCorePower core = watts

/-- Some core is switched off. -/
def PowerLayout.Dark (l : PowerLayout) : Prop := ∃ core, l.currentCorePower core = 0

namespace PowerLayout

variable {watts : UInt32} {l : PowerLayout}

@[simp] theorem setPower_self (l : PowerLayout) (core watts : UInt32) :
    (l.setPower core watts).currentCorePower core = watts :=
  Function.update_self _ _ _

@[simp] theorem setPower_of_ne (l : PowerLayout) {core other watts : UInt32} (apart : other ≠ core) :
    (l.setPower core watts).currentCorePower other = l.currentCorePower other :=
  Function.update_of_ne apart _ _

theorem Idle.setPower (idle : l.Idle watts) (core : UInt32) {power : UInt32}
    (known : power = 0 ∨ power = watts) : (l.setPower core power).Idle watts := by
  refine ⟨idle.idle, fun other => ?_⟩
  by_cases same : other = core
  · subst same
    rw [setPower_self]
    exact known
  · rw [setPower_of_ne _ same]
    exact idle.current other

theorem setPower_zero (l : PowerLayout) {core other : UInt32} (off : l.currentCorePower other = 0) :
    (l.setPower core 0).currentCorePower other = 0 := by
  by_cases same : other = core
  · rw [same, setPower_self]
  · rw [setPower_of_ne _ same]
    exact off

end PowerLayout

/-- After the first cores of a node that ends: the cores passed over are off and are
not to be activated. -/
structure Release.Dims (watts : UInt32) (l : PowerLayout) (node count : Nat) (st : Release) :
    Prop where
  idle : st.layout.Idle watts
  same : ∀ i, st.layout.virtualcore node i = l.virtualcore node i
  below : ∀ i ∈ st.desallocCores, i < count
  watts_eq : st.activate = true → st.idle = watts
  off : st.activate = false → ∀ i < count, st.layout.currentCorePower (l.virtualcore node i) = 0
  spared : st.activate = true → ∃ i < count, i ∉ st.desallocCores ∧
    st.layout.currentCorePower (l.virtualcore node i) = 0

namespace Release

variable {watts : UInt32} {l : PowerLayout} {node count : Nat} {st : Release}

theorem Dims.switchOff (dims : Dims watts l node count st) (idle : UInt32)
    (watts_eq : st.activate = true → idle = watts) :
    Dims watts l node (count + 1)
      ⟨st.layout.setPower (st.layout.virtualcore node count) 0, st.desallocCores ++ [count],
        st.activate, idle⟩ := by
  refine ⟨dims.idle.setPower _ (Or.inl rfl), dims.same, fun i mem => ?_, watts_eq,
    fun quiet i before => ?_, fun active => ?_⟩
  · rcases mem_append.mp mem with earlier | here
    · exact (dims.below i earlier).trans (Nat.lt_succ_self _)
    · rw [mem_singleton.mp here]
      exact Nat.lt_succ_self _
  · rcases Nat.lt_succ_iff_lt_or_eq.mp before with earlier | rfl
    · exact PowerLayout.setPower_zero _ (dims.off quiet i earlier)
    · rw [dims.same]
      exact PowerLayout.setPower_self _ _ _
  · obtain ⟨i, before, spared, off⟩ := dims.spared active
    refine ⟨i, before.trans (Nat.lt_succ_self _), fun mem => ?_, PowerLayout.setPower_zero _ off⟩
    rcases mem_append.mp mem with earlier | here
    · exact spared earlier
    · exact Nat.ne_of_lt before (mem_singleton.mp here)

theorem Dims.core (dims : Dims watts l node count st) (bit : Bool) :
    Dims watts l node (count + 1) (Release.core node st (bit, count)) := by
  unfold Release.core
  dsimp only
  split_ifs with set_ differs
  · exact dims.switchOff st.idle dims.watts_eq
  · refine ⟨dims.idle, dims.same, fun i mem => (dims.below i mem).trans (Nat.lt_succ_self _),
      fun _ => dims.idle.idle _, fun quiet => (Bool.true_eq_false_eq_False quiet).elim,
      fun _ => ⟨count, Nat.lt_succ_self _, fun mem => (dims.below _ mem).false, ?_⟩⟩
    rw [dims.idle.idle, dims.same] at differs
    exact (dims.idle.current _).resolve_right (Ne.symm differs)
  · exact dims.switchOff _ fun _ => dims.idle.idle _

theorem Dims.foldl (bits : List Bool) (dims : Dims watts l node count st) :
    Dims watts l node (count + bits.length) ((bits.zipIdx count).foldl (Release.core node) st) := by
  induction bits generalizing count st with
  | nil => exact dims
  | cons bit bits ih =>
    rw [zipIdx_cons, foldl_cons, length_cons, Nat.add_comm bits.length, ← Nat.add_assoc]
    exact ih (dims.core bit)

theorem virtualcore_injective (l : PowerLayout) (node : Nat) {i j : Nat} (iBound : i < 2 ^ 32)
    (jBound : j < 2 ^ 32) (same : l.virtualcore node i = l.virtualcore node j) : i = j := by
  have equal := congrArg UInt32.toNat ((UInt32.add_right_inj _).mp same)
  rw [UInt32.toNat_ofNat', UInt32.toNat_ofNat', Nat.mod_eq_of_lt iBound,
    Nat.mod_eq_of_lt jBound] at equal
  exact equal

theorem foldl_activate (idle : l.Idle watts) (small : count ≤ 2 ^ 32) {i : Nat}
    (mem : i < count) (off : l.currentCorePower (l.virtualcore node i) = 0) {cores : List Nat}
    (below : ∀ j ∈ cores, j < count) (spared : i ∉ cores) :
    (cores.foldl (fun l i => l.setPower (l.virtualcore node i) watts) l).Idle watts ∧
      (cores.foldl (fun l i => l.setPower (l.virtualcore node i) watts) l).Dark := by
  induction cores generalizing l with
  | nil => exact ⟨idle, _, off⟩
  | cons j cores ih =>
    rw [mem_cons, not_or] at spared
    obtain ⟨belowHead, belowRest⟩ := forall_mem_cons.mp below
    refine ih (idle.setPower _ (Or.inr rfl)) ?_ belowRest spared.2
    have apart : l.virtualcore node i ≠ l.virtualcore node j := fun same =>
      spared.1 (virtualcore_injective l node (by omega) (by omega) same)
    exact (PowerLayout.setPower_of_ne l apart).trans off

theorem Dims.finish (dims : Dims watts l node count st) (some_ : 0 < count)
    (small : count ≤ 2 ^ 32) : (st.finish node).Idle watts ∧ (st.finish node).Dark := by
  unfold Release.finish
  cases activate : st.activate with
  | false =>
    exact ⟨dims.idle, _, dims.off activate 0 some_⟩
  | true =>
    obtain ⟨i, mem, spared, off⟩ := dims.spared activate
    rw [if_pos rfl, dims.watts_eq activate]
    rw [← dims.same] at off
    exact foldl_activate dims.idle small mem off dims.below spared

end Release

variable {job : JobResources} {nodeId : Nat}

theorem nodeCoreBits_length {bits : List Bool} (found : nodeCoreBits job nodeId = some bits) :
    0 < bits.length ∧ bits.length ≤ job.coreBitmap.length := by
  unfold nodeCoreBits at found
  dsimp only at found
  split_ifs at found with none_ beyond
  cases found
  rw [length_take, length_drop]
  omega

theorem PowerLayout.adaptLayouts_dark {watts : UInt32} {l : PowerLayout} (idle : l.Idle watts)
    (small : job.coreBitmap.length ≤ 2 ^ 32) (found : (nodeCoreBits job nodeId).isSome = true)
    (cpuFreqMax : UInt32) (node : Nat) :
    (l.adaptLayouts job cpuFreqMax nodeId node false).Idle watts ∧
      (l.adaptLayouts job cpuFreqMax nodeId node false).Dark := by
  obtain ⟨bits, bitsEq⟩ := Option.isSome_iff_exists.mp found
  obtain ⟨some_, within⟩ := nodeCoreBits_length bitsEq
  have start : Release.Dims watts l node 0 ⟨l, [], false, 0⟩ :=
    ⟨idle, fun _ => rfl, by simp, by simp, by simp, by simp⟩
  have dims := start.foldl bits
  rw [Nat.zero_add] at dims
  rw [adaptLayouts, bitsEq]
  exact dims.finish some_ (within.trans small)

theorem PowerLayout.adaptLayouts_none {l : PowerLayout}
    (none_ : (nodeCoreBits job nodeId).isSome = false) (cpuFreqMax : UInt32) (node : Nat)
    (newValue : Bool) : l.adaptLayouts job cpuFreqMax nodeId node newValue = l := by
  rw [adaptLayouts, Option.isSome_eq_false_iff.mp none_ |> Option.isNone_iff_eq_none.mp]

end SlurmSim.Select
