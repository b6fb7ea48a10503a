import SlurmSim.Common.JobResources

/-!
# The cores of one node

`_allocate_sc` takes the cores of a node that are open to a job and answers how
many CPUs the job can have there and which of the cores stay open to it.  Cores
are numbered within the node.
-/

namespace SlurmSim.Select

open SlurmSim.Common List

def noVal16 : Nat := 0xfffe

def infinite16 : Nat := 0xffff

/-- `CORE_SPEC_THREAD`: the count is one of threads. -/
def coreSpecThread : Nat := 0x8000

/-- `struct node_res_record`; in `nodeSpecBitmap`, which is the node's own, the
specialized cores are missing. -/
structure NodeRes where
  cpus : Nat
  boards : Nat
  sockets : Nat
  cores : Nat
  threads : Nat
  vpus : Nat
  nodeSpecBitmap : Option (Finset Nat)

/-- `multi_core_data_t` -/
structure MultiCore where
  coresPerSocket : Nat
  socketsPerNode : Nat
  ntasksPerCore : Nat
  ntasksPerSocket : Nat
  threadsPerCore : Nat
  planeSize : Nat

/-- What the plugin reads of `struct job_details`. -/
structure JobDetails where
  coreSpec : Nat
  cpusPerTask : Nat
  minCpus : Nat
  minNodes : Nat
  mcPtr : Option MultiCore
  ntasksPerNode : Nat
  numTasks : Nat
  overcommit : Bool
  pnMinCpus : Nat
  reqNodeBitmap : Option (Finset Nat)
  shareRes : Nat
  taskDist : Nat
  wholeNode : Nat

namespace NodeRes

def coreCnt (r : NodeRes) : Nat := r.sockets * r.cores

/-- The cores of a socket. -/
def socketCores (r : NodeRes) (i : Nat) : List Nat := (List.range r.cores).map (i * r.cores + ·)

end NodeRes

namespace JobDetails

/-- `ntasks_per_core`, where given. -/
def ntasksPerCore (d : JobDetails) : Nat :=
  match d.mcPtr with
  | none => 0xffff
  | some mc => if mc.ntasksPerCore ≠ infinite16 ∧ mc.ntasksPerCore ≠ 0 then mc.ntasksPerCore
      else 0xffff

/-- `ncpus_per_core`: the CPUs of a core that the job can use, where limited. -/
def ncpusPerCore (d : JobDetails) (r : NodeRes) : Nat :=
  match d.mcPtr with
  | none => 0xffff
  | some mc =>
    let ncpus := if mc.ntasksPerCore ≠ infinite16 ∧ mc.ntasksPerCore ≠ 0
      then min r.vpus (mc.ntasksPerCore * d.cpusPerTask) else 0xffff
    if mc.threadsPerCore ≠ noVal16 ∧ mc.threadsPerCore < ncpus then mc.threadsPerCore else ncpus

/-- `cr_cpus_per_core` -/
def crCpusPerCore (d : JobDetails) (r : NodeRes) : Nat := min r.vpus (d.ncpusPerCore r)

def ntasksPerSocket (d : JobDetails) : Nat := (d.mcPtr.map MultiCore.ntasksPerSocket).getD 0

/-- `min_cores`: the cores a socket must have. -/
def minCores (d : JobDetails) : Nat :=
  match d.mcPtr with
  | none => 1
  | some mc => if mc.coresPerSocket ≠ noVal16 then mc.coresPerSocket else 1

/-- `min_sockets`: the sockets a node must have. -/
def minSockets (d : JobDetails) : Nat :=
  match d.mcPtr with
  | none => 1
  | some mc => if mc.socketsPerNode ≠ noVal16 then mc.socketsPerNode else 1

/-- The job asks for more of a core or of a socket than the node has. -/
def tooMuch (d : JobDetails) (r : NodeRes) : Bool :=
  d.mcPtr.isSome &&
    (decide (d.ncpusPerCore r ≠ noVal16 ∧ d.ncpusPerCore r ≠ infinite16 ∧
        r.vpus < d.ncpusPerCore r) ||
      decide (d.ntasksPerSocket ≠ noVal16 ∧ d.ntasksPerSocket ≠ infinite16 ∧
        r.vpus * r.cores < d.ntasksPerSocket))

end JobDetails

/-! ## Counting cores -/

/-- `free_cores`, `used_cores` and `used_cpu_array` of a socket. -/
structure SocketCount where
  free : Nat
  used : Nat
  own : Nat

/-- Cores that are not open count as used if they are in the map of the partition,
or if there is no such map. -/
def countSocket (r : NodeRes) (coreMap : Finset Nat) (partCoreMap : Option (Finset Nat))
    (i : Nat) : SocketCount where
  free := (r.socketCores i).countP (· ∈ coreMap)
  used := (r.socketCores i).countP fun c => c ∉ coreMap ∧ partCoreMap.all (c ∈ ·)
  own := (r.socketCores i).countP fun c => c ∉ coreMap ∧ partCoreMap.any (c ∈ ·)

/-- With `entire_sockets_only` a socket in use has no free cores. -/
def SocketCount.blockUsed (entireSocketsOnly : Bool) (count : SocketCount) : SocketCount :=
  if entireSocketsOnly ∧ count.used ≠ 0 then ⟨0, count.used + count.free, count.own⟩ else count

/-- The free cores that would push the partition over its limit are taken away,
from the first socket on. -/
def dropExcess (r : NodeRes) : List Nat → Int → List Nat → List Nat
  | [], _, free => free
  | c :: rest, excess, free =>
    let i := c / r.cores
    if 0 < free.getD i 0 then
      let fewer := free.set i (free.getD i 0 - 1)
      if excess - r.vpus ≤ 0 then fewer else dropExcess r rest (excess - r.vpus) fewer
    else dropExcess r rest excess free

/-- The first step of `_allocate_sc` with the limit of the partition. -/
def freeCores (r : NodeRes) (maxCpusPerNode : Option Nat) (coreMap : Finset Nat)
    (partCoreMap : Option (Finset Nat)) (entireSocketsOnly : Bool) : List Nat :=
  let counts := (List.range r.sockets).map fun i =>
    (countSocket r coreMap partCoreMap i).blockUsed entireSocketsOnly
  let freeCpus := (counts.map fun count => count.free * r.vpus).sum
  let usedCpus := (counts.map fun count => if count.own ≠ 0 then count.used * r.vpus else 0).sum
  let free := counts.map SocketCount.free
  match maxCpusPerNode with
  | none => free
  | some most =>
    if most < freeCpus + usedCpus then
      dropExcess r (List.range r.coreCnt) ((freeCpus + usedCpus : Nat) - most) free
    else free

/-- Sockets with fewer than `min_cores` free cores are not used. -/
def dropSmall (d : JobDetails) (free : List Nat) : List Nat :=
  free.map fun cores => if cores < d.minCores then 0 else cores

/-! ## Counting tasks -/

/-- The third step of `_allocate_sc`: `num_tasks` and `avail_cpus`. -/
def countTasks (d : JobDetails) (threadsPerCore : Nat) (free : List Nat) : Nat × Nat :=
  let availCpus := (free.map (· * threadsPerCore)).sum
  let numTasks := (free.map fun cores =>
    if d.ntasksPerSocket ≠ 0 then min (cores * threadsPerCore) d.ntasksPerSocket
    else cores * threadsPerCore).sum
  let numTasks := if d.ntasksPerNode ≠ 0 ∧ d.shareRes ≠ 0 then min numTasks d.ntasksPerNode
    else numTasks
  if d.cpusPerTask < 2 then (numTasks, numTasks)
  else if d.ntasksPerCore = 1 ∧ threadsPerCore < d.cpusPerTask then
    let taskCores := (d.cpusPerTask + threadsPerCore - 1) / threadsPerCore
    let taskCpus := taskCores * threadsPerCore
    let tasks := availCpus / taskCpus
    (numTasks, tasks * taskCpus - tasks * (taskCpus - d.cpusPerTask))
  else
    let numTasks := min numTasks (availCpus / d.cpusPerTask)
    (numTasks, if d.ntasksPerNode ≠ 0 then numTasks * d.cpusPerTask else availCpus)

/-- Too few tasks or CPUs for what the job wants on each node. -/
def insufficient (d : JobDetails) (numTasks availCpus : Nat) : Bool :=
  decide (d.ntasksPerNode ≠ 0 ∧ numTasks < d.ntasksPerNode ∧ d.overcommit = false) ||
    decide (d.pnMinCpus ≠ 0 ∧ availCpus < d.pnMinCpus)

/-! ## Taking cores -/

/-- The variables of the last loop of `_allocate_sc`; `kept` are the cores that
stay set. -/
structure Scan where
  availCpus : Nat
  si : Nat
  cpuCnt : Nat
  cpuCount : Nat
  tmpCpt : Nat
  free : List Nat
  kept : Finset Nat

namespace Scan

variable (d : JobDetails) (r : NodeRes) (threadsPerCore cps : Nat) (coreMap : Finset Nat)

/-- The CPUs of a core that is taken. -/
def takeCpus (st : Scan) : Scan :=
  if threadsPerCore ≤ st.availCpus then
    let used := if d.ntasksPerCore = 1 ∧ threadsPerCore < d.cpusPerTask
      then min st.tmpCpt threadsPerCore else threadsPerCore
    { st with
      availCpus := st.availCpus - used
      cpuCount := st.cpuCount + used
      tmpCpt := if st.tmpCpt ≤ used then d.cpusPerTask else st.tmpCpt - used }
  else { st with cpuCount := st.cpuCount + st.availCpus, availCpus := 0 }

/-- A core of the socket `i` is taken. -/
def takeCore (st : Scan) (c i : Nat) : Scan :=
  takeCpus d threadsPerCore
    { st with
      si := i
      cpuCnt := if st.si = i then st.cpuCnt + threadsPerCore else threadsPerCore
      free := st.free.set i (st.free.getD i 0 - 1)
      kept := insert c st.kept }

/-- One core of the last loop. -/
def core (st : Scan) (c : Nat) : Scan :=
  if c ∉ coreMap ∨ st.free.getD (c / r.cores) 0 = 0 then st
  else if st.si = c / r.cores ∧ cps ≤ st.cpuCnt then st
  else takeCore d threadsPerCore st c (c / r.cores)

/-- The last loop of `_allocate_sc`, which ends when no CPUs are left to take. -/
def cores : List Nat → Scan → Scan
  | [], st => st
  | c :: rest, st =>
    if st.availCpus = 0 then st else cores rest (core d r threadsPerCore cps coreMap st c)

end Scan

section Allocate

variable (d : JobDetails) (r : NodeRes) (maxCpusPerNode : Option Nat)

/-- `cps`: the CPUs the job can have on a socket. -/
def cpusPerSocket (numTasks : Nat) : Nat :=
  if 1 ≤ d.ntasksPerSocket then
    if 1 < d.cpusPerTask then d.ntasksPerSocket * d.cpusPerTask % 65536 else d.ntasksPerSocket
  else numTasks

/-- The steps of `_allocate_sc` up to `fini`. -/
def takeCores (coreMap : Finset Nat) (partCoreMap : Option (Finset Nat))
    (entireSocketsOnly : Bool) : Nat × Finset Nat :=
  let free := freeCores r maxCpusPerNode coreMap partCoreMap entireSocketsOnly
  let usable := dropSmall d free
  if d.tooMuch r ∨ free.countP (d.minCores ≤ ·) < d.minSockets ∨ usable.sum < 1 then (0, ∅)
  else
    let threadsPerCore := d.crCpusPerCore r
    let (numTasks, availCpus) := countTasks d threadsPerCore usable
    if insufficient d numTasks availCpus ∨ numTasks = 0 then (0, ∅)
    else
      let st := Scan.cores d r threadsPerCore (cpusPerSocket d numTasks) coreMap
        (List.range r.coreCnt) ⟨availCpus, 9999, 0, 0, d.cpusPerTask, usable, ∅⟩
      (st.cpuCount, st.kept)

/-- The end of `_allocate_sc`: CPUs for specialized threads. -/
def reserveThreads (cpuCount : Nat) : Nat :=
  if d.coreSpec ≠ noVal16 ∧ d.coreSpec &&& coreSpecThread ≠ 0 ∧
      (r.threads = 1 ∨ r.threads = r.vpus) then
    let c := d.coreSpec &&& 0x7fff
    if cpuCount + c ≤ r.cpus then cpuCount else cpuCount - c
  else cpuCount

/-- `_allocate_sc`; a specialized job on whole nodes does not need entire sockets. -/
def allocateSc (coreMap : Finset Nat) (partCoreMap : Option (Finset Nat))
    (entireSocketsOnly : Bool) : Nat × Finset Nat :=
  let entire := entireSocketsOnly && !decide (d.wholeNode ≠ 0 ∧ d.coreSpec ≠ noVal16)
  let (cpuCount, cores) := takeCores d r maxCpusPerNode coreMap partCoreMap entire
  (reserveThreads d r cpuCount, cores)

end Allocate

/-! ## Which cores are taken -/

/-- The counts only go down. -/
def Fewer (free' free : List Nat) : Prop := ∀ i, free'.getD i 0 ≤ free.getD i 0

theorem Fewer.refl (free : List Nat) : Fewer free free := fun _ => le_rfl

theorem Fewer.trans {free free' free'' : List Nat} (two : Fewer free'' free')
    (one : Fewer free' free) : Fewer free'' free := fun i => (two i).trans (one i)

theorem fewer_set (free : List Nat) (i : Nat) : Fewer (free.set i (free.getD i 0 - 1)) free := by
  intro j
  simp only [getD_eq_getElem?_getD, getElem?_set]
  split_ifs with same mem
  · subst same
    exact Nat.sub_le _ _
  · exact Nat.zero_le _
  · exact le_rfl

theorem dropExcess_fewer (r : NodeRes) (cores : List Nat) (excess : Int) (free : List Nat) :
    Fewer (dropExcess r cores excess free) free := by
  induction cores generalizing excess free with
  | nil => exact Fewer.refl free
  | cons c rest ih =>
    rw [dropExcess]
    split_ifs with some_ last
    · exact fewer_set free _
    · exact (ih _ _).trans (fewer_set free _)
    · exact ih _ _

theorem dropSmall_fewer (d : JobDetails) (free : List Nat) : Fewer (dropSmall d free) free := by
  intro i
  simp only [dropSmall, getD_eq_getElem?_getD, getElem?_map]
  cases free[i]? with
  | none => exact le_rfl
  | some cores =>
    simp only [Option.map_some, Option.getD_some]
    split_ifs with small
    · exact Nat.zero_le _
    · exact le_rfl

variable {d : JobDetails} {r : NodeRes}

theorem mem_socketCores {c : Nat} (mem : c < r.coreCnt) : c ∈ r.socketCores (c / r.cores) := by
  have pos : 0 < r.cores := by
    rcases Nat.eq_zero_or_pos r.cores with none_ | some_
    · simp [NodeRes.coreCnt, none_] at mem
    · exact some_
  refine mem_map.mpr ⟨c % r.cores, mem_range.mpr (Nat.mod_lt c pos), ?_⟩
  rw [Nat.mul_comm]
  exact Nat.div_add_mod c r.cores

/-- A socket with free cores has, if only entire sockets are given, no core that
counts as used. -/
theorem freeCores_entire {maxCpusPerNode : Option Nat} {coreMap : Finset Nat}
    {partCoreMap : Option (Finset Nat)} {i c : Nat}
    (free : 0 < (freeCores r maxCpusPerNode coreMap partCoreMap true).getD i 0)
    (here : c ∈ r.socketCores i) (closed : c ∉ coreMap) :
    ∃ own, partCoreMap = some own ∧ c ∉ own := by
  have counted : 0 < (((List.range r.sockets).map fun i =>
      (countSocket r coreMap partCoreMap i).blockUsed true).map SocketCount.free).getD i 0 := by
    refine Nat.lt_of_lt_of_le free ?_
    unfold freeCores
    cases maxCpusPerNode with
    | none => exact le_rfl
    | some most =>
      dsimp only
      split_ifs with excess
      · exact dropExcess_fewer r _ _ _ i
      · exact le_rfl
  have unused : (countSocket r coreMap partCoreMap i).used = 0 := by
    by_contra used
    rcases Nat.lt_or_ge i r.sockets with mem | outside
    · simp [getElem?_range mem, SocketCount.blockUsed, used] at counted
    · simp [getElem?_eq_none (l := List.range r.sockets) (by simpa using outside)] at counted
  have notUsed := countP_eq_zero.mp unused c here
  cases partCoreMap with
  | none => simp [closed] at notUsed
  | some own => exact ⟨own, rfl, by simpa [closed] using notUsed⟩

namespace Scan

variable {threadsPerCore cps : Nat} {coreMap : Finset Nat}

/-- What is kept was open and in a socket with free cores. -/
structure Sound (r : NodeRes) (coreMap : Finset Nat) (free : List Nat) (st : Scan) : Prop where
  fewer : Fewer st.free free
  kept : ∀ c ∈ st.kept, c ∈ coreMap ∧ 0 < free.getD (c / r.cores) 0

theorem Sound.start (availCpus : Nat) (free : List Nat) :
    Sound r coreMap free ⟨availCpus, 9999, 0, 0, d.cpusPerTask, free, ∅⟩ :=
  ⟨Fewer.refl free, fun c mem => absurd mem (Finset.notMem_empty c)⟩

theorem takeCpus_free (st : Scan) : (takeCpus d threadsPerCore st).free = st.free := by
  unfold takeCpus
  split_ifs <;> rfl

theorem takeCpus_kept (st : Scan) : (takeCpus d threadsPerCore st).kept = st.kept := by
  unfold takeCpus
  split_ifs <;> rfl

theorem Sound.core {free : List Nat} {st : Scan} (sound : Sound r coreMap free st) (c : Nat) :
    Sound r coreMap free (core d r threadsPerCore cps coreMap st c) := by
  unfold Scan.core
  by_cases closed : c ∉ coreMap ∨ st.free.getD (c / r.cores) 0 = 0
  · rw [if_pos closed]
    exact sound
  · rw [if_neg closed]
    obtain ⟨opened, some_⟩ := not_or.mp closed
    split_ifs with full
    · exact sound
    · refine ⟨?_, ?_⟩
      · rw [takeCore, takeCpus_free]
        exact (fewer_set st.free _).trans sound.fewer
      · rw [takeCore, takeCpus_kept]
        intro other mem
        rcases Finset.mem_insert.mp mem with rfl | before
        · exact ⟨not_not.mp opened, Nat.lt_of_lt_of_le (Nat.pos_of_ne_zero some_) (sound.fewer _)⟩
        · exact sound.kept other before

theorem Sound.cores {free : List Nat} {st : Scan} (sound : Sound r coreMap free st)
    (list : List Nat) : Sound r coreMap free (cores d r threadsPerCore cps coreMap list st) := by
  induction list generalizing st with
  | nil => exact sound
  | cons c rest ih =>
    rw [Scan.cores]
    split_ifs with done
    · exact sound
    · exact ih (sound.core c)

end Scan

variable {maxCpusPerNode : Option Nat} {coreMap : Finset Nat} {partCoreMap : Option (Finset Nat)}

theorem takeCores_sound {entireSocketsOnly : Bool} {c : Nat}
    (taken : c ∈ (takeCores d r maxCpusPerNode coreMap partCoreMap entireSocketsOnly).2) :
    c ∈ coreMap ∧
      0 < (freeCores r maxCpusPerNode coreMap partCoreMap entireSocketsOnly).getD (c / r.cores) 0 := by
  unfold takeCores at taken
  dsimp only at taken
  split_ifs at taken with unusable few
  · exact absurd taken (Finset.notMem_empty c)
  · exact absurd taken (Finset.notMem_empty c)
  · obtain ⟨opened, free⟩ := ((Scan.Sound.start _ _).cores _).kept c taken
    exact ⟨opened, Nat.lt_of_lt_of_le free (dropSmall_fewer d _ _)⟩

theorem allocateSc_subset {entireSocketsOnly : Bool} :
    (allocateSc d r maxCpusPerNode coreMap partCoreMap entireSocketsOnly).2 ⊆ coreMap :=
  fun _ taken => (takeCores_sound taken).1

theorem allocateSc_entire (common : d.coreSpec = noVal16) {c mate : Nat}
    (taken : c ∈ (allocateSc d r maxCpusPerNode coreMap partCoreMap true).2)
    (mem : mate < r.coreCnt) (same : mate / r.cores = c / r.cores) :
    mate ∈ coreMap ∨ ∃ own, partCoreMap = some own ∧ mate ∉ own := by
  by_cases opened : mate ∈ coreMap
  · exact Or.inl opened
  · have free := (takeCores_sound taken).2
    rw [← same] at free
    simp only [common, ne_eq, not_true_eq_false, and_false, decide_false, Bool.not_false,
      Bool.and_true] at free
    exact Or.inr (freeCores_entire free (mem_socketCores mem) opened)

end SlurmSim.Select
