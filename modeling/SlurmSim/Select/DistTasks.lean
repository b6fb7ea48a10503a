import Mathlib.Order.Interval.Finset.Nat
import SlurmSim.Select.AllocateCores

/-!
# Distributing tasks

`cr_dist` fits the cores of a job to its tasks: the CPUs of each node are counted
again and the cores that are not needed are released.  When sockets are
allocated, the rest of each socket that is used is added.
-/

namespace SlurmSim.Select

open SlurmSim.Common List

/-- The resource that is allocated: `CR_CPU`, `CR_CORE` or `CR_SOCKET`. -/
inductive CrType where
  | cpu
  | core
  | socket
deriving DecidableEq, Repr

/-- The part of the job resources for one node: its entry in `cpus` and its bits
of the core bitmap. -/
structure NodeShare where
  node : Nat
  cpus : Nat
  bits : Finset Nat

/-! ## Tasks for each node -/

/-- An entry of `avail_cpus` and the entry of the new array of CPUs. -/
structure NodeTasks where
  avail : Nat
  cpus : Nat

/-- A task starts on the node, with the CPUs that are left for it. -/
def NodeTasks.addTask (cpusPerTask : Nat) (node : NodeTasks) : NodeTasks :=
  { node with cpus := min node.avail (node.cpus + cpusPerTask) }

section Tasks

variable (cpusPerTask maxtasks : Nat) (overSubscribe : Bool)

/-- One cycle of `_compute_c_b_task_dist`: a task for each node with room. -/
def cbCycle (i : Nat) : List NodeTasks → Nat → List NodeTasks × Nat × Bool
  | [], tid => ([], tid, false)
  | node :: rest, tid =>
    if tid < maxtasks then
      if i ≤ node.avail ∨ overSubscribe then
        let (rest, tid, spaceRemaining) := cbCycle i rest (tid + 1)
        (node.addTask cpusPerTask :: rest, tid, spaceRemaining || i + 1 ≤ node.avail)
      else
        let (rest, tid, spaceRemaining) := cbCycle i rest tid
        (node :: rest, tid, spaceRemaining)
    else (node :: rest, tid, false)

/-- The tasks of a plane on one node. -/
def planeTasks : Nat → NodeTasks → Nat → NodeTasks × Nat
  | 0, node, tid => (node, tid)
  | p + 1, node, tid =>
    if tid < maxtasks then
      if node.cpus < node.avail ∨ overSubscribe then
        planeTasks p (node.addTask cpusPerTask) (tid + 1)
      else planeTasks p node tid
    else (node, tid)

/-- One cycle of `_compute_plane_dist`. -/
def planeCycle (planeSize : Nat) : List NodeTasks → Nat → List NodeTasks × Nat × Bool
  | [], tid => ([], tid, false)
  | node :: rest, tid =>
    if tid < maxtasks then
      let (node, tid) := planeTasks cpusPerTask maxtasks overSubscribe planeSize node tid
      let (rest, tid, spaceRemaining) := planeCycle planeSize rest tid
      (node :: rest, tid, spaceRemaining || node.cpus < node.avail)
    else (node :: rest, tid, false)

end Tasks

/-- The cycles until every task has a node.  A cycle that starts no task leaves no
space, and with `over_subscribe` each one starts some. -/
def taskCycles (maxtasks : Nat)
    (cycle : Bool → Nat → List NodeTasks → Nat → List NodeTasks × Nat × Bool) :
    Nat → Nat → Bool → List NodeTasks → Nat → List NodeTasks
  | 0, _, _, nodes, _ => nodes
  | cycles + 1, n, overSubscribe, nodes, tid =>
    if tid < maxtasks then
      let (nodes, tid, spaceRemaining) := cycle overSubscribe n nodes tid
      taskCycles maxtasks cycle cycles (n + 1) (overSubscribe || !spaceRemaining) nodes tid
    else nodes

/-- `cpus_per_task` is set to 1 where it is 0. -/
def JobDetails.someCpusPerTask (d : JobDetails) : JobDetails :=
  { d with cpusPerTask := if d.cpusPerTask = 0 then 1 else d.cpusPerTask }

/-- `_compute_c_b_task_dist` -/
def computeCBTaskDist (d : JobDetails) (ncpus : Nat) (availCpus : List Nat) : List Nat :=
  let wanted :=
    if d.overcommit = false ∧ 1 < d.cpusPerTask then
      if d.ntasksPerNode = 0 then ncpus / d.cpusPerTask else d.ntasksPerNode * availCpus.length
    else ncpus
  let maxtasks := if wanted = 0 then 1 else wanted
  let cpusPerTask := d.someCpusPerTask.cpusPerTask
  (taskCycles maxtasks
    (fun overSubscribe n => cbCycle cpusPerTask maxtasks overSubscribe ((n + 1) * cpusPerTask))
    (maxtasks + 1) 0 false (availCpus.map (⟨·, 0⟩)) 0).map NodeTasks.cpus

/-- `_compute_plane_dist` -/
def computePlaneDist (d : JobDetails) (ncpus : Nat) (availCpus : List Nat) : Option (List Nat) :=
  let maxtasks := if 1 < d.cpusPerTask then ncpus / d.cpusPerTask else ncpus
  let planeSize := (d.mcPtr.map MultiCore.planeSize).getD 1
  if planeSize = 0 then none
  else
    some ((taskCycles maxtasks
      (fun overSubscribe _ => planeCycle d.cpusPerTask maxtasks overSubscribe planeSize)
      (maxtasks + 1) 0 false (availCpus.map (⟨·, 0⟩)) 0).map NodeTasks.cpus)

/-! ## Cyclic distribution -/

/-- `sock_start`, `sock_end`, `sock_avoid` and `sock_used` of a socket. -/
structure Sock where
  start : Nat
  stop : Nat
  avoid : Bool
  used : Bool

/-- The CPUs that a task takes from a core when it has cores of its own, and what
it then lacks. -/
def taskShare (d : JobDetails) (vpus tmpCpt : Nat) : Nat × Nat :=
  if d.ntasksPerCore = 1 ∧ vpus < d.cpusPerTask then
    let used := min tmpCpt vpus
    (used, if tmpCpt ≤ used then d.cpusPerTask else tmpCpt - used)
  else (vpus, tmpCpt)

section Cyclic

variable (d : JobDetails) (crType : CrType) (r : NodeRes) (vpus : Nat) (bits : Finset Nat)

/-- `cpus_cnt` of a socket. -/
def cpusCnt (sock : Sock) : Nat :=
  vpus * (Finset.Ico sock.start sock.stop ∩ bits).card

/-- Sockets with more CPUs than the tasks of a socket use are counted with as many. -/
def trimCounts (cpusPerSocket cpus : Nat) : List Nat → Nat → List Nat × Nat
  | [], total => ([], total)
  | count :: rest, total =>
    if cpus < total ∧ cpusPerSocket < count then
      let (rest, total) := trimCounts cpusPerSocket cpus rest (total - (count - cpusPerSocket))
      (cpusPerSocket :: rest, total)
    else
      let (rest, total) := trimCounts cpusPerSocket cpus rest total
      (count :: rest, total)

/-- Sockets that can be spared are avoided. -/
def avoidSocks (cpusPerSocket cpus : Nat) : List (Sock × Nat) → Nat → List Sock
  | [], _ => []
  | (sock, count) :: rest, total =>
    if cpus < total ∧ count ≤ cpusPerSocket ∧ cpus ≤ total - count then
      { sock with avoid := true } :: avoidSocks cpusPerSocket cpus rest (total - count)
    else sock :: avoidSocks cpusPerSocket cpus rest total

/-- The branch for `ntasks_per_socket`. -/
def spareSocks (ntasksPerSocket cpus : Nat) (socks : List Sock) : List Sock :=
  let cpusPerSocket := ntasksPerSocket * d.cpusPerTask
  let counts := socks.map (cpusCnt vpus bits)
  let (counts, total) := trimCounts cpusPerSocket cpus counts counts.sum
  avoidSocks cpusPerSocket cpus (socks.zip counts) total

/-- `cpus`, `core_cnt` and `tmp_cpt`. -/
structure Taken where
  cpus : Nat
  coreCnt : Nat
  tmpCpt : Nat

/-- The tasks that fit on one socket are packed on it; `count` are the CPUs of
the socket for whole tasks. -/
def packSock : Nat → Sock → Nat → Taken → Sock × Taken
  | 0, sock, _, st => (sock, st)
  | n + 1, sock, count, st =>
    if count = 0 ∨ st.cpus = 0 then (sock, st)
    else if sock.start ∈ bits then
      let (used, tmpCpt) := taskShare d vpus st.tmpCpt
      packSock n { sock with start := sock.start + 1, used := true }
        (if count < vpus then 0 else count - used)
        ⟨if st.cpus < vpus then 0 else st.cpus - used, st.coreCnt + 1, tmpCpt⟩
    else packSock n { sock with start := sock.start + 1 } count st

/-- The branch for several CPUs per task. -/
def packSocks : List Sock → Taken → List Sock × Taken
  | [], st => ([], st)
  | sock :: rest, st =>
    let count := cpusCnt vpus bits sock
    let (sock, st) := packSock d vpus bits (sock.stop - sock.start) sock
      (count - count % d.cpusPerTask) st
    let (rest, st) := packSocks rest st
    (sock :: rest, st)

/-- The next core of the job from `start` on, among `n`. -/
def seek : Nat → Nat → Nat
  | 0, start => start
  | n + 1, start => if start ∈ bits then start else seek n (start + 1)

/-- One round over the sockets: a core from each. -/
def cyclicRound : List Sock → Taken → List Sock × Taken
  | [], st => ([], st)
  | sock :: rest, st =>
    if st.cpus = 0 then (sock :: rest, st)
    else if sock.avoid then
      let (rest, st) := cyclicRound rest st
      (sock :: rest, st)
    else
      let next := seek bits (sock.stop - sock.start) sock.start
      if next = sock.stop then
        let (rest, st) := cyclicRound rest st
        ({ sock with start := next } :: rest, st)
      else
        let (rest, st) := cyclicRound rest
          { st with cpus := st.cpus - vpus, coreCnt := st.coreCnt + 1 }
        ({ sock with start := next + 1, used := true } :: rest, st)

/-- The rounds until all CPUs are found; a round that finds none is an error. -/
def cyclicRounds : Nat → List Sock → Taken → Option (List Sock × Taken)
  | 0, _, _ => none
  | rounds + 1, socks, st =>
    if st.cpus = 0 then some (socks, st)
    else
      let next := cyclicRound vpus bits socks st
      if next.2.cpus = st.cpus then none else cyclicRounds rounds next.1 next.2

/-- The rest of a socket is released, or added when sockets are allocated. -/
def finishSock (sock : Sock) (found : Finset Nat × Nat) : Finset Nat × Nat :=
  let rest := Finset.Ico sock.start sock.stop
  if sock.start = sock.stop then found
  else
    let bits := if crType ≠ .socket ∨ sock.used = false then found.1 \ rest else found.1
    if 1 ≤ r.vpus ∧ crType ≠ .cpu ∧ sock.used then
      let bits := if crType = .socket then bits ∪ rest else bits
      (bits, found.2 + (rest ∩ bits).card)
    else (bits, found.2)

/-- `cpus` follows the cores when cores or sockets are allocated. -/
def adjustCpus (cpus coreCnt : Nat) : Nat :=
  if crType ≠ .cpu ∧ 1 ≤ r.vpus then coreCnt * r.vpus else cpus

def startSocks : List Sock :=
  (List.range r.sockets).map fun s => ⟨s * r.cores, s * r.cores + r.cores, false, false⟩

/-- The sockets before the rounds. -/
def prepareSocks (cpus : Nat) : List Sock × Taken :=
  let ntasksPerSocket := if d.ntasksPerSocket ≠ 0 then d.ntasksPerSocket else 0xffff
  if ntasksPerSocket ≠ 0xffff then
    (spareSocks d vpus bits ntasksPerSocket cpus (startSocks r), ⟨cpus, 0, 0⟩)
  else if 1 < d.cpusPerTask then packSocks d vpus bits (startSocks r) ⟨cpus, 0, d.cpusPerTask⟩
  else (startSocks r, ⟨cpus, 0, 0⟩)

end Cyclic

/-- `_cyclic_sync_core_bitmap` for one node. -/
def cyclicSyncNode (d : JobDetails) (crType : CrType) (r : NodeRes) (share : NodeShare) :
    Option NodeShare :=
  let vpus := d.crCpusPerCore r
  let (socks, st) := prepareSocks d r vpus share.bits share.cpus
  (cyclicRounds vpus share.bits (share.cpus + 1) socks st).map fun (socks, st) =>
    let (bits, coreCnt) := socks.foldl (fun found sock => finishSock crType r sock found)
      (share.bits, st.coreCnt)
    { share with bits := bits, cpus := adjustCpus crType r share.cpus coreCnt }

/-! ## Block distribution -/

/-- `_gen_combs`: the combinations of `k` of the `n` numbers from `low` on. -/
def genCombs : Nat → Nat → Nat → List (List Nat)
  | _, 0, _ => [[]]
  | 0, _ + 1, _ => []
  | n + 1, k + 1, low =>
    (genCombs n k (low + 1)).map (low :: ·) ++ genCombs n (k + 1) (low + 1)

/-- How many of the counts it takes to reach the required cores, one more than
there are if they do not reach. -/
def countUpTo (reqCores : Nat) : List Nat → Nat → Nat
  | [], _ => 1
  | cores :: rest, count =>
    if reqCores ≤ count + cores then 1 else countUpTo reqCores rest (count + cores) + 1

def sortDescending (counts : List Nat) : List Nat := counts.insertionSort (· ≥ ·)

section Block

variable (d : JobDetails) (crType : CrType) (r : NodeRes) (vpus : Nat)

/-- `MAX_BOARDS` is 8. -/
def boardsNb : Nat := if 8 < r.boards then 1 else r.boards

def sockPerBrd : Nat := if boardsNb r ≤ r.sockets then r.sockets / boardsNb r else 1

/-- The required cores of the node. -/
def requiredCores (cpus : Nat) : Nat :=
  if d.ntasksPerCore = 1 ∧ vpus < d.cpusPerTask then
    cpus / d.cpusPerTask * ((d.cpusPerTask + vpus - 1) / vpus)
  else cpus / vpus + if cpus % vpus ≠ 0 then 1 else 0

/-- `sockets_core_cnt` -/
def socketsCoreCnt (bits : Finset Nat) (s : Nat) : Nat := (r.socketCores s).countP (· ∈ bits)

/-- `boards_core_cnt` -/
def boardsCoreCnt (count : Nat → Nat) (b : Nat) : Nat :=
  (((List.range r.sockets).filter (· / sockPerBrd r = b)).map count).sum

/-- The sockets of some boards, in ascending order. -/
def boardSockets (boards : List Nat) : List Nat :=
  boards.flatMap fun b => (List.range (sockPerBrd r)).map (b * sockPerBrd r + ·)

/-- A combination of boards with the smallest number of sockets and, among these,
of cores; the last of them. -/
def betterComb (reqCores : Nat) (count : Nat → Nat) (best : List Nat × Nat × Nat)
    (boards : List Nat) : List Nat × Nat × Nat :=
  let cores := (boards.map (boardsCoreCnt r count)).sum
  let sockets := countUpTo reqCores (sortDescending ((boardSockets r boards).map count)) 0
  if sockets < best.2.1 ∨ sockets = best.2.1 ∧ cores ≤ best.2.2 then (boards, sockets, cores)
  else best

/-- The sockets of the best-fit combination of boards.  Without a combination
that has the required cores the arrays are read beyond their ends. -/
def bestSockets (reqCores : Nat) (count : Nat → Nat) : Option (List Nat) :=
  let boards := boardsNb r
  let bMin := countUpTo reqCores
    (sortDescending ((List.range boards).map (boardsCoreCnt r count))) 0
  let eligible := (genCombs boards bMin 0).filter fun boards =>
    reqCores ≤ (boards.map (boardsCoreCnt r count)).sum
  let sockPerComb := bMin * sockPerBrd r
  eligible.head?.map fun first =>
    boardSockets r
      (eligible.foldl (betterComb r reqCores count) (first, sockPerComb, sockPerComb * r.cores)).1

/-- `best_fit_cores`, `best_fit_location` and `best_fit_sufficient`. -/
structure BestFit where
  cores : Nat
  location : Nat
  sufficient : Bool

def BestFit.next (reqCores : Nat) (count : Nat → Nat) (best : BestFit) (s : Nat) : BestFit :=
  let sufficient := decide (reqCores ≤ count s)
  if best.cores = 0 ∨ (sufficient ∧ best.sufficient = false) ∨
      (sufficient ∧ count s < best.cores) ∨ (sufficient = false ∧ best.cores < count s) then
    ⟨count s, s, sufficient⟩
  else best

/-- The variables of the loop that selects cores. -/
structure BlockState where
  bits : Finset Nat
  count : Nat → Nat
  used : Finset Nat
  taken : Taken

/-- The CPUs of a core that is used. -/
def Taken.takeCore (st : Taken) : Taken :=
  if st.cpus < vpus then { st with cpus := 0, coreCnt := st.coreCnt + 1 }
  else
    let (used, tmpCpt) := taskShare d vpus st.tmpCpt
    ⟨st.cpus - used, st.coreCnt + 1, tmpCpt⟩

/-- One core of the socket `s` with the best fit. -/
def blockCore (s : Nat) (st : BlockState) (j : Nat) : BlockState :=
  if st.taken.cpus = 0 then
    if crType = .socket then
      { st with
        bits := insert j st.bits
        taken := { st.taken with coreCnt := st.taken.coreCnt + 1 } }
    else { st with bits := st.bits.erase j }
  else if j ∈ st.bits then
    { st with
      count := Function.update st.count s (st.count s - 1)
      taken := st.taken.takeCore d vpus }
  else if crType = .socket then
    { st with
      bits := insert j st.bits
      taken := { st.taken with coreCnt := st.taken.coreCnt + 1 } }
  else st

/-- The cores of the socket with the best fit. -/
def blockSocket (s : Nat) (st : BlockState) : BlockState :=
  (r.socketCores s).foldl (blockCore d crType vpus s) { st with used := insert s st.used }

/-- The loop over best-fit sockets; a socket that was used up has no cores left.
Without a usable socket the controller gives up. -/
def blockSockets (reqCores : Nat) (sockets : List Nat) : Nat → BlockState → Option BlockState
  | 0, _ => none
  | n + 1, st =>
    if st.taken.cpus = 0 then some st
    else
      let best := sockets.foldl (BestFit.next reqCores st.count) ⟨0, 0, false⟩
      if best.cores = 0 then none
      else
        let st := blockSocket d crType r vpus best.location st
        if st.taken.cpus ≠ 0 then blockSockets reqCores sockets n st
        else some { st with bits := st.bits.filter (· / r.cores ∈ st.used) }

end Block

/-- `_block_sync_core_bitmap` for one node. -/
def blockSyncNode (d : JobDetails) (crType : CrType) (r : NodeRes) (share : NodeShare) :
    Option NodeShare :=
  let vpus := d.crCpusPerCore r
  let reqCores := requiredCores d vpus share.cpus
  let count := socketsCoreCnt r share.bits
  match bestSockets r reqCores count with
  | none => none
  | some sockets =>
    (blockSockets d crType r vpus reqCores sockets (r.sockets + 1)
      ⟨share.bits, count, ∅, ⟨share.cpus, 0, d.cpusPerTask⟩⟩).map fun st =>
        { share with
          bits := st.bits
          cpus := adjustCpus crType r share.cpus st.taken.coreCnt }

/-! ## The distribution of a job -/

/-- One node after the other. -/
def syncNodes (sync : NodeShare → Option NodeShare) : List NodeShare → Option (List NodeShare)
  | [] => some []
  | share :: rest =>
    match sync share, syncNodes sync rest with
    | some share, some rest => some (share :: rest)
    | _, _ => none

section Dist

variable (table : Nat → NodeRes) (d : JobDetails) (crType : CrType)

/-- `_cyclic_sync_core_bitmap` -/
def cyclicSyncCoreBitmap (shares : List NodeShare) : Option (List NodeShare) :=
  syncNodes (fun share => cyclicSyncNode d crType (table share.node) share) shares

/-- `_block_sync_core_bitmap`; a bitmap without bits is left alone. -/
def blockSyncCoreBitmap (shares : List NodeShare) : Option (List NodeShare) :=
  if ∀ share ∈ shares, share.bits = ∅ then some shares
  else syncNodes (fun share => blockSyncNode d crType (table share.node) share) shares

/-- `_clear_spec_cores` -/
def clearSpecCores (avail : Nat → Finset Nat) (shares : List NodeShare) : List NodeShare :=
  shares.map fun share =>
    let bits := (Finset.range (table share.node).coreCnt).filter (· ∈ avail share.node)
    { share with bits := bits, cpus := bits.card * (table share.node).vpus }

def setCpus (cpus : List Nat) (shares : List NodeShare) : List NodeShare :=
  shares.zipIdx.map fun (share, i) => { share with cpus := cpus.getD i 0 }

/-- The end of `cr_dist`, which goes by the distribution of nodes and sockets. -/
def syncCores (coreDefaultDistBlock : Bool) (shares : List NodeShare) : Option (List NodeShare) :=
  let nodes := d.taskDist &&& 0xf00f
  let nodesSockets := d.taskDist &&& 0xf0ff
  if crType = .cpu then blockSyncCoreBitmap table d crType shares
  else if coreDefaultDistBlock ∧ nodes ∈ [0x3, 0x2, 0x1, 0x2000] then
    blockSyncCoreBitmap table d crType shares
  else if nodesSockets ∈ [0x22, 0x21, 0x4] then blockSyncCoreBitmap table d crType shares
  else if nodesSockets ∈ [0x3, 0x2, 0x1, 0x12, 0x11, 0x32, 0x31, 0x2000] then
    cyclicSyncCoreBitmap table d crType shares
  else none

/-- `cr_dist`; `exclusive` says that the job has `NODE_CR_RESERVED` nodes. -/
def crDist (coreDefaultDistBlock exclusive : Bool) (ncpus : Nat) (avail : Nat → Finset Nat)
    (shares : List NodeShare) : Option (List NodeShare) :=
  if d.coreSpec ≠ noVal16 then some shares
  else if exclusive ∨ d.wholeNode = 1 then some (clearSpecCores table avail shares)
  else if shares = [] then none
  else if d.taskDist &&& 0xffff = 0x4 then
    (computePlaneDist d ncpus (shares.map NodeShare.cpus)).bind fun cpus =>
      syncCores table d crType coreDefaultDistBlock (setCpus cpus shares)
  else
    syncCores table d.someCpusPerTask crType coreDefaultDistBlock
      (setCpus (computeCBTaskDist d ncpus (shares.map NodeShare.cpus)) shares)

end Dist

/-! ## Which cores a distribution gives -/

/-- Each core was there before or, when sockets are allocated, shares its socket
with one that was. -/
def Grown (crType : CrType) (r : NodeRes) (bits bits' : Finset Nat) : Prop :=
  ∀ j ∈ bits', j ∈ bits ∨ crType = .socket ∧ ∃ k ∈ bits, k / r.cores = j / r.cores

theorem Grown.refl {crType : CrType} {r : NodeRes} (bits : Finset Nat) :
    Grown crType r bits bits := fun _ mem => Or.inl mem

variable {d : JobDetails} {crType : CrType} {r : NodeRes} {vpus : Nat} {bits : Finset Nat}

/-- The socket has at most its own cores left and, if it is used, one of the job's. -/
def Sock.Ok (r : NodeRes) (bits : Finset Nat) (sock : Sock) : Prop :=
  ∃ s, s * r.cores ≤ sock.start ∧ sock.start ≤ sock.stop ∧ sock.stop = s * r.cores + r.cores ∧
    (sock.used = true → ∃ k ∈ bits, s * r.cores ≤ k ∧ k < sock.stop)

namespace Sock.Ok

variable {sock : Sock}

theorem setAvoid (ok : sock.Ok r bits) (avoid : Bool) :
    Sock.Ok r bits { sock with avoid := avoid } := ok

theorem advance (ok : sock.Ok r bits) {start : Nat} (later : sock.start ≤ start)
    (before : start ≤ sock.stop) : Sock.Ok r bits { sock with start := start } := by
  obtain ⟨s, low, _, stopEq, used⟩ := ok
  exact ⟨s, low.trans later, before, stopEq, used⟩

theorem take (ok : sock.Ok r bits) {k : Nat} (found : k ∈ bits) (later : sock.start ≤ k)
    (before : k < sock.stop) : Sock.Ok r bits { sock with start := k + 1, used := true } := by
  obtain ⟨s, low, _, stopEq, _⟩ := ok
  exact ⟨s, by dsimp only; omega, before, stopEq, fun _ => ⟨k, found, low.trans later, before⟩⟩

theorem start_le (ok : sock.Ok r bits) : sock.start ≤ sock.stop := by
  obtain ⟨_, _, mem, _⟩ := ok
  exact mem

theorem mate (ok : sock.Ok r bits) (used : sock.used = true) {j : Nat} (later : sock.start ≤ j)
    (before : j < sock.stop) : ∃ k ∈ bits, k / r.cores = j / r.cores := by
  obtain ⟨s, low, _, stopEq, found⟩ := ok
  obtain ⟨k, inBits, kLow, kBefore⟩ := found used
  have quotient : ∀ i, s * r.cores ≤ i → i < sock.stop → i / r.cores = s := by
    intro i iLow iBefore
    exact Nat.div_eq_of_lt_le iLow (by rw [Nat.add_mul, Nat.one_mul]; omega)
  exact ⟨k, inBits, (quotient k kLow kBefore).trans (quotient j (low.trans later) before).symm⟩

end Sock.Ok

theorem startSocks_ok (bits : Finset Nat) : ∀ sock ∈ startSocks r, sock.Ok r bits := by
  intro sock mem
  obtain ⟨s, _, rfl⟩ := mem_map.mp mem
  exact ⟨s, le_rfl, Nat.le_add_right _ _, rfl, fun used => absurd used (by simp)⟩

theorem avoidSocks_ok {cpusPerSocket cpus total : Nat} {socks : List (Sock × Nat)}
    (ok : ∀ sock ∈ socks, sock.1.Ok r bits) :
    ∀ sock ∈ avoidSocks cpusPerSocket cpus socks total, sock.Ok r bits := by
  induction socks generalizing total with
  | nil => simp [avoidSocks]
  | cons head rest ih =>
    obtain ⟨here, more⟩ := forall_mem_cons.mp ok
    rw [avoidSocks]
    split_ifs with spare
    · exact forall_mem_cons.mpr ⟨here.setAvoid true, ih more⟩
    · exact forall_mem_cons.mpr ⟨here, ih more⟩

variable {socks : List Sock} {st : Taken}

theorem spareSocks_ok {ntasksPerSocket cpus : Nat} (ok : ∀ sock ∈ socks, sock.Ok r bits) :
    ∀ sock ∈ spareSocks d vpus bits ntasksPerSocket cpus socks, sock.Ok r bits := by
  refine avoidSocks_ok ?_
  intro sock mem
  exact ok sock.1 (of_mem_zip (a := sock.1) (b := sock.2) mem).1

theorem packSock_ok {n : Nat} {sock : Sock} {count : Nat} (ok : sock.Ok r bits)
    (room : n ≤ sock.stop - sock.start) : (packSock d vpus bits n sock count st).1.Ok r bits := by
  induction n generalizing sock count st with
  | zero => exact ok
  | succ n ih =>
    rw [packSock]
    by_cases full : count = 0 ∨ st.cpus = 0
    · rw [if_pos full]
      exact ok
    · rw [if_neg full]
      by_cases found : sock.start ∈ bits
      · rw [if_pos found]
        exact ih (ok.take found le_rfl (by omega)) (by dsimp only; omega)
      · rw [if_neg found]
        exact ih (ok.advance (Nat.le_succ _) (by omega)) (by dsimp only; omega)

theorem packSocks_ok (ok : ∀ sock ∈ socks, sock.Ok r bits) :
    ∀ sock ∈ (packSocks d vpus bits socks st).1, sock.Ok r bits := by
  induction socks generalizing st with
  | nil => simp [packSocks]
  | cons sock rest ih =>
    obtain ⟨here, more⟩ := forall_mem_cons.mp ok
    exact forall_mem_cons.mpr ⟨packSock_ok here le_rfl, ih more⟩

theorem prepareSocks_ok (cpus : Nat) :
    ∀ sock ∈ (prepareSocks d r vpus bits cpus).1, sock.Ok r bits := by
  unfold prepareSocks
  by_cases perSocket : (if d.ntasksPerSocket ≠ 0 then d.ntasksPerSocket else 0xffff) ≠ 0xffff
  · rw [if_pos perSocket]
    exact spareSocks_ok (startSocks_ok bits)
  · rw [if_neg perSocket]
    split_ifs with several
    · exact packSocks_ok (startSocks_ok bits)
    · exact startSocks_ok bits

theorem seek_spec (bits : Finset Nat) (n start : Nat) :
    seek bits n start = start + n ∨
      seek bits n start ∈ bits ∧ start ≤ seek bits n start ∧ seek bits n start < start + n := by
  induction n generalizing start with
  | zero => exact Or.inl rfl
  | succ n ih =>
    rw [seek]
    split_ifs with found
    · exact Or.inr ⟨found, le_rfl, by omega⟩
    · rcases ih (start + 1) with none_ | ⟨inBits, later, before⟩
      · exact Or.inl (none_.trans (by omega))
      · exact Or.inr ⟨inBits, by omega, by omega⟩

theorem cyclicRound_ok (ok : ∀ sock ∈ socks, sock.Ok r bits) :
    ∀ sock ∈ (cyclicRound vpus bits socks st).1, sock.Ok r bits := by
  induction socks generalizing st with
  | nil => simp [cyclicRound]
  | cons sock rest ih =>
    obtain ⟨here, more⟩ := forall_mem_cons.mp ok
    have whole : sock.start + (sock.stop - sock.start) = sock.stop := by
      have inside := here.start_le
      omega
    rw [cyclicRound]
    dsimp only
    split_ifs with done avoided used
    · exact ok
    · exact forall_mem_cons.mpr ⟨here, ih more⟩
    · refine forall_mem_cons.mpr ⟨?_, ih more⟩
      rw [used]
      exact here.advance here.start_le le_rfl
    · refine forall_mem_cons.mpr ⟨?_, ih more⟩
      rcases seek_spec bits (sock.stop - sock.start) sock.start with none_ | ⟨found, later, before⟩
      · exact absurd (none_.trans whole) used
      · exact here.take found later (before.trans_eq whole)

theorem cyclicRounds_ok {rounds : Nat} {socks' : List Sock} {st' : Taken}
    (ok : ∀ sock ∈ socks, sock.Ok r bits)
    (result : cyclicRounds vpus bits rounds socks st = some (socks', st')) :
    ∀ sock ∈ socks', sock.Ok r bits := by
  induction rounds generalizing socks st with
  | zero => simp [cyclicRounds] at result
  | succ rounds ih =>
    rw [cyclicRounds] at result
    dsimp only at result
    split_ifs at result with done stuck
    · cases result
      exact ok
    · exact ih (cyclicRound_ok ok) result

theorem finishSock_grown {sock : Sock} {found : Finset Nat × Nat} (ok : sock.Ok r bits)
    (grown : Grown crType r bits found.1) :
    Grown crType r bits (finishSock crType r sock found).1 := by
  have fewer : Grown crType r bits
      (if crType ≠ .socket ∨ sock.used = false then found.1 \ Finset.Ico sock.start sock.stop
        else found.1) := by
    intro j mem
    split_ifs at mem with released
    · exact grown j (Finset.mem_sdiff.mp mem).1
    · exact grown j mem
  unfold finishSock
  by_cases empty : sock.start = sock.stop
  · rw [if_pos empty]
    exact grown
  · rw [if_neg empty]
    by_cases used : 1 ≤ r.vpus ∧ crType ≠ .cpu ∧ sock.used = true
    · rw [if_pos used]
      by_cases sockets : crType = .socket
      · simp only [if_pos sockets]
        intro j mem
        rcases Finset.mem_union.mp mem with before | rest
        · exact fewer j before
        · obtain ⟨later, earlier⟩ := Finset.mem_Ico.mp rest
          exact Or.inr ⟨sockets, ok.mate used.2.2 later earlier⟩
      · simp only [if_neg sockets]
        exact fewer
    · rw [if_neg used]
      exact fewer

theorem finishSocks_grown {found : Finset Nat × Nat} (ok : ∀ sock ∈ socks, sock.Ok r bits)
    (grown : Grown crType r bits found.1) :
    Grown crType r bits (socks.foldl (fun found sock => finishSock crType r sock found) found).1 := by
  induction socks generalizing found with
  | nil => exact grown
  | cons sock rest ih =>
    obtain ⟨here, more⟩ := forall_mem_cons.mp ok
    exact ih more (finishSock_grown here grown)

/-- The share keeps its node, and its bits grow at most within their sockets. -/
structure Follows (table : Nat → NodeRes) (crType : CrType) (share share' : NodeShare) : Prop where
  node : share'.node = share.node
  grown : Grown crType (table share.node) share.bits share'.bits

theorem cyclicSyncNode_follows {table : Nat → NodeRes} {share share' : NodeShare}
    (result : cyclicSyncNode d crType (table share.node) share = some share') :
    Follows table crType share share' := by
  obtain ⟨⟨socks, st⟩, rounds, rfl⟩ := Option.map_eq_some_iff.mp result
  exact ⟨rfl, finishSocks_grown (cyclicRounds_ok (prepareSocks_ok _) rounds) (Grown.refl _)⟩

/-! ## Block distribution -/

theorem BestFit.next_counted {reqCores : Nat} {count : Nat → Nat} {best : BestFit}
    (counted : best.cores = 0 ∨ best.cores = count best.location) (s : Nat) :
    (best.next reqCores count s).cores = 0 ∨
      (best.next reqCores count s).cores = count (best.next reqCores count s).location := by
  unfold BestFit.next
  dsimp only
  split_ifs with better
  · exact Or.inr rfl
  · exact counted

theorem bestFit_counted (reqCores : Nat) (count : Nat → Nat) (sockets : List Nat) (best : BestFit)
    (counted : best.cores = 0 ∨ best.cores = count best.location) :
    (sockets.foldl (BestFit.next reqCores count) best).cores = 0 ∨
      (sockets.foldl (BestFit.next reqCores count) best).cores =
        count (sockets.foldl (BestFit.next reqCores count) best).location := by
  induction sockets generalizing best with
  | nil => exact counted
  | cons s rest ih => exact ih _ (BestFit.next_counted counted s)

theorem div_of_mem_socketCores {s j : Nat} (mem : j ∈ r.socketCores s) : j / r.cores = s := by
  obtain ⟨i, below, rfl⟩ := mem_map.mp mem
  rw [mem_range] at below
  rw [Nat.mul_comm, Nat.mul_add_div (Nat.zero_lt_of_lt below), Nat.div_eq_of_lt below, Nat.add_zero]

/-- What the loop over best-fit sockets keeps. -/
structure BlockState.Ok (crType : CrType) (r : NodeRes) (bits : Finset Nat) (st : BlockState) :
    Prop where
  grown : Grown crType r bits st.bits
  count : ∀ s, st.count s ≤ socketsCoreCnt r bits s

namespace BlockState.Ok

variable {st : BlockState} {s : Nat}

theorem grow (ok : st.Ok crType r bits) (sockets : crType = .socket)
    (some_ : ∃ k ∈ bits, k / r.cores = s) {j : Nat} (mem : j ∈ r.socketCores s) :
    Grown crType r bits (insert j st.bits) := by
  intro i inBits
  rcases Finset.mem_insert.mp inBits with rfl | before
  · obtain ⟨k, kIn, same⟩ := some_
    exact Or.inr ⟨sockets, k, kIn, same.trans (div_of_mem_socketCores mem).symm⟩
  · exact ok.grown i before

theorem core (ok : st.Ok crType r bits) (some_ : ∃ k ∈ bits, k / r.cores = s) {j : Nat}
    (mem : j ∈ r.socketCores s) : (blockCore d crType vpus s st j).Ok crType r bits := by
  unfold blockCore
  split_ifs with done sockets found sockets
  · exact ⟨ok.grow sockets some_ mem, ok.count⟩
  · exact ⟨fun i inBits => ok.grown i (Finset.mem_of_mem_erase inBits), ok.count⟩
  · refine ⟨ok.grown, ?_⟩
    intro other
    dsimp only
    rcases eq_or_ne other s with rfl | different
    · rw [Function.update_self]
      exact (Nat.sub_le _ _).trans (ok.count other)
    · rw [Function.update_of_ne different]
      exact ok.count other
  · exact ⟨ok.grow sockets some_ mem, ok.count⟩
  · exact ok

theorem cores (ok : st.Ok crType r bits) (some_ : ∃ k ∈ bits, k / r.cores = s) {list : List Nat}
    (mem : ∀ j ∈ list, j ∈ r.socketCores s) :
    (list.foldl (blockCore d crType vpus s) st).Ok crType r bits := by
  induction list generalizing st with
  | nil => exact ok
  | cons j rest ih =>
    obtain ⟨here, more⟩ := forall_mem_cons.mp mem
    exact ih (ok.core some_ here) more

theorem socket (ok : st.Ok crType r bits) (pos : 0 < st.count s) :
    (blockSocket d crType r vpus s st).Ok crType r bits := by
  have before : 0 < socketsCoreCnt r bits s := Nat.lt_of_lt_of_le pos (ok.count s)
  obtain ⟨k, mem, found⟩ := countP_pos_iff.mp before
  have entered : BlockState.Ok crType r bits { st with used := insert s st.used } :=
    ⟨ok.grown, ok.count⟩
  exact entered.cores ⟨k, of_decide_eq_true found, div_of_mem_socketCores mem⟩
    fun _ inSocket => inSocket

theorem sockets {reqCores n : Nat} {list : List Nat} {st' : BlockState} (ok : st.Ok crType r bits)
    (result : blockSockets d crType r vpus reqCores list n st = some st') :
    Grown crType r bits st'.bits := by
  induction n generalizing st with
  | zero => simp [blockSockets] at result
  | succ n ih =>
    have fits : (list.foldl (BestFit.next reqCores st.count) ⟨0, 0, false⟩).cores ≠ 0 →
        0 < st.count (list.foldl (BestFit.next reqCores st.count) ⟨0, 0, false⟩).location := by
      intro some_
      have counted := bestFit_counted reqCores st.count list ⟨0, 0, false⟩ (Or.inl rfl)
      rw [← counted.resolve_left some_]
      exact Nat.pos_of_ne_zero some_
    rw [blockSockets] at result
    dsimp only at result
    split_ifs at result with done none_ more
    · cases result
      exact ok.grown
    · exact ih (ok.socket (fits none_)) result
    · have after : (blockSocket d crType r vpus _ st).Ok crType r bits := ok.socket (fits none_)
      cases result
      exact fun j inBits => after.grown j (Finset.mem_filter.mp inBits).1

end BlockState.Ok

theorem blockSyncNode_follows {table : Nat → NodeRes} {share share' : NodeShare}
    (result : blockSyncNode d crType (table share.node) share = some share') :
    Follows table crType share share' := by
  unfold blockSyncNode at result
  dsimp only at result
  cases socketsEq : bestSockets (table share.node)
      (requiredCores d (d.crCpusPerCore (table share.node)) share.cpus)
      (socketsCoreCnt (table share.node) share.bits) with
  | none => simp [socketsEq] at result
  | some sockets =>
    rw [socketsEq] at result
    obtain ⟨st, loop, rfl⟩ := Option.map_eq_some_iff.mp result
    have start : BlockState.Ok crType (table share.node) share.bits
        ⟨share.bits, socketsCoreCnt (table share.node) share.bits, ∅,
          ⟨share.cpus, 0, d.cpusPerTask⟩⟩ :=
      ⟨Grown.refl _, fun _ => le_rfl⟩
    exact ⟨rfl, start.sockets loop⟩

/-! ## The distribution of a job -/

theorem syncNodes_forall₂ {sync : NodeShare → Option NodeShare} {shares shares' : List NodeShare}
    (result : syncNodes sync shares = some shares') :
    List.Forall₂ (fun share share' => sync share = some share') shares shares' := by
  induction shares generalizing shares' with
  | nil =>
    cases result
    exact List.Forall₂.nil
  | cons share rest ih =>
    rw [syncNodes] at result
    cases first : sync share with
    | none => simp [first] at result
    | some synced =>
      cases others : syncNodes sync rest with
      | none => simp [first, others] at result
      | some list =>
        simp only [first, others, Option.some.injEq] at result
        exact result ▸ List.Forall₂.cons first (ih others)

variable {table : Nat → NodeRes} {shares shares' : List NodeShare}

theorem Follows.refl (share : NodeShare) : Follows table crType share share :=
  ⟨rfl, Grown.refl _⟩

theorem blockSyncCoreBitmap_follows
    (result : blockSyncCoreBitmap table d crType shares = some shares') :
    List.Forall₂ (Follows table crType) shares shares' := by
  unfold blockSyncCoreBitmap at result
  split_ifs at result with empty
  · cases result
    exact forall₂_same.mpr fun share _ => Follows.refl share
  · exact (syncNodes_forall₂ result).imp fun _ _ => blockSyncNode_follows

theorem syncCores_follows {coreDefaultDistBlock : Bool}
    (result : syncCores table d crType coreDefaultDistBlock shares = some shares') :
    List.Forall₂ (Follows table crType) shares shares' := by
  unfold syncCores at result
  dsimp only at result
  split_ifs at result with cpus blockDefault block cyclic
  · exact blockSyncCoreBitmap_follows result
  · exact blockSyncCoreBitmap_follows result
  · exact blockSyncCoreBitmap_follows result
  · exact (syncNodes_forall₂ result).imp fun _ _ => cyclicSyncNode_follows

theorem setCpus_follows (cpus : List Nat)
    (after : List.Forall₂ (Follows table crType) (setCpus cpus shares) shares') :
    List.Forall₂ (Follows table crType) shares shares' := by
  unfold setCpus at after
  rw [forall₂_map_left_iff] at after
  have back : List.Forall₂ (Follows table crType) (shares.zipIdx.map Prod.fst) shares' :=
    forall₂_map_left_iff.mpr (after.imp fun _ _ follows => ⟨follows.node, follows.grown⟩)
  rwa [zipIdx_map_fst] at back

/-- What `cr_dist` does with the cores: it keeps them, gives all that are available
or synchronizes them. -/
theorem crDist_cases {coreDefaultDistBlock exclusive : Bool} {ncpus : Nat}
    {avail : Nat → Finset Nat}
    (result : crDist table d crType coreDefaultDistBlock exclusive ncpus avail shares =
      some shares') :
    (d.coreSpec ≠ noVal16 ∧ shares' = shares) ∨
      (d.coreSpec = noVal16 ∧ (exclusive = true ∨ d.wholeNode = 1) ∧
        shares' = clearSpecCores table avail shares) ∨
      (d.coreSpec = noVal16 ∧ exclusive = false ∧ d.wholeNode ≠ 1 ∧
        List.Forall₂ (Follows table crType) shares shares') := by
  unfold crDist at result
  split_ifs at result with special whole none_ plane
  · exact Or.inl ⟨special, (Option.some.inj result).symm⟩
  · exact Or.inr (Or.inl ⟨not_not.mp special, whole, (Option.some.inj result).symm⟩)
  · obtain ⟨cpus, _, synced⟩ := Option.bind_eq_some_iff.mp result
    obtain ⟨shared, part⟩ := not_or.mp whole
    exact Or.inr (Or.inr ⟨not_not.mp special, Bool.eq_false_iff.mpr shared, part,
      setCpus_follows cpus (syncCores_follows synced)⟩)
  · obtain ⟨shared, part⟩ := not_or.mp whole
    exact Or.inr (Or.inr ⟨not_not.mp special, Bool.eq_false_iff.mpr shared, part,
      setCpus_follows _ (syncCores_follows result)⟩)

end SlurmSim.Select
