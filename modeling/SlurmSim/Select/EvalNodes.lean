import Mathlib.Algebra.BigOperators.Group.Finset.Basic
import SlurmSim.Select.AllocateCores

/-!
# Choosing nodes

`_eval_nodes` on its default path: the required nodes are taken first, and then
nodes from sets of consecutive nodes, the best fitting set first.  What is still
to be found is counted in variables of type `int`, which are converted from
unsigned numbers.
-/

namespace SlurmSim.Select.EvalNodes

open SlurmSim.Select

/-- `NO_VAL` -/
def noVal : UInt32 := 0xfffffffe

/-- What `_eval_nodes` reads of the job and of the nodes. -/
structure EvalRequest where
  details : JobDetails
  contiguous : Bool
  maxCpus : UInt32
  record : Nat → NodeRes
  crSocket : Bool

/-- The required nodes. -/
def EvalRequest.required (r : EvalRequest) : Finset Nat :=
  r.details.reqNodeBitmap.getD ∅

/-- The nodes chosen so far, the CPU counts, and the counters. -/
structure Selection where
  nodeMap : Finset Nat
  cpuCnt : Nat → UInt16
  remCpus : Int32
  remNodes : Int32
  minRemNodes : Int32
  totalCpus : Int32
  maxNodes : UInt32

/-- A set of consecutive nodes; `consec_req` is -1 for `none`. -/
structure Consec where
  cpus : Int32
  nodes : Int32
  start : Nat
  stop : Nat
  req : Option Nat

def Consec.blank : Consec :=
  ⟨0, 0, 0, 0, none⟩

def enoughNodes (availNodes remNodes : Int32) (minNodes reqNodes : UInt32) : Bool :=
  let neededNodes := if minNodes < reqNodes then
    (remNodes.toUInt32 + minNodes - reqNodes).toInt32 else remNodes
  decide (neededNodes ≤ availNodes)

/-- The CPUs on a node as a value of type `int`. -/
def cpusOn (cpuCnt : Nat → UInt16) (i : Nat) : Int32 :=
  Int32.ofNat (cpuCnt i).toNat

section Choice

variable (r : EvalRequest)

/-- The CPUs that `_cpus_to_use` keeps for the other nodes. -/
def resvCpus (remNodes : Int32) (nodeInx : Nat) : Int32 :=
  let resv := if remNodes - 1 < 0 then 0 else remNodes - 1
  let resv := resv * Int32.ofNat (r.details.crCpusPerCore (r.record nodeInx))
  if r.crSocket then resv * Int32.ofNat (r.record nodeInx).cores else resv

/-- `_cpus_to_use`: the CPUs to use on a node and its new entry in `cpu_cnt`. -/
def cpusToUse (availCpus remCpus remNodes : Int32) (cpuCnt : UInt16) (nodeInx : Nat) :
    Int32 × UInt16 :=
  if r.details.wholeNode = 1 then (availCpus, cpuCnt)
  else
    let remCpus := remCpus - resvCpus r remNodes nodeInx
    if remCpus < availCpus then
      let pnMinCpus := Int32.ofNat r.details.pnMinCpus
      let availCpus := if remCpus < pnMinCpus then pnMinCpus else remCpus
      (availCpus, availCpus.toUInt32.toUInt16)
    else (availCpus, cpuCnt)

/-- A node is taken, unless it would put the job over its limit of CPUs. -/
def takeNode (i : Nat) (availCpus : Int32) (s : Selection) : Selection :=
  let (availCpus, count) := cpusToUse r availCpus s.remCpus s.minRemNodes (s.cpuCnt i) i
  let cpuCnt := Function.update s.cpuCnt i count
  let totalCpus := s.totalCpus + availCpus
  if r.maxCpus ≠ noVal ∧ r.maxCpus < totalCpus.toUInt32 then { s with cpuCnt := cpuCnt }
  else
    { nodeMap := insert i s.nodeMap
      cpuCnt := cpuCnt
      remCpus := s.remCpus - availCpus
      remNodes := s.remNodes - 1
      minRemNodes := s.minRemNodes - 1
      totalCpus := totalCpus
      maxNodes := s.maxNodes - 1 }

/-- The loops over the nodes of a set; the last of the three passes over nodes that are
too small for a job with one node left. -/
def pickNodes (availCpus : Nat → Selection → Int32) (sized : Bool) :
    List Nat → Selection → Selection
  | [], s => s
  | i :: rest, s =>
    if s.maxNodes = 0 ∨ (s.remNodes ≤ 0 ∧ s.remCpus ≤ 0) then s
    else if i ∈ s.nodeMap then pickNodes availCpus sized rest s
    else if availCpus i s ≤ 0 then pickNodes availCpus sized rest s
    else if sized = true ∧ s.maxNodes = 1 ∧ availCpus i s < s.remCpus then
      pickNodes availCpus sized rest s
    else pickNodes availCpus sized rest (takeNode r i (availCpus i s) s)

/-- The search for the tightest single node. -/
def singleFit (s : Selection) : List Nat → Option Nat → Option Nat
  | [], best => best
  | i :: rest, best =>
    if i ∈ s.nodeMap ∨ cpusOn s.cpuCnt i < s.remCpus then singleFit s rest best
    else if best.all fun b => cpusOn s.cpuCnt i < cpusOn s.cpuCnt b then
      if cpusOn s.cpuCnt i = s.remCpus then some i else singleFit s rest (some i)
    else singleFit s rest best

/-- `cpus_array` when one node is enough; else the entries of `cpu_cnt`. -/
def cpusArray (s : Selection) (nodes : List Nat) : Nat → Selection → Int32 :=
  if s.remNodes ≤ 1 then
    match singleFit s nodes none with
    | some best => fun i _ => if i = best then cpusOn s.cpuCnt i else 0
    | none => fun i _ => if i ∈ s.nodeMap then 0 else cpusOn s.cpuCnt i
  else fun i now => cpusOn now.cpuCnt i

/-- The nodes of a set: up and then down from its first required node, or all of them in
order. -/
def pickFrom (c : Consec) (s : Selection) : Selection :=
  match c.req with
  | some req =>
    let s := pickNodes r (fun i now => cpusOn now.cpuCnt i) false
      (List.range' req (c.stop + 1 - req)) s
    pickNodes r (fun i now => cpusOn now.cpuCnt i) false
      (List.range' c.start (req - c.start)).reverse s
  | none =>
    let nodes := List.range' c.start (c.stop + 1 - c.start)
    pickNodes r (cpusArray s nodes) true nodes s

/-! ## Sets of consecutive nodes -/

/-- One turn of the loop over all nodes: a required node stays in the bitmap, any other
is left for later. -/
def keepRequired (i : Nat) (s : Selection) : Selection :=
  if i ∈ s.nodeMap then
    if s.maxNodes ≠ 0 ∧ i ∈ r.required then
      { s with
        totalCpus := s.totalCpus + cpusOn s.cpuCnt i
        remCpus := s.remCpus - cpusOn s.cpuCnt i
        remNodes := s.remNodes - 1
        minRemNodes := s.minRemNodes - 1
        maxNodes := s.maxNodes - 1 }
    else { s with nodeMap := s.nodeMap.erase i }
  else s

/-- What the same turn does to the table: the sets that are closed, and the open one. -/
def extendTable (i : Nat) (s : Selection) (table : List Consec × Consec) :
    List Consec × Consec :=
  let (closed, c) := table
  if i ∈ s.nodeMap then
    let c := if c.nodes = 0 then { c with start := i } else c
    if s.maxNodes ≠ 0 ∧ i ∈ r.required then
      (closed, if c.req = none then { c with req := some i } else c)
    else (closed, { c with cpus := c.cpus + cpusOn s.cpuCnt i, nodes := c.nodes + 1 })
  else if c.nodes = 0 then (closed, { c with req := none })
  else (closed ++ [{ c with stop := i - 1 }], .blank)

/-- The loop over all nodes. -/
def buildTable : List Nat → Selection × (List Consec × Consec) → Selection × (List Consec × Consec)
  | [], state => state
  | i :: rest, (s, table) => buildTable rest (keepRequired r i s, extendTable r i s table)

/-- The set that is best so far; none as long as `nodes` is zero. -/
structure BestFit where
  cpus : Int32
  nodes : Int32
  index : Nat
  req : Option Nat
  sufficient : Bool

/-- The search for the best set. A job that wants its required nodes in one block gives up
when another block has some. -/
def scanFit (s : Selection) (minNodes reqNodes : UInt32) : List Consec → Nat → BestFit → BestFit
  | [], _, best => best
  | c :: rest, i, best =>
    if c.nodes = 0 then scanFit s minNodes reqNodes rest (i + 1) best
    else if r.contiguous ∧ r.details.reqNodeBitmap.isSome ∧ c.req = none then
      scanFit s minNodes reqNodes rest (i + 1) best
    else
      let sufficient := decide (s.remCpus ≤ c.cpus) &&
        enoughNodes c.nodes s.remNodes minNodes reqNodes
      let best := if best.nodes = 0 ∨ (best.req = none ∧ c.req ≠ none) ∨
          (sufficient = true ∧ best.sufficient = false) ∨
          (sufficient = true ∧ c.cpus < best.cpus) ∨
          (sufficient = false ∧ best.cpus < c.cpus) then
        ⟨c.cpus, c.nodes, i, c.req, sufficient⟩ else best
      if r.contiguous ∧ r.details.reqNodeBitmap.isSome ∧ rest.any (·.req.isSome) then
        { best with nodes := 0 }
      else scanFit s minNodes reqNodes rest (i + 1) best

/-- A set that has been used. -/
def Consec.used (c : Consec) : Consec :=
  { c with cpus := 0, nodes := 0 }

/-- The loop that takes one set after the other, with a bound on its turns. -/
def evalLoop (minNodes reqNodes : UInt32) : Nat → List Consec → Selection → Option (Bool × Selection)
  | 0, _, _ => none
  | turns + 1, table, s =>
    if table = [] ∨ s.maxNodes = 0 then some (false, s)
    else
      let best := scanFit r s minNodes reqNodes table 0 ⟨0, 0, 0, none, false⟩
      if best.nodes = 0 then some (false, s)
      else if r.contiguous ∧ (best.cpus < s.remCpus ∨
          enoughNodes best.nodes s.remNodes minNodes reqNodes = false) then some (false, s)
      else
        let s := pickFrom r (table.getD best.index .blank) s
        if s.remNodes ≤ 0 ∧ s.remCpus ≤ 0 then some (true, s)
        else evalLoop minNodes reqNodes turns (table.set best.index (table.getD best.index .blank).used) s

/-- The counters at the beginning. -/
def startSelection (nodeMap : Finset Nat) (cpuCnt : Nat → UInt16)
    (minNodes maxNodes reqNodes : UInt32) : Selection :=
  ⟨nodeMap, cpuCnt, Int32.ofNat r.details.minCpus,
    (if minNodes < reqNodes then reqNodes else minNodes).toInt32, minNodes.toInt32, 0, maxNodes⟩

/-- The table with the set that is open at the last node. -/
def closeTable (crNodeCnt : Nat) (closed : List Consec) (last : Consec) : List Consec :=
  if last.nodes = 0 then closed else closed ++ [{ last with stop := crNodeCnt - 1 }]

/-- From the check of the required nodes on. -/
def evalSets (minNodes reqNodes : UInt32) (table : List Consec) (s : Selection) :
    Option (Bool × Finset Nat × (Nat → UInt16)) :=
  if r.maxCpus ≠ noVal ∧ r.maxCpus < s.totalCpus.toUInt32 then some (false, s.nodeMap, s.cpuCnt)
  else
    (evalLoop r minNodes reqNodes (table.length + 1) table s).map fun (success, s) =>
      (success || decide (s.remCpus ≤ 0) && enoughNodes 0 s.remNodes minNodes reqNodes,
        s.nodeMap, s.cpuCnt)

/-- `_eval_nodes`: whether it succeeds, and what it leaves in `node_map` and `cpu_cnt`. -/
def evalNodes (crNodeCnt : Nat) (nodeMap : Finset Nat) (cpuCnt : Nat → UInt16)
    (minNodes maxNodes reqNodes : UInt32) : Option (Bool × Finset Nat × (Nat → UInt16)) :=
  if UInt32.ofNat nodeMap.card < minNodes then some (false, nodeMap, cpuCnt)
  else if ¬r.required ⊆ nodeMap then some (false, nodeMap, cpuCnt)
  else
    let (s, closed, last) := buildTable r (List.range crNodeCnt)
      (startSelection r nodeMap cpuCnt minNodes maxNodes reqNodes, [], .blank)
    evalSets r minNodes reqNodes (closeTable crNodeCnt closed last) s

end Choice

end SlurmSim.Select.EvalNodes
