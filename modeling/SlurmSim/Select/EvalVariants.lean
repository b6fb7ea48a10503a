import SlurmSim.Select.EvalNodes

/-!
# Other ways of choosing nodes

`_eval_nodes_spread`, `_eval_nodes_busy`, `_eval_nodes_lln` and `_eval_nodes_serial`:
each keeps the required nodes of the bitmap and clears the others, and then goes
through the indices from the first to the last candidate again, in an order of its own.
`_choose_nodes` is what calls them, with the candidates that it leaves.
-/

namespace SlurmSim.Select.EvalNodes

open SlurmSim.Select

/-- The variations of `_eval_nodes`. -/
inductive Variant where
  | spread
  | busy
  | lln
  | serial
deriving DecidableEq, Repr

/-- The indices from `bit_ffs` to `bit_fls`. -/
def span (crNodeCnt : Nat) (nodeMap : Finset Nat) : List Nat :=
  match (List.range crNodeCnt).find? (· ∈ nodeMap),
    (List.range crNodeCnt).reverse.find? (· ∈ nodeMap) with
  | some iStart, some iEnd => List.range' iStart (iEnd + 1 - iStart)
  | _, _ => []

/-- A node counts for the job. -/
def countNode (i : Nat) (s : Selection) : Selection :=
  { s with
    totalCpus := s.totalCpus + cpusOn s.cpuCnt i
    remCpus := s.remCpus - cpusOn s.cpuCnt i
    remNodes := s.remNodes - 1
    minRemNodes := s.minRemNodes - 1
    maxNodes := s.maxNodes - 1 }

/-- A node is set in the bitmap and counts. -/
def addNode (i : Nat) (s : Selection) : Selection :=
  { countNode i s with nodeMap := insert i s.nodeMap }

section Variants

variable (r : EvalRequest)

/-- The loop over the required nodes; `_eval_nodes_spread` and `_eval_nodes_busy` keep
only those with CPUs. -/
def passRequired (withCpus : Bool) : List Nat → Selection → Selection
  | [], s => s
  | i :: rest, s =>
    if i ∉ r.required then passRequired withCpus rest { s with nodeMap := s.nodeMap.erase i }
    else if i ∈ s.nodeMap then
      if (withCpus = true → 0 < cpusOn s.cpuCnt i) ∧ s.maxNodes ≠ 0 then
        passRequired withCpus rest (countNode i s)
      else passRequired withCpus rest { s with nodeMap := s.nodeMap.erase i }
    else passRequired withCpus rest s

/-- What is left of the bitmap before other nodes are added. -/
def keepRequiredNodes (withCpus : Bool) (nodes : List Nat) (s : Selection) : Selection :=
  if r.details.reqNodeBitmap.isSome then passRequired r withCpus nodes s
  else { s with nodeMap := ∅ }

/-- The second loop of `_eval_nodes_spread`. -/
def spreadNodes : List Nat → Selection → Selection
  | [], s => s
  | i :: rest, s =>
    if 0 < cpusOn s.cpuCnt i ∧ s.maxNodes ≠ 0 then
      let s := addNode i s
      if s.maxNodes = 0 then s else spreadNodes rest s
    else spreadNodes rest s

/-- A loop of `_eval_nodes_busy`, over the nodes with a job or over the idle ones. -/
def busyNodes (idleNodeBitmap : Finset Nat) (idle : Bool) : List Nat → Selection → Selection
  | [], s => s
  | i :: rest, s =>
    if i ∈ s.nodeMap ∨ decide (i ∈ idleNodeBitmap) ≠ idle then
      busyNodes idleNodeBitmap idle rest s
    else if 0 < cpusOn s.cpuCnt i ∧ s.maxNodes ≠ 0 then
      let s := addNode i s
      if s.maxNodes = 0 ∨ (s.remCpus ≤ 0 ∧ s.remNodes ≤ 0) then s
      else busyNodes idleNodeBitmap idle rest s
    else busyNodes idleNodeBitmap idle rest s

/-- The search of `_eval_nodes_lln` for the node with most CPUs; it ends early at a node
with as many as the last one had. -/
def maxCpuIdx (s : Selection) (lastMaxCpuCnt : Option UInt16) : List Nat → Option Nat → Option Nat
  | [], best => best
  | i :: rest, best =>
    if i ∈ s.nodeMap then maxCpuIdx s lastMaxCpuCnt rest best
    else if best.all fun b => s.cpuCnt b < s.cpuCnt i then
      if some (s.cpuCnt i) = lastMaxCpuCnt then some i
      else maxCpuIdx s lastMaxCpuCnt rest (some i)
    else maxCpuIdx s lastMaxCpuCnt rest best

/-- The loop of `_eval_nodes_lln`. Each turn takes one node off `max_nodes`, which bounds
the number of turns. -/
def llnNodes (nodes : List Nat) : Nat → Option UInt16 → Selection → Selection
  | 0, _, s => s
  | turns + 1, lastMaxCpuCnt, s =>
    if (0 < s.remCpus ∨ 0 < s.remNodes) ∧ s.maxNodes ≠ 0 then
      match maxCpuIdx s lastMaxCpuCnt nodes none with
      | none => s
      | some i =>
        if s.cpuCnt i = 0 then s
        else llnNodes nodes turns (some (s.cpuCnt i))
          { addNode i s with totalCpus := s.totalCpus }
    else s

/-- The loop of `_eval_nodes_serial`, which takes the last node with CPUs. -/
def serialNodes (nodes : List Nat) : Nat → Selection → Selection
  | 0, s => s
  | turns + 1, s =>
    if (0 < s.remCpus ∨ 0 < s.remNodes) ∧ s.maxNodes ≠ 0 then
      match nodes.reverse.find? fun i => decide (i ∉ s.nodeMap ∧ s.cpuCnt i ≠ 0) with
      | none => s
      | some i => serialNodes nodes turns { addNode i s with totalCpus := s.totalCpus }
    else s

/-- The nodes that a variant adds to the required ones. -/
def addNodes (idleNodeBitmap : Finset Nat) (nodes : List Nat) (s : Selection) :
    Variant → Selection
  | .spread => spreadNodes nodes s
  | .busy =>
    busyNodes idleNodeBitmap true nodes (busyNodes idleNodeBitmap false nodes s)
  | .lln => llnNodes nodes s.maxNodes.toNat none s
  | .serial => serialNodes nodes s.maxNodes.toNat s

/-- A variant: whether it succeeds, and what it leaves in `node_map`. -/
def evalVariant (v : Variant) (idleNodeBitmap : Finset Nat) (crNodeCnt : Nat)
    (nodeMap : Finset Nat) (cpuCnt : Nat → UInt16) (minNodes maxNodes reqNodes : UInt32) :
    Bool × Finset Nat :=
  let nodes := span crNodeCnt nodeMap
  let s := keepRequiredNodes r (v = .spread ∨ v = .busy) nodes
    (startSelection r nodeMap cpuCnt minNodes maxNodes reqNodes)
  if r.maxCpus ≠ noVal ∧ r.maxCpus < s.totalCpus.toUInt32 then (false, s.nodeMap)
  else
    let s := addNodes idleNodeBitmap nodes s v
    if 0 < s.remCpus ∨ 0 < s.minRemNodes then (false, ∅) else (true, s.nodeMap)

end Variants

end SlurmSim.Select.EvalNodes
