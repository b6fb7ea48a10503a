import SlurmSim.Select.EvalVariants

/-!
# Attempts to choose nodes

`_choose_nodes` clears the nodes that the job cannot use and calls `_eval_nodes`.  When
that fails, it leaves out the nodes with few CPUs, one count after the other, and tries
again with what is left.  The entries of `cpu_cnt` are those that the last attempt left.
-/

namespace SlurmSim.Select.EvalNodes

open SlurmSim.Select

/-- What `_eval_nodes` does with a bitmap and CPU counts: whether it succeeds, and what it
leaves of both. -/
abbrev Evaluation := Finset Nat → (Nat → UInt16) → Bool × Finset Nat × (Nat → UInt16)

section Choose

variable (r : EvalRequest)

/-- A node that is too large for the job or has no CPUs for it. -/
def unusable (cpuCnt : Nat → UInt16) (i : Nat) : Bool :=
  decide (r.details.wholeNode = 1 ∧ r.maxCpus ≠ noVal ∧ r.maxCpus.toNat < (cpuCnt i).toNat) ||
    decide (cpuCnt i < 1)

/-- The loop that clears such nodes; it stops without success at a required one. -/
def clearUnusable (cpuCnt : Nat → UInt16) : List Nat → Finset Nat → Bool × Finset Nat
  | [], nodeMap => (true, nodeMap)
  | i :: rest, nodeMap =>
    if i ∉ nodeMap then clearUnusable cpuCnt rest nodeMap
    else if unusable r cpuCnt i then
      if i ∈ r.required then (false, nodeMap) else clearUnusable cpuCnt rest (nodeMap.erase i)
    else clearUnusable cpuCnt rest nodeMap

/-- `max_nodes` is at most the number of tasks. -/
def nodeLimit (minNodes maxNodes : UInt32) : UInt32 :=
  if 1 < r.details.numTasks ∧ r.details.numTasks < maxNodes.toNat then
    max (UInt32.ofNat r.details.numTasks) minNodes
  else maxNodes

/-- `most_cpus` -/
def mostCpusOn (cpuCnt : Nat → UInt16) (nodes : List Nat) : Nat :=
  nodes.foldl (fun most i => max most (cpuCnt i).toNat) 0

/-- The nodes that an attempt leaves out. -/
def leftOut (count : Nat) (nodeMap : Finset Nat) (cpuCnt : Nat → UInt16) (i : Nat) : Bool :=
  decide (0 < (cpuCnt i).toNat ∧ (cpuCnt i).toNat ≤ count ∧ i ∈ nodeMap ∧ i ∉ r.required)

/-- The attempts from `count` on, for so many counts; `last` is the result of the attempt
before them. -/
def attempts (eval : Evaluation) (nodes : List Nat) :
    Nat → Nat → Finset Nat → Bool × Finset Nat × (Nat → UInt16) → Bool × Finset Nat × (Nat → UInt16)
  | 0, _, _, last => last
  | left + 1, count, origmap, (_, nodeMap, cpuCnt) =>
    let nodeMap := nodeMap ∪ origmap
    let out := nodes.filter (leftOut r count nodeMap cpuCnt)
    let origmap := origmap.filter (· ∉ out)
    let nodeMap := nodeMap.filter (· ∉ out)
    if out = [] then attempts eval nodes left (count + 1) origmap (false, nodeMap, cpuCnt)
    else
      let result := eval nodeMap cpuCnt
      if result.1 = true then result else attempts eval nodes left (count + 1) origmap result

/-- `_choose_nodes` with the evaluation of a bitmap. -/
def chooseNodes (eval : Evaluation) (crNodeCnt : Nat) (nodeMap : Finset Nat)
    (cpuCnt : Nat → UInt16) : Bool × Finset Nat × (Nat → UInt16) :=
  let nodes := List.range crNodeCnt
  match clearUnusable r cpuCnt nodes nodeMap with
  | (false, nodeMap) => (false, nodeMap, cpuCnt)
  | (true, origmap) =>
    let first := eval origmap cpuCnt
    if first.1 = true then first
    else attempts r eval nodes (mostCpusOn first.2.2 nodes - 1) 1 origmap first

end Choose

end SlurmSim.Select.EvalNodes
