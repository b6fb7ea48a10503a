import Mathlib.Algebra.Order.BigOperators.Group.Finset
import SlurmSim.Lib.Sums
import SlurmSim.Select.RowInvariant

/-!
# Node usage

The memory of a node is charged from the start of a job to its end, its state
while the job is not suspended.  The counters are the sums over the jobs as long
as every job that gets cores finds a row and no sum outgrows its counter.
-/

namespace SlurmSim.Select

open SlurmSim.Common
open Finset (mem_erase mem_insert mem_insert_self mem_of_mem_erase mem_union mem_union_left
  mem_union_right notMem_empty sum_insert)
open Function (update update_of_ne update_self)

/-- The starts, suspensions, resumptions, ends and node losses of jobs. -/
inductive UsageOp where
  | start (job : Nat) (info : JobInfo)
  | suspend (job : Nat)
  | resume (job : Nat)
  | endRunning (job : Nat)
  | endSuspended (job : Nat)
  | removeNode (job nodeInx : Nat)

namespace UsageOp

/-- The calls an operation makes, with the job state it leaves. -/
def calls : UsageOp → List SelectOp
  | .start job info => [.assign job info, .addJobToRes job 0]
  | .suspend job => [.rmJobFromRes job 2, .setSuspended job true]
  | .resume job => [.addJobToRes job 2, .setSuspended job false]
  | .endRunning job => [.rmJobFromRes job 0]
  | .endSuspended job => [.rmJobFromRes job 1]
  | .removeNode job nodeInx => [.rmJobFromOneNode job nodeInx]

end UsageOp

/-- The jobs that run and those that are suspended. -/
structure Jobs where
  running : Finset Nat
  suspended : Finset Nat

namespace Jobs

def all (j : Jobs) : Finset Nat := j.running ∪ j.suspended

def observe (j : Jobs) : UsageOp → Jobs
  | .start job _ => { j with running := insert job j.running }
  | .suspend job => ⟨j.running.erase job, insert job j.suspended⟩
  | .resume job => ⟨insert job j.running, j.suspended.erase job⟩
  | .endRunning job => { j with running := j.running.erase job }
  | .endSuspended job => { j with suspended := j.suspended.erase job }
  | .removeNode _ _ => j

end Jobs

namespace SelectState

variable (c : Cluster)

def memorySum (resrcs : Nat → JobResources) (jobs : Finset Nat) (node : Nat) : Nat :=
  ∑ job ∈ jobs, (resrcs job).memoryOn c node

def nodeReqSum (resrcs : Nat → JobResources) (jobs : Finset Nat) (node : Nat) : Nat :=
  ∑ job ∈ jobs, (resrcs job).nodeReqOn c node

def applyCalls (s : SelectState) (op : UsageOp) : SelectState :=
  op.calls.foldl (SelectState.apply c) s

/-- What the callers see to. -/
def UsageAllowed (s : SelectState) (j : Jobs) : UsageOp → Prop
  | .start job info => job ∉ j.all ∧ info.hasCores = true ∧ info.suspended = false ∧
      info.jobResrcs.WellFormed c
  | .suspend job => job ∈ j.running
  | .resume job => job ∈ j.suspended
  | .endRunning job => job ∈ j.running
  | .endSuspended job => job ∈ j.suspended
  | .removeNode job nodeInx => job ∈ j.all ∧ nodeInx ∈ (s.resrcs job).nodes c

/-- A job that gets cores finds a row, and the sums stay within the counters. -/
def Roomy (s : SelectState) (j : Jobs) : UsageOp → Prop
  | .start job info =>
    (s.apply c (.assign job info)).findsRow c job = true ∧
      ∀ node < c.nodeRecordCount,
        memorySum c s.resrcs j.all node + info.jobResrcs.memoryOn c node < 2 ^ 64 ∧
        nodeReqSum c s.resrcs j.running node + info.jobResrcs.nodeReqOn c node < 2 ^ 16
  | .resume job =>
    s.findsRow c job = true ∧
      ∀ node < c.nodeRecordCount,
        nodeReqSum c s.resrcs j.running node + (s.resrcs job).nodeReqOn c node < 2 ^ 16
  | _ => True

def usageRunWith : SelectState → Jobs → List UsageOp → SelectState × Jobs
  | s, j, [] => (s, j)
  | s, j, op :: ops => usageRunWith (s.applyCalls c op) (j.observe op) ops

def UsageRuns (ok : SelectState → Jobs → UsageOp → Prop) :
    SelectState → Jobs → List UsageOp → Prop
  | _, _, [] => True
  | s, j, op :: ops => s.UsageAllowed c j op ∧ ok s j op ∧
      UsageRuns ok (s.applyCalls c op) (j.observe op) ops

end SelectState

/-- The counters of every node are the sums over its jobs, nothing was clamped,
and a cluster without jobs is idle. -/
structure UsageInvariant (c : Cluster) (s : SelectState) (j : Jobs) : Prop where
  memory : ∀ node, (s.usage node).allocMemory.toNat = SelectState.memorySum c s.resrcs j.all node
  nodeState : ∀ node, (s.usage node).nodeState.toNat =
    SelectState.nodeReqSum c s.resrcs j.running node
  quiet : ∀ node, (s.usage node).complained = false
  idle : j.all = ∅ → ∀ node, (s.usage node).allocMemory = 0 ∧ (s.usage node).nodeState = 0

/-! ## One node at a time -/

variable {c : Cluster} {job : JobResources}

theorem foldl_nodes_apply (body : Nat → NodeUse → NodeUse) (node : Nat) {nodes : List Nat}
    (nodup : nodes.Nodup) (first : Nat) (usage : Nat → NodeUse) :
    (nodes.zipIdx first).foldl (fun usage (node, n) => if job.cpus.getD n 0 = 0 then usage
        else update usage node (body n (usage node))) usage node =
      if node ∈ nodes ∧ job.cpus.getD (first + nodes.idxOf node) 0 ≠ 0 then
        body (first + nodes.idxOf node) (usage node)
      else usage node := by
  induction nodes generalizing first usage with
  | nil => simp
  | cons head tail ih =>
    obtain ⟨notTail, tailNodup⟩ := List.nodup_cons.mp nodup
    rw [List.zipIdx_cons, List.foldl_cons, ih tailNodup (first + 1)]
    rcases eq_or_ne node head with rfl | different
    · simp only [notTail, false_and, if_false, List.mem_cons_self, true_and,
        List.idxOf_cons_self, Nat.add_zero]
      by_cases lost : job.cpus.getD first 0 = 0
      · rw [if_pos lost, if_neg (not_not.mpr lost)]
      · rw [if_neg lost, if_pos lost, update_self]
    · have same : (if job.cpus.getD first 0 = 0 then usage
          else update usage head (body first (usage head))) node = usage node := by
        split_ifs
        · rfl
        · rw [update_of_ne different]
      simp only [same, List.idxOf_cons_ne _ different.symm, List.mem_cons, different, false_or,
        Nat.succ_eq_add_one]
      rw [show first + (tail.idxOf node + 1) = first + 1 + tail.idxOf node by omega]

theorem updateNodes_apply (body : Nat → NodeUse → NodeUse) (usage : Nat → NodeUse) (node : Nat) :
    updateNodes c job body usage node =
      if job.UsesNode c node then body ((job.nodes c).idxOf node) (usage node)
      else usage node := by
  have walked := @foldl_nodes_apply job body node (job.nodes c) JobResources.nodes_nodup 0 usage
  rw [Nat.zero_add] at walked
  exact walked

/-- A counter record that differs from another in its memory and node state only. -/
structure NodeUse.Is (use : NodeUse) (memory nodeState : Nat) (complained : Bool) : Prop where
  memory : use.allocMemory.toNat = memory
  nodeState : use.nodeState.toNat = nodeState
  complained : use.complained = complained

variable {usage : Nat → NodeUse} {node memory nodeState : Nat} {complained : Bool}

variable {use : NodeUse} {resrcs : Nat → JobResources} {jobs : Finset Nat}

theorem chargeMemory_is (n : Nat) (is : use.Is memory nodeState complained)
    (fits : memory + (job.memoryAllocated.getD n 0).toNat < 2 ^ 64) :
    (chargeMemory job n use).Is (memory + (job.memoryAllocated.getD n 0).toNat) nodeState
      complained := by
  refine ⟨?_, is.nodeState, is.complained⟩
  rw [chargeMemory, UInt64.toNat_add, is.memory]
  exact Nat.mod_eq_of_lt fits

theorem refundMemory_is (n : Nat) (is : use.Is memory nodeState complained)
    (enough : (job.memoryAllocated.getD n 0).toNat ≤ memory) :
    (refundMemory job n use).Is (memory - (job.memoryAllocated.getD n 0).toNat) nodeState
      complained := by
  rw [← is.memory] at enough
  have notLess : ¬use.allocMemory < job.memoryAllocated.getD n 0 := by
    exact Nat.not_lt.mpr enough
  rw [refundMemory, if_neg notLess]
  refine ⟨?_, is.nodeState, is.complained⟩
  rw [← is.memory]
  exact UInt64.toNat_sub_of_le _ _ (UInt64.le_iff_toNat_le.mpr enough)

theorem toUInt16_toNat {nodeReq : UInt32} (small : nodeReq.toNat < 2 ^ 16) :
    nodeReq.toUInt16.toNat = nodeReq.toNat := by
  exact Nat.mod_eq_of_lt small

theorem chargeState_is (is : use.Is memory nodeState complained)
    (fits : nodeState + job.nodeReq.toNat < 2 ^ 16) :
    (chargeState job use).Is memory (nodeState + job.nodeReq.toNat) complained := by
  refine ⟨is.memory, ?_, is.complained⟩
  rw [chargeState, UInt16.toNat_add, is.nodeState, toUInt16_toNat (by omega)]
  exact Nat.mod_eq_of_lt fits

theorem refundState_is (is : use.Is memory nodeState complained)
    (enough : job.nodeReq.toNat ≤ nodeState) :
    (refundState job use).Is memory (nodeState - job.nodeReq.toNat) complained := by
  rw [← is.nodeState] at enough
  have small : job.nodeReq.toNat < 2 ^ 16 := enough.trans_lt (UInt16.toNat_lt use.nodeState)
  rw [refundState, if_pos enough]
  refine ⟨is.memory, ?_, is.complained⟩
  rw [← is.nodeState, ← toUInt16_toNat small]
  refine UInt16.toNat_sub_of_le _ _ (UInt16.le_iff_toNat_le.mpr ?_)
  rwa [toUInt16_toNat small]

theorem updateNodes_chargeMemory (is : (usage node).Is memory nodeState complained)
    (fits : memory + job.memoryOn c node < 2 ^ 64) :
    (updateNodes c job (chargeMemory job) usage node).Is (memory + job.memoryOn c node) nodeState
      complained := by
  rw [updateNodes_apply]
  unfold JobResources.memoryOn at fits ⊢
  split_ifs at fits ⊢
  · exact chargeMemory_is _ is fits
  · exact is

theorem updateNodes_refundMemory (is : (usage node).Is memory nodeState complained)
    (enough : job.memoryOn c node ≤ memory) :
    (updateNodes c job (refundMemory job) usage node).Is (memory - job.memoryOn c node) nodeState
      complained := by
  rw [updateNodes_apply]
  unfold JobResources.memoryOn at enough ⊢
  split_ifs at enough ⊢
  · exact refundMemory_is _ is enough
  · exact is

theorem updateNodes_chargeState (is : (usage node).Is memory nodeState complained)
    (fits : nodeState + job.nodeReqOn c node < 2 ^ 16) :
    (updateNodes c job (fun _ => chargeState job) usage node).Is memory
      (nodeState + job.nodeReqOn c node) complained := by
  rw [updateNodes_apply]
  unfold JobResources.nodeReqOn at fits ⊢
  split_ifs at fits ⊢
  · exact chargeState_is is fits
  · exact is

theorem updateNodes_refundState (is : (usage node).Is memory nodeState complained)
    (enough : job.nodeReqOn c node ≤ nodeState) :
    (updateNodes c job (fun _ => refundState job) usage node).Is memory
      (nodeState - job.nodeReqOn c node) complained := by
  rw [updateNodes_apply]
  unfold JobResources.nodeReqOn at enough ⊢
  split_ifs at enough ⊢
  · exact refundState_is is enough
  · exact is

theorem sums_outside (outside : c.nodeRecordCount ≤ node) :
    SelectState.memorySum c resrcs jobs node = 0 ∧ SelectState.nodeReqSum c resrcs jobs node = 0 :=
  ⟨Finset.sum_eq_zero fun _ _ => (JobResources.usage_outside outside).1,
    Finset.sum_eq_zero fun _ _ => (JobResources.usage_outside outside).2⟩

theorem nodeReq_fits
    (fits : ∀ node < c.nodeRecordCount, SelectState.nodeReqSum c resrcs jobs node + job.nodeReqOn c node < 2 ^ 16)
    (node : Nat) : SelectState.nodeReqSum c resrcs jobs node + job.nodeReqOn c node < 2 ^ 16 := by
  rcases Nat.lt_or_ge node c.nodeRecordCount with mem | outside
  · exact fits node mem
  · rw [(sums_outside outside).2, (JobResources.usage_outside outside).2]
    decide

theorem memory_fits
    (fits : ∀ node < c.nodeRecordCount, SelectState.memorySum c resrcs jobs node + job.memoryOn c node < 2 ^ 64)
    (node : Nat) : SelectState.memorySum c resrcs jobs node + job.memoryOn c node < 2 ^ 64 := by
  rcases Nat.lt_or_ge node c.nodeRecordCount with mem | outside
  · exact fits node mem
  · rw [(sums_outside outside).1, (JobResources.usage_outside outside).1]
    decide

/-! ## What a step keeps -/

/-- The running jobs are those in rows, and the counters are the sums. -/
structure UsageKept (c : Cluster) (s : SelectState) (j : Jobs) : Prop where
  rows : RowsKept c s j.running
  counters : ∀ node, (s.usage node).Is (SelectState.memorySum c s.resrcs j.all node)
    (SelectState.nodeReqSum c s.resrcs j.running node) false
  cores : ∀ job ∈ j.all, (s.jobs job).hasCores = true
  runs : ∀ job ∈ j.running, (s.jobs job).suspended = false
  waits : ∀ job ∈ j.suspended, (s.jobs job).suspended = true
  started : s.initializing = false

theorem sum_erase (f : Nat → Nat) {job : Nat} (mem : job ∈ jobs) :
    ∑ other ∈ jobs.erase job, f other = ∑ other ∈ jobs, f other - f job := by
  rw [← Finset.add_sum_erase jobs f mem]
  omega

namespace UsageKept

variable {s : SelectState} {j : Jobs}

theorem invariant (kept : UsageKept c s j) : UsageInvariant c s j := by
  refine ⟨fun node => (kept.counters node).memory, fun node => (kept.counters node).nodeState,
    fun node => (kept.counters node).complained, ?_⟩
  intro none_ node
  have noneRun : j.running = ∅ := (Finset.union_eq_empty.mp none_).1
  obtain ⟨memory, nodeState, _⟩ := kept.counters node
  rw [none_] at memory
  rw [noneRun] at nodeState
  exact ⟨UInt64.toNat_inj.mp memory, UInt16.toNat_inj.mp nodeState⟩

theorem apart (kept : UsageKept c s j) {job : Nat} (running : job ∈ j.running) :
    job ∉ j.suspended := by
  intro suspended
  have flag := kept.runs job running
  rw [kept.waits job suspended] at flag
  cases flag

theorem isListed_iff (kept : UsageKept c s j) {job : Nat} :
    s.isListed job = true ↔ job ∈ j.running := by
  constructor
  · intro listed
    by_contra notRunning
    have unlisted : s.isListed job = false := by
      rw [SelectState.isListed_eq_false_iff]
      intro p _ mem
      exact notRunning ((kept.rows.member p job).mp mem).1
    rw [unlisted] at listed
    cases listed
  · intro running
    by_contra unlisted
    rw [Bool.not_eq_true] at unlisted
    exact kept.rows.not_placed unlisted running

theorem rm_running (kept : UsageKept c s j) {job action : Nat} (running : job ∈ j.running)
    (withCores : action ≠ 1) :
    (s.apply c (.rmJobFromRes job action)).jobs = s.jobs ∧
      (s.apply c (.rmJobFromRes job action)).initializing = s.initializing ∧
      (s.apply c (.rmJobFromRes job action)).usage =
        updateNodes c (s.resrcs job) (fun _ => refundState (s.resrcs job))
          (s.refundNodes c job action).usage ∧
      RowsKept c (s.apply c (.rmJobFromRes job action)) (j.running.erase job) := by
  have rows := kept.rows.rmJobFromRes job action
  rw [SelectState.observe, if_neg (by simp [withCores, kept.started])] at rows
  rw [SelectState.apply] at rows ⊢
  rcases @SelectState.rmJobFromRes_cases c s job action with
    ⟨ignored, _⟩ | ⟨_, _, noRow, _⟩ | ⟨p, part, _, rows', _, _, _, _, _, _, _, same⟩
  · rcases ignored with starting | noCores
    · rw [kept.started] at starting
      cases starting
    · rw [kept.cores job (mem_union_left _ running)] at noCores
      cases noCores
  · have unlisted := noRow.resolve_left withCores
    rw [kept.isListed_iff.mpr running] at unlisted
    cases unlisted
  · refine ⟨?_, ?_, ?_, rows⟩
    · rw [same]
      rfl
    · rw [same]
      rfl
    · rw [same]
      rfl

theorem rm_suspended (kept : UsageKept c s j) {job : Nat} (suspended : job ∈ j.suspended) :
    s.apply c (.rmJobFromRes job 1) = s.refundNodes c job 1 := by
  rcases @SelectState.rmJobFromRes_cases c s job 1 with
    ⟨ignored, _⟩ | ⟨_, _, _, same⟩ | ⟨_, _, _, _, _, _, withCores, _⟩
  · rcases ignored with starting | noCores
    · rw [kept.started] at starting
      cases starting
    · rw [kept.cores job (mem_union_right _ suspended)] at noCores
      cases noCores
  · exact same
  · exact absurd rfl withCores

end UsageKept

theorem add_found {s : SelectState} {placed : Finset Nat} (kept : RowsKept c s placed)
    {job action : Nat} (withCores : action ≠ 1) (found : s.findsRow c job = true)
    (unlisted : s.isListed job = false) :
    (s.apply c (.addJobToRes job action)).jobs = s.jobs ∧
      (s.apply c (.addJobToRes job action)).initializing = s.initializing ∧
      (s.apply c (.addJobToRes job action)).usage =
        updateNodes c (s.resrcs job) (fun _ => chargeState (s.resrcs job))
          (s.chargeNodes c job action).usage ∧
      RowsKept c (s.apply c (.addJobToRes job action)) (insert job placed) := by
  have rows := @RowsKept.addJobToRes c s placed kept job action fun _ _ => unlisted
  rw [SelectState.observe, if_pos ⟨withCores, found⟩] at rows
  rw [SelectState.apply] at rows ⊢
  rcases @SelectState.addJobToRes_cases c s job action with
    ⟨noCores, _⟩ | ⟨_, noRow, _⟩ | ⟨p, part, _, _, _, _, same⟩
  · simp [SelectState.findsRow, noCores] at found
  · simp [SelectState.findsRow, noRow.resolve_left withCores] at found
  · refine ⟨?_, ?_, ?_, rows⟩
    · rw [same]
      rfl
    · rw [same]
      rfl
    · rw [same]
      rfl

namespace UsageKept

variable {s : SelectState} {j : Jobs}

theorem setSuspended_jobs (s : SelectState) (job : Nat) (suspended : Bool) :
    (s.apply c (.setSuspended job suspended)).resrcs = s.resrcs ∧
      (∀ other, ((s.apply c (.setSuspended job suspended)).jobs other).hasCores =
        (s.jobs other).hasCores) ∧
      ((s.apply c (.setSuspended job suspended)).jobs job).suspended = suspended ∧
      ∀ other, other ≠ job → (s.apply c (.setSuspended job suspended)).jobs other = s.jobs other := by
  refine ⟨?_, ?_, ?_, ?_⟩
  · funext other
    rcases eq_or_ne other job with rfl | different
    · simp [SelectState.apply, SelectState.resrcs]
    · simp [SelectState.apply, SelectState.resrcs, update_of_ne different]
  · intro other
    rcases eq_or_ne other job with rfl | different
    · simp [SelectState.apply]
    · simp [SelectState.apply, update_of_ne different]
  · simp [SelectState.apply]
  · intro other different
    simp [SelectState.apply, update_of_ne different]

theorem le_sum {jobs : Finset Nat} (f : Nat → Nat) {job : Nat} (mem : job ∈ jobs) :
    f job ≤ ∑ other ∈ jobs, f other :=
  Finset.single_le_sum (fun _ _ => Nat.zero_le _) mem

theorem flag {job : Nat} (suspended : Bool) (rows : RowsKept c s j.running)
    (counters : ∀ node, (s.usage node).Is (SelectState.memorySum c s.resrcs j.all node)
      (SelectState.nodeReqSum c s.resrcs j.running node) false)
    (cores : ∀ other ∈ j.all, (s.jobs other).hasCores = true)
    (runs : ∀ other ∈ j.running, if other = job then suspended = false
      else (s.jobs other).suspended = false)
    (waits : ∀ other ∈ j.suspended, if other = job then suspended = true
      else (s.jobs other).suspended = true)
    (started : s.initializing = false) :
    UsageKept c (s.apply c (.setSuspended job suspended)) j := by
  obtain ⟨resrcsEq, coresEq, flagged, untouched⟩ := @setSuspended_jobs c s job suspended
  refine ⟨rows.setSuspended job suspended, ?_, ?_, ?_, ?_, started⟩
  · rw [resrcsEq]
    exact counters
  · intro other mem
    exact (coresEq other).trans (cores other mem)
  · intro other mem
    have before := runs other mem
    split_ifs at before with here
    · rw [here, flagged]
      exact before
    · rw [untouched other here]
      exact before
  · intro other mem
    have before := waits other mem
    split_ifs at before with here
    · rw [here, flagged]
      exact before
    · rw [untouched other here]
      exact before

theorem suspend (kept : UsageKept c s j) {job : Nat} (running : job ∈ j.running) :
    UsageKept c (s.applyCalls c (.suspend job)) (j.observe (.suspend job)) := by
  obtain ⟨jobsEq, initEq, usageEq, rows⟩ := kept.rm_running running (by decide : 2 ≠ 1)
  have resrcsEq : (s.apply c (.rmJobFromRes job 2)).resrcs = s.resrcs := by
    unfold SelectState.resrcs
    rw [jobsEq]
  have allEq : (j.observe (.suspend job)).all = j.all := by
    ext other
    simp only [Jobs.all, Jobs.observe, mem_union, mem_erase, mem_insert]
    rcases eq_or_ne other job with rfl | different
    · simp [running]
    · simp [different]
  refine UsageKept.flag true rows ?_ ?_ ?_ ?_ (initEq.trans kept.started)
  · intro node
    have refunded := updateNodes_refundState (kept.counters node)
      (le_sum (fun job => (s.resrcs job).nodeReqOn c node) running)
    rw [allEq, resrcsEq, usageEq]
    rwa [show SelectState.nodeReqSum c s.resrcs (j.observe (.suspend job)).running node = _ from
      sum_erase (fun job => (s.resrcs job).nodeReqOn c node) running]
  · intro other mem
    rw [jobsEq]
    exact kept.cores other (allEq ▸ mem)
  · intro other mem
    obtain ⟨different, isRunning⟩ := mem_erase.mp mem
    rw [if_neg different, jobsEq]
    exact kept.runs other isRunning
  · intro other mem
    split_ifs with here
    · rfl
    · rw [jobsEq]
      exact kept.waits other (Finset.mem_of_mem_insert_of_ne mem here)

theorem resume (kept : UsageKept c s j) {job : Nat} (suspended : job ∈ j.suspended)
    (roomy : s.Roomy c j (.resume job)) :
    UsageKept c (s.applyCalls c (.resume job)) (j.observe (.resume job)) := by
  obtain ⟨found, fits⟩ := roomy
  have notRunning : job ∉ j.running := fun running => kept.apart running suspended
  have unlisted : s.isListed job = false := by
    rw [← Bool.not_eq_true]
    exact fun listed => notRunning (kept.isListed_iff.mp listed)
  obtain ⟨jobsEq, initEq, usageEq, rows⟩ :=
    add_found kept.rows (by decide : 2 ≠ 1) found unlisted
  have resrcsEq : (s.apply c (.addJobToRes job 2)).resrcs = s.resrcs := by
    unfold SelectState.resrcs
    rw [jobsEq]
  have allEq : (j.observe (.resume job)).all = j.all := by
    ext other
    simp only [Jobs.all, Jobs.observe, mem_union, mem_erase, mem_insert]
    rcases eq_or_ne other job with rfl | different
    · simp [suspended]
    · simp [different]
  refine UsageKept.flag false rows ?_ ?_ ?_ ?_ (initEq.trans kept.started)
  · intro node
    have charged := updateNodes_chargeState (kept.counters node) (nodeReq_fits fits node)
    rw [allEq, resrcsEq, usageEq]
    rwa [show SelectState.nodeReqSum c s.resrcs (j.observe (.resume job)).running node = _ from
      sum_insert notRunning, Nat.add_comm]
  · intro other mem
    rw [jobsEq]
    exact kept.cores other (allEq ▸ mem)
  · intro other mem
    split_ifs with here
    · rfl
    · rw [jobsEq]
      exact kept.runs other (Finset.mem_of_mem_insert_of_ne mem here)
  · intro other mem
    obtain ⟨different, isSuspended⟩ := mem_erase.mp mem
    rw [if_neg different, jobsEq]
    exact kept.waits other isSuspended

theorem endRunning (kept : UsageKept c s j) {job : Nat} (running : job ∈ j.running) :
    UsageKept c (s.applyCalls c (.endRunning job)) (j.observe (.endRunning job)) := by
  obtain ⟨jobsEq, initEq, usageEq, rows⟩ := kept.rm_running running (by decide : 0 ≠ 1)
  have inAll : job ∈ j.all := mem_union_left _ running
  have resrcsEq : (s.apply c (.rmJobFromRes job 0)).resrcs = s.resrcs := by
    unfold SelectState.resrcs
    rw [jobsEq]
  have allEq : (j.observe (.endRunning job)).all = j.all.erase job := by
    rw [Jobs.all, Jobs.all, Finset.erase_union_distrib,
      Finset.erase_eq_of_notMem (kept.apart running)]
    rfl
  refine ⟨rows, ?_, ?_, ?_, ?_, initEq.trans kept.started⟩
  · intro node
    have memory := updateNodes_refundMemory (kept.counters node)
      (le_sum (fun job => (s.resrcs job).memoryOn c node) inAll)
    have refunded := updateNodes_refundState memory
      (le_sum (fun job => (s.resrcs job).nodeReqOn c node) running)
    change ((s.apply c (.rmJobFromRes job 0)).usage node).Is
      (SelectState.memorySum c (s.apply c (.rmJobFromRes job 0)).resrcs _ node)
      (SelectState.nodeReqSum c (s.apply c (.rmJobFromRes job 0)).resrcs _ node) false
    rw [allEq, resrcsEq, usageEq]
    rwa [show SelectState.nodeReqSum c s.resrcs (j.observe (.endRunning job)).running node = _ from
      sum_erase (fun job => (s.resrcs job).nodeReqOn c node) running,
      show SelectState.memorySum c s.resrcs (j.all.erase job) node = _ from
      sum_erase (fun job => (s.resrcs job).memoryOn c node) inAll]
  · intro other mem
    rw [allEq] at mem
    refine (congrArg (fun jobs => (jobs other).hasCores) jobsEq).trans ?_
    exact kept.cores other (mem_of_mem_erase mem)
  · intro other mem
    refine (congrArg (fun jobs => (jobs other).suspended) jobsEq).trans ?_
    exact kept.runs other (mem_of_mem_erase mem)
  · intro other mem
    exact (congrArg (fun jobs => (jobs other).suspended) jobsEq).trans (kept.waits other mem)

theorem endSuspended (kept : UsageKept c s j) {job : Nat} (suspended : job ∈ j.suspended) :
    UsageKept c (s.applyCalls c (.endSuspended job)) (j.observe (.endSuspended job)) := by
  have stateEq : s.applyCalls c (.endSuspended job) = s.refundNodes c job 1 :=
    kept.rm_suspended suspended
  have inAll : job ∈ j.all := mem_union_right _ suspended
  have allEq : (j.observe (.endSuspended job)).all = j.all.erase job := by
    rw [Jobs.all, Jobs.all, Finset.erase_union_distrib,
      Finset.erase_eq_of_notMem fun running => kept.apart running suspended]
    rfl
  rw [stateEq]
  refine ⟨kept.rows.usage _, ?_, ?_, kept.runs, ?_, kept.started⟩
  · intro node
    have memory := updateNodes_refundMemory (kept.counters node)
      (le_sum (fun job => (s.resrcs job).memoryOn c node) inAll)
    rw [allEq]
    rwa [show SelectState.memorySum c (s.refundNodes c job 1).resrcs (j.all.erase job) node = _ from
      sum_erase (fun job => (s.resrcs job).memoryOn c node) inAll]
  · intro other mem
    rw [allEq] at mem
    exact kept.cores other (mem_of_mem_erase mem)
  · intro other mem
    exact kept.waits other (mem_of_mem_erase mem)

theorem start (kept : UsageKept c s j) {job : Nat} {info : JobInfo}
    (allowed : s.UsageAllowed c j (.start job info)) (roomy : s.Roomy c j (.start job info)) :
    UsageKept c (s.applyCalls c (.start job info)) (j.observe (.start job info)) := by
  obtain ⟨fresh, hasCores, notSuspended, wf⟩ := allowed
  obtain ⟨found, fits⟩ := roomy
  have notRunning : job ∉ j.running := fun running => fresh (mem_union_left _ running)
  have unlisted : s.isListed job = false := by
    rw [← Bool.not_eq_true]
    exact fun listed => notRunning (kept.isListed_iff.mp listed)
  have assigned : RowsKept c (s.apply c (.assign job info)) j.running :=
    kept.rows.assign ⟨unlisted, fun _ => wf⟩
  have stillUnlisted : (s.apply c (.assign job info)).isListed job = false := by
    rw [SelectState.isListed_eq_false_iff]
    intro p _ mem
    exact notRunning ((assigned.member p job).mp mem).1
  obtain ⟨jobsEq, initEq, usageEq, rows⟩ :=
    add_found assigned (by decide : 0 ≠ 1) found stillUnlisted
  have jobHere : (s.apply c (.assign job info)).jobs job = info := update_self ..
  have jobElsewhere : ∀ other ∈ j.all, (s.apply c (.assign job info)).jobs other = s.jobs other := by
    intro other mem
    refine update_of_ne ?_ _ _
    rintro rfl
    exact fresh mem
  have resrcsHere : (s.apply c (.assign job info)).resrcs job = info.jobResrcs :=
    congrArg JobInfo.jobResrcs jobHere
  have resrcsEq : (s.applyCalls c (.start job info)).resrcs =
      (s.apply c (.assign job info)).resrcs :=
    funext fun other => congrArg (fun jobs => (jobs other).jobResrcs) jobsEq
  have allEq : (j.observe (.start job info)).all = insert job j.all := Finset.insert_union ..
  have sumSame : ∀ (f : JobResources → Nat) (jobs : Finset Nat), jobs ⊆ j.all →
      ∑ other ∈ jobs, f ((s.apply c (.assign job info)).resrcs other) =
        ∑ other ∈ jobs, f (s.resrcs other) := by
    intro f jobs subset
    refine Finset.sum_congr rfl fun other mem => ?_
    rw [SelectState.resrcs, jobElsewhere other (subset mem)]
    rfl
  refine ⟨rows, ?_, ?_, ?_, ?_, initEq.trans kept.started⟩
  · intro node
    have charged := updateNodes_chargeState (updateNodes_chargeMemory (kept.counters node)
        (memory_fits (fun node mem => (fits node mem).1) node))
      (nodeReq_fits (fun node mem => (fits node mem).2) node)
    have memoryEq : SelectState.memorySum c (s.apply c (.assign job info)).resrcs
        (insert job j.all) node =
        SelectState.memorySum c s.resrcs j.all node + info.jobResrcs.memoryOn c node := by
      rw [SelectState.memorySum, sum_insert fresh, resrcsHere,
        sumSame (fun resources => resources.memoryOn c node) j.all (Finset.Subset.refl _),
        Nat.add_comm]
      rfl
    have nodeReqEq : SelectState.nodeReqSum c (s.apply c (.assign job info)).resrcs
        (insert job j.running) node =
        SelectState.nodeReqSum c s.resrcs j.running node + info.jobResrcs.nodeReqOn c node := by
      rw [SelectState.nodeReqSum, sum_insert notRunning, resrcsHere,
        sumSame (fun resources => resources.nodeReqOn c node) j.running Finset.subset_union_left,
        Nat.add_comm]
      rfl
    have usageHere : (s.applyCalls c (.start job info)).usage = _ := usageEq
    rw [allEq, resrcsEq, memoryEq, show (j.observe (.start job info)).running =
      insert job j.running from rfl, nodeReqEq, usageHere, SelectState.chargeNodes, resrcsHere]
    exact charged
  · intro other mem
    rw [allEq] at mem
    refine (congrArg (fun jobs => (jobs other).hasCores) jobsEq).trans ?_
    rcases mem_insert.mp mem with rfl | old
    · simp only [jobHere, hasCores]
    · simp only [jobElsewhere other old, kept.cores other old]
  · intro other mem
    refine (congrArg (fun jobs => (jobs other).suspended) jobsEq).trans ?_
    rcases mem_insert.mp mem with rfl | old
    · simp only [jobHere, notSuspended]
    · simp only [jobElsewhere other (mem_union_left _ old), kept.runs other old]
  · intro other mem
    refine (congrArg (fun jobs => (jobs other).suspended) jobsEq).trans ?_
    simp only [jobElsewhere other (mem_union_right _ mem), kept.waits other mem]

theorem sum_less {jobs : Finset Nat} {before after : Nat → Nat} {job node nodeInx : Nat}
    (mem : job ∈ jobs) (same : ∀ other ∈ jobs, other ≠ job → after other = before other)
    (less : after job = if node = nodeInx then 0 else before job) :
    ∑ other ∈ jobs, after other =
      if node = nodeInx then ∑ other ∈ jobs, before other - before job
      else ∑ other ∈ jobs, before other := by
  have total := Lib.sum_change before after mem same
  rw [less] at total
  split_ifs at total ⊢ with here
  · omega
  · omega

theorem detachNode_counters (kept : UsageKept c s j) {job nodeInx : Nat} (inAll : job ∈ j.all)
    (uses : (s.resrcs job).UsesNode c nodeInx) (node : Nat) :
    ((s.detachNode c job nodeInx).usage node).Is
        (SelectState.memorySum c (s.detachNode c job nodeInx).resrcs j.all node)
        (SelectState.nodeReqSum c s.resrcs j.running node) false ∧
      ((s.detachNode c job nodeInx).resrcs job).nodeReq = (s.resrcs job).nodeReq ∧
      ((s.detachNode c job nodeInx).resrcs job).nodeReqOn c node =
        if node = nodeInx then 0 else (s.resrcs job).nodeReqOn c node := by
  have wf := kept.rows.wellFormed job (kept.cores job inAll)
  obtain ⟨front, back, split, position⟩ := JobResources.nodes_split uses.1
  have without := wf.extract split
  rw [← position, ← SelectState.detachNode_resrcs] at without
  obtain ⟨memoryLess, nodeReqLess⟩ := without.usage split node
  refine ⟨?_, without.nodeReq, nodeReqLess⟩
  have sumEq : SelectState.memorySum c (s.detachNode c job nodeInx).resrcs j.all node = _ :=
    @sum_less j.all (fun other => (s.resrcs other).memoryOn c node)
      (fun other => ((s.detachNode c job nodeInx).resrcs other).memoryOn c node) job node nodeInx
      inAll
      (fun other _ ne => by
        rw [(@SelectState.detachNode_jobs c s job nodeInx other).2.2.2 ne]) memoryLess
  rw [sumEq]
  have before := kept.counters node
  simp only [SelectState.detachNode]
  split_ifs with here
  · subst here
    have memoryHere : (s.resrcs job).memoryOn c node =
        ((s.resrcs job).memoryAllocated.getD (((s.resrcs job).nodes c).idxOf node) 0).toNat :=
      if_pos uses
    have enough := le_sum (fun other => (s.resrcs other).memoryOn c node) inAll
    rw [update_self]
    simp only [memoryHere] at enough ⊢
    exact refundMemory_is _ before enough
  · rw [update_of_ne here]
    exact before

theorem removeNode (kept : UsageKept c s j) {job nodeInx : Nat}
    (allowed : s.UsageAllowed c j (.removeNode job nodeInx)) :
    UsageKept c (s.applyCalls c (.removeNode job nodeInx)) (j.observe (.removeNode job nodeInx)) := by
  obtain ⟨inAll, hasNode⟩ := allowed
  have rows : RowsKept c (s.applyCalls c (.removeNode job nodeInx)) j.running := by
    refine kept.rows.rmJobFromOneNode fun suspended _ _ => ?_
    rw [← Bool.not_eq_true, kept.isListed_iff]
    intro running
    rw [kept.runs job running] at suspended
    cases suspended
  have callEq : s.applyCalls c (.removeNode job nodeInx) =
      (s.rmJobFromOneNode c job nodeInx).2 := rfl
  rw [callEq] at rows ⊢
  rcases @SelectState.rmJobFromOneNode_cases c s job nodeInx with
    same | ⟨_, _, notLost, same⟩ | ⟨_, noNode, _⟩
  · rw [same]
    exact kept
  · have uses : (s.resrcs job).UsesNode c nodeInx := ⟨hasNode, notLost⟩
    have jobsSame := fun other => @SelectState.detachNode_jobs c s job nodeInx other
    have cores : ∀ other ∈ j.all, ((s.detachNode c job nodeInx).jobs other).hasCores = true :=
      fun other mem => (jobsSame other).2.1.trans (kept.cores other mem)
    have runs : ∀ other ∈ j.running, ((s.detachNode c job nodeInx).jobs other).suspended = false :=
      fun other mem => (jobsSame other).2.2.1.trans (kept.runs other mem)
    have waits : ∀ other ∈ j.suspended,
        ((s.detachNode c job nodeInx).jobs other).suspended = true :=
      fun other mem => (jobsSame other).2.2.1.trans (kept.waits other mem)
    rw [same] at rows ⊢
    rcases @SelectState.detachCores_cases c (s.detachNode c job nodeInx) job nodeInx with
      ⟨unlisted, stays⟩ | ⟨p, part, _, flag, _, _, _, _, refreshed⟩
    · rw [stays] at rows ⊢
      have notRunning : job ∉ j.running := by
        intro running
        rcases unlisted with suspended | unlisted
        · rw [runs job running] at suspended
          cases suspended
        · have listed := kept.isListed_iff.mpr running
          rw [SelectState.isListed, (jobsSame job).1] at unlisted
          exact absurd (listed.symm.trans unlisted) (by decide)
      refine ⟨rows, fun node => ?_, cores, runs, waits, kept.started⟩
      have sumEq : SelectState.nodeReqSum c (s.detachNode c job nodeInx).resrcs j.running node =
          SelectState.nodeReqSum c s.resrcs j.running node := by
        refine Finset.sum_congr rfl fun other mem => ?_
        rw [(jobsSame other).2.2.2]
        rintro rfl
        exact notRunning mem
      have detached := (kept.detachNode_counters inAll uses node).1
      rw [← sumEq] at detached
      exact detached
    · rw [refreshed] at rows ⊢
      have running : job ∈ j.running := by
        refine (mem_union.mp inAll).resolve_right fun suspended => ?_
        rw [waits job suspended] at flag
        cases flag
      refine ⟨rows, fun node => ?_, cores, runs, waits, kept.started⟩
      obtain ⟨detached, nodeReqSame, nodeReqLess⟩ := kept.detachNode_counters inAll uses node
      have sumEq : SelectState.nodeReqSum c (s.detachNode c job nodeInx).resrcs j.running node = _ :=
        @sum_less j.running (fun other => (s.resrcs other).nodeReqOn c node)
          (fun other => ((s.detachNode c job nodeInx).resrcs other).nodeReqOn c node) job node
          nodeInx running (fun other _ ne => by rw [(jobsSame other).2.2.2 ne]) nodeReqLess
      change NodeUse.Is _ (SelectState.memorySum c (s.detachNode c job nodeInx).resrcs j.all node)
        (SelectState.nodeReqSum c (s.detachNode c job nodeInx).resrcs j.running node) false
      rw [sumEq]
      simp only [SelectState.refreshRows]
      split_ifs with here
      · subst here
        have nodeReqHere : (s.resrcs job).nodeReqOn c node = (s.resrcs job).nodeReq.toNat :=
          if_pos uses
        have enough := le_sum (fun other => (s.resrcs other).nodeReqOn c node) running
        rw [update_self]
        simp only [nodeReqHere, ← nodeReqSame] at enough ⊢
        exact refundState_is detached enough
      · rw [update_of_ne here]
        exact detached
  · exact absurd hasNode noNode

theorem apply (kept : UsageKept c s j) {op : UsageOp} (allowed : s.UsageAllowed c j op)
    (roomy : s.Roomy c j op) : UsageKept c (s.applyCalls c op) (j.observe op) := by
  cases op with
  | start job info => exact kept.start allowed roomy
  | suspend job => exact kept.suspend allowed
  | resume job => exact kept.resume allowed roomy
  | endRunning job => exact kept.endRunning allowed
  | endSuspended job => exact kept.endSuspended allowed
  | removeNode job nodeInx => exact kept.removeNode allowed

theorem usageRunWith {ops : List UsageOp} : ∀ {s : SelectState} {j : Jobs}, UsageKept c s j →
    s.UsageRuns c (SelectState.Roomy c) j ops →
      UsageKept c (s.usageRunWith c j ops).1 (s.usageRunWith c j ops).2 := by
  induction ops with
  | nil =>
    intro s j kept _
    exact kept
  | cons op ops ih =>
    intro s j kept runs
    exact ih (kept.apply runs.1 runs.2.1) runs.2.2

end UsageKept

namespace SelectState

/-- No rows, no usage, and the plugin is past its initialisation. -/
structure Idle (c : Cluster) (s : SelectState) : Prop where
  blank : s.Blank c
  usage : ∀ node, s.usage node = ⟨0, 0, false⟩
  started : s.initializing = false

end SelectState

theorem UsageKept.of_idle {s : SelectState} (idle : s.Idle c) : UsageKept c s ⟨∅, ∅⟩ := by
  refine ⟨RowsKept.blank idle.blank, ?_, ?_, ?_, ?_, idle.started⟩
  · intro node
    rw [idle.usage node]
    exact ⟨rfl, rfl, rfl⟩
  · intro job mem
    exact absurd mem (notMem_empty job)
  · intro job mem
    exact absurd mem (notMem_empty job)
  · intro job mem
    exact absurd mem (notMem_empty job)

/-- A job of a partition that does not share its nodes (`NODE_CR_ONE_ROW`). -/
def oneRowJob : JobInfo :=
  { bothNodes with jobResrcs := { bothNodes.jobResrcs with nodeReq := 1 } }

theorem oneRowJob_wellFormed : oneRowJob.jobResrcs.WellFormed twoNodes :=
  ⟨by decide, by decide, by decide, by decide⟩

theorem emptyPartition_idle (numRows : Nat) : (emptyPartition numRows).Idle twoNodes :=
  ⟨emptyPartition_blank numRows, fun _ => rfl, rfl⟩

/-- A job is suspended while another one uses its cores, resumes, loses a node and ends. -/
def suspendAndResume : List UsageOp :=
  [.start 0 oneRowJob, .suspend 0, .start 1 oneRowJob, .endRunning 1, .resume 0, .removeNode 0 0,
    .endRunning 0]

/-- The cores of a suspended job are in use when it is resumed: no row is found,
but its nodes are charged, and the charge is still there when all jobs have ended. -/
def resumeWithoutRow : List UsageOp :=
  [.start 0 oneRowJob, .suspend 0, .start 1 oneRowJob, .resume 0, .endRunning 0, .endRunning 1]

end SlurmSim.Select
