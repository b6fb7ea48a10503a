import SlurmSim.Lib.RoundRobin
import SlurmSim.Select.DistTasks

/-!
# The tasks of each node

The cycles of `_compute_c_b_task_dist` and `_compute_plane_dist` are rounds over the
nodes.  The first has a place on a node for each task that it has the CPUs for.  The
second starts a task on a node with any CPU left, so that there the last place of a
node can be short of CPUs.
-/

namespace SlurmSim.Select

/-! ## No node gets more than it has -/

/-- No node gets more CPUs than it has. -/
def Within (nodes : List NodeTasks) : Prop := ∀ node ∈ nodes, node.cpus ≤ node.avail

/-- A cycle keeps the nodes within what they have. -/
def KeepsWithin (cycle : List NodeTasks → List NodeTasks) : Prop :=
  ∀ nodes, Within nodes →
    Within (cycle nodes) ∧ (cycle nodes).map NodeTasks.avail = nodes.map NodeTasks.avail

theorem NodeTasks.addTask_le (cpusPerTask : Nat) (node : NodeTasks) :
    (node.addTask cpusPerTask).cpus ≤ (node.addTask cpusPerTask).avail :=
  Nat.min_le_left _ _

theorem cbCycle_within (cpusPerTask maxtasks : Nat) (overSubscribe : Bool) (i tid : Nat) :
    KeepsWithin fun nodes => (cbCycle cpusPerTask maxtasks overSubscribe i nodes tid).1 := by
  intro nodes
  induction nodes generalizing tid with
  | nil => exact fun within => ⟨within, rfl⟩
  | cons node rest ih =>
    intro within
    obtain ⟨here, more⟩ := List.forall_mem_cons.mp within
    dsimp only
    rw [cbCycle]
    split_ifs with left room
    · obtain ⟨within', same⟩ := ih (tid + 1) more
      exact ⟨List.forall_mem_cons.mpr ⟨node.addTask_le cpusPerTask, within'⟩,
        congrArg (node.avail :: ·) same⟩
    · obtain ⟨within', same⟩ := ih tid more
      exact ⟨List.forall_mem_cons.mpr ⟨here, within'⟩, congrArg (node.avail :: ·) same⟩
    · exact ⟨within, rfl⟩

theorem planeTasks_within (cpusPerTask maxtasks : Nat) (overSubscribe : Bool) (p : Nat)
    {node : NodeTasks} (tid : Nat) (within : node.cpus ≤ node.avail) :
    (planeTasks cpusPerTask maxtasks overSubscribe p node tid).1.cpus ≤
        (planeTasks cpusPerTask maxtasks overSubscribe p node tid).1.avail ∧
      (planeTasks cpusPerTask maxtasks overSubscribe p node tid).1.avail = node.avail := by
  induction p generalizing node tid with
  | zero => exact ⟨within, rfl⟩
  | succ p ih =>
    rw [planeTasks]
    split_ifs with left room
    · exact ih (tid + 1) (node.addTask_le cpusPerTask)
    · exact ih tid within
    · exact ⟨within, rfl⟩

theorem planeCycle_within (cpusPerTask maxtasks : Nat) (overSubscribe : Bool)
    (planeSize tid : Nat) :
    KeepsWithin fun nodes =>
      (planeCycle cpusPerTask maxtasks overSubscribe planeSize nodes tid).1 := by
  intro nodes
  induction nodes generalizing tid with
  | nil => exact fun within => ⟨within, rfl⟩
  | cons node rest ih =>
    intro within
    obtain ⟨here, more⟩ := List.forall_mem_cons.mp within
    dsimp only
    rw [planeCycle]
    split_ifs with left
    · obtain ⟨fits, avail⟩ := planeTasks_within cpusPerTask maxtasks overSubscribe
        planeSize tid here
      obtain ⟨within', same⟩ := ih (planeTasks cpusPerTask maxtasks overSubscribe planeSize node
        tid).2 more
      refine ⟨List.forall_mem_cons.mpr ⟨fits, within'⟩, ?_⟩
      exact congrArg₂ List.cons avail same
    · exact ⟨within, rfl⟩

theorem taskCycles_within (maxtasks : Nat)
    {cycle : Bool → Nat → List NodeTasks → Nat → List NodeTasks × Nat × Bool}
    (keeps : ∀ overSubscribe n tid, KeepsWithin fun nodes => (cycle overSubscribe n nodes tid).1)
    (cycles n : Nat) (overSubscribe : Bool) (tid : Nat) :
    KeepsWithin fun nodes => taskCycles maxtasks cycle cycles n overSubscribe nodes tid := by
  intro nodes within
  induction cycles generalizing n overSubscribe nodes tid with
  | zero => exact ⟨within, rfl⟩
  | succ cycles ih =>
    dsimp only
    rw [taskCycles]
    split_ifs with left
    · obtain ⟨within', same⟩ := keeps overSubscribe n tid nodes within
      obtain ⟨within'', same'⟩ := ih (n + 1) _ _ _ within'
      exact ⟨within'', same'.trans same⟩
    · exact ⟨within, rfl⟩

theorem getD_cpus_le {nodes : List NodeTasks} (within : Within nodes) (i : Nat) :
    (nodes.map NodeTasks.cpus).getD i 0 ≤ (nodes.map NodeTasks.avail).getD i 0 := by
  simp only [List.getD_eq_getElem?_getD, List.getElem?_map]
  cases isNode : nodes[i]? with
  | none => exact le_rfl
  | some node => exact within node (List.mem_of_getElem? isNode)

theorem getD_taskCycles_le {maxtasks : Nat}
    {cycle : Bool → Nat → List NodeTasks → Nat → List NodeTasks × Nat × Bool}
    (keeps : ∀ overSubscribe n tid, KeepsWithin fun nodes => (cycle overSubscribe n nodes tid).1)
    (cycles : Nat) (availCpus : List Nat) (i : Nat) :
    ((taskCycles maxtasks cycle cycles 0 false (availCpus.map (⟨·, 0⟩)) 0).map
      NodeTasks.cpus).getD i 0 ≤ availCpus.getD i 0 := by
  have start : Within (availCpus.map (⟨·, 0⟩)) := by
    intro node mem
    obtain ⟨_, _, rfl⟩ := List.mem_map.mp mem
    exact Nat.zero_le _
  obtain ⟨within, same⟩ := taskCycles_within maxtasks keeps cycles 0 false 0 _ start
  have le := getD_cpus_le within i
  rw [same, List.map_map] at le
  exact le.trans_eq (congrArg (List.getD · i 0) (List.map_id _))

theorem computeCBTaskDist_le (d : JobDetails) (ncpus : Nat) (availCpus : List Nat) (i : Nat) :
    (computeCBTaskDist d ncpus availCpus).getD i 0 ≤ availCpus.getD i 0 :=
  getD_taskCycles_le (fun _ _ _ => cbCycle_within _ _ _ _ _) _ _ _

theorem computePlaneDist_le {d : JobDetails} {ncpus : Nat} {availCpus cpus : List Nat}
    (result : computePlaneDist d ncpus availCpus = some cpus) (i : Nat) :
    cpus.getD i 0 ≤ availCpus.getD i 0 := by
  unfold computePlaneDist at result
  by_cases none_ : (d.mcPtr.map MultiCore.planeSize).getD 1 = 0
  · rw [if_pos none_] at result
    cases result
  · rw [if_neg none_] at result
    cases result
    exact getD_taskCycles_le (fun _ _ _ => planeCycle_within _ _ _ _ _) _ _ _

/-! ## The state before each cycle -/

/-- The nodes, `tid` and `over_subscribe`. -/
structure TaskState where
  nodes : List NodeTasks
  tid : Nat
  overSubscribe : Bool

section States

variable (maxtasks : Nat)
  (cycle : Bool → Nat → List NodeTasks → Nat → List NodeTasks × Nat × Bool)

/-- A cycle while tasks are left. -/
def TaskState.step (n : Nat) (st : TaskState) : TaskState :=
  if st.tid < maxtasks then
    let (nodes, tid, spaceRemaining) := cycle st.overSubscribe n st.nodes st.tid
    ⟨nodes, tid, st.overSubscribe || !spaceRemaining⟩
  else st

/-- The state after a number of cycles. -/
def taskState (nodes : List NodeTasks) : Nat → TaskState
  | 0 => ⟨nodes, 0, false⟩
  | n + 1 => (taskState nodes n).step maxtasks cycle n

variable {maxtasks cycle}

theorem taskState_done {nodes : List NodeTasks} {m n : Nat} (le : m ≤ n)
    (done : maxtasks ≤ (taskState maxtasks cycle nodes m).tid) :
    taskState maxtasks cycle nodes n = taskState maxtasks cycle nodes m := by
  induction n, le using Nat.le_induction with
  | base => rfl
  | succ n le ih =>
    rw [taskState, ih, TaskState.step, if_neg (Nat.not_lt.mpr done)]

theorem taskState_succ {nodes : List NodeTasks} {n : Nat}
    (left : (taskState maxtasks cycle nodes n).tid < maxtasks) :
    taskState maxtasks cycle nodes (n + 1) =
      let st := taskState maxtasks cycle nodes n
      let next := cycle st.overSubscribe n st.nodes st.tid
      ⟨next.1, next.2.1, st.overSubscribe || !next.2.2⟩ := by
  rw [taskState, TaskState.step, if_pos left]

theorem taskCycles_eq (cycles n : Nat) (st : TaskState) (nodes : List NodeTasks)
    (isState : taskState maxtasks cycle nodes n = st) :
    taskCycles maxtasks cycle cycles n st.overSubscribe st.nodes st.tid =
      (taskState maxtasks cycle nodes (n + cycles)).nodes := by
  induction cycles generalizing n st with
  | zero => rw [taskCycles, Nat.add_zero, isState]
  | succ cycles ih =>
    rw [taskCycles]
    split_ifs with left
    · subst isState
      have rest := ih (n + 1) _ (taskState_succ left)
      rw [Nat.add_assoc, Nat.add_comm 1] at rest
      exact rest
    · have done : maxtasks ≤ (taskState maxtasks cycle nodes n).tid := by
        rw [isState]
        exact Nat.not_lt.mp left
      rw [taskState_done (Nat.le_add_right n (cycles + 1)) done, isState]

theorem taskCycles_start (maxtasks : Nat)
    (cycle : Bool → Nat → List NodeTasks → Nat → List NodeTasks × Nat × Bool) (cycles : Nat)
    (nodes : List NodeTasks) :
    taskCycles maxtasks cycle cycles 0 false nodes 0 =
      (taskState maxtasks cycle nodes cycles).nodes := by
  have start : taskState maxtasks cycle nodes 0 = ⟨nodes, 0, false⟩ := rfl
  have states := taskCycles_eq cycles 0 ⟨nodes, 0, false⟩ nodes start
  rwa [Nat.zero_add] at states

/-- A cycle starts a task or leaves no space, and starts one when `over_subscribe` is
set. -/
structure Advances (maxtasks : Nat)
    (cycle : Bool → Nat → List NodeTasks → Nat → List NodeTasks × Nat × Bool) : Prop where
  nonempty : ∀ oversub n nodes tid, nodes ≠ [] → (cycle oversub n nodes tid).1 ≠ []
  le : ∀ oversub n nodes tid, tid ≤ (cycle oversub n nodes tid).2.1
  space : ∀ oversub n nodes tid, tid < maxtasks → (cycle oversub n nodes tid).2.1 = tid →
    (cycle oversub n nodes tid).2.2 = false
  oversub : ∀ n nodes tid, nodes ≠ [] → tid < maxtasks → tid < (cycle true n nodes tid).2.1

theorem Advances.count (advances : Advances maxtasks cycle) {nodes : List NodeTasks}
    (hosts : nodes ≠ []) (n : Nat) :
    (taskState maxtasks cycle nodes n).nodes ≠ [] ∧
      ((taskState maxtasks cycle nodes n).tid < maxtasks →
        n ≤ (taskState maxtasks cycle nodes n).tid +
          (taskState maxtasks cycle nodes n).overSubscribe.toNat) := by
  induction n with
  | zero => exact ⟨hosts, fun _ => Nat.zero_le _⟩
  | succ n ih =>
    obtain ⟨some_, count⟩ := ih
    by_cases left : (taskState maxtasks cycle nodes n).tid < maxtasks
    · rw [taskState_succ left]
      generalize taskState maxtasks cycle nodes n = st at *
      dsimp only
      refine ⟨advances.nonempty st.overSubscribe n st.nodes st.tid some_, fun more => ?_⟩
      have counted := count left
      have le := advances.le st.overSubscribe n st.nodes st.tid
      cases isOver : st.overSubscribe with
      | true =>
        have started := advances.oversub n st.nodes st.tid some_ left
        rw [isOver, Bool.toNat_true] at counted
        simp only [Bool.true_or, Bool.toNat_true]
        omega
      | false =>
        rw [isOver, Bool.toNat_false] at counted
        rw [isOver] at le
        by_cases same : (cycle false n st.nodes st.tid).2.1 = st.tid
        · have none_ := advances.space false n st.nodes st.tid left same
          simp only [none_, same, Bool.not_false, Bool.or_true, Bool.toNat_true]
          omega
        · omega
    · rw [taskState_done (Nat.le_add_right n 1) (Nat.not_lt.mp left)]
      exact ⟨some_, fun more => absurd more left⟩

theorem Advances.ends (advances : Advances maxtasks cycle) {nodes : List NodeTasks}
    (hosts : nodes ≠ []) : maxtasks ≤ (taskState maxtasks cycle nodes (maxtasks + 1)).tid := by
  by_contra left
  have count := (advances.count hosts (maxtasks + 1)).2 (by omega)
  have one := Bool.toNat_le (taskState maxtasks cycle nodes (maxtasks + 1)).overSubscribe
  omega

end States

section Advance

variable {cpusPerTask maxtasks : Nat} {oversub : Bool}

theorem cbCycle_le (i : Nat) (nodes : List NodeTasks) (tid : Nat) :
    tid ≤ (cbCycle cpusPerTask maxtasks oversub i nodes tid).2.1 := by
  induction nodes generalizing tid with
  | nil => exact le_rfl
  | cons node rest ih =>
    rw [cbCycle]
    split_ifs with left room
    · exact Nat.le_of_succ_le (ih (tid + 1))
    · exact ih tid
    · exact le_rfl

theorem cbCycle_space {i : Nat} {nodes : List NodeTasks} {tid : Nat}
    (same : (cbCycle cpusPerTask maxtasks oversub i nodes tid).2.1 = tid) :
    (cbCycle cpusPerTask maxtasks oversub i nodes tid).2.2 = false := by
  induction nodes with
  | nil => rfl
  | cons node rest ih =>
    rw [cbCycle] at same ⊢
    split_ifs at same ⊢ with left room
    · exact absurd ((cbCycle_le i rest (tid + 1)).trans_eq same) (Nat.not_succ_le_self tid)
    · exact ih same
    · rfl

theorem cbCycle_advances (cpusPerTask maxtasks : Nat) :
    Advances maxtasks fun overSubscribe n =>
      cbCycle cpusPerTask maxtasks overSubscribe ((n + 1) * cpusPerTask) where
  nonempty oversub n nodes tid some_ := by
    cases nodes with
    | nil => exact absurd rfl some_
    | cons node rest =>
      rw [cbCycle]
      split_ifs <;> exact List.cons_ne_nil _ _
  le oversub n nodes tid := cbCycle_le _ nodes tid
  space oversub n nodes tid _ same := cbCycle_space same
  oversub n nodes tid some_ left := by
    cases nodes with
    | nil => exact absurd rfl some_
    | cons node rest =>
      rw [cbCycle, if_pos left, if_pos (.inr rfl)]
      exact cbCycle_le _ rest (tid + 1)

theorem planeTasks_le (p : Nat) (node : NodeTasks) (tid : Nat) :
    tid ≤ (planeTasks cpusPerTask maxtasks oversub p node tid).2 := by
  induction p generalizing node tid with
  | zero => exact le_rfl
  | succ p ih =>
    rw [planeTasks]
    split_ifs with left room
    · exact Nat.le_of_succ_le (ih _ (tid + 1))
    · exact ih node tid
    · exact le_rfl

theorem planeTasks_lt (cpusPerTask : Nat) {p : Nat} (pos : 0 < p) {node : NodeTasks} {tid : Nat}
    (left : tid < maxtasks) (room : node.cpus < node.avail ∨ oversub = true) :
    tid < (planeTasks cpusPerTask maxtasks oversub p node tid).2 := by
  obtain ⟨p, rfl⟩ := Nat.exists_eq_succ_of_ne_zero (Nat.pos_iff_ne_zero.mp pos)
  rw [planeTasks, if_pos left, if_pos room]
  exact planeTasks_le p _ (tid + 1)

theorem planeTasks_full {node : NodeTasks} (full : ¬(node.cpus < node.avail ∨ oversub = true))
    (p tid : Nat) : planeTasks cpusPerTask maxtasks oversub p node tid = (node, tid) := by
  induction p with
  | zero => rfl
  | succ p ih =>
    rw [planeTasks, if_neg full, ih, ite_self]

theorem planeCycle_le (planeSize : Nat) (nodes : List NodeTasks) (tid : Nat) :
    tid ≤ (planeCycle cpusPerTask maxtasks oversub planeSize nodes tid).2.1 := by
  induction nodes generalizing tid with
  | nil => exact le_rfl
  | cons node rest ih =>
    rw [planeCycle]
    split_ifs with left
    · exact (planeTasks_le planeSize node tid).trans (ih _)
    · exact le_rfl

theorem planeCycle_space {planeSize : Nat} (pos : 0 < planeSize) {nodes : List NodeTasks}
    {tid : Nat} (left : tid < maxtasks)
    (same : (planeCycle cpusPerTask maxtasks oversub planeSize nodes tid).2.1 = tid) :
    (planeCycle cpusPerTask maxtasks oversub planeSize nodes tid).2.2 = false := by
  induction nodes with
  | nil => rfl
  | cons node rest ih =>
    rw [planeCycle, if_pos left] at same ⊢
    by_cases room : node.cpus < node.avail ∨ oversub = true
    · have lt := planeTasks_lt cpusPerTask pos left room
      exact absurd (lt.trans_le ((planeCycle_le planeSize rest _).trans_eq same))
        (Nat.lt_irrefl tid)
    · rw [planeTasks_full room] at same ⊢
      have none_ := ih same
      have full : ¬node.cpus < node.avail := fun less => room (.inl less)
      simp only [none_, full, decide_false, Bool.or_self]

theorem planeCycle_advances (cpusPerTask maxtasks : Nat) {planeSize : Nat}
    (pos : 0 < planeSize) :
    Advances maxtasks fun overSubscribe _ =>
      planeCycle cpusPerTask maxtasks overSubscribe planeSize where
  nonempty oversub n nodes tid some_ := by
    cases nodes with
    | nil => exact absurd rfl some_
    | cons node rest =>
      rw [planeCycle]
      split_ifs <;> exact List.cons_ne_nil _ _
  le oversub n nodes tid := planeCycle_le planeSize nodes tid
  space oversub n nodes tid left same := planeCycle_space pos left same
  oversub n nodes tid some_ left := by
    cases nodes with
    | nil => exact absurd rfl some_
    | cons node rest =>
      rw [planeCycle, if_pos left]
      exact (planeTasks_lt cpusPerTask pos left (.inr rfl)).trans_le
        (planeCycle_le planeSize rest _)

end Advance

/-! ## Cycles as rounds -/

open SlurmSim.Lib List

/-- A node with a number of tasks. -/
def NodeTasks.holding (cpusPerTask avail share : Nat) : NodeTasks :=
  ⟨avail, min avail (cpusPerTask * share)⟩

theorem NodeTasks.addTask_holding (cpusPerTask avail share : Nat) :
    (holding cpusPerTask avail share).addTask cpusPerTask =
      holding cpusPerTask avail (share + 1) := by
  simp only [holding, addTask, NodeTasks.mk.injEq, true_and, Nat.mul_add_one]
  omega

/-- The nodes after whole rounds. -/
def wholeRounds (cpusPerTask width : Nat) (slots : Nat → Nat) (n : Nat) (availCpus : List Nat) :
    List NodeTasks :=
  availCpus.map fun avail =>
    .holding cpusPerTask avail (RoundRobin.filled width n (slots avail))

/-- Without `over_subscribe`, the cycles are rounds of `width` over the places of the
nodes, and leave space as long as there are places. -/
structure Rounds (cpusPerTask maxtasks width : Nat) (slots : Nat → Nat)
    (cycle : Bool → Nat → List NodeTasks → Nat → List NodeTasks × Nat × Bool) : Prop where
  shares : ∀ n availCpus tid, tid ≤ maxtasks →
    (cycle false n (wholeRounds cpusPerTask width slots n availCpus) tid).1 =
      List.zipWith (NodeTasks.holding cpusPerTask) availCpus
        (RoundRobin.round maxtasks width n (availCpus.map slots) tid).1
  placed : ∀ n availCpus tid, tid ≤ maxtasks →
    (cycle false n (wholeRounds cpusPerTask width slots n availCpus) tid).2.1 =
      (RoundRobin.round maxtasks width n (availCpus.map slots) tid).2
  space : ∀ n availCpus tid, tid ≤ maxtasks →
    (cycle false n (wholeRounds cpusPerTask width slots n availCpus) tid).2.1 < maxtasks →
    (∃ avail ∈ availCpus, (n + 1) * width < slots avail) →
    (cycle false n (wholeRounds cpusPerTask width slots n availCpus) tid).2.2 = true

section Shares

variable {cpusPerTask maxtasks width : Nat} {slots : Nat → Nat}
  {cycle : Bool → Nat → List NodeTasks → Nat → List NodeTasks × Nat × Bool}

theorem Rounds.state (rounds : Rounds cpusPerTask maxtasks width slots cycle)
    {availCpus : List Nat} (enough : maxtasks ≤ (availCpus.map slots).sum) {n : Nat}
    (left : RoundRobin.placed width n (availCpus.map slots) < maxtasks) :
    taskState maxtasks cycle (availCpus.map (⟨·, 0⟩)) n =
      ⟨wholeRounds cpusPerTask width slots n availCpus,
        RoundRobin.placed width n (availCpus.map slots), false⟩ := by
  induction n with
  | zero =>
    simp only [taskState, RoundRobin.placed_zero, wholeRounds, RoundRobin.filled_zero,
      NodeTasks.holding, Nat.mul_zero, Nat.min_zero]
  | succ n ih =>
    have mono := RoundRobin.placed_mono width (Nat.le_add_right n 1) (availCpus.map slots)
    have before := ih (by omega)
    have le : RoundRobin.placed width n (availCpus.map slots) ≤ maxtasks := by omega
    rw [taskState_succ (by rw [before]; dsimp only; omega), before]
    have isPlaced := rounds.placed n availCpus _ le
    rw [RoundRobin.round_snd _ _ _ _ le] at isPlaced
    have fits : RoundRobin.placed width n (availCpus.map slots) +
        (RoundRobin.placed width (n + 1) (availCpus.map slots) -
          RoundRobin.placed width n (availCpus.map slots)) ≤ maxtasks := by omega
    have whole := RoundRobin.round_whole maxtasks width n (availCpus.map slots) fits
    obtain ⟨capacity, mem, room⟩ := RoundRobin.exists_room (Nat.lt_of_lt_of_le left enough)
    obtain ⟨avail, isAvail, rfl⟩ := mem_map.mp mem
    have space := rounds.space n availCpus _ le (by omega) ⟨avail, isAvail, room⟩
    have shares := rounds.shares n availCpus _ le
    rw [whole, map_map] at shares
    dsimp only
    rw [shares, isPlaced, space, zipWith_map_right, zipWith_self]
    simp only [TaskState.mk.injEq, Bool.not_true, Bool.or_self, and_true]
    exact ⟨rfl, by omega⟩

/-- The shares of the nodes when there are places for all tasks. -/
def nodeShares (maxtasks width n : Nat) (slots : Nat → Nat) (availCpus : List Nat) : List Nat :=
  (RoundRobin.round maxtasks width n (availCpus.map slots)
    (RoundRobin.placed width n (availCpus.map slots))).1

/-- In the last round every task gets its place, and `over_subscribe` is not set before. -/
theorem Rounds.last (rounds : Rounds cpusPerTask maxtasks width slots cycle)
    {availCpus : List Nat} (enough : maxtasks ≤ (availCpus.map slots).sum) {n : Nat}
    (left : RoundRobin.placed width n (availCpus.map slots) < maxtasks)
    (done : maxtasks ≤ RoundRobin.placed width (n + 1) (availCpus.map slots)) {m : Nat} :
    (m ≤ n → (taskState maxtasks cycle (availCpus.map (⟨·, 0⟩)) m).tid < maxtasks ∧
      (taskState maxtasks cycle (availCpus.map (⟨·, 0⟩)) m).overSubscribe = false) ∧
    (n < m → (taskState maxtasks cycle (availCpus.map (⟨·, 0⟩)) m).tid = maxtasks ∧
      (taskState maxtasks cycle (availCpus.map (⟨·, 0⟩)) m).nodes =
        List.zipWith (NodeTasks.holding cpusPerTask) availCpus
          (nodeShares maxtasks width n slots availCpus)) := by
  refine ⟨fun le => ?_, fun lt => ?_⟩
  · have mono := RoundRobin.placed_mono width le (availCpus.map slots)
    rw [rounds.state enough (Nat.lt_of_le_of_lt mono left)]
    exact ⟨Nat.lt_of_le_of_lt mono left, rfl⟩
  · have before := rounds.state enough left
    have le := Nat.le_of_lt left
    have more : (taskState maxtasks cycle (availCpus.map (⟨·, 0⟩)) n).tid < maxtasks := by
      rw [before]
      exact left
    have next := taskState_succ more
    rw [before] at next
    dsimp only at next
    rw [rounds.placed n availCpus _ le, rounds.shares n availCpus _ le,
      RoundRobin.round_snd _ _ _ _ le] at next
    have all : (taskState maxtasks cycle (availCpus.map (⟨·, 0⟩)) (n + 1)).tid = maxtasks := by
      rw [next]
      dsimp only
      omega
    rw [taskState_done lt all.ge]
    exact ⟨all, by rw [next]; rfl⟩

end Shares

section Cycles

variable {cpusPerTask maxtasks : Nat}

theorem zipWith_wholeRounds (cpusPerTask width : Nat) (slots : Nat → Nat) (n : Nat)
    (availCpus : List Nat) :
    List.zipWith (NodeTasks.holding cpusPerTask) availCpus
        ((availCpus.map slots).map (RoundRobin.filled width n)) =
      wholeRounds cpusPerTask width slots n availCpus := by
  rw [map_map, zipWith_map_right, zipWith_self]
  rfl

theorem wholeRounds_cons (cpusPerTask width : Nat) (slots : Nat → Nat) (n avail : Nat)
    (rest : List Nat) :
    wholeRounds cpusPerTask width slots n (avail :: rest) =
      NodeTasks.holding cpusPerTask avail (RoundRobin.filled width n (slots avail)) ::
        wholeRounds cpusPerTask width slots n rest :=
  rfl

variable {i avail share : Nat} {node : NodeTasks} {rest : List NodeTasks}

theorem cbCycle_room {oversub : Bool} {tid : Nat} (left : tid < maxtasks) (room : i ≤ node.avail) :
    cbCycle cpusPerTask maxtasks oversub i (node :: rest) tid =
      let next := cbCycle cpusPerTask maxtasks oversub i rest (tid + 1)
      (node.addTask cpusPerTask :: next.1, next.2.1, next.2.2 || i + 1 ≤ node.avail) := by
  rw [cbCycle, if_pos left, if_pos (.inl room)]

theorem cbCycle_full {tid : Nat} (left : tid < maxtasks) (full : ¬i ≤ node.avail) :
    cbCycle cpusPerTask maxtasks false i (node :: rest) tid =
      let next := cbCycle cpusPerTask maxtasks false i rest tid
      (node :: next.1, next.2.1, next.2.2) := by
  rw [cbCycle, if_pos left, if_neg (by simpa using full)]

theorem cbCycle_done {oversub : Bool} {tid : Nat} (nodes : List NodeTasks)
    (done : ¬tid < maxtasks) :
    cbCycle cpusPerTask maxtasks oversub i nodes tid = (nodes, tid, false) := by
  cases nodes with
  | nil => rfl
  | cons node rest => rw [cbCycle, if_neg done]

theorem cbCycle_round (pos : 0 < cpusPerTask) (n : Nat) (availCpus : List Nat) {tid : Nat}
    (le : tid ≤ maxtasks) :
    let next := cbCycle cpusPerTask maxtasks false ((n + 1) * cpusPerTask)
      (wholeRounds cpusPerTask 1 (· / cpusPerTask) n availCpus) tid
    let round := RoundRobin.round maxtasks 1 n (availCpus.map (· / cpusPerTask)) tid
    next.1 = List.zipWith (NodeTasks.holding cpusPerTask) availCpus round.1 ∧
      next.2.1 = round.2 := by
  dsimp only
  induction availCpus generalizing tid with
  | nil => exact ⟨rfl, rfl⟩
  | cons avail rest ih =>
    by_cases left : tid < maxtasks
    · have fits : (n + 1) * cpusPerTask ≤ avail ↔ n + 1 ≤ avail / cpusPerTask :=
        (Nat.le_div_iff_mul_le pos).symm
      rw [wholeRounds_cons, map_cons, RoundRobin.round]
      by_cases room : (n + 1) * cpusPerTask ≤ avail
      · have more : min (RoundRobin.filled 1 (n + 1) (avail / cpusPerTask) -
            RoundRobin.filled 1 n (avail / cpusPerTask)) (maxtasks - tid) = 1 := by
          rw [fits] at room
          unfold RoundRobin.filled
          omega
        obtain ⟨nodes, placed⟩ := ih left
        rw [cbCycle_room left room, more, NodeTasks.addTask_holding]
        exact ⟨congrArg (_ :: ·) nodes, placed⟩
      · have none_ : min (RoundRobin.filled 1 (n + 1) (avail / cpusPerTask) -
            RoundRobin.filled 1 n (avail / cpusPerTask)) (maxtasks - tid) = 0 := by
          rw [fits] at room
          unfold RoundRobin.filled
          omega
        obtain ⟨nodes, placed⟩ := ih le
        rw [cbCycle_full left room, none_]
        exact ⟨congrArg (_ :: ·) nodes, placed⟩
    · rw [cbCycle_done _ left, RoundRobin.round_done _ _ _ _ (Nat.not_lt.mp left),
        zipWith_wholeRounds]
      exact ⟨rfl, rfl⟩

theorem cbCycle_space_of_room (pos : 0 < cpusPerTask) {n : Nat} {availCpus : List Nat}
    {tid : Nat}
    (left : (cbCycle cpusPerTask maxtasks false ((n + 1) * cpusPerTask)
      (wholeRounds cpusPerTask 1 (· / cpusPerTask) n availCpus) tid).2.1 < maxtasks)
    (room : ∃ avail ∈ availCpus, (n + 1) * 1 < avail / cpusPerTask) :
    (cbCycle cpusPerTask maxtasks false ((n + 1) * cpusPerTask)
      (wholeRounds cpusPerTask 1 (· / cpusPerTask) n availCpus) tid).2.2 = true := by
  induction availCpus generalizing tid with
  | nil =>
    obtain ⟨avail, mem, _⟩ := room
    exact absurd mem not_mem_nil
  | cons first rest ih =>
    have before : tid < maxtasks := (cbCycle_le _ _ tid).trans_lt left
    obtain ⟨avail, mem, enough⟩ := room
    rw [wholeRounds_cons] at left ⊢
    rcases mem_cons.mp mem with rfl | later
    · rw [Nat.mul_one] at enough
      have next := (Nat.le_div_iff_mul_le pos).mp enough
      rw [Nat.succ_eq_add_one, Nat.add_one_mul] at next
      rw [cbCycle_room before (Nat.le_of_add_right_le next)]
      have more : (n + 1) * cpusPerTask + 1 ≤ avail := by omega
      exact Bool.or_eq_true_iff.mpr (.inr (decide_eq_true more))
    · by_cases fits : (n + 1) * cpusPerTask ≤ first
      · rw [cbCycle_room before fits] at left ⊢
        exact Bool.or_eq_true_iff.mpr (.inl (ih left ⟨avail, later, enough⟩))
      · rw [cbCycle_full before fits] at left ⊢
        exact ih left ⟨avail, later, enough⟩

theorem cbCycle_rounds (maxtasks : Nat) (pos : 0 < cpusPerTask) :
    Rounds cpusPerTask maxtasks 1 (· / cpusPerTask) fun overSubscribe n =>
      cbCycle cpusPerTask maxtasks overSubscribe ((n + 1) * cpusPerTask) where
  shares n availCpus _ le := (cbCycle_round pos n availCpus le).1
  placed n availCpus _ le := (cbCycle_round pos n availCpus le).2
  space _ _ _ _ left room := cbCycle_space_of_room pos left room

/-- The tasks that a plane starts on a node: one for each CPU count of a task, and one
more for the rest. -/
def planeSlots (cpusPerTask avail : Nat) : Nat :=
  (avail + cpusPerTask - 1) / cpusPerTask

theorem lt_planeSlots (pos : 0 < cpusPerTask) :
    share < planeSlots cpusPerTask avail ↔ cpusPerTask * share < avail := by
  rw [planeSlots, Nat.lt_iff_add_one_le, Nat.le_div_iff_mul_le pos, Nat.add_one_mul,
    Nat.mul_comm]
  omega

theorem NodeTasks.holding_lt (pos : 0 < cpusPerTask) :
    (holding cpusPerTask avail share).cpus < (holding cpusPerTask avail share).avail ↔
      share < planeSlots cpusPerTask avail := by
  rw [lt_planeSlots pos]
  simp only [holding]
  omega

theorem planeTasks_holding (pos : 0 < cpusPerTask) (p : Nat) {tid : Nat}
    (le : tid ≤ maxtasks) (fits : share ≤ planeSlots cpusPerTask avail) :
    planeTasks cpusPerTask maxtasks false p (.holding cpusPerTask avail share) tid =
      let more := min (min p (planeSlots cpusPerTask avail - share)) (maxtasks - tid)
      (.holding cpusPerTask avail (share + more), tid + more) := by
  induction p generalizing share tid with
  | zero => simp [planeTasks]
  | succ p ih =>
    rw [planeTasks]
    by_cases left : tid < maxtasks
    · rw [if_pos left]
      by_cases room : share < planeSlots cpusPerTask avail
      · have leftAfter : tid + 1 ≤ maxtasks := left
        have fitsAfter : share + 1 ≤ planeSlots cpusPerTask avail := room
        rw [if_pos (.inl ((NodeTasks.holding_lt pos).mpr room)), NodeTasks.addTask_holding,
          ih leftAfter fitsAfter]
        have more :
            min (min (p + 1) (planeSlots cpusPerTask avail - share)) (maxtasks - tid) =
              min (min p (planeSlots cpusPerTask avail - (share + 1))) (maxtasks - (tid + 1)) +
                1 := by
          omega
        rw [more]
        simp only [Nat.add_assoc, Nat.add_comm 1]
      · have full : share = planeSlots cpusPerTask avail := by omega
        have none_ : ¬((NodeTasks.holding cpusPerTask avail share).cpus <
            (NodeTasks.holding cpusPerTask avail share).avail ∨ false = true) := by
          rw [NodeTasks.holding_lt pos]
          simpa using room
        rw [if_neg none_, planeTasks_full none_, full]
        simp
    · have done : maxtasks - tid = 0 := by omega
      rw [if_neg left, done]
      simp

theorem planeCycle_left {oversub : Bool} {planeSize tid : Nat} (left : tid < maxtasks) :
    planeCycle cpusPerTask maxtasks oversub planeSize (node :: rest) tid =
      let turn := planeTasks cpusPerTask maxtasks oversub planeSize node tid
      let next := planeCycle cpusPerTask maxtasks oversub planeSize rest turn.2
      (turn.1 :: next.1, next.2.1, next.2.2 || turn.1.cpus < turn.1.avail) := by
  rw [planeCycle, if_pos left]

theorem planeCycle_done {oversub : Bool} {planeSize tid : Nat} (nodes : List NodeTasks)
    (done : ¬tid < maxtasks) :
    planeCycle cpusPerTask maxtasks oversub planeSize nodes tid = (nodes, tid, false) := by
  cases nodes with
  | nil => rfl
  | cons node rest => rw [planeCycle, if_neg done]

theorem filled_succ_sub (width n capacity : Nat) :
    RoundRobin.filled width (n + 1) capacity - RoundRobin.filled width n capacity =
      min width (capacity - RoundRobin.filled width n capacity) := by
  simp only [RoundRobin.filled, Nat.add_one_mul]
  omega

theorem planeCycle_round (pos : 0 < cpusPerTask) (planeSize n : Nat)
    (availCpus : List Nat) {tid : Nat} (le : tid ≤ maxtasks) :
    let next := planeCycle cpusPerTask maxtasks false planeSize
      (wholeRounds cpusPerTask planeSize (planeSlots cpusPerTask) n availCpus) tid
    let round := RoundRobin.round maxtasks planeSize n (availCpus.map (planeSlots cpusPerTask)) tid
    next.1 = List.zipWith (NodeTasks.holding cpusPerTask) availCpus round.1 ∧
      next.2.1 = round.2 := by
  dsimp only
  induction availCpus generalizing tid with
  | nil => exact ⟨rfl, rfl⟩
  | cons avail rest ih =>
    by_cases left : tid < maxtasks
    · rw [wholeRounds_cons, map_cons, RoundRobin.round, planeCycle_left left,
        planeTasks_holding pos planeSize le (RoundRobin.filled_le ..), ← filled_succ_sub]
      have after : tid + min (RoundRobin.filled planeSize (n + 1) (planeSlots cpusPerTask avail) -
          RoundRobin.filled planeSize n (planeSlots cpusPerTask avail)) (maxtasks - tid) ≤
          maxtasks := by omega
      obtain ⟨nodes, placed⟩ := ih after
      exact ⟨congrArg (_ :: ·) nodes, placed⟩
    · rw [planeCycle_done _ left, RoundRobin.round_done _ _ _ _ (Nat.not_lt.mp left),
        zipWith_wholeRounds]
      exact ⟨rfl, rfl⟩

theorem planeCycle_space_of_room (pos : 0 < cpusPerTask) {planeSize n : Nat}
    {availCpus : List Nat} {tid : Nat}
    (left : (planeCycle cpusPerTask maxtasks false planeSize
      (wholeRounds cpusPerTask planeSize (planeSlots cpusPerTask) n availCpus) tid).2.1 < maxtasks)
    (room : ∃ avail ∈ availCpus, (n + 1) * planeSize < planeSlots cpusPerTask avail) :
    (planeCycle cpusPerTask maxtasks false planeSize
      (wholeRounds cpusPerTask planeSize (planeSlots cpusPerTask) n availCpus) tid).2.2 = true := by
  induction availCpus generalizing tid with
  | nil =>
    obtain ⟨avail, mem, _⟩ := room
    exact absurd mem not_mem_nil
  | cons first rest ih =>
    have before : tid < maxtasks := (planeCycle_le _ _ tid).trans_lt left
    obtain ⟨avail, mem, enough⟩ := room
    rw [wholeRounds_cons, planeCycle_left before, planeTasks_holding pos planeSize before.le
      (RoundRobin.filled_le ..), ← filled_succ_sub] at left ⊢
    rw [Bool.or_eq_true_iff]
    rcases mem_cons.mp mem with rfl | later
    · rw [decide_eq_true_eq, NodeTasks.holding_lt pos]
      have upTo : RoundRobin.filled planeSize (n + 1) (planeSlots cpusPerTask avail) ≤
          (n + 1) * planeSize := Nat.min_le_right ..
      have mono := RoundRobin.filled_mono planeSize (planeSlots cpusPerTask avail)
        (Nat.le_add_right n 1)
      omega
    · exact .inl (ih left ⟨avail, later, enough⟩)

theorem planeCycle_rounds (maxtasks planeSize : Nat) (pos : 0 < cpusPerTask) :
    Rounds cpusPerTask maxtasks planeSize (planeSlots cpusPerTask) fun overSubscribe _ =>
      planeCycle cpusPerTask maxtasks overSubscribe planeSize where
  shares n availCpus _ le := (planeCycle_round pos planeSize n availCpus le).1
  placed n availCpus _ le := (planeCycle_round pos planeSize n availCpus le).2
  space _ _ _ _ left room := planeCycle_space_of_room pos left room

end Cycles

/-! ## Tasks with all their CPUs -/

/-- The CPUs of the nodes in a state. -/
def TaskState.cpus (st : TaskState) : List Nat :=
  st.nodes.map NodeTasks.cpus

/-- Every task has its CPUs on one node, and `over_subscribe` is not set before the
last one is placed. -/
structure WholeTasks (cpusPerTask maxtasks : Nat) (states : Nat → TaskState) (cpus : List Nat) :
    Prop where
  multiples : ∀ j, cpusPerTask ∣ cpus.getD j 0
  total : cpus.sum = cpusPerTask * maxtasks
  relief : ∀ n, (states n).overSubscribe = true → maxtasks ≤ (states n).tid

section Whole

variable {cpusPerTask maxtasks width : Nat} {slots : Nat → Nat}
  {cycle : Bool → Nat → List NodeTasks → Nat → List NodeTasks × Nat × Bool}

theorem sum_eq_mul_sum {cpus counts : List Nat} (length : cpus.length = counts.length)
    (each : ∀ j, cpus.getD j 0 = cpusPerTask * counts.getD j 0) :
    cpus.sum = cpusPerTask * counts.sum := by
  induction cpus generalizing counts with
  | nil =>
    rw [eq_nil_of_length_eq_zero length.symm]
    rfl
  | cons first rest ih =>
    cases counts with
    | nil => exact absurd length (Nat.succ_ne_zero _)
    | cons count counts =>
      have here := each 0
      have others := ih (Nat.succ.inj length) fun j => each (j + 1)
      rw [getD_cons_zero, getD_cons_zero] at here
      rw [sum_cons, sum_cons, here, others, Nat.mul_add]

variable {availCpus : List Nat}

theorem sum_nodeShares {n : Nat} (left : RoundRobin.placed width n (availCpus.map slots) < maxtasks)
    (done : maxtasks ≤ RoundRobin.placed width (n + 1) (availCpus.map slots)) :
    (nodeShares maxtasks width n slots availCpus).sum = maxtasks := by
  have sum := RoundRobin.round_sum maxtasks width n (availCpus.map slots)
    (RoundRobin.placed width n (availCpus.map slots))
  rw [RoundRobin.round_snd _ _ _ _ left.le] at sum
  unfold nodeShares
  omega

theorem getD_holding {counts : List Nat} (length : availCpus.length = counts.length) (j : Nat) :
    ((List.zipWith (NodeTasks.holding cpusPerTask) availCpus counts).map NodeTasks.cpus).getD j 0 =
      min (availCpus.getD j 0) (cpusPerTask * counts.getD j 0) := by
  induction availCpus generalizing counts j with
  | nil => simp
  | cons avail rest ih =>
    cases counts with
    | nil => exact absurd length (Nat.succ_ne_zero _)
    | cons count counts =>
      cases j with
      | zero => rfl
      | succ j => exact ih (Nat.succ.inj length) j

/-- A share gives whole tasks if and only if its last task is whole. -/
theorem min_mul_eq_iff (pos : 0 < cpusPerTask) {avail share slot : Nat}
    (room : ∀ k, k < slot → cpusPerTask * k < avail) (le : share ≤ slot) :
    min avail (cpusPerTask * share) = cpusPerTask * share ↔
      cpusPerTask ∣ min avail (cpusPerTask * slot) ∨ share ≠ slot := by
  rcases Nat.lt_or_eq_of_le le with less | rfl
  · have fits := room share less
    exact ⟨fun _ => .inr less.ne, fun _ => Nat.min_eq_right fits.le⟩
  · constructor
    · intro whole
      left
      rw [whole]
      exact Nat.dvd_mul_right ..
    · rintro (⟨count, isCount⟩ | different)
      · cases share with
        | zero => simp
        | succ share =>
          have before := room share (Nat.lt_succ_self share)
          have below : cpusPerTask * count ≤ cpusPerTask * (share + 1) :=
            isCount.symm.trans_le (Nat.min_le_right ..)
          have above : cpusPerTask * share < cpusPerTask * count := by
            rw [← isCount, Nat.mul_add_one]
            omega
          have most := Nat.le_of_mul_le_mul_left below pos
          have least := Nat.lt_of_mul_lt_mul_left above
          rw [isCount, show count = share + 1 by omega]
      · exact absurd rfl different

theorem getD_map_slots {j : Nat} (mem : j < availCpus.length) :
    (availCpus.map slots).getD j 0 = slots (availCpus.getD j 0) := by
  simp [getD_eq_getElem?_getD, getElem?_eq_getElem mem]

/-- The tasks of a node are whole if and only if its CPUs are a multiple, and they are
not only where the node is filled up to a place that is short of CPUs. -/
theorem whole_share_iff (pos : 0 < cpusPerTask) (turns : 0 < width)
    (room : ∀ avail k, k < slots avail → cpusPerTask * k < avail) {n : Nat}
    (left : RoundRobin.placed width n (availCpus.map slots) < maxtasks)
    (done : maxtasks ≤ RoundRobin.placed width (n + 1) (availCpus.map slots)) {j : Nat}
    (mem : j < availCpus.length) :
    let share := (nodeShares maxtasks width n slots availCpus).getD j 0
    let cpus := min (availCpus.getD j 0) (cpusPerTask * share)
    (cpusPerTask ∣ cpus ↔ cpus = cpusPerTask * share) ∧ (cpus = cpusPerTask * share ↔
        cpusPerTask ∣ min (availCpus.getD j 0) (cpusPerTask * slots (availCpus.getD j 0)) ∨
          maxtasks ≤ RoundRobin.beforeLast width (availCpus.map slots) j) := by
  have inside' : j < (availCpus.map slots).length := by rwa [length_map]
  have le := RoundRobin.round_getD_le maxtasks width n left.le inside'
  have full := RoundRobin.round_full_iff turns left done inside'
  rw [getD_map_slots mem] at le full
  change (nodeShares maxtasks width n slots availCpus).getD j 0 ≤ _ at le
  change _ → ((nodeShares maxtasks width n slots availCpus).getD j 0 = _ ↔ _) at full
  have whole := min_mul_eq_iff pos (room (availCpus.getD j 0)) le
  refine ⟨⟨fun divides => ?_, fun isWhole => ?_⟩, ?_⟩
  · rw [whole]
    by_cases same : (nodeShares maxtasks width n slots availCpus).getD j 0 =
        slots (availCpus.getD j 0)
    · rw [same] at divides
      exact .inl divides
    · exact .inr same
  · rw [isWhole]
    exact Nat.dvd_mul_right ..
  · rw [whole]
    rcases Nat.eq_zero_or_pos (slots (availCpus.getD j 0)) with none_ | some_
    · rw [none_, Nat.mul_zero, Nat.min_zero]
      exact ⟨fun _ => .inl (Nat.dvd_zero _), fun _ => .inl (Nat.dvd_zero _)⟩
    · rw [Ne, full some_, Nat.not_lt]

theorem taskState_none (cycle : Bool → Nat → List NodeTasks → Nat → List NodeTasks × Nat × Bool)
    (nodes : List NodeTasks) (n : Nat) : taskState 0 cycle nodes n = ⟨nodes, 0, false⟩ :=
  taskState_done (Nat.zero_le n) (Nat.le_refl 0)

/-- Tasks on places: all of them have their CPUs if and only if no node is filled up
to a place that is short of them. -/
theorem Rounds.whole_iff (rounds : Rounds cpusPerTask maxtasks width slots cycle)
    (advances : Advances maxtasks cycle) (pos : 0 < cpusPerTask) (turns : 0 < width)
    (room : ∀ avail k, k < slots avail → cpusPerTask * k < avail) (hosts : availCpus ≠ [])
    (enough : maxtasks ≤ (availCpus.map slots).sum) :
    WholeTasks cpusPerTask maxtasks (taskState maxtasks cycle (availCpus.map (⟨·, 0⟩)))
        (taskState maxtasks cycle (availCpus.map (⟨·, 0⟩)) (maxtasks + 1)).cpus ↔
      ∀ j < availCpus.length,
        cpusPerTask ∣ min (availCpus.getD j 0) (cpusPerTask * slots (availCpus.getD j 0)) ∨
          maxtasks ≤ RoundRobin.beforeLast width (availCpus.map slots) j := by
  have ends : maxtasks ≤ (taskState maxtasks cycle (availCpus.map (⟨·, 0⟩)) (maxtasks + 1)).tid :=
    advances.ends (by simpa using hosts)
  rcases Nat.eq_zero_or_pos maxtasks with rfl | some_
  · refine ⟨fun _ j _ => .inr (Nat.zero_le _), fun _ => ?_⟩
    have zeros : (taskState 0 cycle (availCpus.map (⟨·, 0⟩)) 1).cpus =
        List.replicate availCpus.length 0 := by
      rw [taskState_none, TaskState.cpus, map_map]
      exact map_const' ..
    refine ⟨fun j => ?_, ?_, fun n _ => Nat.zero_le _⟩
    · have zero : (List.replicate availCpus.length 0).getD j 0 = 0 := by
        rw [getD_eq_getElem?_getD, getElem?_replicate]
        split_ifs <;> rfl
      rw [zeros, zero]
      exact Nat.dvd_zero _
    · rw [zeros, sum_replicate_nat, Nat.mul_zero, Nat.mul_zero]
  · obtain ⟨n, left, done⟩ := RoundRobin.exists_last_round turns some_ enough
    have late : n < maxtasks + 1 := by
      by_contra early
      have before := ((rounds.last enough left done).1 (Nat.not_lt.mp early)).1
      omega
    have lengths : availCpus.length = (nodeShares maxtasks width n slots availCpus).length := by
      simp [nodeShares]
    have share := fun j (mem : j < availCpus.length) =>
      whole_share_iff pos turns room left done mem
    rw [TaskState.cpus, ((rounds.last enough left done).2 late).2]
    constructor
    · intro whole j mem
      have divides := whole.multiples j
      rw [getD_holding lengths, (share j mem).1] at divides
      exact (share j mem).2.mp divides
    · intro fits
      have each : ∀ j, min (availCpus.getD j 0)
          (cpusPerTask * (nodeShares maxtasks width n slots availCpus).getD j 0) =
            cpusPerTask * (nodeShares maxtasks width n slots availCpus).getD j 0 := by
        intro j
        by_cases mem : j < availCpus.length
        · exact (share j mem).2.mpr (fits j mem)
        · have none_ : (nodeShares maxtasks width n slots availCpus)[j]? = none :=
            getElem?_eq_none (lengths ▸ Nat.not_lt.mp mem)
          have zero : (nodeShares maxtasks width n slots availCpus).getD j 0 = 0 := by
            rw [getD_eq_getElem?_getD, none_, Option.getD_none]
          rw [zero, Nat.mul_zero, Nat.min_zero]
      refine ⟨fun j => ?_, ?_, fun m isOver => ?_⟩
      · rw [getD_holding lengths, each j]
        exact Nat.dvd_mul_right ..
      · refine (sum_eq_mul_sum (by simp [lengths]) fun j => ?_).trans
          (congrArg (cpusPerTask * ·) (sum_nodeShares left done))
        rw [getD_holding lengths, each j]
      · by_cases early : m ≤ n
        · rw [((rounds.last enough left done).1 early).2] at isOver
          cases isOver
        · exact ((rounds.last enough left done).2 (Nat.lt_of_not_le early)).1.ge

end Whole

/-! ## Both distributions -/

/-- `maxtasks` of `_compute_c_b_task_dist`. -/
def cbMaxtasks (d : JobDetails) (ncpus nhosts : Nat) : Nat :=
  let wanted :=
    if d.overcommit = false ∧ 1 < d.cpusPerTask then
      if d.ntasksPerNode = 0 then ncpus / d.cpusPerTask else d.ntasksPerNode * nhosts
    else ncpus
  if wanted = 0 then 1 else wanted

/-- `maxtasks` of `_compute_plane_dist`. -/
def planeMaxtasks (d : JobDetails) (ncpus : Nat) : Nat :=
  if 1 < d.cpusPerTask then ncpus / d.cpusPerTask else ncpus

/-- `plane_size`, which is 1 for a job without layout options. -/
def JobDetails.planeSize (d : JobDetails) : Nat :=
  (d.mcPtr.map MultiCore.planeSize).getD 1

/-- The states of `_compute_c_b_task_dist`. -/
def cbStates (d : JobDetails) (ncpus : Nat) (availCpus : List Nat) : Nat → TaskState :=
  let maxtasks := cbMaxtasks d ncpus availCpus.length
  let cpusPerTask := d.someCpusPerTask.cpusPerTask
  taskState maxtasks
    (fun overSubscribe n => cbCycle cpusPerTask maxtasks overSubscribe ((n + 1) * cpusPerTask))
    (availCpus.map (⟨·, 0⟩))

/-- The states of `_compute_plane_dist`. -/
def planeStates (d : JobDetails) (ncpus : Nat) (availCpus : List Nat) : Nat → TaskState :=
  let maxtasks := planeMaxtasks d ncpus
  taskState maxtasks
    (fun overSubscribe _ => planeCycle d.cpusPerTask maxtasks overSubscribe d.planeSize)
    (availCpus.map (⟨·, 0⟩))

theorem computeCBTaskDist_eq (d : JobDetails) (ncpus : Nat) (availCpus : List Nat) :
    computeCBTaskDist d ncpus availCpus =
      (cbStates d ncpus availCpus (cbMaxtasks d ncpus availCpus.length + 1)).cpus :=
  congrArg (List.map NodeTasks.cpus) (taskCycles_start ..)

theorem computePlaneDist_eq {d : JobDetails} (some_ : 0 < d.planeSize) (ncpus : Nat)
    (availCpus : List Nat) :
    computePlaneDist d ncpus availCpus =
      some (planeStates d ncpus availCpus (planeMaxtasks d ncpus + 1)).cpus := by
  have isPlane : ¬(d.mcPtr.map MultiCore.planeSize).getD 1 = 0 := Nat.pos_iff_ne_zero.mp some_
  unfold computePlaneDist
  rw [if_neg isPlane]
  exact congrArg (some ∘ List.map NodeTasks.cpus) (taskCycles_start ..)

/-- What a distribution of tasks is to do: it ends with `cpus`, gives no node more
than it has, and gives every task its CPUs whenever the nodes have whole tasks for all
of them. -/
structure Distributes (cpusPerTask maxtasks : Nat) (availCpus : List Nat)
    (states : Nat → TaskState) (cpus : List Nat) : Prop where
  ends : ∃ n, maxtasks ≤ (states n).tid ∧ cpus = (states n).cpus
  within : ∀ j, cpus.getD j 0 ≤ availCpus.getD j 0
  whole : maxtasks ≤ (availCpus.map (· / cpusPerTask)).sum →
    WholeTasks cpusPerTask maxtasks states cpus

section Both

variable {d : JobDetails}

theorem someCpusPerTask_of_pos (pos : 0 < d.cpusPerTask) :
    d.someCpusPerTask.cpusPerTask = d.cpusPerTask :=
  if_neg (Nat.pos_iff_ne_zero.mp pos)

theorem computeCBTaskDist_distributes (pos : 0 < d.cpusPerTask) (ncpus : Nat)
    {availCpus : List Nat} (hosts : availCpus ≠ []) :
    Distributes d.cpusPerTask (cbMaxtasks d ncpus availCpus.length) availCpus
      (cbStates d ncpus availCpus) (computeCBTaskDist d ncpus availCpus) where
  ends := ⟨_, (cbCycle_advances _ _).ends (by simpa using hosts), computeCBTaskDist_eq ..⟩
  within := computeCBTaskDist_le d ncpus availCpus
  whole enough := by
    have rounds := cbCycle_rounds (cbMaxtasks d ncpus availCpus.length) pos
    have advances := cbCycle_advances d.cpusPerTask (cbMaxtasks d ncpus availCpus.length)
    rw [computeCBTaskDist_eq, cbStates, someCpusPerTask_of_pos pos]
    refine (rounds.whole_iff advances pos Nat.one_pos ?_ hosts enough).mpr ?_
    · intro avail k less
      have product := (Nat.le_div_iff_mul_le pos).mp less
      rw [Nat.succ_mul, Nat.mul_comm] at product
      omega
    · intro j _
      left
      rw [Nat.min_eq_right (Nat.mul_div_le ..)]
      exact Nat.dvd_mul_right ..

/-- When each plane starts whole tasks only: the tasks are more than the whole ones that
fit, or end before the short place of any node. -/
def PlanesFit (d : JobDetails) (ncpus : Nat) (availCpus : List Nat) : Prop :=
  (availCpus.map (· / d.cpusPerTask)).sum < planeMaxtasks d ncpus ∨
    ∀ j < availCpus.length, d.cpusPerTask ∣ availCpus.getD j 0 ∨
      planeMaxtasks d ncpus ≤
        RoundRobin.beforeLast d.planeSize (availCpus.map (planeSlots d.cpusPerTask)) j

theorem div_le_planeSlots (cpusPerTask avail : Nat) :
    avail / cpusPerTask ≤ planeSlots cpusPerTask avail := by
  unfold planeSlots
  rcases Nat.eq_zero_or_pos cpusPerTask with rfl | positive
  · rw [Nat.div_zero, Nat.div_zero]
  · exact Nat.div_le_div_right (by omega)

theorem computePlaneDist_distributes_iff (pos : 0 < d.cpusPerTask) (some_ : 0 < d.planeSize)
    (ncpus : Nat) {availCpus : List Nat} (hosts : availCpus ≠ []) :
    (∃ cpus, computePlaneDist d ncpus availCpus = some cpus ∧
      Distributes d.cpusPerTask (planeMaxtasks d ncpus) availCpus
        (planeStates d ncpus availCpus) cpus) ↔ PlanesFit d ncpus availCpus := by
  have rounds := planeCycle_rounds (planeMaxtasks d ncpus) d.planeSize pos
  have advances := planeCycle_advances d.cpusPerTask (planeMaxtasks d ncpus) some_
  have places : ∀ avail k, k < planeSlots d.cpusPerTask avail → d.cpusPerTask * k < avail :=
    fun _ _ => (lt_planeSlots pos).mp
  have more : (availCpus.map (· / d.cpusPerTask)).sum ≤
      (availCpus.map (planeSlots d.cpusPerTask)).sum :=
    sum_le_sum fun avail _ => div_le_planeSlots d.cpusPerTask avail
  have short : ∀ avail, min avail (d.cpusPerTask * planeSlots d.cpusPerTask avail) = avail := by
    intro avail
    refine Nat.min_eq_left (Nat.not_lt.mp fun less => ?_)
    exact Nat.lt_irrefl _ ((lt_planeSlots pos).mpr less)
  have iff := fun enough => rounds.whole_iff advances pos some_ places hosts
    (Nat.le_trans enough more)
  simp only [short] at iff
  rw [PlanesFit, or_iff_not_imp_left, Nat.not_lt]
  constructor
  · rintro ⟨cpus, result, distributes⟩ enough
    rw [computePlaneDist_eq some_, Option.some.injEq] at result
    subst result
    exact (iff enough).mp (distributes.whole enough)
  · intro fits
    have result := computePlaneDist_eq some_ ncpus availCpus
    exact ⟨_, result, ⟨_, advances.ends (by simpa using hosts), rfl⟩, computePlaneDist_le result,
      fun enough => (iff enough).mpr (fits enough)⟩

/-- The cyclic distribution is exact on every input; the one by planes where the planes
fit. -/
theorem cpus_distributed_iff (d : JobDetails) (ncpus : Nat) (availCpus : List Nat)
    (positive : 1 ≤ d.cpusPerTask) (some_ : 1 ≤ d.planeSize) (hosts : 1 ≤ availCpus.length) :
    Distributes d.cpusPerTask (cbMaxtasks d ncpus availCpus.length) availCpus
        (cbStates d ncpus availCpus) (computeCBTaskDist d ncpus availCpus) ∧
      (∃ cpus, computePlaneDist d ncpus availCpus = some cpus ∧
        Distributes d.cpusPerTask (planeMaxtasks d ncpus) availCpus
          (planeStates d ncpus availCpus) cpus) ↔ PlanesFit d ncpus availCpus := by
  have nodes : availCpus ≠ [] := ne_nil_of_length_pos hosts
  rw [computePlaneDist_distributes_iff positive some_ ncpus nodes]
  exact and_iff_right (computeCBTaskDist_distributes positive ncpus nodes)

end Both

/-- Tasks of two CPUs in planes of two. -/
def pairedTasks : JobDetails where
  coreSpec := 0xfffe
  cpusPerTask := 2
  minCpus := 4
  minNodes := 1
  mcPtr := some ⟨0xfffe, 0xfffe, 0xffff, 0xffff, 0xfffe, 2⟩
  ntasksPerNode := 0
  numTasks := 2
  overcommit := false
  pnMinCpus := 1
  reqNodeBitmap := none
  shareRes := 0xfe
  taskDist := 0x4
  wholeNode := 0

theorem cpus_distributed_iff_pairs :
    (Distributes 2 2 [4, 2] (cbStates pairedTasks 4 [4, 2])
        (computeCBTaskDist pairedTasks 4 [4, 2]) ∧
      ∃ cpus, computePlaneDist pairedTasks 4 [4, 2] = some cpus ∧
        Distributes 2 2 [4, 2] (planeStates pairedTasks 4 [4, 2]) cpus) ↔
      PlanesFit pairedTasks 4 [4, 2] :=
  cpus_distributed_iff pairedTasks 4 [4, 2] (by decide) (by decide) (by decide)

/-- Two tasks of two CPUs on nodes with three and two: both are started on the first,
the second of them with one CPU. -/
theorem cpus_distributed_fails :
    2 ≤ ([3, 2].map (· / pairedTasks.cpusPerTask)).sum ∧
      ∃ cpus, computePlaneDist pairedTasks 4 [3, 2] = some cpus ∧ cpus = [3, 0] ∧
        ¬Distributes pairedTasks.cpusPerTask 2 [3, 2] (planeStates pairedTasks 4 [3, 2]) cpus := by
  refine ⟨by decide, [3, 0], by decide, rfl, fun distributes => ?_⟩
  have divides := (distributes.whole (by decide)).multiples 0
  exact absurd divides (by decide)

end SlurmSim.Select
