import SlurmSim.Controller.JobDependency
import SlurmSim.Priority.Energy

/-!
# The bonus of the plussingleton dependency

The last job of a group of the same user and name sorts the group and adds to each job its
position.  The records that are sorted hold a `best_value` only, the comparator reads
`best_energy` and `best_time`: its quotients are zero by zero, no number is larger than
zero for the code, and none is here.
-/

namespace SlurmSim.Priority.PlusSingletonBonus

open SlurmSim.Lib SlurmSim.Controller List

/-- A job record.  Its `best_value` has been computed before. -/
structure DepJob where
  jobId : Nat
  userId : Nat
  name : Option String
  bestValue : ℚ
  priority : UInt32
  deriving DecidableEq

/-- The same user, and the same name if both have one. -/
def linked (job other : DepJob) : Bool :=
  other.userId = job.userId &&
    match job.name, other.name with
    | some name, some otherName => name = otherName
    | _, _ => true

/-- `j_list`: the group, once for each plussingleton dependency. -/
def jList (jobList : List DepJob) (job : DepJob) (dependList : List DependType) : List DepJob :=
  dependList.flatMap fun dependType =>
    if dependType = .plussingleton then jobList.filter (linked job) else []

/-- `energy_info_t` with its `job_ptr`. -/
structure EnergyDep where
  info : EnergyInfo ℚ
  job : DepJob

/-- The record of a job: all but the value stays as `xmalloc` has left it. -/
def energyDep (job : DepJob) : EnergyDep :=
  ⟨{ EnergyInfo.blank ⟨""⟩ with bestValue := job.bestValue }, job⟩

theorem energyDep_job (job : DepJob) : (energyDep job).job = job := rfl

/-- `_cmp_energy_values` -/
def cmpEnergyDep (a b : EnergyDep) : Int := cmpEnergyValues a.info b.info

/-- `energy_dep` after `qsort`. -/
def sortedDeps (jobList : List DepJob) (job : DepJob) (dependList : List DependType) :
    List EnergyDep :=
  qsort cmpEnergyDep ((jList jobList job dependList).map energyDep)

/-- The priority of the job itself, and the records of all jobs. -/
structure Priorities where
  priority : ℚ
  jobList : List DepJob

/-- One addition to the record of another job. -/
def addPriority (jobId i : Nat) (jobs : List DepJob) : List DepJob :=
  jobs.map fun j => if j.jobId = jobId then { j with priority := j.priority + UInt32.ofNat i } else j

/-- The loop that adds the positions from `i` on. -/
def addPositions (job : DepJob) : Nat → List EnergyDep → Priorities → Priorities
  | _, [], p => p
  | i, dep :: rest, p =>
    if dep.job.jobId = job.jobId then
      addPositions job (i + 1) rest { p with priority := p.priority + i }
    else
      addPositions job (i + 1) rest { p with jobList := addPriority dep.job.jobId i p.jobList }

/-- The part of `_get_priority_internal` for a job with dependencies. -/
def plusSingletonPriority (p : Priorities) (job : DepJob) (dependList : List DependType) :
    Priorities :=
  let list := jList p.jobList job dependList
  if list.length ≤ 1 then p
  else if (list.getLast?.map DepJob.jobId) ≠ some job.jobId then p
  else addPositions job 0 (sortedDeps p.jobList job dependList) p

/-! ## The bonus -/

/-- The sum of the positions of a job in a list, counted from `i` on. -/
def positions (jobId : Nat) : Nat → List DepJob → Nat
  | _, [] => 0
  | i, job :: rest => (if job.jobId = jobId then i else 0) + positions jobId (i + 1) rest

theorem positions_cons (jobId i : Nat) (job : DepJob) (rest : List DepJob) :
    positions jobId i (job :: rest) =
      (if job.jobId = jobId then i else 0) + positions jobId (i + 1) rest :=
  rfl

/-- What a step has added to the priorities. -/
def Adds (job : DepJob) (before after : Priorities) (bonus : Nat → Nat) : Prop :=
  after.priority = before.priority + bonus job.jobId ∧
    after.jobList = before.jobList.map fun j =>
      if j.jobId = job.jobId then j
      else { j with priority := j.priority + UInt32.ofNat (bonus j.jobId) }

theorem Adds.refl (job : DepJob) (p : Priorities) : Adds job p p fun _ => 0 := by
  refine ⟨by simp, ?_⟩
  have same : ∀ j : DepJob, (if j.jobId = job.jobId then j
      else { j with priority := j.priority + UInt32.ofNat 0 }) = j := by
    intro j
    split_ifs
    · rfl
    · simp
  simp only [same, map_id']

theorem addPositions_adds (job : DepJob) (i : Nat) (list : List DepJob) (p : Priorities) :
    Adds job p (addPositions job i (list.map energyDep) p) fun jobId => positions jobId i list := by
  induction list generalizing i p with
  | nil => exact Adds.refl job p
  | cons head rest ih =>
    rw [map_cons, addPositions, energyDep_job]
    by_cases own : head.jobId = job.jobId
    · have step := ih (i + 1) { p with priority := p.priority + i }
      rw [if_pos own]
      refine ⟨?_, ?_⟩
      · rw [step.1]
        dsimp only
        rw [positions_cons, if_pos own, Nat.cast_add, add_assoc]
      · rw [step.2]
        refine map_congr_left fun j _ => ?_
        split_ifs with isOwn
        · rfl
        · have notHead : head.jobId ≠ j.jobId := fun same => isOwn (same.symm.trans own)
          dsimp only
          rw [positions_cons, if_neg notHead, Nat.zero_add]
    · have step := ih (i + 1) { p with jobList := addPriority head.jobId i p.jobList }
      rw [if_neg own]
      refine ⟨?_, ?_⟩
      · rw [step.1]
        dsimp only
        rw [positions_cons, if_neg own, Nat.zero_add]
      · rw [step.2]
        dsimp only
        rw [addPriority, map_map]
        refine map_congr_left fun j _ => ?_
        rw [Function.comp_apply, positions_cons]
        by_cases isHead : j.jobId = head.jobId
        · have notOwn : j.jobId ≠ job.jobId := fun same => own (isHead.symm.trans same)
          rw [if_pos isHead]
          rw [if_neg notOwn, if_neg notOwn, if_pos isHead.symm, UInt32.ofNat_add, UInt32.add_assoc]
        · rw [if_neg isHead, if_neg (Ne.symm isHead), Nat.zero_add]

theorem positions_of_notMem {jobId : Nat} {list : List DepJob}
    (absent : jobId ∉ list.map DepJob.jobId) (i : Nat) : positions jobId i list = 0 := by
  induction list generalizing i with
  | nil => rfl
  | cons head rest ih =>
    obtain ⟨notHead, notRest⟩ := not_or.mp (mt mem_cons.mpr absent)
    rw [positions_cons, if_neg (Ne.symm notHead), ih notRest]

theorem positions_append (jobId i : Nat) (list others : List DepJob) :
    positions jobId i (list ++ others) =
      positions jobId i list + positions jobId (i + list.length) others := by
  induction list generalizing i with
  | nil => rw [nil_append, positions, length_nil, Nat.add_zero, Nat.zero_add]
  | cons head rest ih =>
    rw [cons_append, positions_cons, positions_cons, ih, length_cons, Nat.add_assoc,
      Nat.add_assoc, Nat.add_comm 1]

section Distinct

variable {list : List DepJob} (distinct : (list.map DepJob.jobId).Nodup)

include distinct

theorem positions_getElem (i k : Nat) (below : k < list.length) :
    positions list[k].jobId i list = i + k := by
  induction list generalizing i k with
  | nil => exact absurd below (Nat.not_lt_zero k)
  | cons head rest ih =>
    obtain ⟨notRest, distinctRest⟩ := nodup_cons.mp distinct
    rw [positions_cons]
    cases k with
    | zero =>
      rw [getElem_cons_zero, if_pos rfl, positions_of_notMem notRest]
    | succ k =>
      have belowRest : k < rest.length := Nat.lt_of_succ_lt_succ below
      have ne : head.jobId ≠ rest[k].jobId := fun same =>
        notRest (same ▸ mem_map_of_mem (getElem_mem _))
      rw [getElem_cons_succ, if_neg ne, ih distinctRest]
      omega

theorem positions_replicate_le (m i : Nat) {k l : Nat} (below : l < list.length) (le : k ≤ l) :
    positions list[k].jobId i (List.replicate m list).flatten ≤
      positions list[l].jobId i (List.replicate m list).flatten := by
  induction m generalizing i with
  | zero => exact le_rfl
  | succ m ih =>
    rw [replicate_succ, flatten_cons, positions_append, positions_append,
      positions_getElem distinct, positions_getElem distinct]
    exact Nat.add_le_add (Nat.add_le_add_left le i) (ih _)

theorem positions_replicate_lt (m i : Nat) {k l : Nat} (below : l < list.length) (lt : k < l) :
    positions list[k].jobId i (List.replicate (m + 1) list).flatten <
      positions list[l].jobId i (List.replicate (m + 1) list).flatten := by
  rw [replicate_succ, flatten_cons, positions_append, positions_append,
    positions_getElem distinct, positions_getElem distinct]
  exact Nat.add_lt_add_of_lt_of_le (Nat.add_lt_add_left lt i)
    (positions_replicate_le distinct m _ below lt.le)

end Distinct

/-! ## The order of the group -/

theorem cmpEnergyDep_energyDep (a b : DepJob) : cmpEnergyDep (energyDep a) (energyDep b) = 0 := by
  have zero : fcmpEnergyValues (energyDep a).info (energyDep b).info = 0 := by
    simp [fcmpEnergyValues, energyDep, EnergyInfo.blank, Double.ofNat, minDouble]
  rw [cmpEnergyDep, cmpEnergyValues, zero]
  rfl

theorem sortedDeps_eq (jobList : List DepJob) (job : DepJob) (dependList : List DependType) :
    sortedDeps jobList job dependList = (jList jobList job dependList).map energyDep := by
  refine qsort_of_pairwise (pairwise_map.mpr ?_)
  exact pairwise_of_forall fun a b => (cmpEnergyDep_energyDep a b).le

theorem jList_eq (jobList : List DepJob) (job : DepJob) (dependList : List DependType) :
    jList jobList job dependList =
      (List.replicate (dependList.count .plussingleton) (jobList.filter (linked job))).flatten := by
  induction dependList with
  | nil => rfl
  | cons dependType rest ih =>
    rw [jList, flatMap_cons, ← jList, ih]
    by_cases isPlus : dependType = .plussingleton
    · rw [if_pos isPlus, isPlus, count_cons_self, replicate_succ, flatten_cons]
    · rw [if_neg isPlus, count_cons_of_ne isPlus, nil_append]

/-- The group of a job, in the order of the job list. -/
structure Group where
  jobList : List DepJob
  job : DepJob
  distinctIds : (jobList.map DepJob.jobId).Nodup
  distinctValues : ((jobList.filter (linked job)).map DepJob.bestValue).Nodup
  two : 2 ≤ (jobList.filter (linked job)).length
  last : (jobList.filter (linked job)).getLast? = some job

namespace Group

def members (g : Group) : List DepJob := g.jobList.filter (linked g.job)

/-- The sum of the positions of a job in the sorted array. -/
def bonus (g : Group) (dependList : List DependType) (jobId : Nat) : Nat :=
  positions jobId 0 ((sortedDeps g.jobList g.job dependList).map EnergyDep.job)

variable (g : Group) (dependList : List DependType)

/-- The last job adds to each job a bonus that follows the energy scores; with one dependency it
is the position in their order. -/
structure RanksByScore : Prop where
  adds : ∀ priority, Adds g.job ⟨priority, g.jobList⟩
    (plusSingletonPriority ⟨priority, g.jobList⟩ g.job dependList) (g.bonus dependList)
  better : ∀ j ∈ g.members, ∀ k ∈ g.members, j.bestValue < k.bestValue →
    g.bonus dependList k.jobId < g.bonus dependList j.jobId
  position : dependList.count .plussingleton = 1 → ∀ j ∈ g.members,
    g.bonus dependList j.jobId = (g.members.filter fun k => j.bestValue < k.bestValue).length

variable {g dependList}

theorem bonus_eq_positions (g : Group) (dependList : List DependType) (jobId : Nat) :
    g.bonus dependList jobId = positions jobId 0 (jList g.jobList g.job dependList) := by
  have same : EnergyDep.job ∘ energyDep = id := rfl
  rw [bonus, sortedDeps_eq, map_map, same, map_id]

theorem plusSingletonPriority_adds (priority : ℚ) (linked_ : 0 < dependList.count .plussingleton) :
    Adds g.job ⟨priority, g.jobList⟩
      (plusSingletonPriority ⟨priority, g.jobList⟩ g.job dependList) (g.bonus dependList) := by
  obtain ⟨m, count⟩ := Nat.exists_eq_succ_of_ne_zero linked_.ne'
  have list := jList_eq g.jobList g.job dependList
  rw [count] at list
  have long : ¬(jList g.jobList g.job dependList).length ≤ 1 := by
    have two := g.two
    rw [list, replicate_succ, flatten_cons, length_append]
    omega
  have ends : (jList g.jobList g.job dependList).getLast?.map DepJob.jobId = some g.job.jobId := by
    rw [list, replicate_succ', flatten_append, flatten_singleton, getLast?_append, g.last]
    rfl
  rw [plusSingletonPriority, if_neg long, if_neg (not_not.mpr ends), sortedDeps_eq]
  have adds := addPositions_adds g.job 0 (jList g.jobList g.job dependList) ⟨priority, g.jobList⟩
  simp only [← bonus_eq_positions] at adds
  exact adds

theorem members_distinct (g : Group) : (g.members.map DepJob.jobId).Nodup :=
  g.distinctIds.sublist (filter_sublist.map _)

theorem bonus_lt (linked_ : 0 < dependList.count .plussingleton) {k l : Nat}
    (below : l < g.members.length) (lt : k < l) :
    g.bonus dependList g.members[k].jobId < g.bonus dependList g.members[l].jobId := by
  obtain ⟨m, count⟩ := Nat.exists_eq_succ_of_ne_zero linked_.ne'
  rw [bonus_eq_positions, bonus_eq_positions, jList_eq, count]
  exact positions_replicate_lt g.members_distinct m 0 below lt

theorem bonus_eq (once : dependList.count .plussingleton = 1) {k : Nat}
    (below : k < g.members.length) : g.bonus dependList g.members[k].jobId = k := by
  rw [bonus_eq_positions, jList_eq, once, replicate_one, flatten_singleton]
  exact (positions_getElem g.members_distinct 0 k below).trans (Nat.zero_add k)

/-- The jobs in front of one in a falling list are those with larger values. -/
theorem length_filter_of_falling {list : List DepJob}
    (falling : list.Pairwise fun a b => b.bestValue < a.bestValue) {k : Nat}
    (below : k < list.length) :
    (list.filter fun other => list[k].bestValue < other.bestValue).length = k := by
  have split : list = list.take k ++ list[k] :: list.drop (k + 1) := by
    rw [getElem_cons_drop, take_append_drop]
  obtain ⟨_, back, across⟩ := pairwise_append.mp (split ▸ falling)
  have front : (list.take k).filter (fun other => list[k].bestValue < other.bestValue) =
      list.take k :=
    filter_eq_self.mpr fun other mem =>
      decide_eq_true (across other mem _ mem_cons_self)
  have behind : (list[k] :: list.drop (k + 1)).filter
      (fun other => list[k].bestValue < other.bestValue) = [] := by
    refine filter_eq_nil_iff.mpr fun other mem => ?_
    rw [decide_eq_true_eq, not_lt]
    rcases mem_cons.mp mem with rfl | later
    · exact le_refl _
    · exact ((pairwise_cons.mp back).1 other later).le
  calc (list.filter fun other => list[k].bestValue < other.bestValue).length
      = ((list.take k ++ list[k] :: list.drop (k + 1)).filter
          fun other => list[k].bestValue < other.bestValue).length := by rw [← split]
    _ = k := by
        rw [filter_append, front, behind, append_nil, length_take, Nat.min_eq_left below.le]

/-- The bonus follows the scores exactly when the job list has the group in the order of
falling values already. -/
theorem ranksByScore_iff (g : Group) (dependList : List DependType)
    (linked_ : 0 < dependList.count .plussingleton) :
    g.RanksByScore dependList ↔ g.members.Pairwise fun a b => b.bestValue < a.bestValue := by
  constructor
  · intro ranks
    refine pairwise_iff_getElem.mpr fun k l belowK belowL lt => ?_
    have bonuses := @bonus_lt g dependList linked_ k l belowL lt
    rcases lt_trichotomy g.members[l].bestValue g.members[k].bestValue with less | same | more
    · exact less
    · have distinct : g.members.Pairwise fun a b => a.bestValue ≠ b.bestValue :=
        pairwise_map.mp g.distinctValues
      exact absurd same.symm (pairwise_iff_getElem.mp distinct k l belowK belowL lt)
    · have worse := ranks.better _ (getElem_mem belowK) _ (getElem_mem belowL) more
      exact absurd bonuses (Nat.not_lt.mpr worse.le)
  · intro falling
    refine ⟨fun priority => plusSingletonPriority_adds priority linked_,
      fun j inJ k inK less => ?_, fun once j inJ => ?_⟩
    · obtain ⟨a, belowA, rfl⟩ := getElem_of_mem inJ
      obtain ⟨b, belowB, rfl⟩ := getElem_of_mem inK
      rcases lt_trichotomy a b with before | rfl | behind
      · exact absurd less (not_lt.mpr (pairwise_iff_getElem.mp falling a b belowA belowB before).le)
      · exact absurd less (lt_irrefl _)
      · exact bonus_lt linked_ belowA behind
    · obtain ⟨a, belowA, rfl⟩ := getElem_of_mem inJ
      rw [bonus_eq once belowA, length_filter_of_falling falling belowA]

/-- Two jobs of a user with one name, with their values. -/
def pairOf (first second : ℚ) : List DepJob :=
  [⟨1, 500, some "step", first, 100⟩, ⟨2, 500, some "step", second, 100⟩]

/-- The job with the larger value comes first. -/
def fallingPair : Group where
  jobList := pairOf 5 4
  job := ⟨2, 500, some "step", 4, 100⟩
  distinctIds := by decide +kernel
  distinctValues := by decide +kernel
  two := by decide +kernel
  last := by decide +kernel

/-- The better job comes first. -/
def risingPair : Group where
  jobList := pairOf 4 5
  job := ⟨2, 500, some "step", 5, 100⟩
  distinctIds := by decide +kernel
  distinctValues := by decide +kernel
  two := by decide +kernel
  last := by decide +kernel

theorem fallingPair_ranks :
    fallingPair.RanksByScore [.plussingleton] ↔
      fallingPair.members.Pairwise fun a b => b.bestValue < a.bestValue :=
  ranksByScore_iff fallingPair [.plussingleton] (by decide)

/-- The job with the worse value is given the larger bonus. -/
theorem risingPair_not_ranked :
    (plusSingletonPriority ⟨100, risingPair.jobList⟩ risingPair.job [.plussingleton]).priority = 101 ∧
      risingPair.bonus [.plussingleton] 1 = 0 ∧ risingPair.bonus [.plussingleton] 2 = 1 ∧
      ¬risingPair.RanksByScore [.plussingleton] := by
  refine ⟨by decide +kernel, by decide +kernel, by decide +kernel, fun ranks => ?_⟩
  have worse := ranks.better ⟨1, 500, some "step", 4, 100⟩ (by decide +kernel)
    ⟨2, 500, some "step", 5, 100⟩ (by decide +kernel) (by decide +kernel)
  exact absurd worse (by decide +kernel)

end Group

end SlurmSim.Priority.PlusSingletonBonus
