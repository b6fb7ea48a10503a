import SlurmSim.Priority.EnergyOrder

/-!
# Repeated energy decisions

Every call of `getPriorityInternal` takes its time reference from the partition
that the call before put first. The decision is repeated unchanged when the
reference does not move with the order and no two partitions tie.
-/

namespace SlurmSim.Priority

open SlurmSim.Lib List

variable {D : Type} [Double D] {config : EnergyConfig D} {app : AppInfo D} {job : Job D}

/-! ## The projections of one call -/

/-- The energy library knows the machine of the partition. -/
def hasMachine (config : EnergyConfig D) (part : Part) : Bool :=
  getIModule config.lib part.name < config.lib.nModules

/-- The time parameter of the application on a partition, 0 without a model. -/
def timeParameterOf (config : EnergyConfig D) (app : AppInfo D) (part : Part) : D :=
  match findAppModel app (getIModule config.lib part.name) with
  | none => Double.ofNat 0
  | some model => model.timeParameter

/-- The reference that a call takes from the first partition with a machine. -/
def timeReference (config : EnergyConfig D) (app : AppInfo D) (parts : List Part) : D :=
  match parts.filter (hasMachine config) with
  | [] => Double.ofNat 0
  | first :: _ => timeParameterOf config app first

/-- The projection of one partition under a reference. -/
def projectFor (config : EnergyConfig D) (app : AppInfo D) (job : Job D) (reference : D)
    (part : Part) : EnergyInfo D :=
  match findAppModel app (getIModule config.lib part.name) with
  | none => EnergyInfo.blank part
  | some model =>
    projectModel config model (getIModule config.lib part.name) reference job part

theorem projectFor_part (reference : D) (part : Part) :
    (projectFor config app job reference part).part = part := by
  unfold projectFor
  split <;> rfl

theorem getBestProjection_zero (part : Part) :
    getBestProjection config app (getIModule config.lib part.name) (Double.ofNat 0) 0 job part =
      (timeParameterOf config app part,
        projectFor config app job (timeParameterOf config app part) part) := by
  cases found : findAppModel app (getIModule config.lib part.name) with
  | none => simp only [getBestProjection, timeParameterOf, projectFor, found]
  | some model => simp only [getBestProjection, timeParameterOf, projectFor, found, if_pos]

theorem getBestProjection_succ (timeProportion : D) (idx : Nat) (part : Part) :
    getBestProjection config app (getIModule config.lib part.name) timeProportion (idx + 1) job
        part =
      (timeProportion, projectFor config app job timeProportion part) := by
  cases found : findAppModel app (getIModule config.lib part.name) with
  | none => simp only [getBestProjection, projectFor, found]
  | some model => simp [getBestProjection, projectFor, found]

theorem projectParts_cons_of_not {part : Part} (missing : hasMachine config part = false)
    (rest : List Part) (j : Nat) (timeProportion : D) :
    projectParts config app job (part :: rest) j timeProportion =
      projectParts config app job rest j timeProportion := by
  have bound := Nat.not_lt.mp (of_decide_eq_false missing)
  simp only [projectParts, if_pos bound]

theorem projectParts_cons_of {part : Part} (known : hasMachine config part = true)
    (rest : List Part) (j : Nat) (timeProportion : D) :
    projectParts config app job (part :: rest) j timeProportion =
      (getBestProjection config app (getIModule config.lib part.name) timeProportion j job part).2 ::
        projectParts config app job rest (j + 1)
          (getBestProjection config app (getIModule config.lib part.name) timeProportion j job
            part).1 := by
  have bound := Nat.not_le.mpr (of_decide_eq_true known)
  simp only [projectParts, if_neg bound]

theorem projectParts_succ (parts : List Part) (j : Nat) (reference : D) :
    projectParts config app job parts (j + 1) reference =
      (parts.filter (hasMachine config)).map (projectFor config app job reference) := by
  induction parts generalizing j with
  | nil => rfl
  | cons part rest ih =>
    cases known : hasMachine config part with
    | false =>
      rw [projectParts_cons_of_not known, filter_cons_of_neg (by simp [known]), ih]
    | true =>
      rw [projectParts_cons_of known, getBestProjection_succ,
        filter_cons_of_pos known, map_cons, ih]

theorem projectParts_zero (parts : List Part) :
    projectParts config app job parts 0 (Double.ofNat 0) = (parts.filter (hasMachine config)).map
        (projectFor config app job (timeReference config app parts)) := by
  induction parts with
  | nil => rfl
  | cons part rest ih =>
    cases known : hasMachine config part with
    | false =>
      have same : timeReference config app (part :: rest) = timeReference config app rest := by
        rw [timeReference, timeReference, filter_cons_of_neg (by simp [known])]
      rw [projectParts_cons_of_not known, same, filter_cons_of_neg (by simp [known]), ih]
    | true =>
      have reference : timeReference config app (part :: rest) =
          timeParameterOf config app part := by
        rw [timeReference, filter_cons_of_pos known]
      rw [projectParts_cons_of known, getBestProjection_zero, reference,
        filter_cons_of_pos known, map_cons, projectParts_succ]

/-! ## When the order is settled -/

/-- Under a reference the first partition scores better than the second. -/
def Beats (config : EnergyConfig D) (app : AppInfo D) (job : Job D) (reference : D)
    (p q : Part) : Prop :=
  0 < cmpEnergyValues (projectFor config app job reference p)
    (projectFor config app job reference q)

instance (reference : D) (p q : Part) : Decidable (Beats config app job reference p q) :=
  inferInstanceAs (Decidable (0 < cmpEnergyValues _ _))

/-- The partitions that a call ranks. -/
def rankedParts (config : EnergyConfig D) (job : Job D) : List Part :=
  job.partPtrList.filter (hasMachine config)

/-- Under the reference of the partition that stands first, of two partitions
exactly one is better, no three form a cycle, and the best of all has the time
parameter of the one that stands first. -/
structure SettledOrder (config : EnergyConfig D) (app : AppInfo D) (job : Job D) : Prop where
  decided : ∀ p ∈ rankedParts config job, ∀ q ∈ rankedParts config job, p ≠ q →
    Beats config app job (timeReference config app job.partPtrList) p q ∨
      Beats config app job (timeReference config app job.partPtrList) q p
  asymm : ∀ p ∈ rankedParts config job, ∀ q ∈ rankedParts config job,
    Beats config app job (timeReference config app job.partPtrList) p q →
      ¬ Beats config app job (timeReference config app job.partPtrList) q p
  trans : ∀ p ∈ rankedParts config job, ∀ q ∈ rankedParts config job,
    ∀ r ∈ rankedParts config job,
    Beats config app job (timeReference config app job.partPtrList) p q →
      Beats config app job (timeReference config app job.partPtrList) q r →
      Beats config app job (timeReference config app job.partPtrList) p r
  reference : ∀ p ∈ rankedParts config job,
    (∀ q ∈ rankedParts config job, q ≠ p →
      Beats config app job (timeReference config app job.partPtrList) p q) →
    timeParameterOf config app p = timeReference config app job.partPtrList

/-- No decision is made, or the list is not reordered, or its order is settled. -/
def Settled (config : EnergyConfig D) (job : Job D) : Prop :=
  (job.directSetPrio = true ∧ 0 < job.priority) ∨ job.minNodes = none ∨
    config.useEnergyPrediction = false ∨
    ∀ app, config.apps.find? (fun app => app.appId = job.appId) = some app →
      SettledOrder config app job

/-- The result of a number of calls with the same clock and the same library. -/
def recomputed (config : EnergyConfig D) : Nat → Job D → Option (Job D)
  | 0, job => some job
  | n + 1, job => (recomputed config n job).bind (getPriorityInternal config)

namespace SettledOrder

/-- The projections of the ranked partitions under the present reference. -/
def Ranked (config : EnergyConfig D) (app : AppInfo D) (job : Job D) (info : EnergyInfo D) : Prop :=
  ∃ p ∈ rankedParts config job,
    projectFor config app job (timeReference config app job.partPtrList) p = info

theorem beats_of_not (settled : SettledOrder config app job) {p q : Part}
    (inP : p ∈ rankedParts config job) (inQ : q ∈ rankedParts config job) (apart : p ≠ q)
    (notBeats : ¬ Beats config app job (timeReference config app job.partPtrList) p q) :
    Beats config app job (timeReference config app job.partPtrList) q p :=
  (settled.decided p inP q inQ apart).resolve_left notBeats

theorem orders (settled : SettledOrder config app job) :
    Orders cmpEnergyValues (Ranked config app job) := by
  constructor
  · rintro _ _ ⟨p, inP, rfl⟩ ⟨q, inQ, rfl⟩ better
    exact Int.not_lt.mp (settled.asymm p inP q inQ better)
  · rintro _ _ _ ⟨p, inP, rfl⟩ ⟨q, inQ, rfl⟩ ⟨r, inR, rfl⟩ first second
    by_cases samePQ : p = q
    · exact samePQ ▸ second
    · by_cases sameQR : q = r
      · exact sameQR ▸ first
      · have better := settled.trans r inR q inQ p inP
          (settled.beats_of_not inQ inR sameQR (Int.not_lt.mpr second))
          (settled.beats_of_not inP inQ samePQ (Int.not_lt.mpr first))
        exact Int.not_lt.mp (settled.asymm r inR p inP better)

theorem strict (settled : SettledOrder config app job) (a b : EnergyInfo D)
    (rankedA : Ranked config app job a) (rankedB : Ranked config app job b)
    (first : cmpEnergyValues a b ≤ 0) (second : cmpEnergyValues b a ≤ 0) : a = b := by
  obtain ⟨p, inP, rfl⟩ := rankedA
  obtain ⟨q, inQ, rfl⟩ := rankedB
  by_cases same : p = q
  · rw [same]
  · exact absurd (settled.beats_of_not inP inQ same (Int.not_lt.mpr first)) (Int.not_lt.mpr second)

/-- The array of one call after it was sorted, worst first. -/
def sortedInfos (config : EnergyConfig D) (app : AppInfo D) (job : Job D) :
    List (EnergyInfo D) :=
  qsort cmpEnergyValues (projectParts config app job job.partPtrList 0 (Double.ofNat 0))

variable {info : EnergyInfo D}

theorem ranked_of_mem
    (mem : info ∈ projectParts config app job job.partPtrList 0 (Double.ofNat 0)) :
    Ranked config app job info := by
  rw [projectParts_zero, mem_map] at mem
  exact mem

theorem ranked_of_sorted (mem : info ∈ sortedInfos config app job) :
    Ranked config app job info :=
  ranked_of_mem (mem_qsort.mp mem)

theorem mem_rankedParts (ranked : Ranked config app job info) :
    info.part ∈ rankedParts config job := by
  obtain ⟨p, inP, rfl⟩ := ranked
  rw [projectFor_part]
  exact inP

theorem projectFor_ranked (ranked : Ranked config app job info) :
    projectFor config app job (timeReference config app job.partPtrList) info.part = info := by
  obtain ⟨p, -, rfl⟩ := ranked
  rw [projectFor_part]

/-- The projection at the end of the sorted array beats all others. -/
theorem beats_of_last (settled : SettledOrder config app job) {front : List (EnergyInfo D)}
    {last : EnergyInfo D} (shape : sortedInfos config app job = front ++ [last])
    {q : Part} (inQ : q ∈ rankedParts config job) (apart : q ≠ last.part) :
    Beats config app job (timeReference config app job.partPtrList) last.part q := by
  have sorted : (sortedInfos config app job).Pairwise fun a b => cmpEnergyValues a b ≤ 0 :=
    settled.orders.qsort_pairwise fun a mem => ranked_of_mem mem
  have ranked : Ranked config app job last :=
    ranked_of_sorted (shape ▸ mem_append_right _ mem_cons_self)
  have inSorted : projectFor config app job (timeReference config app job.partPtrList) q ∈
      sortedInfos config app job := by
    rw [sortedInfos, mem_qsort, projectParts_zero]
    exact mem_map_of_mem inQ
  rw [shape, mem_append, mem_singleton] at inSorted
  rw [shape, pairwise_append] at sorted
  rcases inSorted with inFront | isLast
  · have below := sorted.2.2 _ inFront last mem_cons_self
    rw [← projectFor_ranked ranked] at below
    exact settled.beats_of_not inQ (mem_rankedParts ranked) apart (Int.not_lt.mpr below)
  · exact absurd (isLast ▸ projectFor_part _ _).symm apart

theorem filter_rebuilt :
    ((sortedInfos config app job).reverse.map EnergyInfo.part).filter (hasMachine config) =
      (sortedInfos config app job).reverse.map EnergyInfo.part := by
  refine filter_eq_self.mpr ?_
  intro part mem
  obtain ⟨info, inSorted, rfl⟩ := mem_map.mp mem
  have ranked := mem_rankedParts (ranked_of_sorted (mem_reverse.mp inSorted))
  exact (mem_filter.mp ranked).2

theorem timeReference_rebuilt (settled : SettledOrder config app job)
    (some : sortedInfos config app job ≠ []) :
    timeReference config app ((sortedInfos config app job).reverse.map EnergyInfo.part) =
      timeReference config app job.partPtrList := by
  have shape := (dropLast_append_getLast some).symm
  have ranked : Ranked config app job ((sortedInfos config app job).getLast some) :=
    ranked_of_sorted (getLast_mem some)
  have first : (sortedInfos config app job).reverse.map EnergyInfo.part =
      ((sortedInfos config app job).getLast some).part ::
        (sortedInfos config app job).dropLast.reverse.map EnergyInfo.part := by
    conv_lhs => rw [shape]
    rw [reverse_append, reverse_singleton, singleton_append, map_cons]
  have moved : timeReference config app ((sortedInfos config app job).reverse.map EnergyInfo.part) =
      timeParameterOf config app ((sortedInfos config app job).getLast some).part := by
    rw [timeReference, filter_rebuilt, first]
  rw [moved]
  exact settled.reference _ (mem_rankedParts ranked)
    fun q inQ apart => settled.beats_of_last shape inQ apart

theorem projectParts_rebuilt (settled : SettledOrder config app job) :
    projectParts config app job ((sortedInfos config app job).reverse.map EnergyInfo.part) 0
      (Double.ofNat 0) = (sortedInfos config app job).reverse := by
  by_cases some : sortedInfos config app job = []
  · rw [some]
    rfl
  · have same : ∀ info ∈ (sortedInfos config app job).reverse,
        (projectFor config app job (timeReference config app job.partPtrList) ∘ EnergyInfo.part)
          info = info :=
      fun info mem => projectFor_ranked (ranked_of_sorted (mem_reverse.mp mem))
    rw [projectParts_zero, filter_rebuilt, settled.timeReference_rebuilt some, map_map,
      map_congr_left same, map_id'']
    exact fun _ => rfl

theorem qsort_rebuilt (settled : SettledOrder config app job) :
    qsort cmpEnergyValues (sortedInfos config app job).reverse = sortedInfos config app job := by
  refine settled.orders.qsort_eq_of_perm settled.strict ?_ ?_
  · exact fun a mem => ranked_of_sorted (mem_reverse.mp mem)
  · exact (reverse_perm _).trans (qsort_perm _)

end SettledOrder

/-! ## Repeated calls -/

/-- The job with another partition list and other choices. -/
def Job.withParts (job : Job D) (parts : List Part) (choices : List (EnergyChoice D)) : Job D :=
  { job with partPtrList := parts, choices := choices }

theorem projectParts_withParts (parts : List Part) (choices : List (EnergyChoice D)) :
    projectParts config app (job.withParts parts choices) parts 0 (Double.ofNat 0) =
      projectParts config app job parts 0 (Double.ofNat 0) := by
  rw [projectParts_zero, projectParts_zero]
  rfl

/-- The partition list that a call leaves. -/
def partsAfter (config : EnergyConfig D) (app : AppInfo D) (job : Job D) : List Part :=
  if config.useEnergyPrediction then
    (SettledOrder.sortedInfos config app job).reverse.map EnergyInfo.part
  else job.partPtrList

/-- The job that a call leaves. -/
def decisionFor (config : EnergyConfig D) (app : AppInfo D) (minNodes : Nat) (job : Job D) : Job D :=
  job.withParts (partsAfter config app job) ((partsAfter config app job).map
    (chooseFor config minNodes (SettledOrder.sortedInfos config app job)))

theorem getPriorityInternal_skips
    (skips : (job.directSetPrio = true ∧ 0 < job.priority) ∨ job.minNodes = none) :
    getPriorityInternal config job = some job := by
  unfold getPriorityInternal
  split
  · rfl
  · rename_i decides
    rcases skips with direct | missing
    · exact absurd (by simpa using direct) decides
    · rw [missing]

theorem getPriorityInternal_decides {minNodes : Nat}
    (decides : ¬ (job.directSetPrio = true ∧ 0 < job.priority))
    (details : job.minNodes = some minNodes) :
    getPriorityInternal config job = (config.apps.find? fun app => app.appId = job.appId).map
        fun app => decisionFor config app minNodes job := by
  unfold getPriorityInternal
  split
  · rename_i direct
    exact absurd (by simpa using direct) decides
  · cases job
    cases details
    cases config.apps.find? _ with
    | none => rfl
    | some app => rfl

/-- A decision that does not reorder, or is settled, is found again. -/
theorem decisionFor_again {minNodes : Nat}
    (settled : config.useEnergyPrediction = false ∨ SettledOrder config app job) :
    decisionFor config app minNodes (decisionFor config app minNodes job) =
      decisionFor config app minNodes job := by
  have sorted : SettledOrder.sortedInfos config app (decisionFor config app minNodes job) =
      SettledOrder.sortedInfos config app job := by
    change qsort cmpEnergyValues (projectParts config app (job.withParts _ _)
      (partsAfter config app job) 0 (Double.ofNat 0)) = _
    rw [projectParts_withParts]
    cases use : config.useEnergyPrediction with
    | false =>
      rw [partsAfter, use]
      rfl
    | true =>
      have order : SettledOrder config app job :=
        settled.resolve_left (by simp [use])
      rw [partsAfter, use, if_pos rfl, order.projectParts_rebuilt, order.qsort_rebuilt]
  have parts : partsAfter config app (decisionFor config app minNodes job) =
      partsAfter config app job := by
    cases use : config.useEnergyPrediction with
    | false =>
      rw [partsAfter, use]
      rfl
    | true => rw [partsAfter, partsAfter, use, sorted, if_pos rfl, if_pos rfl]
  rw [decisionFor, parts, sorted]
  rfl

theorem getPriorityInternal_again {after : Job D} (settled : Settled config job)
    (called : getPriorityInternal config job = some after) :
    getPriorityInternal config after = some after := by
  by_cases skips : (job.directSetPrio = true ∧ 0 < job.priority) ∨ job.minNodes = none
  · have kept : getPriorityInternal config job = some job := getPriorityInternal_skips skips
    rw [kept, Option.some.injEq] at called
    rw [← called, kept]
  · obtain ⟨decides, present⟩ := not_or.mp skips
    obtain ⟨minNodes, details⟩ := Option.ne_none_iff_exists'.mp present
    rw [getPriorityInternal_decides decides details, Option.map_eq_some_iff] at called
    obtain ⟨app, found, rfl⟩ := called
    have order : config.useEnergyPrediction = false ∨ SettledOrder config app job := by
      rcases settled with direct | missing | off | order
      · exact absurd direct decides
      · exact absurd missing present
      · exact Or.inl off
      · exact Or.inr (order app found)
    have sameApp : config.apps.find? (fun other =>
        other.appId = (decisionFor config app minNodes job).appId) = some app := found
    have again := @getPriorityInternal_decides D _ config (decisionFor config app minNodes job)
      minNodes decides details
    rw [again, sameApp, Option.map_some, decisionFor_again order]

/-- A library of two machines of one frequency. The run time of a model is the
first field of its trace, the booster needs a tenth of the energy. -/
def twoMachines : EnergyLib ℚ where
  nModules := 2
  machineName iModule := if iModule = 0 then some "cluster" else some "booster"
  nFreqs _ := 1
  nFreqs_pos _ := Nat.one_pos
  frequenciesRange _ _ := 2
  energyProjection iModule _ _ := if iModule = 0 then 1000 else 100
  timeProjection _ trace _ := trace.headD 0

/-- An application whose time parameters on cluster and booster are given. -/
def twoMachinesConfig (cluster booster : ℚ) : EnergyConfig ℚ where
  lib := twoMachines
  apps := [⟨7, [⟨0, cluster, []⟩, ⟨1, booster, []⟩]⟩]
  useEnergyPrediction := true

/-- A job of one hour that was submitted to the cluster first. -/
def hourJob : Job ℚ where
  directSetPrio := false
  priority := 1
  minNodes := some 1
  appId := 7
  timeLimit := 60
  duration := 1800
  partPtrList := [⟨"cluster"⟩, ⟨"booster"⟩]
  choices := []

theorem hourJob_settled : Settled (twoMachinesConfig 1 1) hourJob := by
  refine Or.inr (Or.inr (Or.inr ?_))
  intro app found
  obtain rfl : ⟨7, [⟨0, 1, []⟩, ⟨1, 1, []⟩]⟩ = app := Option.some.inj found
  exact ⟨by decide +kernel, by decide +kernel, by decide +kernel, by decide +kernel⟩

end SlurmSim.Priority
