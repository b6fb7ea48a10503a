import Mathlib.Algebra.Order.BigOperators.Group.Finset
import SlurmSim.Controller.AcctPolicy
import SlurmSim.Lib.Sums

/-!
# Runs of the usage counters

A job is charged to its own QOS and to the QOSs of the partitions in which it may run or
runs, and to its association with all parents.  When it begins, the QOSs of its other
partitions are given back one count for each of these partitions, which is the charge of
the job only if that number is its number of tasks.
-/

namespace SlurmSim.Controller.AcctPolicy

open List

/-! ## What jobs are charged to -/

/-- The partitions in which the job may run, or the one in which it runs. -/
def Job.openPartitions (job : Job) : List Nat :=
  if job.tresAllocStr then job.partPtr.toList else job.partitions

namespace Accounts

variable (acc : Accounts)

def qosCharged (job : Job) : List Nat :=
  job.qosPtr.toList ++ job.openPartitions.filterMap acc.partQos

/-- The counter is one of the job's for some QOSs. -/
def CountsIn (job : Job) (qos : List Nat) (c : Counter) : Prop :=
  ∃ assoc, job.assocPtr = some assoc ∧
    match c with
    | .qos q => q ∈ qos
    | .user q uid => q ∈ qos ∧ uid = job.userId
    | .acct q name => q ∈ qos ∧ name = acc.acct assoc
    | .assoc a => a ∈ acc.assocs assoc

/-- The job is charged to the counter. -/
def Charges (job : Job) (c : Counter) : Prop := acc.CountsIn job (acc.qosCharged job) c

open Classical in
/-- The tasks of a job that a counter counts as submitted. -/
noncomputable def submitOf (c : Counter) (job : Job) : Nat :=
  if acc.Charges job c then job.taskCnt else 0

open Classical in
noncomputable def jobOf (c : Counter) (job : Job) : Nat :=
  if acc.Charges job c then 1 else 0

open Classical in
noncomputable def tresOf (c : Counter) (i : Nat) (job : Job) : Nat :=
  if acc.Charges job c ∧ acc.counted i = true then (job.tresAllocCnt.getD fun _ => 0) i else 0

variable (s : State)

noncomputable def submitSum (c : Counter) : Nat := ∑ id ∈ s.live, acc.submitOf c (s.job id)

noncomputable def jobSum (c : Counter) : Nat := ∑ id ∈ s.running, acc.jobOf c (s.job id)

noncomputable def tresSum (c : Counter) (i : Nat) : Nat :=
  ∑ id ∈ s.running, acc.tresOf c i (s.job id)

/-- Every counter is the sum over the jobs that are charged to it, and no message about an
underflow was written. -/
structure Exact : Prop where
  submitJobs : ∀ c, (s.usage.limits c).submitJobs = acc.submitSum s c
  jobs : ∀ c, (s.usage.limits c).jobs = acc.jobSum s c
  tres : ∀ c i, (s.usage.limits c).tres i = acc.tresSum s c i
  quiet : s.usage.underflow = false

/-- The sums are in the range of the counters. -/
structure Fits : Prop where
  submitJobs : ∀ c, acc.submitSum s c < 2 ^ 32
  jobs : ∀ c, acc.jobSum s c < 2 ^ 31
  tres : ∀ c i, acc.tresSum s c i < 2 ^ 64

end Accounts

/-- What the records of the jobs say about their stages. -/
structure State.Orderly (s : State) : Prop where
  live : s.running ⊆ s.live
  begun : ∀ id ∈ s.running, (s.job id).tresAllocStr = true
  allocated : ∀ id ∈ s.running, (s.job id).tresAllocCnt.isSome = true
  waits : ∀ id ∈ s.live, (s.job id).tresAllocStr = true → (s.job id).pending = false

/-! ## Lists of counters -/

namespace Accounts

variable {acc : Accounts} {type : PolicyType} {job : Job} {jobCnt assoc : Nat}

theorem foldl_adjustCounter {counters : List Counter} (nodup : counters.Nodup) :
    ∀ u : Usage, (∀ c, (counters.foldl (acc.adjustCounter type job jobCnt) u).limits c =
        if c ∈ counters then (acc.adjust type job jobCnt c (u.limits c)).1 else u.limits c) ∧
      ((counters.foldl (acc.adjustCounter type job jobCnt) u).underflow = false ↔
        u.underflow = false ∧
          ∀ c ∈ counters, (acc.adjust type job jobCnt c (u.limits c)).2 = false) := by
  induction counters with
  | nil =>
    simp
  | cons first rest ih =>
    intro u
    obtain ⟨fresh, nodup⟩ := nodup_cons.mp nodup
    obtain ⟨limits, underflow⟩ := ih nodup (acc.adjustCounter type job jobCnt u first)
    have others : ∀ c, c ≠ first →
        (acc.adjustCounter type job jobCnt u first).limits c = u.limits c :=
      fun c apart => Function.update_of_ne apart _ _
    refine ⟨fun c => ?_, ?_⟩
    · rw [foldl_cons, limits]
      by_cases same : c = first
      · subst same
        rw [if_neg fresh, if_pos mem_cons_self]
        exact Function.update_self _ _ _
      · rw [others c same]
        simp only [mem_cons, same, false_or]
    · rw [foldl_cons, underflow]
      have head : (acc.adjustCounter type job jobCnt u first).underflow = false ↔
          u.underflow = false ∧ (acc.adjust type job jobCnt first (u.limits first)).2 = false := by
        simp only [adjustCounter, Bool.or_eq_false_iff]
      rw [head, forall_mem_cons, and_assoc]
      have tail : (∀ c ∈ rest, (acc.adjust type job jobCnt c
            ((acc.adjustCounter type job jobCnt u first).limits c)).2 = false) ↔
          ∀ c ∈ rest, (acc.adjust type job jobCnt c (u.limits c)).2 = false := by
        refine forall₂_congr fun c mem => ?_
        rw [others c (ne_of_mem_of_not_mem mem fresh)]
      rw [tail]

/-- The counters of a job for some QOSs. -/
def countersIn (acc : Accounts) (job : Job) (assoc : Nat) (qos : List Nat) : List Counter :=
  qos.flatMap (acc.qosCounters job assoc) ++ (acc.assocs assoc).map .assoc

theorem foldl_qosAdjustLimitUsage (has : job.assocPtr = some assoc) (qos : List Nat) (u : Usage) :
    (qos.map some).foldl (acc.qosAdjustLimitUsage type job jobCnt) u =
      (qos.flatMap (acc.qosCounters job assoc)).foldl (acc.adjustCounter type job jobCnt) u := by
  rw [foldl_map, foldl_flatMap]
  simp only [qosAdjustLimitUsage, has]

theorem assocChain_depth {steps : Nat} : ∀ {assoc a : Nat}, a ∈ acc.assocChain steps assoc →
    acc.depth a ≤ acc.depth assoc := by
  induction steps with
  | zero =>
    intro assoc a mem
    cases mem
  | succ steps ih =>
    intro assoc a mem
    rw [assocChain] at mem
    cases above : acc.parentAssocPtr assoc with
    | none =>
      rw [above, mem_singleton] at mem
      rw [mem]
    | some parent =>
      rw [above, mem_cons] at mem
      rcases mem with rfl | further
      · exact le_rfl
      · exact Nat.le_of_lt (Nat.lt_of_le_of_lt (ih further) (acc.depth_lt above))

theorem assocChain_nodup {steps : Nat} : ∀ {assoc : Nat}, (acc.assocChain steps assoc).Nodup := by
  induction steps with
  | zero =>
    exact nodup_nil
  | succ steps ih =>
    intro assoc
    rw [assocChain]
    cases above : acc.parentAssocPtr assoc with
    | none => exact nodup_singleton _
    | some parent =>
      refine nodup_cons.mpr ⟨fun mem => ?_, ih⟩
      exact absurd (assocChain_depth mem) (Nat.not_le.mpr (acc.depth_lt above))

theorem qosCounters_nodup (q : Nat) : (acc.qosCounters job assoc q).Nodup := by
  simp [qosCounters]

variable {c : Counter} {qos : List Nat}

theorem mem_qosCounters {q : Nat} :
    c ∈ acc.qosCounters job assoc q ↔
      c = .qos q ∨ c = .user q job.userId ∨ c = .acct q (acc.acct assoc) := by
  simp [qosCounters]

theorem flatMap_qosCounters_nodup (nodup : qos.Nodup) :
    (qos.flatMap (acc.qosCounters job assoc)).Nodup := by
  refine nodup_flatMap.mpr ⟨fun q _ => qosCounters_nodup q, nodup.imp ?_⟩
  intro q q' apart c left right
  rw [mem_qosCounters] at left right
  rcases left with rfl | rfl | rfl <;> simp_all

theorem mem_flatMap_qosCounters :
    c ∈ qos.flatMap (acc.qosCounters job assoc) ↔
      match c with
      | .qos q => q ∈ qos
      | .user q uid => q ∈ qos ∧ uid = job.userId
      | .acct q name => q ∈ qos ∧ name = acc.acct assoc
      | .assoc _ => False := by
  cases c <;> simp [mem_flatMap, mem_qosCounters]

theorem countersIn_nodup (nodup : qos.Nodup) : (acc.countersIn job assoc qos).Nodup := by
  refine nodup_append.mpr ⟨flatMap_qosCounters_nodup nodup, ?_, ?_⟩
  · exact assocChain_nodup.map fun _ _ same => Counter.assoc.inj same
  · rintro c left _ right rfl
    obtain ⟨a, _, rfl⟩ := mem_map.mp right
    exact mem_flatMap_qosCounters.mp left

theorem countsIn_iff (has : job.assocPtr = some assoc) {qos : List Nat} {c : Counter} :
    acc.CountsIn job qos c ↔
      match c with
      | .qos q => q ∈ qos
      | .user q uid => q ∈ qos ∧ uid = job.userId
      | .acct q name => q ∈ qos ∧ name = acc.acct assoc
      | .assoc a => a ∈ acc.assocs assoc := by
  unfold CountsIn
  rw [has]
  simp only [Option.some.injEq, exists_eq_left']

theorem mem_countersIn (has : job.assocPtr = some assoc) :
    c ∈ acc.countersIn job assoc qos ↔ acc.CountsIn job qos c := by
  rw [countsIn_iff has, countersIn, mem_append, mem_flatMap_qosCounters]
  cases c <;> simp

/-! ## The QOSs of a call -/

theorem mem_partQosList {parts : List Nat} : ∀ {seen : List Nat} {q : Nat},
    q ∈ acc.partQosList seen parts ↔ q ∉ seen ∧ q ∈ parts.filterMap acc.partQos := by
  induction parts with
  | nil =>
    simp [partQosList]
  | cons part rest ih =>
    intro seen q
    rw [partQosList]
    cases own : acc.partQos part with
    | none => simp [own, ih]
    | some first =>
      by_cases known : first ∈ seen
      · simp only [if_pos known, ih, own, filterMap_cons, mem_cons]
        constructor
        · exact fun ⟨fresh, inside⟩ => ⟨fresh, Or.inr inside⟩
        · rintro ⟨fresh, rfl | inside⟩
          · exact absurd known fresh
          · exact ⟨fresh, inside⟩
      · simp only [if_neg known, ih, own, filterMap_cons, mem_cons, not_or]
        by_cases same : q = first
        · simp [same, known]
        · simp [same]

theorem partQosList_nodup {parts : List Nat} : ∀ {seen : List Nat},
    (acc.partQosList seen parts).Nodup := by
  induction parts with
  | nil =>
    exact nodup_nil
  | cons part rest ih =>
    intro seen
    rw [partQosList]
    cases acc.partQos part with
    | none => exact ih
    | some first =>
      dsimp only
      split_ifs with known
      · exact ih
      · refine nodup_cons.mpr ⟨fun mem => ?_, ih⟩
        exact (mem_partQosList.mp mem).1 mem_cons_self

theorem submitQos_spec (parts : List Nat) :
    (acc.submitQos job parts).Nodup ∧ ∀ q, q ∈ acc.submitQos job parts ↔
        q ∈ job.qosPtr.toList ++ parts.filterMap acc.partQos := by
  unfold submitQos
  cases own : job.qosPtr with
  | none => exact ⟨partQosList_nodup, fun q => by simp [mem_partQosList]⟩
  | some qos =>
    dsimp only
    split_ifs with first listed
    · refine ⟨nodup_cons.mpr ⟨fun inside => ?_, partQosList_nodup⟩, fun q => ?_⟩
      · exact (mem_partQosList.mp inside).1 (mem_singleton_self _)
      · by_cases same : q = qos
        · simp [same]
        · simp [same, mem_partQosList]
    · refine ⟨partQosList_nodup, fun q => ?_⟩
      have among := (mem_partQosList.mp listed).2
      by_cases same : q = qos
      · simpa [same, mem_partQosList] using among
      · simp [same, mem_partQosList]
    · refine ⟨nodup_append.mpr ⟨partQosList_nodup, nodup_singleton _, ?_⟩, fun q => ?_⟩
      · rintro q inside _ single rfl
        rw [mem_singleton] at single
        exact listed (single ▸ inside)
      · simp only [mem_append, mem_partQosList, mem_singleton, Option.mem_toList]
        constructor
        · rintro (inside | rfl)
          · exact Or.inr inside.2
          · exact Or.inl rfl
        · rintro (same | inside)
          · exact Or.inr (Option.some.inj same).symm
          · exact Or.inl ⟨not_mem_nil, inside⟩

/-- The one or two QOSs of `_set_qos_order`. -/
def pairQos (acc : Accounts) (job : Job) : List Nat :=
  (acc.setQosOrder job).1.toList ++ (acc.setQosOrder job).2.toList

theorem pairQos_spec :
    (acc.pairQos job).Nodup ∧
      ∀ q, q ∈ acc.pairQos job ↔ q ∈ job.qosPtr.toList ++ (acc.ownPartQos job).toList := by
  unfold pairQos setQosOrder
  cases job.qosPtr with
  | none => cases acc.ownPartQos job <;> simp
  | some qos =>
    cases acc.ownPartQos job with
    | none => simp
    | some partQos =>
      by_cases high : acc.overPartQos qos
      · by_cases same : qos = partQos <;> simp [high, same]
      · by_cases same : partQos = qos
        · simp [high, same]
        · simp only [high, same, Bool.false_eq_true, if_false, Option.toList_some, singleton_append]
          refine ⟨by simp [same], fun q => ?_⟩
          simp [or_comm]

/-- The QOSs that a call adjusts by its own count. -/
def callQos (acc : Accounts) (type : PolicyType) (job : Job) : List Nat :=
  match job.partPtrList with
  | some parts => if job.handlesList type then acc.submitQos job parts else acc.pairQos job
  | none => acc.pairQos job

theorem callQos_nodup : (acc.callQos type job).Nodup := by
  unfold callQos
  cases job.partPtrList with
  | none => exact pairQos_spec.1
  | some parts =>
    split_ifs
    · exact (submitQos_spec parts).1
    · exact pairQos_spec.1

theorem mem_callQos (waits : job.tresAllocStr = true → job.pending = false)
    (runs : type = .jobBegin ∨ type = .jobFini → job.tresAllocStr = true) (q : Nat) :
    q ∈ acc.callQos type job ↔ q ∈ acc.qosCharged job := by
  have pair : job.openPartitions = job.partPtr.toList →
      (q ∈ acc.pairQos job ↔ q ∈ acc.qosCharged job) := by
    intro only
    rw [pairQos_spec.2, qosCharged, only, ownPartQos]
    cases job.partPtr with
    | none => rfl
    | some part => cases own : acc.partQos part <;> simp [own]
  unfold callQos
  cases list : job.partPtrList with
  | none =>
    refine pair ?_
    simp [Job.openPartitions, Job.partitions, list]
  | some parts =>
    dsimp only
    by_cases begun : job.tresAllocStr = true
    · rw [if_neg (by simp [Job.handlesList, begun, waits begun])]
      exact pair (by simp [Job.openPartitions, begun])
    · have submits : job.handlesList type = true := by
        cases type with
        | addSubmit => simp [Job.handlesList, begun]
        | remSubmit => simp [Job.handlesList, begun]
        | jobBegin => exact absurd (runs (Or.inl rfl)) begun
        | jobFini => exact absurd (runs (Or.inr rfl)) begun
      rw [if_pos submits, (submitQos_spec parts).2, qosCharged]
      simp [Job.openPartitions, Job.partitions, begun, list]

/-! ## The whole call -/

/-- The QOSs that are given back when a job begins. -/
def releasedQos (acc : Accounts) (job : Job) : List Nat :=
  match job.partPtrList with
  | some parts => acc.otherQos job parts
  | none => []

/-- The counters after those have been given back. -/
def release (acc : Accounts) (job : Job) (assoc : Nat) (u : Usage) : Usage :=
  ((acc.releasedQos job).flatMap (acc.qosCounters job assoc)).foldl
    (acc.adjustCounter .remSubmit job 1) u

theorem qosAdjustLimitUsage_toList (u : Usage) (qos : Option Nat) :
    acc.qosAdjustLimitUsage type job jobCnt u qos =
      (qos.toList.map some).foldl (acc.qosAdjustLimitUsage type job jobCnt) u := by
  cases qos with
  | none =>
    rfl
  | some qos => rfl

theorem adjustPair_eq (has : job.assocPtr = some assoc) (u : Usage) :
    acc.adjustPair type job u = ((acc.pairQos job).flatMap (acc.qosCounters job assoc)).foldl
        (acc.adjustCounter type job (job.jobCnt type))
        (if type = .jobBegin then acc.release job assoc u else u) := by
  have released : acc.adjustOthers type job u =
      if type = .jobBegin then acc.release job assoc u else u := by
    unfold adjustOthers
    unfold release releasedQos
    cases job.partPtrList with
    | none => simp
    | some parts =>
      dsimp only
      rw [foldl_qosAdjustLimitUsage has]
  unfold adjustPair
  rw [released, ← foldl_qosAdjustLimitUsage has, pairQos, map_append, foldl_append,
    ← qosAdjustLimitUsage_toList, ← qosAdjustLimitUsage_toList]

theorem adjustLimitUsage_eq (enforced : acc.enforceLimits = true)
    (has : job.assocPtr = some assoc) (u : Usage) :
    acc.adjustLimitUsage type job u = (acc.countersIn job assoc (acc.callQos type job)).foldl
        (acc.adjustCounter type job (job.jobCnt type))
        (if type = .jobBegin then acc.release job assoc u else u) := by
  have qosEq : acc.adjustQos type job u =
      ((acc.callQos type job).flatMap (acc.qosCounters job assoc)).foldl
        (acc.adjustCounter type job (job.jobCnt type))
        (if type = .jobBegin then acc.release job assoc u else u) := by
    unfold adjustQos callQos
    cases job.partPtrList with
    | none => exact adjustPair_eq has u
    | some parts =>
      dsimp only
      by_cases submits : job.handlesList type = true
      · have notBegin : type ≠ .jobBegin := by
          rintro rfl
          simp [Job.handlesList] at submits
        rw [if_pos submits, if_pos submits, if_neg notBegin, foldl_qosAdjustLimitUsage has]
      · rw [if_neg submits, if_neg submits]
        exact adjustPair_eq has u
  unfold adjustLimitUsage
  rw [has]
  dsimp only
  rw [if_pos enforced, qosEq, countersIn, foldl_append]

theorem CountsIn.congr {qos' : List Nat} (same : ∀ q, q ∈ qos ↔ q ∈ qos') (c : Counter) :
    acc.CountsIn job qos c ↔ acc.CountsIn job qos' c := by
  refine exists_congr fun assoc => and_congr_right fun _ => ?_
  cases c <;> simp [same]

open Classical in
theorem adjustLimitUsage_spec (enforced : acc.enforceLimits = true)
    (has : job.assocPtr = some assoc) (waits : job.tresAllocStr = true → job.pending = false)
    (runs : type = .jobBegin ∨ type = .jobFini → job.tresAllocStr = true) (u v : Usage)
    (before : (if type = .jobBegin then acc.release job assoc u else u) = v) :
    (∀ c, (acc.adjustLimitUsage type job u).limits c =
      if acc.Charges job c then (acc.adjust type job (job.jobCnt type) c (v.limits c)).1
      else v.limits c) ∧
    ((acc.adjustLimitUsage type job u).underflow = false ↔ v.underflow = false ∧
      ∀ c, acc.Charges job c →
        (acc.adjust type job (job.jobCnt type) c (v.limits c)).2 = false) := by
  have member : ∀ c, c ∈ acc.countersIn job assoc (acc.callQos type job) ↔ acc.Charges job c :=
    fun c => (mem_countersIn has).trans (CountsIn.congr (mem_callQos waits runs) c)
  obtain ⟨limits, underflow⟩ := @foldl_adjustCounter acc type job (job.jobCnt type)
    (acc.countersIn job assoc (acc.callQos type job)) (countersIn_nodup callQos_nodup) v
  rw [adjustLimitUsage_eq enforced has, before]
  refine ⟨fun c => ?_, ?_⟩
  · rw [limits]
    by_cases charged : acc.Charges job c
    · rw [if_pos ((member c).mpr charged), if_pos charged]
    · rw [if_neg fun inside => charged ((member c).mp inside), if_neg charged]
  · rw [underflow]
    refine and_congr_right fun _ => forall_congr' fun c => ?_
    rw [member]

end Accounts

end SlurmSim.Controller.AcctPolicy
