import SlurmSim.Controller.AcctPolicyRuns

/-!
# When the usage counters are exact

A run keeps all counters exact if and only if every job that begins gives back, to each
QOS of its other partitions, as many counts as it has tasks.
-/

namespace SlurmSim.Controller.AcctPolicy

open List
open Finset (add_sum_erase mem_insert single_le_sum sum_empty sum_insert)
open Function (update update_of_ne update_self)
open Option (some.inj)

/-! ## Runs -/

/-- A property of all states of a run. -/
def Always (acc : Accounts) (property : State → Prop) : State → List Event → Prop
  | s, [] => property s
  | s, event :: rest =>
    property s ∧ ∀ after, step acc s event = some after → Always acc property after rest

/-- A condition on all steps of a run. -/
def EachStep (acc : Accounts) (condition : State → Event → Prop) : State → List Event → Prop
  | _, [] => True
  | s, event :: rest => ∀ after, step acc s event = some after →
      condition s event ∧ EachStep acc condition after rest

/-- No job was submitted, and all counters are zero. -/
structure State.Blank (s : State) : Prop where
  limits : ∀ c, s.usage.limits c = ⟨0, 0, fun _ => 0⟩
  quiet : s.usage.underflow = false
  live : s.live = ∅
  running : s.running = ∅

/-- A job that begins has, for each QOS of its other partitions, as many of these
partitions as it has tasks. -/
def ReleasesTasks (acc : Accounts) (s : State) : Event → Prop
  | .jobBegin id part tresAllocCnt =>
    (s.job id).assocPtr ≠ none →
      ∀ qos ∈ acc.releasedQos ((s.job id).begun part tresAllocCnt),
        (acc.releasedQos ((s.job id).begun part tresAllocCnt)).count qos = (s.job id).taskCnt
  | _ => True

theorem Job.taskCnt_pos (job : Job) : 0 < job.taskCnt := by
  unfold Job.taskCnt
  split
  · exact Nat.succ_pos _
  · exact Nat.one_pos

namespace Accounts

variable {acc : Accounts} {s after : State} {job : Job} {c : Counter}

/-! ## One counter in range -/

variable {l : UsedLimits} {cnt id : Nat} {alloc : Nat → Nat}

theorem adjust_addSubmit (fits : l.submitJobs + cnt < 2 ^ 32) :
    acc.adjust .addSubmit job cnt c l = ({ l with submitJobs := l.submitJobs + cnt }, false) := by
  rw [adjust, UsedLimits.addSubmit, Nat.mod_eq_of_lt fits]

theorem adjust_remSubmit (some_ : 0 < cnt) (enough : cnt ≤ l.submitJobs)
    (fits : l.submitJobs < 2 ^ 32) :
    acc.adjust .remSubmit job cnt c l = ({ l with submitJobs := l.submitJobs - cnt }, false) := by
  cases c with
  | assoc a =>
    rw [adjust, UsedLimits.remSubmitAssoc, if_pos (by omega),
      Nat.mod_eq_of_lt (Nat.lt_of_le_of_lt enough fits)]
    have wrapped : (l.submitJobs + 2 ^ 32 - cnt) % 2 ^ 32 = l.submitJobs - cnt := by omega
    rw [wrapped]
  | qos q => exact if_pos enough
  | user q uid => exact if_pos enough
  | acct q name => exact if_pos enough

theorem adjust_jobBegin {l : UsedLimits} {cnt : Nat} {alloc : Nat → Nat}
    (allocated : job.tresAllocCnt = some alloc) (fits : l.jobs + 1 < 2 ^ 32)
    (tresFits : ∀ i, acc.counted i = true → l.tres i + alloc i < 2 ^ 64) :
    acc.adjust .jobBegin job cnt c l = ({ l with
          jobs := l.jobs + 1
          tres := fun i => if acc.counted i then l.tres i + alloc i else l.tres i }, false) := by
  rw [adjust, allocated, UsedLimits.jobBegin, Nat.mod_eq_of_lt fits]
  have tresEq : (fun i => if acc.counted i then (l.tres i + (Option.getD (some alloc) fun _ => 0) i) %
      2 ^ 64 else l.tres i) = fun i => if acc.counted i then l.tres i + alloc i else l.tres i := by
    funext i
    by_cases counts : acc.counted i = true
    · rw [if_pos counts, if_pos counts]
      exact Nat.mod_eq_of_lt (tresFits i counts)
    · rw [if_neg counts, if_neg counts]
  rw [tresEq]

theorem jobFini_eq {jobs : Nat} (enough : ∀ i, acc.counted i = true → alloc i ≤ l.tres i) :
    acc.jobFini (jobs, false) alloc l = ({ l with
          jobs := jobs
          tres := fun i => if acc.counted i then l.tres i - alloc i else l.tres i }, false) := by
  have tresEq : l.subTres acc.counted alloc =
      fun i => if acc.counted i then l.tres i - alloc i else l.tres i := by
    funext i
    rw [UsedLimits.subTres]
    by_cases counts : acc.counted i = true
    · rw [if_pos counts, if_pos counts, if_neg (Nat.not_lt.mpr (enough i counts))]
    · rw [if_neg counts, if_neg counts]
  have silent : ((List.range acc.tresCnt).any fun i =>
      acc.counted i && decide (l.tres i < alloc i)) = false := by
    rw [any_eq_false]
    intro i _ both
    rw [Bool.and_eq_true, decide_eq_true_eq] at both
    exact absurd (enough i both.1) (Nat.not_le.mpr both.2)
  rw [jobFini, tresEq, silent]
  rfl

theorem adjust_jobFini (allocated : job.tresAllocCnt = some alloc) (some_ : 0 < l.jobs)
    (fits : l.jobs < 2 ^ 31) (enough : ∀ i, acc.counted i = true → alloc i ≤ l.tres i) :
    acc.adjust .jobFini job cnt c l = ({ l with
          jobs := l.jobs - 1
          tres := fun i => if acc.counted i then l.tres i - alloc i else l.tres i }, false) := by
  have ofQos : l.jobsOfQos = (l.jobs - 1, false) := by
    unfold UsedLimits.jobsOfQos
    have wrapped : (l.jobs + 2 ^ 32 - 1) % 2 ^ 32 = l.jobs - 1 := by omega
    rw [wrapped, if_neg (by omega)]
  have ofOthers : l.jobsOfOthers = (l.jobs - 1, false) := if_pos (Nat.pos_iff_ne_zero.mp some_)
  cases c with
  | qos q =>
    simp only [adjust, allocated, ofQos]
    exact jobFini_eq enough
  | assoc a =>
    simp only [adjust, allocated, ofOthers]
    exact jobFini_eq enough
  | user q uid =>
    simp only [adjust, allocated, ofOthers]
    exact jobFini_eq enough
  | acct q name =>
    simp only [adjust, allocated, ofOthers]
    exact jobFini_eq enough

/-! ## Calls without a release -/

open Classical in
/-- What a call other than the begin of a job does, also for a job without an association. -/
theorem adjust_spec {type : PolicyType} (job : Job) (enforced : acc.enforceLimits = true)
    (notBegin : type ≠ .jobBegin) (waits : job.tresAllocStr = true → job.pending = false)
    (runs : type = .jobFini → job.tresAllocStr = true) (u : Usage) :
    (∀ c, (acc.adjustLimitUsage type job u).limits c =
      if acc.Charges job c then (acc.adjust type job (job.jobCnt type) c (u.limits c)).1
      else u.limits c) ∧
    ((acc.adjustLimitUsage type job u).underflow = false ↔ u.underflow = false ∧
      ∀ c, acc.Charges job c →
        (acc.adjust type job (job.jobCnt type) c (u.limits c)).2 = false) := by
  cases has : job.assocPtr with
  | none =>
    have nothing : acc.adjustLimitUsage type job u = u := by
      unfold adjustLimitUsage
      rw [has]
    have uncharged : ∀ c, ¬acc.Charges job c := by
      rintro c ⟨assoc, some_, _⟩
      rw [has] at some_
      cases some_
    rw [nothing]
    refine ⟨fun c => (if_neg (uncharged c)).symm, ?_⟩
    exact ⟨fun quiet => ⟨quiet, fun c charged => absurd charged (uncharged c)⟩, And.left⟩
  | some assoc =>
    refine adjustLimitUsage_spec enforced has waits ?_ u u (if_neg notBegin)
    rintro (begins | ends)
    · exact absurd begins notBegin
    · exact runs ends

/-! ## Submits and removals -/

theorem submitOf_le (acc : Accounts) (c : Counter) (live : Finset Nat) (job : Nat → Job)
    (mem : id ∈ live) : acc.submitOf c (job id) ≤ ∑ other ∈ live, acc.submitOf c (job other) :=
  single_le_sum (f := fun other => acc.submitOf c (job other)) (fun _ _ => Nat.zero_le _) mem

theorem Charges.submitOf_eq (charged : acc.Charges job c) : acc.submitOf c job = job.taskCnt :=
  if_pos charged

theorem submitOf_uncharged (free : ¬acc.Charges job c) : acc.submitOf c job = 0 := if_neg free

theorem sums_update_of_notMem {set : Finset Nat} (f : Job → Nat) (job : Nat → Job) (new : Job)
    (absent : id ∉ set) :
    ∑ other ∈ set, f (update job id new other) = ∑ other ∈ set, f (job other) := by
  refine Finset.sum_congr rfl fun other mem => ?_
  rw [update_of_ne (ne_of_mem_of_not_mem mem absent)]

theorem exact_addSubmit (enforced : acc.enforceLimits = true) (orderly : s.Orderly)
    (isExact : acc.Exact s) (taken : step acc s (.addSubmit id job) = some after)
    (fits : acc.Fits after) : acc.Exact after := by
  rw [step] at taken
  split_ifs at taken with guard
  obtain ⟨fresh, pending, notBegun⟩ := guard
  rw [← some.inj taken] at fits ⊢
  have notRunning : id ∉ s.running := fun runs => fresh (orderly.live runs)
  have submitSum_eq : ∀ c, ∑ other ∈ insert id s.live, acc.submitOf c (update s.job id job other) =
        acc.submitOf c job + ∑ other ∈ s.live, acc.submitOf c (s.job other) := by
    intro c
    rw [sum_insert fresh, update_self, sums_update_of_notMem _ _ _ fresh]
  obtain ⟨limits, underflow⟩ := adjust_spec job enforced
    (by decide : PolicyType.addSubmit ≠ .jobBegin)
    (fun begun => absurd begun (by rw [notBegun]; decide)) (fun ends => by cases ends) s.usage
  have room : ∀ c, acc.Charges job c → (s.usage.limits c).submitJobs + job.taskCnt < 2 ^ 32 := by
    intro c charged
    have bound := fits.submitJobs c
    rw [submitSum, submitSum_eq, charged.submitOf_eq] at bound
    rw [isExact.submitJobs c, Nat.add_comm]
    exact bound
  have same : ∀ c, (acc.adjustLimitUsage .addSubmit job s.usage).limits c = { s.usage.limits c with
        submitJobs := acc.submitOf c job + (s.usage.limits c).submitJobs } := by
    intro c
    rw [limits]
    by_cases charged : acc.Charges job c
    · rw [if_pos charged, charged.submitOf_eq, Nat.add_comm]
      exact congrArg Prod.fst (adjust_addSubmit (room c charged))
    · rw [if_neg charged, submitOf_uncharged charged, Nat.zero_add]
  refine ⟨fun c => ?_, fun c => ?_, fun c i => ?_, ?_⟩
  · dsimp only [submitSum]
    rw [submitSum_eq, same, isExact.submitJobs c]
    rfl
  · dsimp only [jobSum]
    rw [sums_update_of_notMem _ _ _ notRunning, same]
    exact isExact.jobs c
  · dsimp only [tresSum]
    rw [sums_update_of_notMem _ _ _ notRunning, same]
    exact isExact.tres c i
  · refine underflow.mpr ⟨isExact.quiet, fun c charged => ?_⟩
    exact congrArg Prod.snd (adjust_addSubmit (room c charged))

theorem charges_finished : acc.Charges job.finished c ↔ acc.Charges job c := Iff.rfl

theorem exact_removeSubmit (enforced : acc.enforceLimits = true) (isExact : acc.Exact s)
    (taken : step acc s (.removeSubmit id) = some after) (fits : acc.Fits s) : acc.Exact after := by
  rw [step] at taken
  split_ifs at taken with guard
  obtain ⟨mem, notRunning⟩ := guard
  rw [← some.inj taken]
  have submitSum_eq : ∀ c, acc.submitOf c (s.job id) + ∑ other ∈ s.live.erase id,
        acc.submitOf c (update s.job id (s.job id).finished other) =
      ∑ other ∈ s.live, acc.submitOf c (s.job other) := by
    intro c
    rw [sums_update_of_notMem _ _ _ (Finset.notMem_erase id _)]
    exact add_sum_erase _ (fun other => acc.submitOf c (s.job other)) mem
  obtain ⟨limits, underflow⟩ := adjust_spec (s.job id).finished enforced
    (by decide : PolicyType.remSubmit ≠ .jobBegin) (fun _ => rfl) (fun ends => by cases ends) s.usage
  have adjusted : ∀ c, acc.Charges (s.job id) c →
      acc.adjust .remSubmit (s.job id).finished (s.job id).taskCnt c (s.usage.limits c) =
        ({ s.usage.limits c with
          submitJobs := (s.usage.limits c).submitJobs - acc.submitOf c (s.job id) }, false) := by
    intro c charged
    have bound := fits.submitJobs c
    have part := submitOf_le acc c s.live s.job mem
    rw [charged.submitOf_eq] at part ⊢
    refine adjust_remSubmit (Job.taskCnt_pos _) ?_ ?_
    · rw [isExact.submitJobs c]
      exact part
    · rw [isExact.submitJobs c]
      exact bound
  have same : ∀ c, (acc.adjustLimitUsage .remSubmit (s.job id).finished s.usage).limits c =
      { s.usage.limits c with
        submitJobs := (s.usage.limits c).submitJobs - acc.submitOf c (s.job id) } := by
    intro c
    rw [limits]
    by_cases charged : acc.Charges (s.job id) c
    · rw [if_pos (charges_finished.mpr charged)]
      exact congrArg Prod.fst (adjusted c charged)
    · rw [if_neg (mt charges_finished.mp charged), submitOf_uncharged charged, Nat.sub_zero]
  refine ⟨fun c => ?_, fun c => ?_, fun c i => ?_, ?_⟩
  · dsimp only [submitSum]
    rw [same, isExact.submitJobs c, submitSum, ← submitSum_eq c, Nat.add_sub_cancel_left]
  · dsimp only [jobSum]
    rw [sums_update_of_notMem _ _ _ notRunning, same]
    exact isExact.jobs c
  · dsimp only [tresSum]
    rw [sums_update_of_notMem _ _ _ notRunning, same]
    exact isExact.tres c i
  · exact underflow.mpr ⟨isExact.quiet, fun c charged => congrArg Prod.snd (adjusted c charged)⟩

/-! ## Ends of jobs -/

theorem jobOf_le (acc : Accounts) (c : Counter) (running : Finset Nat) (job : Nat → Job)
    (mem : id ∈ running) : acc.jobOf c (job id) ≤ ∑ other ∈ running, acc.jobOf c (job other) :=
  single_le_sum (f := fun other => acc.jobOf c (job other)) (fun _ _ => Nat.zero_le _) mem

theorem tresOf_le (acc : Accounts) (c : Counter) (running : Finset Nat) (job : Nat → Job)
    (mem : id ∈ running) (i : Nat) :
    acc.tresOf c i (job id) ≤ ∑ other ∈ running, acc.tresOf c i (job other) :=
  single_le_sum (f := fun other => acc.tresOf c i (job other)) (fun _ _ => Nat.zero_le _) mem

theorem Charges.jobOf_eq (charged : acc.Charges job c) : acc.jobOf c job = 1 := if_pos charged

theorem jobOf_uncharged (free : ¬acc.Charges job c) : acc.jobOf c job = 0 := if_neg free

theorem Charges.tresOf_eq (charged : acc.Charges job c)
    (allocated : job.tresAllocCnt = some alloc) (i : Nat) :
    acc.tresOf c i job = if acc.counted i then alloc i else 0 := by
  unfold tresOf
  rw [allocated]
  by_cases counts : acc.counted i = true
  · rw [if_pos ⟨charged, counts⟩, if_pos counts]
    rfl
  · rw [if_neg fun both => counts both.2, if_neg counts]

theorem tresOf_uncharged (free : ¬acc.Charges job c) (i : Nat) : acc.tresOf c i job = 0 :=
  if_neg fun both => free both.1

theorem exact_jobFini (enforced : acc.enforceLimits = true) (orderly : s.Orderly)
    (isExact : acc.Exact s) (taken : step acc s (.jobFini id) = some after) (fits : acc.Fits s) :
    acc.Exact after := by
  rw [step] at taken
  split_ifs at taken with mem
  rw [← some.inj taken]
  obtain ⟨alloc, allocated⟩ := Option.isSome_iff_exists.mp (orderly.allocated id mem)
  obtain ⟨limits, underflow⟩ := adjust_spec (s.job id) enforced
    (by decide : PolicyType.jobFini ≠ .jobBegin) (orderly.waits id (orderly.live mem))
    (fun _ => orderly.begun id mem) s.usage
  have adjusted : ∀ c, acc.Charges (s.job id) c →
      acc.adjust .jobFini (s.job id) 1 c (s.usage.limits c) = ({ s.usage.limits c with
          jobs := (s.usage.limits c).jobs - acc.jobOf c (s.job id)
          tres := fun i => (s.usage.limits c).tres i - acc.tresOf c i (s.job id) }, false) := by
    intro c charged
    have bound := fits.jobs c
    have one := jobOf_le acc c s.running s.job mem
    rw [charged.jobOf_eq] at one ⊢
    have each : ∀ i, acc.counted i = true → alloc i ≤ (s.usage.limits c).tres i := by
      intro i counts
      have part := tresOf_le acc c s.running s.job mem i
      rw [charged.tresOf_eq allocated, if_pos counts] at part
      rw [isExact.tres c i]
      exact part
    rw [adjust_jobFini allocated ?_ ?_ each]
    · have tresEq : (fun i => if acc.counted i = true then (s.usage.limits c).tres i - alloc i
          else (s.usage.limits c).tres i) =
          fun i => (s.usage.limits c).tres i - acc.tresOf c i (s.job id) := by
        funext i
        rw [charged.tresOf_eq allocated]
        split_ifs
        · rfl
        · rw [Nat.sub_zero]
      rw [tresEq]
    · rw [isExact.jobs c]
      exact one
    · rw [isExact.jobs c]
      exact bound
  have same : ∀ c, (acc.adjustLimitUsage .jobFini (s.job id) s.usage).limits c =
      { s.usage.limits c with
        jobs := (s.usage.limits c).jobs - acc.jobOf c (s.job id)
        tres := fun i => (s.usage.limits c).tres i - acc.tresOf c i (s.job id) } := by
    intro c
    rw [limits]
    by_cases charged : acc.Charges (s.job id) c
    · rw [if_pos charged]
      exact congrArg Prod.fst (adjusted c charged)
    · rw [if_neg charged, jobOf_uncharged charged]
      simp only [tresOf_uncharged charged, Nat.sub_zero]
  refine ⟨fun c => ?_, fun c => ?_, fun c i => ?_, ?_⟩
  · rw [same]
    exact isExact.submitJobs c
  · rw [same, isExact.jobs c, jobSum,
      ← add_sum_erase _ (fun other => acc.jobOf c (s.job other)) mem]
    exact Nat.add_sub_cancel_left ..
  · rw [same]
    dsimp only
    rw [isExact.tres c i, tresSum,
      ← add_sum_erase _ (fun other => acc.tresOf c i (s.job other)) mem]
    exact Nat.add_sub_cancel_left ..
  · exact underflow.mpr ⟨isExact.quiet, fun c charged => congrArg Prod.snd (adjusted c charged)⟩

/-! ## Beginnings of jobs -/

/-- How often a counter is given back. -/
def releaseCount (acc : Accounts) (job : Job) (assoc : Nat) (c : Counter) : Nat :=
  ((acc.releasedQos job).flatMap (acc.qosCounters job assoc)).count c

theorem releaseCount_eq (assoc : Nat) :
    acc.releaseCount job assoc c =
      match c with
      | .qos q => (acc.releasedQos job).count q
      | .user q uid => if uid = job.userId then (acc.releasedQos job).count q else 0
      | .acct q name => if name = acc.acct assoc then (acc.releasedQos job).count q else 0
      | .assoc _ => 0 := by
  unfold releaseCount
  induction acc.releasedQos job with
  | nil => cases c <;> simp
  | cons first rest ih =>
    rw [flatMap_cons, count_append, ih]
    cases c with
    | qos q => simp [qosCounters, count_cons, Nat.add_comm]
    | user q uid =>
      by_cases own : uid = job.userId
      · simp [qosCounters, count_cons, own, Nat.add_comm]
      · simp [qosCounters, own, Ne.symm own]
    | acct q name =>
      by_cases own : name = acc.acct assoc
      · simp [qosCounters, count_cons, own, Nat.add_comm]
      · simp [qosCounters, own, Ne.symm own]
    | assoc a => simp [qosCounters]

/-- Counters of QOSs are decremented once for every time they occur. -/
theorem foldl_remSubmit {counters : List Counter} (ofQos : ∀ c ∈ counters, ∀ a, c ≠ .assoc a) :
    ∀ u : Usage, (∀ c, (counters.foldl (acc.adjustCounter .remSubmit job 1) u).limits c =
        { u.limits c with submitJobs := (u.limits c).submitJobs - counters.count c }) ∧
      ((counters.foldl (acc.adjustCounter .remSubmit job 1) u).underflow = false ↔
        u.underflow = false ∧ ∀ c, counters.count c ≤ (u.limits c).submitJobs) := by
  induction counters with
  | nil =>
    simp
  | cons first rest ih =>
    intro u
    obtain ⟨limits, underflow⟩ := ih (fun c mem => ofQos c (mem_cons_of_mem _ mem))
      (acc.adjustCounter .remSubmit job 1 u first)
    have adjusted : acc.adjust .remSubmit job 1 first (u.limits first) =
        (u.limits first).remSubmit 1 := by
      cases first with
      | assoc a => exact absurd rfl (ofQos _ mem_cons_self a)
      | qos q => rfl
      | user q uid => rfl
      | acct q name => rfl
    have one : ((u.limits first).remSubmit 1).1 =
        { u.limits first with submitJobs := (u.limits first).submitJobs - 1 } := by
      unfold UsedLimits.remSubmit
      split_ifs with enough
      · rfl
      · have zero : (u.limits first).submitJobs = 0 := by omega
        rw [zero]
    have head : ∀ c, (acc.adjustCounter .remSubmit job 1 u first).limits c = { u.limits c with
          submitJobs := (u.limits c).submitJobs - if first = c then 1 else 0 } := by
      intro c
      rw [adjustCounter]
      dsimp only
      rw [adjusted, one]
      by_cases same : first = c
      · subst same
        rw [update_self, if_pos rfl]
      · rw [update_of_ne (Ne.symm same), if_neg same, Nat.sub_zero]
    have flag : (acc.adjustCounter .remSubmit job 1 u first).underflow = false ↔
        u.underflow = false ∧ 1 ≤ (u.limits first).submitJobs := by
      rw [adjustCounter]
      rw [adjusted, Bool.or_eq_false_iff]
      refine and_congr_right fun _ => ?_
      unfold UsedLimits.remSubmit
      split_ifs with enough
      · exact ⟨fun _ => enough, fun _ => rfl⟩
      · exact ⟨fun none_ => (by cases none_), fun some_ => absurd some_ enough⟩
    refine ⟨fun c => ?_, ?_⟩
    · rw [foldl_cons, limits, head, count_cons]
      rw [Nat.sub_sub, Nat.add_comm]
      simp only [beq_iff_eq]
    · rw [foldl_cons, underflow, flag, and_assoc]
      refine and_congr_right fun _ => ?_
      constructor
      · rintro ⟨some_, enough⟩ c
        have rest_ := enough c
        rw [head] at rest_
        rw [count_cons]
        by_cases same : first = c
        · subst same
          simp only [if_true] at rest_
          simp only [beq_self_eq_true, if_true]
          omega
        · simpa [same] using rest_
      · intro enough
        refine ⟨?_, fun c => ?_⟩
        · have own := enough first
          rw [count_cons_self] at own
          omega
        · have own := enough c
          rw [count_cons] at own
          rw [head]
          by_cases same : first = c
          · subst same
            simp only [beq_self_eq_true, if_true] at own ⊢
            omega
          · simpa [same] using own

/-- A job that begins is no longer charged to the QOSs that are given back. -/
theorem mem_qosCharged_begun {part : Nat} {alloc : Nat → Nat} (waiting : job.tresAllocStr = false)
    (among : part ∈ job.partitions) (q : Nat) :
    (q ∈ acc.qosCharged job ↔
      q ∈ acc.qosCharged (job.begun part alloc) ∨ q ∈ acc.releasedQos (job.begun part alloc)) ∧
    (q ∈ acc.releasedQos (job.begun part alloc) → q ∉ acc.qosCharged (job.begun part alloc)) := by
  have opened : job.openPartitions = job.partitions := by simp [Job.openPartitions, waiting]
  have own : q ∈ acc.qosCharged (job.begun part alloc) ↔
      job.qosPtr = some q ∨ acc.partQos part = some q := by
    unfold qosCharged Job.openPartitions Job.begun
    cases ofPart : acc.partQos part <;> simp [ofPart, eq_comm]
  rw [own, qosCharged, opened, releasedQos]
  have listEq : (job.begun part alloc).partPtrList = job.partPtrList := rfl
  rw [listEq]
  unfold Job.partitions at among ⊢
  cases list : job.partPtrList with
  | none =>
    rw [list] at among
    have single : job.partPtr = some part := Option.mem_toList.mp among
    cases ofPart : acc.partQos part <;> simp [single, ofPart, eq_comm]
  | some parts =>
    rw [list] at among
    have released : q ∈ acc.otherQos (job.begun part alloc) parts ↔
        q ∈ parts.filterMap acc.partQos ∧ ¬(job.qosPtr = some q ∨ acc.partQos part = some q) := by
      unfold otherQos
      rw [mem_filter, decide_eq_true_eq]
      rfl
    rw [released]
    refine ⟨?_, fun both => both.2⟩
    rw [mem_append, Option.mem_toList]
    constructor
    · rintro (qos | inside)
      · exact Or.inl (Or.inl qos)
      · by_cases kept : job.qosPtr = some q ∨ acc.partQos part = some q
        · exact Or.inl kept
        · exact Or.inr ⟨inside, kept⟩
    · rintro ((qos | ofPart) | inside)
      · exact Or.inl qos
      · exact Or.inr (mem_filterMap.mpr ⟨part, among, ofPart⟩)
      · exact Or.inr inside.1

theorem submitOf_eq_ite {p : Prop} [Decidable p] (charged : acc.Charges job c ↔ p) :
    acc.submitOf c job = if p then job.taskCnt else 0 := by
  by_cases holds : p
  · rw [if_pos holds, (charged.mpr holds).submitOf_eq]
  · rw [if_neg holds, submitOf_uncharged (mt charged.mp holds)]

theorem submitOf_begun_iff {assoc part : Nat} (has : job.assocPtr = some assoc)
    (waiting : job.tresAllocStr = false) (among : part ∈ job.partitions) :
    (∀ c, acc.submitOf c job = acc.submitOf c (job.begun part alloc) +
        acc.releaseCount (job.begun part alloc) assoc c) ↔
    ∀ q ∈ acc.releasedQos (job.begun part alloc),
      (acc.releasedQos (job.begun part alloc)).count q = job.taskCnt := by
  have charged := fun q => @mem_qosCharged_begun acc job part alloc waiting among q
  have old : ∀ c, acc.Charges job c ↔ _ := fun c => countsIn_iff has (c := c)
  have new : ∀ c, acc.Charges (job.begun part alloc) c ↔ _ := fun c =>
    @countsIn_iff acc (job.begun part alloc) assoc has (acc.qosCharged (job.begun part alloc)) c
  have tasks : (job.begun part alloc).taskCnt = job.taskCnt := rfl
  constructor
  · intro exact_ q mem
    have own := exact_ (.qos q)
    rw [((old (.qos q)).mpr ((charged q).1.mpr (Or.inr mem))).submitOf_eq,
      submitOf_uncharged (mt (new (.qos q)).mp ((charged q).2 mem)), releaseCount_eq,
      Nat.zero_add] at own
    exact own.symm
  · intro counts
    have qos : ∀ q, (if q ∈ acc.qosCharged job then job.taskCnt else 0) =
        (if q ∈ acc.qosCharged (job.begun part alloc) then job.taskCnt else 0) +
          (acc.releasedQos (job.begun part alloc)).count q := by
      intro q
      by_cases mem : q ∈ acc.releasedQos (job.begun part alloc)
      · rw [if_pos ((charged q).1.mpr (Or.inr mem)), if_neg ((charged q).2 mem),
          counts q mem, Nat.zero_add]
      · have same : q ∈ acc.qosCharged job ↔ q ∈ acc.qosCharged (job.begun part alloc) :=
          (charged q).1.trans (or_iff_left mem)
        rw [count_eq_zero.mpr mem, Nat.add_zero]
        simp only [same]
    intro c
    rw [releaseCount_eq]
    cases c with
    | qos q =>
      rw [submitOf_eq_ite (old (.qos q)), submitOf_eq_ite (new (.qos q)), tasks]
      exact qos q
    | user q uid =>
      rw [submitOf_eq_ite (old (.user q uid)), submitOf_eq_ite (new (.user q uid)), tasks]
      have user : (job.begun part alloc).userId = job.userId := rfl
      by_cases own : uid = job.userId
      · simpa [own, user] using qos q
      · simp [own, user]
    | acct q name =>
      rw [submitOf_eq_ite (old (.acct q name)), submitOf_eq_ite (new (.acct q name)), tasks]
      by_cases own : name = acc.acct assoc
      · simpa [own] using qos q
      · simp [own]
    | assoc a =>
      rfl

theorem adjust_begun {assoc : Nat} (part : Nat) (alloc : Nat → Nat) (enforced : acc.enforceLimits = true)
    (has : job.assocPtr = some assoc) (u : Usage)
    (jobsFit : ∀ c, (u.limits c).jobs + acc.jobOf c (job.begun part alloc) < 2 ^ 32)
    (tresFit : ∀ c i, (u.limits c).tres i + acc.tresOf c i (job.begun part alloc) < 2 ^ 64) :
    (∀ c, (acc.adjustLimitUsage .jobBegin (job.begun part alloc) u).limits c =
      { submitJobs := (u.limits c).submitJobs - acc.releaseCount (job.begun part alloc) assoc c
        jobs := (u.limits c).jobs + acc.jobOf c (job.begun part alloc)
        tres := fun i => (u.limits c).tres i + acc.tresOf c i (job.begun part alloc) }) ∧
    ((acc.adjustLimitUsage .jobBegin (job.begun part alloc) u).underflow = false ↔
      u.underflow = false ∧
        ∀ c, acc.releaseCount (job.begun part alloc) assoc c ≤ (u.limits c).submitJobs) := by
  obtain ⟨given, releasedQuiet⟩ := @foldl_remSubmit acc (job.begun part alloc)
    ((acc.releasedQos (job.begun part alloc)).flatMap
      (acc.qosCounters (job.begun part alloc) assoc))
    (by
      rintro c mem a rfl
      exact mem_flatMap_qosCounters.mp mem) u
  have released : ∀ c, (acc.release (job.begun part alloc) assoc u).limits c =
      ⟨(u.limits c).submitJobs - acc.releaseCount (job.begun part alloc) assoc c,
        (u.limits c).jobs, (u.limits c).tres⟩ := given
  obtain ⟨limits, underflow⟩ := adjustLimitUsage_spec enforced
    (show (job.begun part alloc).assocPtr = some assoc from has) (fun _ => rfl) (fun _ => rfl) u _
    (if_pos rfl)
  have adjusted : ∀ c, acc.Charges (job.begun part alloc) c →
      acc.adjust .jobBegin (job.begun part alloc) 1 c
          ((acc.release (job.begun part alloc) assoc u).limits c) =
        ({ submitJobs := (u.limits c).submitJobs - acc.releaseCount (job.begun part alloc) assoc c
           jobs := (u.limits c).jobs + acc.jobOf c (job.begun part alloc)
           tres := fun i => (u.limits c).tres i + acc.tresOf c i (job.begun part alloc) },
          false) := by
    intro c charged
    have jobFits := jobsFit c
    rw [charged.jobOf_eq] at jobFits ⊢
    have each : ∀ i, acc.counted i = true → (u.limits c).tres i + alloc i < 2 ^ 64 := by
      intro i counts
      have tres := tresFit c i
      rw [charged.tresOf_eq rfl, if_pos counts] at tres
      exact tres
    rw [released c]
    refine (@adjust_jobBegin acc (job.begun part alloc) c
      ⟨(u.limits c).submitJobs - acc.releaseCount (job.begun part alloc) assoc c,
        (u.limits c).jobs, (u.limits c).tres⟩ 1 alloc rfl jobFits each).trans ?_
    have tresEq : (fun i => if acc.counted i = true then (u.limits c).tres i + alloc i
        else (u.limits c).tres i) =
        fun i => (u.limits c).tres i + acc.tresOf c i (job.begun part alloc) := by
      funext i
      rw [charged.tresOf_eq rfl]
      split_ifs
      · rfl
      · rw [Nat.add_zero]
    rw [tresEq]
  refine ⟨fun c => ?_, ?_⟩
  · rw [limits]
    by_cases charged : acc.Charges (job.begun part alloc) c
    · rw [if_pos charged]
      exact congrArg Prod.fst (adjusted c charged)
    · rw [if_neg charged, released c, jobOf_uncharged charged]
      simp only [tresOf_uncharged charged, Nat.add_zero]
  · rw [underflow]
    refine Iff.trans (and_iff_left fun c charged => ?_) releasedQuiet
    exact congrArg Prod.snd (adjusted c charged)

/-- What the begin of a job does to the state. -/
structure Begins (acc : Accounts) (s after : State) (id part : Nat) (alloc : Nat → Nat) :
    Prop where
  member : id ∈ s.live
  waiting : (s.job id).tresAllocStr = false
  among : part ∈ (s.job id).partitions
  notRunning : id ∉ s.running
  job : after.job = update s.job id ((s.job id).begun part alloc)
  live : after.live = s.live
  running : after.running = insert id s.running
  usage : after.usage = acc.adjustLimitUsage .jobBegin ((s.job id).begun part alloc) s.usage

theorem begins_of_step (orderly : s.Orderly) {part : Nat}
    (taken : step acc s (.jobBegin id part alloc) = some after) :
    Begins acc s after id part alloc := by
  rw [step] at taken
  split_ifs at taken with guard
  obtain ⟨mem, waiting, among⟩ := guard
  obtain rfl := some.inj taken
  refine ⟨mem, waiting, among, fun runs => ?_, rfl, rfl, rfl, rfl⟩
  have begun := orderly.begun id runs
  rw [waiting] at begun
  cases begun

namespace Begins

variable {id part : Nat} {alloc : Nat → Nat}

theorem submitSum (begins : Begins acc s after id part alloc) (c : Counter) :
    acc.submitSum after c + acc.submitOf c (s.job id) =
      acc.submitSum s c + acc.submitOf c ((s.job id).begun part alloc) := by
  have change := Lib.sum_change (fun other => acc.submitOf c (s.job other))
    (fun other => acc.submitOf c (update s.job id ((s.job id).begun part alloc) other))
    begins.member fun other _ apart => by rw [update_of_ne apart]
  rw [update_self] at change
  rw [Accounts.submitSum, begins.live, begins.job]
  exact change

theorem jobSum (begins : Begins acc s after id part alloc) (c : Counter) :
    acc.jobSum after c = acc.jobSum s c + acc.jobOf c ((s.job id).begun part alloc) := by
  rw [Accounts.jobSum, begins.running, begins.job, sum_insert begins.notRunning,
    update_self, sums_update_of_notMem _ _ _ begins.notRunning]
  exact Nat.add_comm ..

theorem tresSum (begins : Begins acc s after id part alloc) (c : Counter) (i : Nat) :
    acc.tresSum after c i = acc.tresSum s c i + acc.tresOf c i ((s.job id).begun part alloc) := by
  rw [Accounts.tresSum, begins.running, begins.job, sum_insert begins.notRunning,
    update_self, sums_update_of_notMem _ _ _ begins.notRunning]
  exact Nat.add_comm ..

theorem exact_of_none (begins : Begins acc s after id part alloc) (isExact : acc.Exact s)
    (has : (s.job id).assocPtr = none) : acc.Exact after := by
  have uncharged : ∀ c, ¬acc.Charges (s.job id) c := by
    rintro c ⟨assoc, some_, _⟩
    rw [has] at some_
    cases some_
  have unchargedNew : ∀ c, ¬acc.Charges ((s.job id).begun part alloc) c := by
    rintro c ⟨assoc, some_, _⟩
    exact absurd (has.symm.trans some_) (by simp)
  have nothing : after.usage = s.usage := by
    rw [begins.usage, adjustLimitUsage,
      show ((s.job id).begun part alloc).assocPtr = none from has]
  refine ⟨fun c => ?_, fun c => ?_, fun c i => ?_, ?_⟩
  · have sums := begins.submitSum c
    rw [submitOf_uncharged (uncharged c), submitOf_uncharged (unchargedNew c)] at sums
    rw [nothing, isExact.submitJobs c]
    exact sums.symm
  · rw [nothing, isExact.jobs c, begins.jobSum, jobOf_uncharged (unchargedNew c)]
    rfl
  · rw [nothing, isExact.tres c i, begins.tresSum, tresOf_uncharged (unchargedNew c)]
    rfl
  · rw [nothing]
    exact isExact.quiet

/-- The counters stay exact if the release takes away what the job is no longer charged. -/
theorem exact_iff_released (begins : Begins acc s after id part alloc)
    (enforced : acc.enforceLimits = true) (isExact : acc.Exact s) (fits : acc.Fits after)
    {assoc : Nat} (has : (s.job id).assocPtr = some assoc) :
    acc.Exact after ↔ ∀ c, acc.submitOf c (s.job id) =
      acc.submitOf c ((s.job id).begun part alloc) +
        acc.releaseCount ((s.job id).begun part alloc) assoc c := by
  obtain ⟨limits, underflow⟩ := adjust_begun part alloc enforced has s.usage (by
      intro c
      rw [isExact.jobs c, ← begins.jobSum]
      exact Nat.lt_trans (fits.jobs c) (by decide))
    (by
      intro c i
      rw [isExact.tres c i, ← begins.tresSum]
      exact fits.tres c i)
  constructor
  · intro isExactAfter c
    have quiet := isExactAfter.quiet
    rw [begins.usage, underflow] at quiet
    have enough := quiet.2 c
    have submit := isExactAfter.submitJobs c
    rw [begins.usage, limits] at submit
    dsimp only at submit
    rw [isExact.submitJobs c] at submit enough
    have sums := begins.submitSum c
    omega
  · intro released
    have enough : ∀ c, acc.releaseCount ((s.job id).begun part alloc) assoc c ≤
        acc.submitSum s c := by
      intro c
      have part_ := submitOf_le acc c s.live s.job begins.member
      rw [released c] at part_
      exact Nat.le_trans (Nat.le_add_left ..) part_
    refine ⟨fun c => ?_, fun c => ?_, fun c i => ?_, ?_⟩
    · rw [begins.usage, limits]
      dsimp only
      rw [isExact.submitJobs c]
      have sums := begins.submitSum c
      have own := released c
      omega
    · rw [begins.usage, limits, begins.jobSum, ← isExact.jobs c]
    · rw [begins.usage, limits, begins.tresSum, ← isExact.tres c i]
    · rw [begins.usage, underflow]
      refine ⟨isExact.quiet, fun c => ?_⟩
      rw [isExact.submitJobs c]
      exact enough c

end Begins

theorem exact_jobBegin_iff (enforced : acc.enforceLimits = true) (orderly : s.Orderly)
    (isExact : acc.Exact s) {id part : Nat} {alloc : Nat → Nat}
    (taken : step acc s (.jobBegin id part alloc) = some after) (fits : acc.Fits after) :
    acc.Exact after ↔ ReleasesTasks acc s (.jobBegin id part alloc) := by
  have begins := begins_of_step orderly taken
  cases has : (s.job id).assocPtr with
  | none => exact iff_of_true (begins.exact_of_none isExact has) fun some_ => absurd has some_
  | some assoc =>
    rw [begins.exact_iff_released enforced isExact fits has,
      submitOf_begun_iff has begins.waiting begins.among]
    constructor
    · exact fun holds _ => holds
    · intro holds
      refine holds ?_
      rw [has]
      exact Option.some_ne_none _

end Accounts

/-! ## Runs that keep the counters exact -/

section Runs

variable {acc : Accounts} {s after : State}

theorem orderly_step (orderly : s.Orderly) {event : Event} (taken : step acc s event = some after) :
    after.Orderly := by
  cases event with
  | addSubmit id job =>
    rw [step] at taken
    split_ifs at taken with guard
    obtain ⟨fresh, pending, notBegun⟩ := guard
    rw [← some.inj taken]
    have same : ∀ other ∈ s.live, update s.job id job other = s.job other :=
      fun other mem => update_of_ne (ne_of_mem_of_not_mem mem fresh) _ _
    refine ⟨orderly.live.trans (Finset.subset_insert _ _), fun other runs => ?_,
      fun other runs => ?_, fun other mem begun => ?_⟩
    · dsimp only
      rw [same other (orderly.live runs)]
      exact orderly.begun other runs
    · dsimp only
      rw [same other (orderly.live runs)]
      exact orderly.allocated other runs
    · dsimp only at begun ⊢
      rcases mem_insert.mp mem with rfl | old
      · rw [update_self, notBegun] at begun
        cases begun
      · rw [same other old] at begun ⊢
        exact orderly.waits other old begun
  | jobBegin id part alloc =>
    rw [step] at taken
    split_ifs at taken with guard
    rw [← some.inj taken]
    have cases_ : ∀ other, update s.job id ((s.job id).begun part alloc) other =
        if other = id then (s.job id).begun part alloc else s.job other := by
      intro other
      rw [Function.update_apply]
    refine ⟨Finset.insert_subset guard.1 orderly.live, fun other runs => ?_,
      fun other runs => ?_, fun other mem begun => ?_⟩
    · dsimp only
      rw [cases_]
      split_ifs with same
      · rfl
      · exact orderly.begun other ((mem_insert.mp runs).resolve_left same)
    · dsimp only
      rw [cases_]
      split_ifs with same
      · rfl
      · exact orderly.allocated other ((mem_insert.mp runs).resolve_left same)
    · dsimp only at begun ⊢
      rw [cases_] at begun ⊢
      split_ifs at begun ⊢
      · rfl
      · exact orderly.waits other mem begun
  | jobFini id =>
    rw [step] at taken
    split_ifs at taken with member
    rw [← some.inj taken]
    have fewer : s.running.erase id ⊆ s.running := Finset.erase_subset _ _
    exact ⟨fewer.trans orderly.live, fun other runs => orderly.begun other (fewer runs),
      fun other runs => orderly.allocated other (fewer runs), orderly.waits⟩
  | removeSubmit id =>
    rw [step] at taken
    split_ifs at taken with guard
    rw [← some.inj taken]
    have same : ∀ other, other ≠ id → update s.job id (s.job id).finished other = s.job other :=
      fun other apart => update_of_ne apart _ _
    have apart : ∀ other ∈ s.running, other ≠ id := fun other runs =>
      ne_of_mem_of_not_mem runs guard.2
    refine ⟨fun other runs => Finset.mem_erase.mpr ⟨apart other runs, orderly.live runs⟩,
      fun other runs => ?_, fun other runs => ?_, fun other mem begun => ?_⟩
    · dsimp only
      rw [same other (apart other runs)]
      exact orderly.begun other runs
    · dsimp only
      rw [same other (apart other runs)]
      exact orderly.allocated other runs
    · obtain ⟨ne, old⟩ := Finset.mem_erase.mp mem
      dsimp only at begun ⊢
      rw [same other ne] at begun ⊢
      exact orderly.waits other old begun

theorem exact_step_iff (enforced : acc.enforceLimits = true) (orderly : s.Orderly)
    (isExact : acc.Exact s) {event : Event} (taken : step acc s event = some after)
    (fits : acc.Fits s) (fitsAfter : acc.Fits after) :
    acc.Exact after ↔ ReleasesTasks acc s event := by
  cases event with
  | addSubmit id job =>
    exact iff_of_true (Accounts.exact_addSubmit enforced orderly isExact taken fitsAfter) trivial
  | jobBegin id part alloc =>
    exact Accounts.exact_jobBegin_iff enforced orderly isExact taken fitsAfter
  | jobFini id =>
    exact iff_of_true (Accounts.exact_jobFini enforced orderly isExact taken fits) trivial
  | removeSubmit id =>
    exact iff_of_true (Accounts.exact_removeSubmit enforced isExact taken fits) trivial

/-- All jobs have been removed, and all counters are back at zero. -/
def BackToZero (s : State) : Prop :=
  s.live = ∅ → ∀ c, s.usage.limits c = ⟨0, 0, fun _ => 0⟩

theorem Accounts.Exact.backToZero (isExact : acc.Exact s) (orderly : s.Orderly) : BackToZero s := by
  intro none_ c
  have noneRuns : s.running = ∅ := Finset.subset_empty.mp (none_ ▸ orderly.live)
  have submit : (s.usage.limits c).submitJobs = 0 := by
    rw [isExact.submitJobs, Accounts.submitSum, none_, sum_empty]
  have jobs : (s.usage.limits c).jobs = 0 := by
    rw [isExact.jobs, Accounts.jobSum, noneRuns, sum_empty]
  have tres : (s.usage.limits c).tres = fun _ => 0 := by
    funext i
    rw [isExact.tres, Accounts.tresSum, noneRuns, sum_empty]
  calc s.usage.limits c
      = ⟨(s.usage.limits c).submitJobs, (s.usage.limits c).jobs, (s.usage.limits c).tres⟩ := rfl
    _ = ⟨0, 0, fun _ => 0⟩ := by rw [submit, jobs, tres]

theorem State.Blank.orderly (blank : s.Blank) : s.Orderly := by
  refine ⟨?_, fun id runs => ?_, fun id runs => ?_, fun id mem => ?_⟩
  · rw [blank.running]
    exact Finset.empty_subset _
  · rw [blank.running] at runs
    cases runs
  · rw [blank.running] at runs
    cases runs
  · rw [blank.live] at mem
    cases mem

theorem State.Blank.isExact (blank : s.Blank) : acc.Exact s := by
  refine ⟨fun c => ?_, fun c => ?_, fun c i => ?_, blank.quiet⟩
  · rw [blank.limits, Accounts.submitSum, blank.live, sum_empty]
  · rw [blank.limits, Accounts.jobSum, blank.running, sum_empty]
  · rw [blank.limits, Accounts.tresSum, blank.running, sum_empty]

theorem Always.here {property : State → Prop} {events : List Event}
    (always : Always acc property s events) : property s := by
  cases events with
  | nil => exact always
  | cons event rest => exact always.1

theorem always_exact_iff (enforced : acc.enforceLimits = true) {events : List Event} :
    ∀ {s : State}, s.Orderly → acc.Exact s → Always acc acc.Fits s events →
      (Always acc (fun s => acc.Exact s ∧ BackToZero s) s events ↔
        EachStep acc (ReleasesTasks acc) s events) := by
  induction events with
  | nil =>
    intro s orderly isExact _
    exact iff_of_true ⟨isExact, isExact.backToZero orderly⟩ trivial
  | cons event rest ih =>
    intro s orderly isExact fits
    constructor
    · rintro ⟨_, always⟩ after taken
      have isExactAfter := (always after taken).here.1
      refine ⟨(exact_step_iff enforced orderly isExact taken fits.1
        (fits.2 after taken).here).mp isExactAfter, ?_⟩
      exact (ih (orderly_step orderly taken) isExactAfter (fits.2 after taken)).mp
        (always after taken)
    · intro each
      refine ⟨⟨isExact, isExact.backToZero orderly⟩, fun after taken => ?_⟩
      obtain ⟨releases, further⟩ := each after taken
      have isExactAfter := (exact_step_iff enforced orderly isExact taken fits.1
        (fits.2 after taken).here).mpr releases
      exact (ih (orderly_step orderly taken) isExactAfter (fits.2 after taken)).mpr further

/-- Over a run from zero whose sums fit the counters, all counters are exact, no message
about an underflow is written and all counters go back to zero, if and only if every job
that begins releases as many counts as it has tasks. -/
theorem usage_exact_iff (acc : Accounts) (enforced : acc.enforceLimits = true) (start : State)
    (blank : start.Blank) (events : List Event) (fits : Always acc acc.Fits start events) :
    Always acc (fun s => acc.Exact s ∧ BackToZero s) start events ↔
      EachStep acc (ReleasesTasks acc) start events :=
  always_exact_iff enforced blank.orderly blank.isExact fits

end Runs

/-! ## Jobs in three partitions -/

/-- The partitions 1 and 2 share a QOS. -/
def threePartitions : Accounts where
  enforceLimits := true
  tresCnt := 5
  overPartQos := fun _ => false
  partQos := fun part => if part = 0 then none else some 5
  acct := fun _ => "acct"
  parentAssocPtr := fun _ => none
  depth := fun _ => 0
  depth_lt := fun above => by cases above

def noJobs : State where
  usage := ⟨fun _ => ⟨0, 0, fun _ => 0⟩, false⟩
  job := fun _ => ⟨none, 0, none, none, none, none, none, false, false⟩
  live := ∅
  running := ∅

theorem noJobs_blank : noJobs.Blank := ⟨fun _ => rfl, rfl, rfl, rfl⟩

/-- A job with a list of partitions. -/
def jobOfPartitions (parts : List Nat) : Job :=
  ⟨some 0, 1000, some 1, none, some parts, none, none, false, true⟩

/-- The job begins in partition 0 and ends. -/
def lifeOf (parts : List Nat) : List Event :=
  [.addSubmit 0 (jobOfPartitions parts), .jobBegin 0 0 fun _ => 1, .jobFini 0, .removeSubmit 0]

theorem fits_of_one {s : State} (live : s.live ⊆ {0}) (running : s.running ⊆ {0})
    (tasks : (s.job 0).taskCnt = 1) (alloc : ∀ i, ((s.job 0).tresAllocCnt.getD fun _ => 0) i ≤ 1) :
    threePartitions.Fits s := by
  have sum_le : ∀ (set : Finset Nat) (f : Nat → Nat), set ⊆ {0} → f 0 ≤ 1 → ∑ id ∈ set, f id ≤ 1 := by
    intro set f mem small
    calc ∑ id ∈ set, f id ≤ ∑ id ∈ {0}, f id := Finset.sum_le_sum_of_subset mem
      _ = f 0 := Finset.sum_singleton f 0
      _ ≤ 1 := small
  refine ⟨fun c => ?_, fun c => ?_, fun c i => ?_⟩
  · refine Nat.lt_of_le_of_lt (sum_le _ _ live ?_) (by decide)
    unfold Accounts.submitOf
    split_ifs
    · exact tasks.le
    · exact Nat.zero_le _
  · refine Nat.lt_of_le_of_lt (sum_le _ _ running ?_) (by decide)
    unfold Accounts.jobOf
    split_ifs
    · exact le_rfl
    · exact Nat.zero_le _
  · refine Nat.lt_of_le_of_lt (sum_le _ _ running ?_) (by decide)
    unfold Accounts.tresOf
    split_ifs
    · exact alloc i
    · exact Nat.zero_le _

theorem lifeOf_fits : Always threePartitions threePartitions.Fits noJobs (lifeOf [0, 1]) := by
  refine ⟨fits_of_one (by decide) (by decide) (by decide) fun i => Nat.zero_le _,
    fun after taken => ?_⟩
  cases taken
  refine ⟨fits_of_one (by decide) (by decide) (by decide) fun i => Nat.zero_le _,
    fun after taken => ?_⟩
  cases taken
  refine ⟨fits_of_one (by decide) (by decide) (by decide) fun i => le_rfl,
    fun after taken => ?_⟩
  cases taken
  refine ⟨fits_of_one (by decide) (by decide) (by decide) fun i => le_rfl,
    fun after taken => ?_⟩
  cases taken
  exact fits_of_one (by decide) (by decide) (by decide) fun i => le_rfl

theorem usage_exact_twoPartitions :
    Always threePartitions (fun s => threePartitions.Exact s ∧ BackToZero s) noJobs
      (lifeOf [0, 1]) := by
  refine (usage_exact_iff threePartitions rfl noJobs noJobs_blank _ lifeOf_fits).mpr ?_
  refine fun after taken => ⟨trivial, fun last taken' => ⟨?_, fun _ _ => ⟨trivial, ?_⟩⟩⟩
  · rw [step, if_pos (by decide)] at taken
    cases taken
    intro _ qos inside
    have single : qos = 5 := mem_singleton.mp inside
    rw [single]
    rfl
  · exact fun _ _ => ⟨trivial, trivial⟩

/-- The run of events. -/
def run (acc : Accounts) (s : State) (events : List Event) : Option State :=
  events.foldlM (step acc) s

/-- The first job begins and is taken off the shared QOS once for each of its two other
partitions, which takes away the count of the second job. -/
def sharedQosRun : List Event :=
  [.addSubmit 0 (jobOfPartitions [0, 1, 2]), .addSubmit 1 (jobOfPartitions [0, 1]),
    .jobBegin 0 0 fun _ => 1]

/-- Ended and removed, both jobs leave a message about an underflow behind. -/
def sharedQosEnd : List Event :=
  sharedQosRun ++ [.jobFini 0, .removeSubmit 0, .removeSubmit 1]

theorem usage_exact_fails :
    (∃ last, run threePartitions noJobs sharedQosRun = some last ∧ ¬threePartitions.Exact last) ∧
      ∃ last, run threePartitions noJobs sharedQosEnd = some last ∧ last.live = ∅ ∧
        last.usage.underflow = true := by
  have counted : (run threePartitions noJobs sharedQosRun).map (fun last =>
      ((last.usage.limits (.qos 5)).submitJobs, decide (1 ∈ last.live), (last.job 1).taskCnt,
        (last.job 1).assocPtr, threePartitions.qosCharged (last.job 1))) =
      some (0, true, 1, some 0, [1, 5]) := by
    decide
  have ended : (run threePartitions noJobs sharedQosEnd).map (fun last =>
      (decide (last.live = ∅), last.usage.underflow)) = some (true, true) := by
    decide
  constructor
  · obtain ⟨last, ran, values⟩ := Option.map_eq_some_iff.mp counted
    simp only [Prod.mk.injEq, decide_eq_true_eq] at values
    obtain ⟨zero, member, task, assoc, charged⟩ := values
    refine ⟨last, ran, fun isExact => ?_⟩
    have charges : threePartitions.Charges (last.job 1) (.qos 5) := by
      refine ⟨0, assoc, ?_⟩
      rw [charged]
      exact mem_cons_of_mem _ (mem_singleton_self 5)
    have own := Accounts.submitOf_le threePartitions (.qos 5) last.live last.job member
    have sum := isExact.submitJobs (.qos 5)
    rw [charges.submitOf_eq, task] at own
    rw [zero, Accounts.submitSum] at sum
    omega
  · obtain ⟨last, ran, values⟩ := Option.map_eq_some_iff.mp ended
    simp only [Prod.mk.injEq, decide_eq_true_eq] at values
    exact ⟨last, ran, values.1, values.2⟩

end SlurmSim.Controller.AcctPolicy
