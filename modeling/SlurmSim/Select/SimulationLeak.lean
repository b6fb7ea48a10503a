import SlurmSim.Select.CoreRuns
import SlurmSim.Select.RunNow
import SlurmSim.Select.WillRunOrder

/-!
# What a simulation leaves behind

The simulations of `_will_run_test` and `_run_now` change copies of the rows and of
the node usage, and no job.  The power layout is not copied: a job that is removed in
a simulation has its cores switched off in the layout itself.
-/

namespace SlurmSim.Select

open SlurmSim.Common SlurmSim.Lib List

variable {c : Cluster} {cfg : SimConfig} {p : Pending} {now : Int} {quits : Nat → Bool}

/-! ## Properties that every step keeps -/

/-- A property of states that a simulation keeps as long as it only removes allowed
jobs. -/
structure Keeps (c : Cluster) (cfg : SimConfig) (p : Pending) (allowed : ActiveJob → Prop)
    (q : World → Prop) : Prop where
  dup : ∀ w, q w → q w.dup
  rmJob : ∀ w job action, allowed job → q w → q (w.rmJob c cfg job action)
  testFuture : ∀ w bitmap mode, mode.runNow = false → q w → q (w.testFuture p bitmap mode).2
  testReal : ∀ w bitmap mode,
    (mode.runNow = false ∨ (w.testReal p bitmap mode).1.success = false) → q w →
      q (w.testReal p bitmap mode).2

namespace Keeps

variable {allowed : ActiveJob → Prop} {q : World → Prop}

theorem gatherJobs (keeps : Keeps c cfg p allowed q) {jobList : List ActiveJob}
    (all : ∀ job ∈ jobList, job.considered = true → job.preemptMode ≠ 0 → allowed job)
    {st : Gathered} (holds : q st.world) : q (jobList.foldl (gatherJob c cfg p) st).world := by
  induction jobList generalizing st with
  | nil => exact holds
  | cons job rest ih =>
    obtain ⟨here, later⟩ := forall_mem_cons.mp all
    refine ih later ?_
    unfold gatherJob
    split_ifs with passed preemptable off suspend
    · exact holds
    · exact holds
    · exact keeps.rmJob _ _ _ (here (Bool.eq_true_of_not_eq_false passed) off) holds
    · exact keeps.rmJob _ _ _ (here (Bool.eq_true_of_not_eq_false passed) off) holds
    · exact holds

variable {list : List ActiveJob}

theorem removeWindow (keeps : Keeps c cfg p allowed q) (timeWindow : Int)
    (all : ∀ job ∈ list, ∀ bitmap, job.overlaps bitmap = true → allowed job) {st : Window}
    (holds : q st.world) : q (removeWindow c cfg p timeWindow list st).1.world := by
  induction list generalizing st with
  | nil => exact holds
  | cons job rest ih =>
    obtain ⟨here, later⟩ := forall_mem_cons.mp all
    rw [Select.removeWindow]
    by_cases skipped : job.overlaps (st.bitmap ∪ p.bitmap) = false
    · rw [if_pos skipped]
      exact ih later holds
    · rw [if_neg skipped]
      have gone : q (st.world.rmJob c cfg job 0) :=
        keeps.rmJob _ _ _ (here _ (Bool.eq_true_of_not_eq_false skipped)) holds
      split_ifs with full
      · exact gone
      · cases rest with
        | nil => exact gone
        | cons nextJob others =>
          dsimp only
          split_ifs with late
          · exact gone
          · exact ih later gone

theorem testWindows (keeps : Keeps c cfg p allowed q) {qosPreemptor : Bool}
    {preempted : List ActiveJob} {fuel : Nat} {timeWindow : Int} {removed : List ActiveJob}
    {world : World} {bitmap : Finset Nat} (inside : bitmap ⊆ p.bitmap)
    (all : ∀ job ∈ list, ∀ bitmap, job.overlaps bitmap = true → allowed job) (holds : q world) :
    q (testWindows c cfg p now quits qosPreemptor preempted fuel timeWindow list world bitmap
      removed).world := by
  induction fuel generalizing timeWindow list world bitmap removed with
  | zero => exact holds
  | succ fuel ih =>
    have after := keeps.removeWindow timeWindow all
      (show q (Window.mk world bitmap none none 0 removed).world from holds)
    obtain ⟨taken, spec⟩ := removeWindow_spec (c := c) timeWindow list
      ⟨world, bitmap, none, none, 0, removed⟩ inside
    rw [Select.testWindows]
    generalize Select.removeWindow c cfg p timeWindow list
      ⟨world, bitmap, none, none, 0, removed⟩ = outcome at after spec ⊢
    obtain ⟨st, rest, more⟩ := outcome
    dsimp only
    cases st.lastJob with
    | none => exact after
    | some last =>
      have tested := keeps.testFuture st.world st.bitmap
        ⟨false, cfg.backfillBusyNodes, qosPreemptor, true⟩ rfl after
      dsimp only
      split_ifs with fits quits_
      · exact tested
      · exact tested
      · refine ih (World.testFuture_nodes.trans spec.inside) ?_ tested
        rw [spec.split] at all
        exact fun job behind => all job (mem_append_right _ behind)

theorem removePreemptees (keeps : Keeps c cfg p allowed q)
    (all : ∀ job ∈ list, job.canBeRemoved = true → allowed job) {st : Trial} (holds : q st.world) :
    q (removePreemptees c cfg p list st).1.world := by
  induction list generalizing st with
  | nil => exact holds
  | cons job rest ih =>
    obtain ⟨here, later⟩ := forall_mem_cons.mp all
    rw [Select.removePreemptees]
    dsimp only
    by_cases stays : job.canBeRemoved = false
    · rw [if_pos stays]
      exact ih later holds
    · rw [if_neg stays]
      have gone := keeps.rmJob st.world job 0 (here (Bool.eq_true_of_not_eq_false stays)) holds
      have tested := keeps.testFuture _ (st.bitmap ∪ p.bitmap) ⟨false, false, false, true⟩ rfl gone
      split_ifs
      · exact tested
      · exact ih later tested

end Keeps

/-- The jobs that a simulation for some pending job may remove. -/
def ActiveJob.removable (job : ActiveJob) : Bool :=
  (job.considered && (job.preemptMode != 0 || job.nodeBitmap != some ∅)) || job.canBeRemoved

variable {job : ActiveJob}

theorem removable_of_overlaps (considered : job.considered = true) {bitmap : Finset Nat}
    (overlap : job.overlaps bitmap = true) : job.removable = true := by
  have some_ : job.nodeBitmap ≠ some ∅ := by
    intro empty
    rw [ActiveJob.overlaps, empty, decide_eq_true_eq] at overlap
    exact overlap (Finset.disjoint_empty_right _)
  simp [ActiveJob.removable, considered, some_]

theorem removable_of_preemptMode (considered : job.considered = true) (mode : job.preemptMode ≠ 0) :
    job.removable = true := by
  simp [ActiveJob.removable, considered, mode]

theorem removable_of_canBeRemoved (can : job.canBeRemoved = true) : job.removable = true := by
  simp [ActiveJob.removable, can]

namespace Keeps

variable {allowed : ActiveJob → Prop} {q : World → Prop}

theorem simulateEnds_gathered (keeps : Keeps c cfg p allowed q) {jobList : List ActiveJob}
    (all : ∀ job ∈ jobList, job.removable = true → allowed job) {world : World}
    {bitmap : Finset Nat} (mem : bitmap ⊆ p.bitmap)
    (gathered : q (jobList.foldl (gatherJob c cfg p) ⟨world.dup, false, [], []⟩).world) :
    q (simulateEnds c cfg p now quits jobList world bitmap).world := by
  have listed := (foldl_gatherJob c cfg p jobList ⟨world.dup, false, [], []⟩).1
  rw [nil_append] at listed
  unfold Select.simulateEnds
  generalize jobList.foldl (gatherJob c cfg p) ⟨world.dup, false, [], []⟩ = st at gathered listed ⊢
  have awaitedAll : ∀ job ∈ qsort crJobListSort st.crJobList, ∀ bitmap,
      job.overlaps bitmap = true → allowed job := by
    intro job mem bitmap overlap
    rw [mem_qsort, listed, awaited, mem_filter] at mem
    have considered := (Bool.and_eq_true_iff.mp mem.2).1
    exact all job mem.1 (removable_of_overlaps considered overlap)
  by_cases candidates : p.preempteeCandidates.isSome = true
  · simp only [candidates, if_true]
    have tested := keeps.testFuture st.world (bitmap ∪ p.bitmap)
      ⟨false, false, st.qosPreemptor, true⟩ rfl gathered
    split_ifs
    · exact tested
    · exact tested
    · exact keeps.testWindows (World.testFuture_nodes.trans
        (Finset.union_subset mem (Finset.Subset.refl _))) awaitedAll tested
  · simp only [candidates, Bool.false_eq_true, if_false]
    split_ifs
    · exact gathered
    · exact keeps.testWindows mem awaitedAll gathered

theorem willRunTest (keeps : Keeps c cfg p allowed q) {jobList : List ActiveJob}
    (all : ∀ job ∈ jobList, job.removable = true → allowed job) {w : World} (holds : q w) :
    q (willRunTest c cfg p now quits jobList w).world := by
  have tested := keeps.testReal w p.bitmap ⟨false, false, false, false⟩ (Or.inl rfl) holds
  unfold Select.willRunTest
  dsimp only
  split_ifs
  · exact tested
  · refine keeps.simulateEnds_gathered all World.testReal_nodes ?_
    exact keeps.gatherJobs (fun job mem considered mode =>
      all job mem (removable_of_preemptMode considered mode)) (keeps.dup _ tested)

/-- The states after a run: as the simulation leaves them, or after one more test on
the records. -/
def Ends (p : Pending) (q : World → Prop) (w : World) : Prop :=
  q w ∨ ∃ before bitmap mode, q before ∧ w = (World.testReal before p bitmap mode).2

variable {st : RunState} {rest list : List ActiveJob} {job : ActiveJob}

theorem mem_reorder {before : List ActiveJob} {other : ActiveJob}
    (reordered : (reorder cfg st before job rest).candidates = some list) (mem : other ∈ list) :
    other ∈ before ++ job :: rest := by
  unfold reorder at reordered
  split_ifs at reordered
  · cases reordered
    simp only [mem_cons, mem_append] at mem ⊢
    tauto
  · cases reordered
    exact mem_qsort.mp mem

theorem reorder_world (st : RunState) (before rest : List ActiveJob) (job : ActiveJob) :
    (reorder cfg st before job rest).world = st.world := by
  unfold reorder
  split_ifs
  · rfl
  · rfl

theorem removePreemptees_split {st : Trial}
    (found : (Select.removePreemptees c cfg p list st).2 = some (job, rest)) :
    ∃ before, list = before ++ job :: rest := by
  induction list generalizing st with
  | nil => cases found
  | cons first others ih =>
    rw [Select.removePreemptees] at found
    dsimp only at found
    split_ifs at found with stays fits
    · obtain ⟨before, rfl⟩ := ih found
      exact ⟨first :: before, rfl⟩
    · cases found
      exact ⟨[], rfl⟩
    · obtain ⟨before, rfl⟩ := ih found
      exact ⟨first :: before, rfl⟩

theorem removePreemptees_take {st : Trial}
    (found : (Select.removePreemptees c cfg p list st).2 = some (job, rest)) :
    list.take (list.length - rest.length - 1) ++ job :: rest = list := by
  obtain ⟨before, rfl⟩ := removePreemptees_split found
  have length : (before ++ job :: rest).length - rest.length - 1 = before.length := by
    rw [length_append, length_cons]
    omega
  rw [length, take_left]

theorem preemptPass_again (keeps : Keeps c cfg p allowed q)
    (all : ∀ job ∈ list, job.canBeRemoved = true → allowed job) (holds : q st.world) (held : Bool) :
    Ends p q (preemptPass c cfg p st held list).1.world ∧
      ((preemptPass c cfg p st held list).2 = true → q (preemptPass c cfg p st held list).1.world ∧
          ∀ list', (preemptPass c cfg p st held list).1.candidates = some list' →
            ∀ job ∈ list', job.canBeRemoved = true → allowed job) := by
  unfold preemptPass
  by_cases qos : cfg.preemptByQos = true ∧ list.head?.map ActiveJob.preemptMode = some 1 ∧
      held = false
  · rw [if_pos qos]
    exact ⟨Or.inr ⟨_, _, _, holds, rfl⟩, fun again => by cases again⟩
  · rw [if_neg qos]
    have removed : q (Select.removePreemptees c cfg p list
        ⟨st.world.dup, st.bitmap, st.usable, false⟩).1.world :=
      keeps.removePreemptees all (keeps.dup _ holds)
    have taken : ∀ {job rest}, (Select.removePreemptees c cfg p list
        ⟨st.world.dup, st.bitmap, st.usable, false⟩).2 = some (job, rest) →
        list.take (list.length - rest.length - 1) ++ job :: rest = list :=
      removePreemptees_take
    generalize Select.removePreemptees c cfg p list ⟨st.world.dup, st.bitmap, st.usable, false⟩ =
      outcome at removed taken ⊢
    obtain ⟨trial, found⟩ := outcome
    cases found with
    | none => exact ⟨Or.inl removed, fun again => by cases again⟩
    | some last =>
      dsimp only
      split_ifs with enough
      · exact ⟨Or.inl removed, fun again => by cases again⟩
      · rw [reorder_world]
        refine ⟨Or.inl removed, fun _ => ⟨removed, fun list' reordered other mem => ?_⟩⟩
        refine all other ?_
        rw [← taken rfl]
        exact mem_reorder reordered mem

theorem runNowPasses (keeps : Keeps c cfg p allowed q) {passes : Nat}
    (all : ∀ list, st.candidates = some list → ∀ job ∈ list, job.canBeRemoved = true → allowed job)
    (holds : q st.world) : Ends p q (runNowPasses c cfg p passes st).world := by
  induction passes generalizing st with
  | zero => exact Or.inl holds
  | succ passes ih =>
    rw [Select.runNowPasses]
    dsimp only
    split_ifs with fits
    · exact Or.inr ⟨_, _, _, holds, rfl⟩
    · have tested := keeps.testReal st.world st.bitmap ⟨true, false, false, st.preemptMode⟩
        (Or.inr (Bool.eq_false_of_not_eq_true fits)) holds
      cases listEq : st.candidates with
      | none => exact Or.inl tested
      | some list =>
        dsimp only
        split_ifs with more
        · obtain ⟨kept, others⟩ := (keeps.preemptPass_again (all list listEq) tested _).2 more
          exact ih others kept
        · exact (keeps.preemptPass_again (all list listEq) tested _).1

end Keeps

/-! ## The power layout -/

/-- The job has CPUs on a node whose cores are in its bitmap. -/
def Powered (c : Cluster) (jobs : Nat → JobInfo) (job : ActiveJob) : Prop :=
  (jobs job.jobId).hasCores = true ∧
    ∃ entry ∈ ((jobs job.jobId).jobResrcs.nodes c).zipIdx,
      (jobs job.jobId).jobResrcs.cpus.getD entry.2 0 ≠ 0 ∧
        (nodeCoreBits (jobs job.jobId).jobResrcs entry.2).isSome = true

instance (c : Cluster) (jobs : Nat → JobInfo) (job : ActiveJob) : Decidable (Powered c jobs job) :=
  inferInstanceAs (Decidable (_ ∧ ∃ entry ∈ ((jobs job.jobId).jobResrcs.nodes c).zipIdx, _ ∧ _))

theorem adaptNodes_eq (layout : PowerLayout) (job : JobResources) (cpuFreqMax : UInt32) :
    World.adaptNodes c layout job cpuFreqMax = (job.nodes c).zipIdx.foldl (fun layout entry =>
          if job.cpus.getD entry.2 0 = 0 then layout
          else layout.adaptLayouts job cpuFreqMax entry.2 entry.1 false)
        layout := rfl

theorem adaptNodes_same {job : JobResources} (layout : PowerLayout) (cpuFreqMax : UInt32)
    (none_ : ∀ entry ∈ (job.nodes c).zipIdx, job.cpus.getD entry.2 0 ≠ 0 →
      (nodeCoreBits job entry.2).isSome = false) :
    World.adaptNodes c layout job cpuFreqMax = layout := by
  rw [adaptNodes_eq]
  generalize (job.nodes c).zipIdx = entries at none_
  induction entries with
  | nil => rfl
  | cons entry entries ih =>
    obtain ⟨here, later⟩ := forall_mem_cons.mp none_
    rw [foldl_cons]
    split_ifs with lost
    · exact ih later
    · rw [PowerLayout.adaptLayouts_none (here lost)]
      exact ih later

theorem adaptNodes_dark {watts : UInt32} {job : JobResources} {layout : PowerLayout}
    (idle : layout.Idle watts) (small : job.coreBitmap.length ≤ 2 ^ 32) (cpuFreqMax : UInt32) :
    (World.adaptNodes c layout job cpuFreqMax).Idle watts ∧
      ((layout.Dark ∨ ∃ entry ∈ (job.nodes c).zipIdx, job.cpus.getD entry.2 0 ≠ 0 ∧
        (nodeCoreBits job entry.2).isSome = true) →
          (World.adaptNodes c layout job cpuFreqMax).Dark) := by
  rw [adaptNodes_eq]
  generalize (job.nodes c).zipIdx = entries
  induction entries generalizing layout with
  | nil => exact ⟨idle, fun cause => cause.resolve_right (by simp)⟩
  | cons entry entries ih =>
    rw [foldl_cons, exists_mem_cons_iff]
    split_ifs with lost
    · obtain ⟨idle', dark⟩ := ih idle
      refine ⟨idle', fun cause => dark ?_⟩
      rcases cause with before | ⟨some_, _⟩ | later
      · exact Or.inl before
      · exact absurd lost some_
      · exact Or.inr later
    · cases found : (nodeCoreBits job entry.2).isSome with
      | false =>
        rw [PowerLayout.adaptLayouts_none found]
        obtain ⟨idle', dark⟩ := ih idle
        refine ⟨idle', fun cause => dark ?_⟩
        rcases cause with before | ⟨_, isSome⟩ | later
        · exact Or.inl before
        · cases isSome
        · exact Or.inr later
      | true =>
        obtain ⟨idleHere, darkHere⟩ :=
          PowerLayout.adaptLayouts_dark idle small found cpuFreqMax entry.1
        obtain ⟨idle', dark⟩ := ih idleHere
        exact ⟨idle', fun _ => dark (Or.inl darkHere)⟩

theorem rmJob_jobs (w : World) (job : ActiveJob) (action : Nat) :
    (w.rmJob c cfg job action).jobs = w.jobs :=
  (rmJobFromRes_jobs c w.future job.jobId action).1

/-! ## Nothing leaks -/

/-- Everything but the copies is as it was. -/
structure Untouched (p : Pending) (w w' : World) : Prop where
  records : RecordsKept p w w'
  jobs : w'.jobs = w.jobs
  layout : w'.layout = w.layout

/-- The call has left the records, the other jobs and the power layout as they were. -/
structure Conserves (p : Pending) (w w' : World) : Prop where
  records : RecordsKept p w w'
  layout : w'.layout = w.layout

/-- Removing the job does not reach the power layout. -/
def Silent (c : Cluster) (cfg : SimConfig) (w : World) (job : ActiveJob) : Prop :=
  w.initializing = true ∨ cfg.powerPerCore = false ∨ ¬ Powered c w.jobs job

theorem keeps_untouched (c : Cluster) (cfg : SimConfig) (p : Pending) (w : World) :
    Keeps c cfg p (Silent c cfg w) (Untouched p w) := by
  refine ⟨fun w' kept => ?_, fun w' job action silent kept => ?_,
    fun w' bitmap mode willRun kept => ?_, fun w' bitmap mode fails kept => ?_⟩
  · exact ⟨kept.records.trans ⟨fun _ => .refl _, rfl, fun _ _ => rfl, rfl⟩, kept.jobs, kept.layout⟩
  · refine ⟨kept.records.trans ⟨fun _ => .refl _, rfl, fun other _ => ?_, rfl⟩, ?_, ?_⟩
    · rw [rmJob_jobs]
    · rw [rmJob_jobs, kept.jobs]
    · rw [World.rmJob]
      split_ifs with quiet
      · exact kept.layout
      · rw [kept.records.initializing, kept.jobs] at quiet
        push Not at quiet
        obtain ⟨started, withCores, power⟩ := quiet
        have notPowered := (silent.resolve_left started).resolve_left power
        rw [adaptNodes_same, kept.layout]
        intro entry mem live
        rw [kept.jobs] at mem live ⊢
        refine Bool.eq_false_of_not_eq_true fun isSome => notPowered ?_
        exact ⟨Bool.eq_true_of_not_eq_false withCores, entry, mem, live, isSome⟩
  · refine ⟨kept.records.testFuture bitmap mode, ?_, kept.layout⟩
    rw [World.testFuture, willRun]
    simpa using kept.jobs
  · refine ⟨kept.records.testReal bitmap mode, ?_, kept.layout⟩
    have notGiven : ¬ ((w'.testReal p bitmap mode).1.success = true ∧ mode.runNow = true) := by
      rintro ⟨success, runNow⟩
      rcases fails with willRun | failed
      · rw [willRun] at runNow
        cases runNow
      · rw [failed] at success
        cases success
    exact (if_neg notGiven).trans kept.jobs

theorem Untouched.conserves {w w' : World} (kept : Untouched p w w') : Conserves p w w' :=
  ⟨kept.records, kept.layout⟩

theorem Untouched.refl (p : Pending) (w : World) : Untouched p w w := ⟨.refl p w, rfl, rfl⟩

theorem conserves_of_ends {w w' : World} (ends : Keeps.Ends p (Untouched p w) w') :
    Conserves p w w' := by
  rcases ends with kept | ⟨before, bitmap, mode, kept, rfl⟩
  · exact kept.conserves
  · exact ⟨kept.records.testReal bitmap mode, kept.layout⟩

/-! ## Cores that go dark -/

section Dark

variable {jobs : Nat → JobInfo}

/-- All cores are idle or off, and nothing has happened to the jobs. -/
structure Lit (jobs : Nat → JobInfo) (w : World) : Prop where
  idle : w.layout.Idle 5
  jobs_eq : w.jobs = jobs
  started : w.initializing = false

/-- As before, and some core is off. -/
structure Dimmed (jobs : Nat → JobInfo) (w : World) : Prop extends Lit jobs w where
  dark : w.layout.Dark

theorem Lit.rmJob {w : World} (lit : Lit jobs w)
    (small : ∀ job, (jobs job).jobResrcs.coreBitmap.length ≤ 2 ^ 32) (job : ActiveJob)
    (action : Nat) :
    Lit jobs (w.rmJob c cfg job action) ∧
      ((w.layout.Dark ∨ cfg.powerPerCore = true ∧ Powered c jobs job) →
        (w.rmJob c cfg job action).layout.Dark) := by
  have after : (w.rmJob c cfg job action).jobs = jobs := (rmJob_jobs w job action).trans lit.jobs_eq
  have layoutEq : (w.rmJob c cfg job action).layout =
      if w.initializing ∨ (w.jobs job.jobId).hasCores = false ∨ cfg.powerPerCore = false then
        w.layout
      else World.adaptNodes c w.layout (w.jobs job.jobId).jobResrcs job.cpuFreqMax := rfl
  rw [lit.jobs_eq, lit.started] at layoutEq
  by_cases quiet : false = true ∨ (jobs job.jobId).hasCores = false ∨ cfg.powerPerCore = false
  · rw [if_pos quiet] at layoutEq
    refine ⟨⟨layoutEq ▸ lit.idle, after, lit.started⟩, fun cause => layoutEq ▸ ?_⟩
    refine cause.resolve_right fun ⟨power, withCores, _⟩ => ?_
    rcases quiet with starting | without | off
    · cases starting
    · rw [withCores] at without
      cases without
    · rw [power] at off
      cases off
  · rw [if_neg quiet] at layoutEq
    obtain ⟨idle, dark⟩ := adaptNodes_dark (c := c) lit.idle (small job.jobId) job.cpuFreqMax
    refine ⟨⟨layoutEq ▸ idle, after, lit.started⟩, fun cause => layoutEq ▸ dark ?_⟩
    exact cause.imp_right fun powered => powered.2.2

theorem Lit.rmJob_dimmed {w : World} (lit : Lit jobs w)
    (small : ∀ job, (jobs job).jobResrcs.coreBitmap.length ≤ 2 ^ 32) {job : ActiveJob}
    (action : Nat) (cause : w.layout.Dark ∨ cfg.powerPerCore = true ∧ Powered c jobs job) :
    Dimmed jobs (w.rmJob c cfg job action) :=
  ⟨(lit.rmJob small job action).1, (lit.rmJob small job action).2 cause⟩

theorem keeps_lit (c : Cluster) (cfg : SimConfig) (p : Pending)
    (small : ∀ job, (jobs job).jobResrcs.coreBitmap.length ≤ 2 ^ 32) :
    Keeps c cfg p (fun _ => True) (Lit jobs) := by
  refine ⟨fun w lit => ⟨lit.idle, lit.jobs_eq, lit.started⟩,
    fun w job action _ lit => (lit.rmJob small job action).1,
    fun w bitmap mode willRun lit => ⟨lit.idle, ?_, lit.started⟩,
    fun w bitmap mode fails lit => ⟨lit.idle, ?_, lit.started⟩⟩
  · rw [World.testFuture, willRun]
    simpa using lit.jobs_eq
  · exact ((keeps_untouched c cfg p w).testReal w bitmap mode fails (.refl p w)).jobs.trans
      lit.jobs_eq

theorem keeps_dimmed (c : Cluster) (cfg : SimConfig) (p : Pending)
    (small : ∀ job, (jobs job).jobResrcs.coreBitmap.length ≤ 2 ^ 32) :
    Keeps c cfg p (fun _ => True) (Dimmed jobs) := by
  have lit := keeps_lit c cfg p small
  refine ⟨fun w dimmed => ⟨lit.dup w dimmed.toLit, dimmed.dark⟩, fun w job action _ dimmed => ?_,
    fun w bitmap mode willRun dimmed =>
      ⟨lit.testFuture w bitmap mode willRun dimmed.toLit, dimmed.dark⟩,
    fun w bitmap mode fails dimmed =>
      ⟨lit.testReal w bitmap mode fails dimmed.toLit, dimmed.dark⟩⟩
  exact dimmed.toLit.rmJob_dimmed small action (Or.inl dimmed.dark)

theorem gatherJobs_dimmed (small : ∀ job, (jobs job).jobResrcs.coreBitmap.length ≤ 2 ^ 32)
    (power : cfg.powerPerCore = true) {target : ActiveJob} (powered : Powered c jobs target)
    (considered : target.considered = true)
    (preemptable : target.isPreemptable p.preempteeCandidates = true)
    (mode : target.preemptMode ≠ 0) {jobList : List ActiveJob} (mem : target ∈ jobList)
    {st : Gathered} (lit : Lit jobs st.world) :
    Dimmed jobs (jobList.foldl (gatherJob c cfg p) st).world := by
  induction jobList generalizing st with
  | nil => cases mem
  | cons job rest ih =>
    rw [foldl_cons]
    rcases mem_cons.mp mem with rfl | later
    · refine (keeps_dimmed c cfg p small).gatherJobs (fun _ _ _ _ => trivial) ?_
      unfold gatherJob
      rw [if_neg (by rw [considered]; decide), if_pos preemptable, if_neg mode]
      split_ifs
      · exact lit.rmJob_dimmed small 2 (Or.inr ⟨power, powered⟩)
      · exact lit.rmJob_dimmed small 0 (Or.inr ⟨power, powered⟩)
    · have after : Lit jobs ([job].foldl (gatherJob c cfg p) st).world :=
        (keeps_lit c cfg p small).gatherJobs (fun _ _ _ _ => trivial) lit
      exact ih later after

theorem overlaps_union {job : ActiveJob} {bitmap : Finset Nat} (overlap : job.overlaps bitmap = true)
    (other : Finset Nat) : job.overlaps (other ∪ bitmap) = true := by
  rw [ActiveJob.overlaps, decide_eq_true_eq] at overlap ⊢
  exact fun apart => overlap (Finset.disjoint_union_left.mp apart).2

theorem removeWindow_dimmed (small : ∀ job, (jobs job).jobResrcs.coreBitmap.length ≤ 2 ^ 32)
    (power : cfg.powerPerCore = true) {target : ActiveJob} (powered : Powered c jobs target)
    (overlap : target.overlaps p.bitmap = true) (timeWindow : Int) {list : List ActiveJob}
    (mem : target ∈ list) {st : Window} (lit : Lit jobs st.world) :
    Dimmed jobs (removeWindow c cfg p timeWindow list st).1.world ∨
      Lit jobs (removeWindow c cfg p timeWindow list st).1.world ∧
        target ∈ (removeWindow c cfg p timeWindow list st).2.1 := by
  induction list generalizing st with
  | nil => cases mem
  | cons job rest ih =>
    rw [removeWindow]
    rcases mem_cons.mp mem with rfl | later
    · have dimmed := lit.rmJob_dimmed small 0 (Or.inr ⟨power, powered⟩)
      rw [if_neg (by rw [overlaps_union overlap]; decide)]
      left
      split_ifs with full
      · exact dimmed
      · cases rest with
        | nil => exact dimmed
        | cons nextJob others =>
          dsimp only
          split_ifs with late
          · exact dimmed
          · exact (keeps_dimmed c cfg p small).removeWindow _ (fun _ _ _ _ => trivial) dimmed
    · split_ifs with skipped full
      · exact ih later lit
      · exact Or.inr ⟨(lit.rmJob small job 0).1, later⟩
      · cases rest with
        | nil => cases later
        | cons nextJob others =>
          dsimp only
          split_ifs with late
          · exact Or.inr ⟨(lit.rmJob small job 0).1, later⟩
          · exact ih later (lit.rmJob small job 0).1

variable (c cfg p) in
/-- A window that removes nothing, or after which there are no more jobs, has come to
the end of the list. -/
theorem removeWindow_ends (timeWindow : Int) (list : List ActiveJob) (st : Window)
    (ends : (removeWindow c cfg p timeWindow list st).2.2 = false ∨
      (removeWindow c cfg p timeWindow list st).1.lastJob = none) :
    (removeWindow c cfg p timeWindow list st).2.1 = [] := by
  induction list generalizing st with
  | nil => rfl
  | cons job rest ih =>
    rw [removeWindow] at ends ⊢
    split_ifs at ends ⊢ with skipped full
    · exact ih _ ends
    · rcases ends with more | none_
      · cases more
      · cases none_
    · cases rest with
      | nil => rfl
      | cons nextJob others =>
        dsimp only at ends ⊢
        split_ifs at ends ⊢ with late
        · rcases ends with more | none_
          · cases more
          · cases none_
        · exact ih _ ends

theorem testWindows_dimmed (small : ∀ job, (jobs job).jobResrcs.coreBitmap.length ≤ 2 ^ 32)
    (power : cfg.powerPerCore = true) {target : ActiveJob} (powered : Powered c jobs target)
    (overlap : target.overlaps p.bitmap = true)
    (fails : ∀ parts usage bitmap mode, (p.test.answer parts usage bitmap mode).success = false)
    {qosPreemptor : Bool} {preempted : List ActiveJob} {fuel : Nat} {timeWindow : Int}
    {list removed : List ActiveJob} (inside : target ∈ list) (enough : list.length < fuel)
    {world : World} {bitmap : Finset Nat} (within : bitmap ⊆ p.bitmap) (lit : Lit jobs world) :
    Dimmed jobs (testWindows c cfg p now (fun _ => false) qosPreemptor preempted fuel timeWindow
      list world bitmap removed).world := by
  induction fuel generalizing timeWindow list world bitmap removed with
  | zero => exact absurd enough (Nat.not_lt_zero _)
  | succ fuel ih =>
    have either := removeWindow_dimmed (p := p) small power powered overlap timeWindow inside
      (show Lit jobs (Window.mk world bitmap none none 0 removed).world from lit)
    have ends := removeWindow_ends c cfg p timeWindow list ⟨world, bitmap, none, none, 0, removed⟩
    obtain ⟨taken, spec⟩ := removeWindow_spec (c := c) timeWindow list
      ⟨world, bitmap, none, none, 0, removed⟩ within
    rw [testWindows]
    generalize removeWindow c cfg p timeWindow list ⟨world, bitmap, none, none, 0, removed⟩ =
      outcome at either ends spec ⊢
    obtain ⟨st, rest, more⟩ := outcome
    dsimp only at either ends ⊢
    cases lastEq : st.lastJob with
    | none =>
      refine either.resolve_right fun still => ?_
      have later := still.2
      rw [ends (Or.inr lastEq)] at later
      cases later
    | some last =>
      have failed : (st.world.testFuture p st.bitmap
          ⟨false, cfg.backfillBusyNodes, qosPreemptor, true⟩).1.success = false :=
        fails _ _ _ _
      have narrow : (st.world.testFuture p st.bitmap
          ⟨false, cfg.backfillBusyNodes, qosPreemptor, true⟩).1.nodes ⊆ p.bitmap :=
        World.testFuture_nodes.trans spec.inside
      have dimmed := keeps_dimmed c cfg p small
      dsimp only
      rw [if_neg (by rw [failed]; decide)]
      cases more with
      | false =>
        refine dimmed.testFuture _ _ _ rfl (either.resolve_right fun still => ?_)
        have later := still.2
        rw [ends (Or.inl rfl)] at later
        cases later
      | true =>
        rcases either with dark | ⟨stillLit, later⟩
        · exact dimmed.testWindows narrow (fun _ _ _ _ => trivial)
            (dimmed.testFuture _ _ _ rfl dark)
        · refine ih later ?_ narrow ((keeps_lit c cfg p small).testFuture _ _ _ rfl stillLit)
          have fewer := length_pos_of_ne_nil (spec.progress (ne_nil_of_mem inside))
          have split := congrArg List.length spec.split
          rw [length_append] at split
          dsimp only at split
          omega

end Dark

/-! ## When simulations leak -/

/-- A test that no job passes. -/
def hopeless : CrJobTest where
  answer _ _ bitmap _ :=
    ⟨false, bitmap, false, ⟨none, ⟨[], [], [], ∅, 0, 0, [], 0⟩, false, false⟩, false⟩
  narrows _ _ bitmap _ := Finset.Subset.refl bitmap

theorem idleLayout_idle : idleLayout.Idle 5 := ⟨fun _ => rfl, fun _ => Or.inr rfl⟩

theorem Conserves.not_dimmed {jobs : Nat → JobInfo} {w w' : World}
    (kept : Conserves p { w with layout := idleLayout } w') : ¬ Dimmed jobs w' := by
  rintro ⟨_, core, off⟩
  rw [kept.layout] at off
  exact absurd (show (5 : UInt32) = 0 from off) (by decide)

section Leaks

variable {jobs : Nat → JobInfo} {target : ActiveJob} {jobList : List ActiveJob} {w : World}
  (small : ∀ job, (jobs job).jobResrcs.coreBitmap.length ≤ 2 ^ 32)
  (power : cfg.powerPerCore = true) (powered : Powered c jobs target)

theorem willRunTest_of_fails
    (fails : ∀ parts usage bitmap mode, (p.test.answer parts usage bitmap mode).success = false) :
    willRunTest c cfg p now quits jobList w = simulateEnds c cfg p now quits jobList
        (w.testReal p p.bitmap ⟨false, false, false, false⟩).2
        (w.testReal p p.bitmap ⟨false, false, false, false⟩).1.nodes := by
  have failed : (w.testReal p p.bitmap ⟨false, false, false, false⟩).1.success = false :=
    fails _ _ _ _
  unfold willRunTest
  dsimp only
  rw [if_neg (by rw [failed]; decide)]

include small power powered

theorem preempting_dimmed (considered : target.considered = true)
    (preemptable : target.isPreemptable p.preempteeCandidates = true)
    (mode : target.preemptMode ≠ 0) (mem : target ∈ jobList)
    (fails : ∀ parts usage bitmap mode, (p.test.answer parts usage bitmap mode).success = false)
    (lit : Lit jobs w) : Dimmed jobs (willRunTest c cfg p now quits jobList w).world := by
  have keeps := keeps_lit c cfg p small
  rw [willRunTest_of_fails fails]
  refine (keeps_dimmed c cfg p small).simulateEnds_gathered (fun _ _ _ => trivial)
    World.testReal_nodes ?_
  exact gatherJobs_dimmed small power powered considered preemptable mode mem
    (keeps.dup _ (keeps.testReal _ _ _ (Or.inl rfl) lit))

theorem awaiting_dimmed (considered : target.considered = true)
    (overlap : target.overlaps p.bitmap = true) (mem : target ∈ jobList)
    (candidates : p.preempteeCandidates = none) (later : p.testNowOnly = false)
    (fails : ∀ parts usage bitmap mode, (p.test.answer parts usage bitmap mode).success = false)
    (lit : Lit jobs w) : Dimmed jobs (willRunTest c cfg p now (fun _ => false) jobList w).world := by
  have keeps := keeps_lit c cfg p small
  have gathered : Lit jobs (jobList.foldl (gatherJob c cfg p)
      ⟨(w.testReal p p.bitmap ⟨false, false, false, false⟩).2.dup, false, [], []⟩).world :=
    keeps.gatherJobs (fun _ _ _ _ => trivial)
      (keeps.dup _ (keeps.testReal w p.bitmap ⟨false, false, false, false⟩ (Or.inl rfl) lit))
  have listed := (foldl_gatherJob c cfg p jobList
    ⟨(w.testReal p p.bitmap ⟨false, false, false, false⟩).2.dup, false, [], []⟩).1
  rw [willRunTest_of_fails fails]
  unfold simulateEnds
  rw [nil_append] at listed
  rw [candidates, later]
  refine testWindows_dimmed small power powered overlap fails ?_ ?_ World.testReal_nodes gathered
  · rw [mem_qsort, listed, awaited, mem_filter, candidates]
    exact ⟨mem, by simp [considered, ActiveJob.isPreemptable]⟩
  · rw [(qsort_perm _).length_eq]
    exact Nat.lt_succ_self _

theorem running_dimmed (can : target.canBeRemoved = true)
    (candidates : p.preempteeCandidates = some [target])
    (fails : ∀ parts usage bitmap mode, (p.test.answer parts usage bitmap mode).success = false)
    (lit : Lit jobs w) (usable : Nat → Nat) :
    Dimmed jobs (runNow c cfg p 1 usable w).world := by
  have keeps := keeps_lit c cfg p small
  have failsReal : ∀ (w : World) bitmap mode, (w.testReal p bitmap mode).1.success = false :=
    fun _ _ _ => fails _ _ _ _
  have failsFuture : ∀ (w : World) bitmap mode, (w.testFuture p bitmap mode).1.success = false :=
    fun _ _ _ => fails _ _ _ _
  have tested := keeps.testReal w p.bitmap ⟨true, false, false, false⟩ (Or.inr (failsReal _ _ _)) lit
  have removes : ActiveJob.preemptMode target ≠ 1 := by
    intro suspend
    simp [ActiveJob.canBeRemoved, suspend] at can
  simp only [runNow, runNowPasses, failsReal, candidates, preemptPass, head?_cons,
    Option.map_some, Option.some.injEq, removes, false_and, and_false, if_false,
    Bool.false_eq_true, removePreemptees, can, Bool.true_eq_false, failsFuture]
  exact (keeps_dimmed c cfg p small).testFuture _ _ _ rfl
    ((keeps.dup _ tested).rmJob_dimmed small 0 (Or.inr ⟨power, powered⟩))

end Leaks

variable (now) in
theorem exists_dimmed {jobList : List ActiveJob} {w : World} (started : w.initializing = false)
    (small : ∀ job, (w.jobs job).jobResrcs.coreBitmap.length ≤ 2 ^ 32)
    (power : cfg.powerPerCore = true) {target : ActiveJob} (inside : target ∈ jobList)
    (removable : target.removable = true) (powered : Powered c w.jobs target) :
    ∃ p : Pending, (∀ list, p.preempteeCandidates = some list → list ⊆ jobList) ∧
      (Dimmed w.jobs (willRunTest c cfg p now (fun _ => false) jobList
          { w with layout := idleLayout }).world ∨
        Dimmed w.jobs (runNow c cfg p 1 (fun _ => 0) { w with layout := idleLayout }).world) := by
  have lit : Lit w.jobs { w with layout := idleLayout } := ⟨idleLayout_idle, rfl, started⟩
  have candidate : ∀ list, some [target] = some list → list ⊆ jobList := by
    rintro list same
    cases same
    exact fun job here => mem_singleton.mp here ▸ inside
  have self : target.isPreemptable (some [target]) = true := by simp [ActiveJob.isPreemptable]
  rw [ActiveJob.removable, Bool.or_eq_true, Bool.and_eq_true, Bool.or_eq_true] at removable
  rcases removable with ⟨considered, mode | bitmap⟩ | can
  · exact ⟨⟨0, 0, ∅, true, some [target], hopeless⟩, candidate,
      Or.inl (preempting_dimmed small power powered considered self (by simpa using mode) inside
        (fun _ _ _ _ => rfl) lit)⟩
  · have some_ : target.nodeBitmap.getD ∅ ≠ ∅ := by
      intro empty
      cases bitmapEq : target.nodeBitmap with
      | none => simp [ActiveJob.considered, bitmapEq] at considered
      | some nodes =>
        rw [bitmapEq, Option.getD_some] at empty
        simp [bitmapEq, empty] at bitmap
    have noCandidate : ∀ list, (none : Option (List ActiveJob)) = some list → list ⊆ jobList :=
      fun _ none_ => absurd none_.symm (Option.some_ne_none _)
    refine ⟨⟨0, 0, target.nodeBitmap.getD ∅, false, none, hopeless⟩, noCandidate, Or.inl ?_⟩
    refine awaiting_dimmed small power powered considered ?_ inside rfl rfl (fun _ _ _ _ => rfl) lit
    rw [ActiveJob.overlaps, decide_eq_true_eq, Finset.disjoint_self_iff_empty]
    exact some_
  · exact ⟨⟨0, 0, ∅, false, some [target], hopeless⟩, candidate,
      Or.inr (running_dimmed small power powered can rfl (fun _ _ _ _ => rfl) lit _)⟩

/-- No call leaks, whatever the power of the cores and whatever the pending job, exactly
when power is not accounted for each core or no job that can be removed has a core. -/
theorem simulation_conserves_iff (c : Cluster) (cfg : SimConfig) (now : Int)
    (jobList : List ActiveJob) (w : World)
    (small : ∀ job, (w.jobs job).jobResrcs.coreBitmap.length ≤ 2 ^ 32) :
    (∀ (layout : PowerLayout) (p : Pending),
        (∀ list, p.preempteeCandidates = some list → list ⊆ jobList) →
      (∀ quits, Conserves p { w with layout := layout }
        (willRunTest c cfg p now quits jobList { w with layout := layout }).world) ∧
      ∀ passes usable, Conserves p { w with layout := layout }
        (runNow c cfg p passes usable { w with layout := layout }).world) ↔
    w.initializing = true ∨ cfg.powerPerCore = false ∨
      ∀ job ∈ jobList, job.removable = true → ¬ Powered c w.jobs job := by
  constructor
  · intro conserves
    by_contra leaks
    push Not at leaks
    obtain ⟨starting, power, job, inside, removable, powered⟩ := leaks
    obtain ⟨p, candidates, willRun | runs⟩ := exists_dimmed now
      (Bool.eq_false_of_not_eq_true starting) small (Bool.eq_true_of_not_eq_false power) inside
      removable powered
    · exact ((conserves idleLayout p candidates).1 _).not_dimmed willRun
    · exact ((conserves idleLayout p candidates).2 _ _).not_dimmed runs
  · intro condition layout p candidates
    have silent : ∀ job ∈ jobList, job.removable = true →
        Silent c cfg { w with layout := layout } job := by
      intro job inside removable
      exact condition.imp_right fun more => more.imp_right fun none_ => none_ job inside removable
    have keeps := keeps_untouched c cfg p { w with layout := layout }
    refine ⟨fun quits => (keeps.willRunTest silent (.refl _ _)).conserves, fun passes usable => ?_⟩
    refine conserves_of_ends (keeps.runNowPasses (fun list listEq job inside can => ?_) (.refl _ _))
    exact silent job (candidates list listEq inside) (removable_of_canBeRemoved can)

theorem twoHolders_small (job : Nat) :
    (twoHolders.jobs job).jobResrcs.coreBitmap.length ≤ 2 ^ 32 := by
  unfold twoHolders
  dsimp only
  split_ifs <;> decide

theorem simulation_conserves_without_power :
    (∀ quits, Conserves (wantsNode none) { twoHolders with layout := idleLayout }
        (willRunTest fourCores plainConfig (wantsNode none) 1000 quits
          [runsUntil 0 1500, runsUntil 1 1200] { twoHolders with layout := idleLayout }).world) ∧
      ∀ passes usable, Conserves (wantsNode none) { twoHolders with layout := idleLayout }
        (runNow fourCores plainConfig (wantsNode none) passes usable
          { twoHolders with layout := idleLayout }).world :=
  (simulation_conserves_iff fourCores plainConfig 1000 [runsUntil 0 1500, runsUntil 1 1200]
    twoHolders twoHolders_small).mpr (Or.inr (Or.inl (by decide))) idleLayout (wantsNode none)
    (fun _ isNone => nomatch isNone)

/-- A power cap and a layout with the power of every core. -/
def cappedConfig : SimConfig := { plainConfig with clusterCap := 1000, powerLayout := 2 }

/-- The cores of the two jobs take 20 watts, the other two are idle. -/
def busyHolders : World :=
  { twoHolders with
    layout := { idleLayout with currentCorePower := fun core => if core < 2 then 20 else 5 } }

/-- A prediction switches off the cores of both jobs, which go on running. -/
theorem simulation_conserves_fails :
    busyHolders.layout.currentCorePower 0 = 20 ∧
      (willRunTest fourCores cappedConfig (wantsNode none) 1000 (fun _ => false)
        [runsUntil 0 1500, runsUntil 1 1200] busyHolders).world.layout.currentCorePower 0 = 0 ∧
      ¬ Conserves (wantsNode none) busyHolders
        (willRunTest fourCores cappedConfig (wantsNode none) 1000 (fun _ => false)
          [runsUntil 0 1500, runsUntil 1 1200] busyHolders).world := by
  have before : busyHolders.layout.currentCorePower 0 = 20 := rfl
  have after : (willRunTest fourCores cappedConfig (wantsNode none) 1000 (fun _ => false)
      [runsUntil 0 1500, runsUntil 1 1200] busyHolders).world.layout.currentCorePower 0 = 0 := by
    decide +kernel
  refine ⟨before, after, fun kept => ?_⟩
  rw [kept.layout, before] at after
  cases after

end SlurmSim.Select
