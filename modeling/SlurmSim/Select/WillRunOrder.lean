import SlurmSim.Select.WillRun

/-!
# Predicted start times

Every window takes the next jobs off the sorted list, so that the jobs removed are
those at its front that share a node with the candidates.  The start time is the
expected end of the last of them.
-/

namespace SlurmSim.Select

open SlurmSim.Common SlurmSim.Lib List

variable {c : Cluster} {cfg : SimConfig} {p : Pending} {now : Int} {quits : Nat → Bool}

/-! ## One window -/

/-- What a window does to a list of jobs. -/
structure WindowSpec (p : Pending) (list : List ActiveJob) (st st' : Window)
    (taken rest : List ActiveJob) : Prop where
  split : list = taken ++ rest
  removed : st'.removed = st.removed ++ taken.filter (·.overlaps p.bitmap)
  last : st'.lastJob = (taken.filter (·.overlaps p.bitmap)).getLast?.or st.lastJob
  inside : st'.bitmap ⊆ p.bitmap
  progress : list ≠ [] → taken ≠ []

theorem getLast?_cons_or {α : Type} (a : α) (l : List α) (other : Option α) :
    (a :: l).getLast?.or other = l.getLast?.or (some a) := by
  rw [getLast?_cons]
  cases l.getLast? <;> rfl

theorem removeWindow_spec (timeWindow : Int) (list : List ActiveJob) (st : Window)
    (inside : st.bitmap ⊆ p.bitmap) :
    ∃ taken, WindowSpec p list st (removeWindow c cfg p timeWindow list st).1 taken
      (removeWindow c cfg p timeWindow list st).2.1 := by
  induction list generalizing st with
  | nil => exact ⟨[], rfl, by simp [removeWindow], rfl, inside, fun some_ => absurd rfl some_⟩
  | cons job rest ih =>
    have whole : st.bitmap ∪ p.bitmap = p.bitmap := Finset.union_eq_right.mpr inside
    rw [removeWindow]
    rw [whole]
    by_cases skipped : job.overlaps p.bitmap = false
    · rw [if_pos skipped]
      obtain ⟨taken, spec⟩ := ih { st with bitmap := p.bitmap } (Finset.Subset.refl _)
      have filtered : (job :: taken).filter (·.overlaps p.bitmap) =
          taken.filter (·.overlaps p.bitmap) :=
        filter_cons_of_neg (by simp [skipped])
      refine ⟨job :: taken, ?_, ?_, ?_, spec.inside, fun _ => cons_ne_nil _ _⟩
      · rw [cons_append, ← spec.split]
      · rw [filtered, spec.removed]
      · rw [filtered, spec.last]
    · rw [if_neg skipped]
      have overlap : job.overlaps p.bitmap = true := Bool.eq_true_of_not_eq_false skipped
      have single : [job].filter (·.overlaps p.bitmap) = [job] := by
        simp [overlap]
      have stops : ∀ st' : Window, st'.removed = st.removed ++ [job] → st'.lastJob = some job →
          st'.bitmap = p.bitmap → WindowSpec p (job :: rest) st st' [job] rest := by
        intro st' removed last bitmap
        refine ⟨rfl, ?_, ?_, ?_, fun _ => cons_ne_nil _ _⟩
        · rw [single, removed]
        · rw [single, last]
          rfl
        · rw [bitmap]
      split_ifs with full
      · exact ⟨[job], stops _ rfl rfl rfl⟩
      · cases rest with
        | nil => exact ⟨[job], stops _ rfl rfl rfl⟩
        | cons nextJob others =>
          dsimp only
          split_ifs with late
          · exact ⟨[job], stops _ rfl rfl rfl⟩
          · obtain ⟨taken, spec⟩ := ih
              { world := st.world.rmJob c cfg job 0
                bitmap := p.bitmap
                firstJob := some (st.firstJob.getD job)
                lastJob := some job
                rmJobCnt := st.rmJobCnt + 1
                removed := st.removed ++ [job] } (Finset.Subset.refl _)
            have filtered : (job :: taken).filter (·.overlaps p.bitmap) =
                job :: taken.filter (·.overlaps p.bitmap) :=
              filter_cons_of_pos overlap
            refine ⟨job :: taken, ?_, ?_, ?_, spec.inside, fun _ => cons_ne_nil _ _⟩
            · rw [cons_append, ← spec.split]
            · rw [filtered, spec.removed, append_assoc, singleton_append]
            · rw [filtered, spec.last, getLast?_cons_or]

/-! ## All windows -/

/-- What is known when the job fits after the end of some jobs of a list. -/
def Fits (cfg : SimConfig) (p : Pending) (now : Int) (list removed : List ActiveJob)
    (result : Prediction) : Prop :=
  ∃ taken last, taken <+: list.filter (·.overlaps p.bitmap) ∧
    result.removed = removed ++ taken ∧ taken.getLast? = some last ∧
    result.startTime = some (last.expectedEnd cfg now)

variable {qosPreemptor : Bool} {preempted : List ActiveJob}

theorem testWindows_fits {fuel : Nat} {timeWindow : Int} {list removed : List ActiveJob}
    {world : World} {bitmap : Finset Nat} (mem : bitmap ⊆ p.bitmap)
    (success : (testWindows c cfg p now quits qosPreemptor preempted fuel timeWindow list world
      bitmap removed).success = true) :
    Fits cfg p now list removed (testWindows c cfg p now quits qosPreemptor preempted fuel
      timeWindow list world bitmap removed) := by
  induction fuel generalizing timeWindow list world bitmap removed with
  | zero => cases success
  | succ fuel ih =>
    obtain ⟨taken, spec⟩ := removeWindow_spec (c := c) timeWindow list
      ⟨world, bitmap, none, none, 0, removed⟩ mem
    rw [testWindows] at success ⊢
    generalize removeWindow c cfg p timeWindow list ⟨world, bitmap, none, none, 0, removed⟩ =
      outcome at spec success ⊢
    obtain ⟨st, rest, more⟩ := outcome
    obtain ⟨split, removed_, last_, inside_, _⟩ := spec
    rw [Option.or_none] at last_
    dsimp only at split removed_ last_ inside_ success ⊢
    have front : taken.filter (·.overlaps p.bitmap) <+: list.filter (·.overlaps p.bitmap) := by
      rw [split, filter_append]
      exact prefix_append _ _
    cases lastEq : st.lastJob with
    | none =>
      rw [lastEq] at success
      cases success
    | some last =>
      rw [lastEq] at success last_
      dsimp only at success ⊢
      split_ifs at success ⊢ with fits quits_
      · exact ⟨_, last, front, removed_, last_.symm, rfl⟩
      · obtain ⟨more_, last', front', removed', lastEq', start⟩ :=
          ih (World.testFuture_nodes.trans inside_) success
        refine ⟨taken.filter (·.overlaps p.bitmap) ++ more_, last', ?_, ?_, ?_, start⟩
        · rw [split, filter_append]
          exact (prefix_append_right_inj _).mpr front'
        · rw [removed', removed_, append_assoc]
        · rw [getLast?_append, lastEq']
          rfl

theorem testWindows_preempted (fuel : Nat) (timeWindow : Int) (list removed : List ActiveJob)
    (world : World) (bitmap : Finset Nat) :
    (testWindows c cfg p now quits qosPreemptor preempted fuel timeWindow list world bitmap
      removed).preempted = preempted := by
  induction fuel generalizing timeWindow list world bitmap removed with
  | zero => rfl
  | succ fuel ih =>
    rw [testWindows]
    dsimp only
    split
    · rfl
    · split_ifs
      · rfl
      · rfl
      · exact ih _ _ _ _ _

/-! ## Gathering the jobs -/

/-- The preemptable jobs that are removed before all others. -/
def preemptees (p : Pending) (jobList : List ActiveJob) : List ActiveJob :=
  jobList.filter fun job =>
    job.considered && job.isPreemptable p.preempteeCandidates && job.preemptMode != 0

/-- The jobs whose ends are waited for. -/
def awaited (p : Pending) (jobList : List ActiveJob) : List ActiveJob :=
  jobList.filter fun job => job.considered && !job.isPreemptable p.preempteeCandidates

variable (c cfg p) in
theorem foldl_gatherJob (jobList : List ActiveJob) (st : Gathered) :
    (jobList.foldl (gatherJob c cfg p) st).crJobList = st.crJobList ++ awaited p jobList ∧
      (jobList.foldl (gatherJob c cfg p) st).preempted =
        st.preempted ++ preemptees p jobList := by
  induction jobList generalizing st with
  | nil => exact ⟨(append_nil _).symm, (append_nil _).symm⟩
  | cons job rest ih =>
    obtain ⟨listed, first⟩ := ih (gatherJob c cfg p st job)
    rw [foldl_cons, listed, first]
    unfold gatherJob awaited preemptees
    split_ifs with passed preemptable off suspend
    · simp [passed]
    · simp [preemptable, off]
    · simp [passed, preemptable, off]
    · simp [passed, preemptable, off]
    · simp [passed, preemptable]

/-! ## The order of the ends -/

theorem expectedEnd_spec (job : ActiveJob) :
    now < job.expectedEnd cfg now ∧ job.endTime ≤ job.expectedEnd cfg now := by
  unfold ActiveJob.expectedEnd
  split_ifs with overdue
  · unfold ActiveJob.guessJobEnd
    dsimp only
    generalize (if job.overTimeLimit.getD cfg.overTimeLimit = 0 then _ else _ : Int) = guess
    split_ifs <;> omega
  · omega

/-- End times of jobs that lie in one range of `int`. -/
def EndsNear (jobs : List ActiveJob) : Prop :=
  ∀ a ∈ jobs, ∀ b ∈ jobs, a.endTime - b.endTime < 2 ^ 31

instance (jobs : List ActiveJob) : Decidable (EndsNear jobs) :=
  inferInstanceAs (Decidable (∀ a ∈ jobs, ∀ b ∈ jobs, a.endTime - b.endTime < 2 ^ 31))

variable {jobs jobList : List ActiveJob}

theorem crJobListSort_eq (near : EndsNear jobs) {a b : ActiveJob} (insideA : a ∈ jobs)
    (insideB : b ∈ jobs) : crJobListSort a b = a.endTime - b.endTime := by
  have upper := near a insideA b insideB
  have lower := near b insideB a insideA
  refine Int.bmod_eq_of_le ?_ ?_ <;> omega

theorem crJobListSort_orders (near : EndsNear jobs) : Orders crJobListSort (· ∈ jobs) := by
  refine ⟨fun a b insideA insideB after => ?_, fun a b c insideA insideB insideC ab bc => ?_⟩
  · rw [crJobListSort_eq near insideA insideB] at after
    rw [crJobListSort_eq near insideB insideA]
    omega
  · rw [crJobListSort_eq near insideA insideB] at ab
    rw [crJobListSort_eq near insideB insideC] at bc
    rw [crJobListSort_eq near insideA insideC]
    omega

theorem qsort_ends (near : EndsNear jobs) :
    (qsort crJobListSort jobs).Pairwise fun a b => a.endTime ≤ b.endTime := by
  refine ((crJobListSort_orders near).qsort_pairwise fun a mem => mem).imp_of_mem ?_
  intro a b insideA insideB le
  rw [crJobListSort_eq near (mem_qsort.mp insideA) (mem_qsort.mp insideB)] at le
  omega

/-! ## The prediction -/

/-- The awaited jobs that share a node with the candidates. -/
def rivals (p : Pending) (jobList : List ActiveJob) : List ActiveJob :=
  (awaited p jobList).filter (·.overlaps p.bitmap)

/-- A start time that waits for the jobs removed. -/
structure WaitsFor (cfg : SimConfig) (p : Pending) (now : Int) (jobList : List ActiveJob)
    (result : Prediction) : Prop where
  preempted : result.preempted = preemptees p jobList
  order : ∃ order, order.Perm (rivals p jobList) ∧
    order.Pairwise (fun a b => a.endTime ≤ b.endTime) ∧ result.removed <+: order
  start : ∃ last start, result.removed.getLast? = some last ∧ result.startTime = some start ∧
    start = last.expectedEnd cfg now ∧ now < start ∧ ∀ job ∈ result.removed, job.endTime ≤ start

theorem Fits.waitsFor {result : Prediction}
    (fits : Fits cfg p now (qsort crJobListSort (awaited p jobList)) [] result)
    (near : EndsNear (awaited p jobList)) (preempted : result.preempted = preemptees p jobList) :
    WaitsFor cfg p now jobList result := by
  obtain ⟨taken, last, front, removed, lastEq, start⟩ := fits
  rw [nil_append] at removed
  have sorted := (qsort_ends near).filter (·.overlaps p.bitmap)
  refine ⟨preempted, ⟨_, (qsort_perm _).filter _, sorted, removed ▸ front⟩, ?_⟩
  refine ⟨last, _, removed ▸ lastEq, start, rfl, (expectedEnd_spec last).1, fun job mem => ?_⟩
  rw [removed] at mem
  obtain ⟨before, rfl⟩ := getLast?_eq_some_iff.mp lastEq
  have inOrder := sorted.sublist front.sublist
  rcases mem_append.mp mem with earlier | here
  · exact ((pairwise_append.mp inOrder).2.2 job earlier last (mem_singleton_self _)).trans
      (expectedEnd_spec last).2
  · rw [mem_singleton.mp here]
    exact (expectedEnd_spec last).2

theorem testWindows_start {world : World} {bitmap : Finset Nat}
    (near : EndsNear (awaited p jobList)) (mem : bitmap ⊆ p.bitmap) {fuel : Nat}
    {timeWindow : Int} {result : Prediction}
    (resultEq : testWindows c cfg p now quits qosPreemptor (preemptees p jobList) fuel timeWindow
      (qsort crJobListSort (awaited p jobList)) world bitmap [] = result)
    (success : result.success = true) :
    (result.removed = [] → result.startTime = some now) ∧
      (result.removed ≠ [] → WaitsFor cfg p now jobList result) := by
  subst resultEq
  have fits := testWindows_fits mem success
  refine ⟨fun none_ => ?_, fun _ => fits.waitsFor near (testWindows_preempted ..)⟩
  obtain ⟨taken, last, _, removed, lastEq, _⟩ := fits
  rw [none_, nil_append] at removed
  rw [← removed] at lastEq
  cases lastEq

theorem simulateEnds_start {world : World} {bitmap : Finset Nat}
    (near : EndsNear (awaited p jobList)) (mem : bitmap ⊆ p.bitmap)
    (success : (simulateEnds c cfg p now quits jobList world bitmap).success = true) :
    ((simulateEnds c cfg p now quits jobList world bitmap).removed = [] →
        (simulateEnds c cfg p now quits jobList world bitmap).startTime = some now) ∧
      ((simulateEnds c cfg p now quits jobList world bitmap).removed ≠ [] →
        WaitsFor cfg p now jobList (simulateEnds c cfg p now quits jobList world bitmap)) := by
  obtain ⟨listed, first⟩ := foldl_gatherJob c cfg p jobList ⟨world.dup, false, [], []⟩
  unfold simulateEnds at success ⊢
  generalize jobList.foldl (gatherJob c cfg p) ⟨world.dup, false, [], []⟩ = st
    at listed first success ⊢
  dsimp only at listed first success ⊢
  rw [listed, first] at success ⊢
  by_cases candidates : p.preempteeCandidates.isSome = true
  · simp only [candidates, if_true] at success ⊢
    have narrow : (st.world.testFuture p (bitmap ∪ p.bitmap)
        ⟨false, false, st.qosPreemptor, true⟩).1.nodes ⊆ p.bitmap :=
      World.testFuture_nodes.trans (Finset.union_subset mem (Finset.Subset.refl _))
    split_ifs at success ⊢ with fits
    · exact ⟨fun _ => rfl, fun some_ => absurd rfl some_⟩
    · exact testWindows_start near narrow rfl success
  · simp only [candidates, Bool.false_eq_true, if_false] at success ⊢
    split_ifs at success ⊢
    exact testWindows_start near mem rfl success

/-- A job that fits without any job ending can start at once.  Otherwise the
preemptable jobs are removed first, then jobs in the order of their end times, and
the start time is the expected end of the last of them. -/
theorem willRunTest_start (c : Cluster) (cfg : SimConfig) (p : Pending) (now : Int)
    (quits : Nat → Bool) (jobList : List ActiveJob) (w : World)
    (near : EndsNear (awaited p jobList))
    (success : (willRunTest c cfg p now quits jobList w).success = true) :
    ((willRunTest c cfg p now quits jobList w).removed = [] →
        (willRunTest c cfg p now quits jobList w).startTime = some now) ∧
      ((willRunTest c cfg p now quits jobList w).removed ≠ [] →
        WaitsFor cfg p now jobList (willRunTest c cfg p now quits jobList w)) := by
  unfold willRunTest at success ⊢
  dsimp only at success ⊢
  by_cases now_ : (w.testReal p p.bitmap ⟨false, false, false, false⟩).1.success = true
  · rw [if_pos now_]
    exact ⟨fun _ => rfl, fun some_ => absurd rfl some_⟩
  rw [if_neg now_] at success ⊢
  have inside : (w.testReal p p.bitmap ⟨false, false, false, false⟩).1.nodes ⊆ p.bitmap :=
    World.testReal_nodes
  revert success
  generalize (w.testReal p p.bitmap ⟨false, false, false, false⟩).1.nodes = bitmap at inside ⊢
  generalize (w.testReal p p.bitmap ⟨false, false, false, false⟩).2 = world
  exact simulateEnds_start near inside

/-- One node of four cores. -/
def fourCores : Cluster := ⟨1, fun _ => 4, fun _ => Nat.succ_pos 3⟩

/-- A job with one core of the node and some of its memory. -/
def holder (core : Nat) (memory : UInt64) : JobInfo where
  partPtr := some 0
  jobResrcs :=
    { coreBitmap := (List.replicate 4 false).set core true, cpus := [1],
      memoryAllocated := [memory], nodeBitmap := {0}, nodeReq := 1, ncpus := 1,
      sockCore := [⟨1, 4, 1⟩], wholeNode := 0 }
  hasCores := true
  suspended := false

/-- A layout of cores that are switched on and idle. -/
def idleLayout : PowerLayout where
  numFreqChoices _ := 0
  cpufreq _ _ := 0
  coresCount _ := 4
  lastCore _ := 3
  cpufreqWatts _ _ := 0
  maxCoreWatts _ := 20
  idleCoreWatts _ := 5
  currentCorePower _ := 5

/-- Jobs 0 and 1 run on the node and hold 40 and 60 units of its memory. -/
def twoHolders : World where
  parts part := if part = 0 then some ⟨1, some [⟨some {0, 1}, [0, 1]⟩]⟩ else none
  usage _ := ⟨100, 2, false⟩
  futureParts _ := none
  futureUsage _ := ⟨0, 0, false⟩
  jobs job := if job = 0 then holder 0 40 else holder 1 60
  layout := idleLayout
  initializing := false

/-- A test that looks for a node of 100 units of memory with all of them free. -/
def wholeMemory : CrJobTest where
  answer _ usage bitmap _ :=
    ⟨decide ((usage 0).allocMemory = 0), bitmap.filter fun node => (usage node).allocMemory = 0,
      false, holder 0 100, false⟩
  narrows _ _ _ _ := Finset.filter_subset _ _

/-- A pending job for the node. -/
def wantsNode (candidates : Option (List ActiveJob)) : Pending :=
  ⟨2, 0, {0}, false, candidates, wholeMemory⟩

def plainConfig : SimConfig := ⟨0, 30, 0, false, false, 1, false, 0, 0⟩

/-- A running job of the node; `PREEMPT_MODE_CANCEL` is 8. -/
def runsUntil (jobId : Nat) (endTime : Int) : ActiveJob :=
  ⟨jobId, true, false, false, endTime, some {0}, none, 8, 0⟩

/-- The prediction at time 1000 with two running jobs. -/
def predict (candidates : Option (List ActiveJob)) (job0 job1 : ActiveJob) : Prediction :=
  willRunTest fourCores plainConfig (wantsNode candidates) 1000 (fun _ => false) [job0, job1]
    twoHolders

theorem willRunTest_start_both :
    WaitsFor plainConfig (wantsNode none) 1000 [runsUntil 0 1500, runsUntil 1 1200]
      (predict none (runsUntil 0 1500) (runsUntil 1 1200)) :=
  (willRunTest_start fourCores plainConfig (wantsNode none) 1000 (fun _ => false)
    [runsUntil 0 1500, runsUntil 1 1200] twoHolders (by decide) (by decide +kernel)).2
    (by decide +kernel)

/-- A preemptable job is removed although it would run long beyond the start time; so
is a job that is overdue and whose end is guessed; and end times that lie too far
apart are taken in the wrong order. -/
theorem willRunTest_start_fails :
    ((predict (some [runsUntil 0 2000]) (runsUntil 0 2000) (runsUntil 1 1010)).success = true ∧
      (predict (some [runsUntil 0 2000]) (runsUntil 0 2000) (runsUntil 1 1010)).preempted =
        [runsUntil 0 2000] ∧
      (predict (some [runsUntil 0 2000]) (runsUntil 0 2000) (runsUntil 1 1010)).startTime =
        some 1010 ∧
      (runsUntil 0 2000).expectedEnd plainConfig 1000 = 2000) ∧
    ((predict none (runsUntil 0 995) (runsUntil 1 1002)).success = true ∧
      (predict none (runsUntil 0 995) (runsUntil 1 1002)).removed =
        [runsUntil 0 995, runsUntil 1 1002] ∧
      (predict none (runsUntil 0 995) (runsUntil 1 1002)).startTime = some 1002 ∧
      (runsUntil 0 995).expectedEnd plainConfig 1000 = 1025) ∧
    ((predict none (runsUntil 0 1010) (runsUntil 1 (1011 + 2 ^ 31))).success = true ∧
      (predict none (runsUntil 0 1010) (runsUntil 1 (1011 + 2 ^ 31))).removed =
        [runsUntil 1 (1011 + 2 ^ 31), runsUntil 0 1010] ∧
      (predict none (runsUntil 0 1010) (runsUntil 1 (1011 + 2 ^ 31))).startTime = some 1010) := by
  decide +kernel

end SlurmSim.Select
