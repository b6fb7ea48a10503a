import SlurmSim.Controller.PlusSingleton

/-!
# Tests of plussingleton jobs

What `test_job_dependency`, `job_independent` and `purge_old_job` may do to a record,
when they cancel it and what it means that a job passes.
-/

namespace SlurmSim.Controller.PlusSingleton

open List

/-! ## The test of one job -/

/-- No dependency in front of the plussingleton one ends the test. -/
def reachesPlus (answer : DependSpec → Answer) (list : List DependSpec) : Bool :=
  (list.takeWhile fun spec => spec.dependType != .plussingleton).all fun spec =>
    spec.dependType == .singleton ||
      (answer spec != .fails && !(answer spec == .lifted && spec.orFlag))

section Loop

variable {answer : DependSpec → Answer} {jobs : List Job} {job : Job}

variable {run : TestRun} {list : List DependSpec}

theorem mem_keep {first spec : DependSpec} {rest : List DependSpec}
    (mem : spec ∈ (run.keep first).dependList ∨ spec ∈ rest) :
    spec ∈ run.dependList ∨ spec ∈ first :: rest := by
  simp only [TestRun.keep, mem_append, mem_cons] at mem ⊢
  tauto

theorem testLoop_sub {spec : DependSpec}
    (mem : spec ∈ (testLoop answer jobs job list run).dependList) :
    spec ∈ run.dependList ∨ spec ∈ list := by
  fun_induction testLoop answer jobs job list run with
  | case1 run => exact .inl mem
  | case2 _ _ _ _ _ ih => exact (ih mem).imp_right (mem_cons_of_mem _)
  | case3 _ _ _ _ _ ih => exact mem_keep (ih mem)
  | case4 _ _ _ _ _ _ ih => exact mem_keep (ih mem)
  | case5 _ _ _ _ _ _ ih => exact mem_keep (ih mem)
  | case6 _ _ _ _ _ _ ih => exact mem_keep (ih mem)
  | case7 _ _ _ _ _ _ ih => exact mem_keep (ih mem)
  | case8 => exact mem_append.mp mem
  | case9 => exact mem_append.mp mem
  | case10 _ _ _ _ _ _ _ ih => exact (ih mem).imp_right (mem_cons_of_mem _)

theorem testLoop_failure (failed : run.failure = true) :
    (testLoop answer jobs job list run).failure = true := by
  fun_induction testLoop answer jobs job list run <;> simp_all [TestRun.keep]

theorem testLoop_kill (kill : run.killInvDep = true) :
    (testLoop answer jobs job list run).killInvDep = true := by
  fun_induction testLoop answer jobs job list run <;> simp_all [TestRun.keep]

theorem testLoop_seen {list : List DependSpec} {run : TestRun} (named : job.name.isSome = true)
    (seen : plusSeen jobs job = true)
    (carries : ∃ spec ∈ list, spec.dependType = .plussingleton)
    (reaches : reachesPlus answer list = true) :
    (testLoop answer jobs job list run).failure = true ∧
      (testLoop answer jobs job list run).killInvDep = true := by
  fun_induction testLoop answer jobs job list run with
  | case1 => simp at carries
  | case2 _ _ _ single _ ih => exact ih (by simp_all) (by simp_all [reachesPlus])
  | case3 _ _ _ single _ ih => exact ih (by simp_all) (by simp_all [reachesPlus])
  | case4 => exact ⟨testLoop_failure rfl, testLoop_kill rfl⟩
  | case5 _ _ _ _ _ unseen => exact absurd seen unseen
  | case6 _ _ _ _ noPlus _ ih => exact ih (by simp_all) (by simp_all [reachesPlus])
  | case7 _ _ _ _ noPlus _ ih => exact ih (by simp_all) (by simp_all [reachesPlus])
  | case8 _ _ _ _ noPlus _ => simp_all [reachesPlus]
  | case9 _ _ _ _ noPlus _ _ => simp_all [reachesPlus]
  | case10 _ _ _ _ noPlus _ _ ih => exact ih (by simp_all) (by simp_all [reachesPlus])

theorem testLoop_free {list : List DependSpec} {run : TestRun} (named : job.name.isSome = true)
    (carries : ∃ spec ∈ list, spec.dependType = .plussingleton)
    (passes : (testLoop answer jobs job list run).failure = false)
    (whole : (testLoop answer jobs job list run).orSatisfied = false) :
    plusSeen jobs job = false := by
  fun_induction testLoop answer jobs job list run with
  | case1 => simp at carries
  | case2 _ _ _ single _ ih => exact ih (by simp_all) passes whole
  | case3 _ _ _ single _ ih => exact ih (by simp_all) passes whole
  | case4 =>
    rw [testLoop_failure rfl] at passes
    cases passes
  | case5 _ _ _ _ _ unseen => simpa using unseen
  | case6 _ _ _ _ noPlus _ ih => exact ih (by simp_all) passes whole
  | case7 _ _ _ _ noPlus _ ih => exact ih (by simp_all) passes whole
  | case8 => cases passes
  | case9 => cases whole
  | case10 _ _ _ _ noPlus _ _ ih => exact ih (by simp_all) passes whole

/-- Without a plussingleton dependency a test fails for one of the others. -/
theorem testLoop_others
    (plain : job.name.isSome = true → ∀ spec ∈ list, spec.dependType ≠ .plussingleton)
    (failed : (testLoop answer jobs job list run).failure = true) :
    run.failure = true ∨ ∃ spec ∈ list, answer spec = .fails := by
  have later : ∀ {spec : DependSpec} {rest : List DependSpec} {old : Bool},
      (old = true ∨ ∃ other ∈ rest, answer other = .fails) →
      old = true ∨ ∃ other ∈ spec :: rest, answer other = .fails := by
    rintro spec rest old (failed | ⟨other, mem, fails⟩)
    · exact .inl failed
    · exact .inr ⟨other, mem_cons_of_mem _ mem, fails⟩
  have rest : ∀ {spec : DependSpec} {rest : List DependSpec},
      (job.name.isSome = true → ∀ other ∈ spec :: rest, other.dependType ≠ .plussingleton) →
      job.name.isSome = true → ∀ other ∈ rest, other.dependType ≠ .plussingleton :=
    fun plain named other mem => plain named other (mem_cons_of_mem _ mem)
  fun_induction testLoop answer jobs job list run with
  | case1 => exact .inl failed
  | case2 _ _ _ _ _ ih => exact later (ih (rest plain) failed)
  | case3 _ _ _ _ _ ih => exact later (ih (rest plain) failed)
  | case4 spec _ _ _ isPlus => exact absurd isPlus.1 (plain isPlus.2 spec mem_cons_self)
  | case5 spec _ _ _ isPlus => exact absurd isPlus.1 (plain isPlus.2 spec mem_cons_self)
  | case6 _ _ _ _ _ _ ih => exact later (ih (rest plain) failed)
  | case7 _ _ _ _ _ _ ih => exact later (ih (rest plain) failed)
  | case8 spec _ _ _ _ fails => exact .inr ⟨spec, mem_cons_self, fails⟩
  | case9 => exact .inl failed
  | case10 _ _ _ _ _ _ _ ih => exact later (ih (rest plain) failed)

end Loop

/-- What a test may do to a record. -/
structure Tested (answer : DependSpec → Answer) (job after : Job) : Prop where
  jobId : after.jobId = job.jobId
  userId : after.userId = job.userId
  name : after.name = job.name
  tasks : after.tasks = job.tasks
  state : after.state = job.state ∨ after.state = .cancelled
  plus : after.plus = true → job.plus = true
  others : job.plus = false → after.state ≠ job.state →
    (∃ spec ∈ job.dependList, answer spec = .fails) ∨ job.reason = .depInvalid

section Test

variable {answer : DependSpec → Answer} {jobs : List Job} {job : Job} {killInvalidDep : Bool}

theorem plus_iff : job.plus = true ↔ job.name.isSome = true ∧
    ∃ spec ∈ job.dependList, spec.dependType = .plussingleton := by
  simp [Job.plus]

theorem Tested.refl (answer : DependSpec → Answer) (job : Job) : Tested answer job job :=
  ⟨rfl, rfl, rfl, rfl, .inl rfl, id, fun _ changed => absurd rfl changed⟩

theorem testJobDependency_plus (plus : (testJobDependency answer jobs job).1.plus = true) :
    job.plus = true := by
  obtain ⟨named, spec, mem, isPlus⟩ := plus_iff.mp plus
  refine plus_iff.mpr ⟨named, spec, ?_, isPlus⟩
  simp only [testJobDependency] at mem
  split_ifs at mem
  · cases mem
  · exact (testLoop_sub mem).resolve_left not_mem_nil

theorem testJobDependency_tested (answer : DependSpec → Answer) (jobs : List Job) (job : Job) :
    Tested answer job (testJobDependency answer jobs job).1 :=
  ⟨rfl, rfl, rfl, rfl, .inl rfl, testJobDependency_plus, fun _ changed => absurd rfl changed⟩

theorem testJobDependency_others (plain : job.plus = false)
    (failed : (testJobDependency answer jobs job).2 = .failure) :
    ∃ spec ∈ job.dependList, answer spec = .fails := by
  have loopFailed : (testLoop answer jobs job job.dependList
      ⟨[], false, false, false, job.killInvDep⟩).failure = true := by
    simp only [testJobDependency] at failed
    split_ifs at failed with isFailure
    exact isFailure
  refine (testLoop_others ?_ loopFailed).resolve_left (by simp)
  intro named spec mem isPlus
  exact absurd (plus_iff.mpr ⟨named, spec, mem, isPlus⟩) (by simp [plain])

theorem testJobDependency_seen (plus : job.plus = true) (seen : plusSeen jobs job = true)
    (reaches : reachesPlus answer job.dependList = true) :
    (testJobDependency answer jobs job).2 = .failure ∧
      (testJobDependency answer jobs job).1.killInvDep = true := by
  obtain ⟨named, carries⟩ := plus_iff.mp plus
  obtain ⟨failed, kill⟩ := @testLoop_seen answer jobs job _
    ⟨[], false, false, false, job.killInvDep⟩ named seen carries reaches
  exact ⟨by simp [testJobDependency, failed], kill⟩

theorem testJobDependency_free (free : (testJobDependency answer jobs job).2 = .free)
    (plus : (testJobDependency answer jobs job).1.plus = true) : plusSeen jobs job = false := by
  obtain ⟨named, carries⟩ := plus_iff.mp (testJobDependency_plus plus)
  refine @testLoop_free answer jobs job _ ⟨[], false, false, false, job.killInvDep⟩ named carries
    ?_ ?_
  · simp only [testJobDependency] at free
    split_ifs at free with failed
    simpa using failed
  · obtain ⟨-, spec, mem, -⟩ := plus_iff.mp plus
    simp only [testJobDependency] at mem
    split_ifs at mem with whole
    · cases mem
    · simpa using whole

theorem dispose_state (killInvalidDep : Bool) (job : Job) :
    (dispose killInvalidDep job).state = job.state ∨
      (dispose killInvalidDep job).state = .cancelled := by
  unfold dispose killDependent
  split_ifs <;> simp

theorem dispose_fields (killInvalidDep : Bool) (job : Job) :
    (dispose killInvalidDep job).jobId = job.jobId ∧
      (dispose killInvalidDep job).userId = job.userId ∧
      (dispose killInvalidDep job).name = job.name ∧
      (dispose killInvalidDep job).tasks = job.tasks ∧
      (dispose killInvalidDep job).dependList = job.dependList := by
  unfold dispose killDependent
  split_ifs <;> simp

theorem Tested.dispose {after : Job} (tested : Tested answer job after)
    (fails : job.plus = false → ∃ spec ∈ job.dependList, answer spec = .fails) :
    Tested answer job (dispose killInvalidDep after) := by
  obtain ⟨sameId, sameUser, sameName, sameTasks, sameList⟩ := dispose_fields killInvalidDep after
  refine ⟨sameId.trans tested.jobId, sameUser.trans tested.userId, sameName.trans tested.name,
    sameTasks.trans tested.tasks, ?_, ?_, fun plain _ => .inl (fails plain)⟩
  · rcases dispose_state killInvalidDep after with same | cancelled
    · exact same ▸ tested.state
    · exact .inr cancelled
  · intro plus
    rw [Job.plus, sameName, sameList] at plus
    exact tested.plus plus

theorem Tested.killDependent {after : Job} (tested : Tested answer job after)
    (fails : job.plus = false →
      (∃ spec ∈ job.dependList, answer spec = .fails) ∨ job.reason = .depInvalid) :
    Tested answer job (killDependent after) :=
  ⟨tested.jobId, tested.userId, tested.name, tested.tasks, .inr rfl, tested.plus, fun plain _ => fails plain⟩

theorem jobIndependent_tested (killInvalidDep : Bool) (answer : DependSpec → Answer)
    (eligible : Bool) (jobs : List Job) (job : Job) :
    Tested answer job (jobIndependent killInvalidDep answer eligible jobs job).1 := by
  have tested := testJobDependency_tested answer jobs job
  have fails := fun plain => @testJobDependency_others answer jobs job plain
  unfold jobIndependent
  cases isTest : testJobDependency answer jobs job with
  | mk after result =>
    rw [isTest] at tested fails
    split_ifs with held
    · exact .refl answer job
    · cases result with
      | remain => exact tested
      | failure => exact tested.dispose fun plain => fails plain rfl
      | free => exact tested

theorem jobIndependent_cancels {eligible : Bool} (plus : job.plus = true)
    (waiting : job.reason = .other) (seen : plusSeen jobs job = true)
    (reaches : reachesPlus answer job.dependList = true) :
    (jobIndependent killInvalidDep answer eligible jobs job).1.state = .cancelled := by
  have failing := testJobDependency_seen plus seen reaches
  unfold jobIndependent
  rw [if_neg (by simp [waiting])]
  cases isTest : testJobDependency answer jobs job with
  | mk after result =>
    rw [isTest] at failing
    obtain ⟨rfl, kill⟩ := failing
    have killed : after.killInvDep = true := kill
    simp [dispose, killDependent, killed]

theorem jobIndependent_passes {eligible : Bool}
    (passes : (jobIndependent killInvalidDep answer eligible jobs job).2 = true) :
    (jobIndependent killInvalidDep answer eligible jobs job).1.state = job.state ∧
      ((jobIndependent killInvalidDep answer eligible jobs job).1.plus = true →
        plusSeen jobs job = false) := by
  have free := @testJobDependency_free answer jobs job
  have same : (testJobDependency answer jobs job).1.state = job.state := rfl
  unfold jobIndependent at passes ⊢
  cases isTest : testJobDependency answer jobs job with
  | mk after result =>
    rw [isTest] at free same passes
    split_ifs at passes ⊢ with held
    · cases result with
      | remain => cases passes
      | failure => cases passes
      | free => exact ⟨same, fun plus => free rfl plus⟩

theorem purgeTest_tested (killInvalidDep : Bool) (answer : DependSpec → Answer) (jobs : List Job)
    (job : Job) : Tested answer job (purgeTest killInvalidDep answer jobs job) := by
  have tested := testJobDependency_tested answer jobs job
  have fails := fun plain => @testJobDependency_others answer jobs job plain
  have sameReason : (testJobDependency answer jobs job).1.reason = job.reason := rfl
  unfold purgeTest
  cases isTest : testJobDependency answer jobs job with
  | mk after result =>
    rw [isTest] at tested fails sameReason
    split_ifs with pending
    · have second : ∀ before : Job, Tested answer job before → (before.reason = .depInvalid →
          job.plus = false → (∃ spec ∈ job.dependList, answer spec = .fails) ∨
            job.reason = .depInvalid) →
          Tested answer job (if before.reason = .depInvalid ∧ (before.killInvDep = true ∨
            (¬before.noKillInvDep = true ∧ killInvalidDep = true)) then
              PlusSingleton.killDependent before else before) := by
        intro before tested invalid
        split_ifs with kills
        · exact tested.killDependent (invalid kills.1)
        · exact tested
      cases result with
      | remain => exact second after tested fun invalid _ => .inr (sameReason ▸ invalid)
      | failure =>
        exact second _ (tested.dispose fun plain => fails plain rfl)
          fun _ plain => .inl (fails plain rfl)
      | free => exact second after tested fun invalid _ => .inr (sameReason ▸ invalid)
    · exact .refl answer job

theorem purgeTest_cancels (pending : job.isPending = true) (plus : job.plus = true)
    (seen : plusSeen jobs job = true) (reaches : reachesPlus answer job.dependList = true) :
    (purgeTest killInvalidDep answer jobs job).state = .cancelled := by
  obtain ⟨failed, kill⟩ := testJobDependency_seen plus seen reaches
  simp only [purgeTest, pending, failed, if_true, dispose, killDependent, kill]
  split_ifs <;> rfl

end Test

end SlurmSim.Controller.PlusSingleton
