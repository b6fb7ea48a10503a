import SlurmSim.Controller.PlusSingletonTests

/-!
# Runs with plussingleton jobs

Of each group of jobs with the same user and name that carry the dependency at most
one is started, the others are cancelled, and other jobs are left alone, as long as
every step of the run meets a condition on the state before it.
-/

namespace SlurmSim.Controller.PlusSingleton

open List
open Option (some.inj)

/-! ## Records from one state to the next -/

/-- The job belongs to the group of a start. -/
def Start.isOf (start : Start) (job : Job) : Bool :=
  job.userId == start.userId && job.name == some start.name

/-- The record of a started member is there, and a test sees it. -/
def Visible (jobs : List Job) (start : Start) : Prop :=
  ∃ job ∈ jobs, job.jobId = start.jobId ∧ start.isOf job = true ∧ job.isSeen = true

/-- No other member of the group of a start waits. -/
def Alone (jobs : List Job) (start : Start) : Prop :=
  ∀ job ∈ jobs, job.isPending = true → job.plus = true → start.isOf job = true →
    job.jobId = start.jobId

/-- A record that stays the same job and that no test loses sight of. -/
structure Moved (job after : Job) : Prop where
  jobId : after.jobId = job.jobId
  userId : after.userId = job.userId
  name : after.name = job.name
  tasks : after.tasks = job.tasks
  seen : job.isSeen = true → after.isSeen = true
  waits : after.isPending = true → after.plus = true → job.isPending = true ∧ job.plus = true

theorem isPending_iff {job : Job} : job.isPending = true ↔ job.state = .pending := by
  simp [Job.isPending]

theorem not_isPending_of_isSeen {job : Job} (seen : job.isSeen = true) : job.isPending = false := by
  simp only [Job.isSeen, Bool.or_eq_true, beq_iff_eq] at seen
  simp only [Job.isPending, beq_eq_false_iff_ne]
  rintro pending
  simp [pending] at seen

theorem Moved.refl (job : Job) : Moved job job :=
  ⟨rfl, rfl, rfl, rfl, id, fun pending plus => ⟨pending, plus⟩⟩

theorem Moved.trans {first second third : Job} (moved : Moved first second)
    (again : Moved second third) : Moved first third where
  jobId := again.jobId.trans moved.jobId
  userId := again.userId.trans moved.userId
  name := again.name.trans moved.name
  tasks := again.tasks.trans moved.tasks
  seen := fun seen => again.seen (moved.seen seen)
  waits := fun pending plus =>
    have waits := again.waits pending plus
    moved.waits waits.1 waits.2

theorem Moved.isOf {job after : Job} (moved : Moved job after) (start : Start) :
    start.isOf after = start.isOf job := by
  rw [Start.isOf, moved.userId, moved.name, Start.isOf]

theorem Tested.moved {answer : DependSpec → Answer} {job after : Job}
    (tested : Tested answer job after) : Moved job after := by
  refine ⟨tested.jobId, tested.userId, tested.name, tested.tasks, ?_, ?_⟩
  · rcases tested.state with same | cancelled
    · simpa [Job.isSeen, same] using seen
    · simp [Job.isSeen, cancelled]
  · intro pending plus
    rcases tested.state with same | cancelled
    · exact ⟨by simpa [Job.isPending, same] using pending, tested.plus plus⟩
    · simp [Job.isPending, cancelled] at pending

section Lists

variable {jobs after : List Job} {start : Start}

theorem Visible.moved (moved : List.Forall₂ Moved jobs after) (visible : Visible jobs start) :
    Visible after start := by
  induction moved with
  | nil =>
    obtain ⟨job, mem, -⟩ := visible
    cases mem
  | @cons first second rest others head tail ih =>
    obtain ⟨job, mem, sameId, isOf, seen⟩ := visible
    rcases mem_cons.mp mem with rfl | later
    · exact ⟨second, mem_cons_self, head.jobId.trans sameId, head.isOf start ▸ isOf, head.seen seen⟩
    · obtain ⟨other, member, rest⟩ := ih ⟨job, later, sameId, isOf, seen⟩
      exact ⟨other, mem_cons_of_mem _ member, rest⟩

theorem mem_of_forall₂ {α β : Type} {R : α → β → Prop} {list : List α} {other : List β}
    (related : List.Forall₂ R list other) {second : β} (mem : second ∈ other) :
    ∃ first ∈ list, R first second := by
  induction related with
  | nil => cases mem
  | cons head tail ih =>
    rcases mem_cons.mp mem with rfl | later
    · exact ⟨_, mem_cons_self, head⟩
    · obtain ⟨first, member, holds⟩ := ih later
      exact ⟨first, mem_cons_of_mem _ member, holds⟩

theorem Alone.moved (moved : List.Forall₂ Moved jobs after) (alone : Alone jobs start) :
    Alone after start := by
  intro job mem pending plus isOf
  obtain ⟨before, member, head⟩ := mem_of_forall₂ moved mem
  obtain ⟨wasPending, wasPlus⟩ := head.waits pending plus
  exact head.jobId.trans (alone before member wasPending wasPlus (head.isOf start ▸ isOf))

theorem map_jobId_of_moved (moved : List.Forall₂ Moved jobs after) :
    after.map Job.jobId = jobs.map Job.jobId := by
  induction moved with
  | nil => rfl
  | cons head tail ih => simp [head.jobId, ih]

theorem forall₂_replace {R : Job → Job → Prop} (refl : ∀ job, R job job) {job new : Job}
    (related : R job new) (jobs : List Job) :
    List.Forall₂ R jobs (jobs.map fun other => if other = job then new else other) := by
  induction jobs with
  | nil => exact .nil
  | cons first rest ih =>
    refine .cons ?_ ih
    dsimp only
    split_ifs with same
    · exact same ▸ related
    · exact refl first

/-- Each record is tested against a list that still has all the jobs that do not wait. -/
theorem sweep_spec {turn : List Job → Job → Job × Bool}
    (keeps : ∀ jobs job, job.isPending = false → (turn jobs job).1 = job) (done todo : List Job) :
    List.Forall₂ (fun job entry => ∃ jobs, (∀ other ∈ done ++ todo, other.isPending = false →
      other ∈ jobs) ∧ entry = turn jobs job) todo (sweep turn done todo) := by
  induction todo generalizing done with
  | nil => exact .nil
  | cons job rest ih =>
    refine .cons ⟨done ++ job :: rest, fun _ mem _ => mem, rfl⟩ ?_
    refine (ih _).imp ?_
    rintro other entry ⟨jobs, all, isTurn⟩
    refine ⟨jobs, ?_, isTurn⟩
    intro third mem idle
    refine all third ?_ idle
    simp only [mem_append, mem_cons] at mem ⊢
    rcases mem with early | rfl | late
    · exact .inl (.inl early)
    · exact .inl (.inr (.inl (keeps _ third idle).symm))
    · exact .inr late

end Lists

/-! ## The invariant -/

/-- Ids are distinct, a started member is the only one of its group, a test sees it or no
other member waits, and a record with its id has no further tasks. -/
structure Sound (s : State) : Prop where
  ids : (s.jobs.map Job.jobId).Nodup
  once : ∀ first ∈ s.starts, ∀ second ∈ s.starts, first.userId = second.userId →
    first.name = second.name → first.jobId = second.jobId
  guarded : ∀ start ∈ s.starts, Visible s.jobs start ∨ Alone s.jobs start
  single : ∀ start ∈ s.starts, ∀ job ∈ s.jobs, job.jobId = start.jobId → job.tasks = 0

/-- A member may be started only if it was started before, or no other was. -/
def Open (s : State) (job : Job) : Prop :=
  job.plus = true → ∀ start ∈ s.starts, start.isOf job = true → start.jobId = job.jobId

/-- Every member that waits in the queue may be started. -/
def Queued (s : State) : Prop :=
  ∀ job ∈ s.jobs, job.jobId ∈ s.queue → job.isPending = true → Open s job

variable {s : State} {job : Job} {jobs : List Job}

theorem Moved.open {after : Job} (moved : Moved job after) (isOpen : Open s job)
    (pending : after.isPending = true) : Open s after := by
  intro plus start mem isOf
  rw [moved.jobId]
  exact isOpen (moved.waits pending plus).2 start mem (moved.isOf start ▸ isOf)

theorem Sound.moved (sound : Sound s) (moved : List.Forall₂ Moved s.jobs jobs) :
    Sound { s with jobs := jobs } where
  ids := by
    rw [map_jobId_of_moved moved]
    exact sound.ids
  once := sound.once
  guarded := by
    intro start mem
    exact (sound.guarded start mem).imp (.moved moved) (.moved moved)
  single := by
    intro start mem after member sameId
    obtain ⟨job, wasMember, head⟩ := mem_of_forall₂ moved member
    rw [head.tasks]
    exact sound.single start mem job wasMember (head.jobId.symm.trans sameId)

theorem plusSeen_of_visible {kept : List Job} {start : Start} (visible : Visible jobs start)
    (isOf : start.isOf job = true)
    (keeps : ∀ other ∈ jobs, other.isPending = false → other ∈ kept) :
    plusSeen kept job = true := by
  obtain ⟨other, here, -, otherOf, seen⟩ := visible
  simp only [plusSeen, userJobList, any_filter, any_eq_true, Bool.and_eq_true]
  refine ⟨other, keeps other here (not_isPending_of_isSeen seen), ?_, seen⟩
  simp only [Start.isOf, Bool.and_eq_true, beq_iff_eq] at isOf otherOf
  simp [inUserJobs, isOf, otherOf]

theorem Sound.open_of_unseen (sound : Sound s) (mem : job ∈ s.jobs)
    (pending : job.isPending = true)
    (kept : ∀ other ∈ s.jobs, other.isPending = false → other ∈ jobs)
    (unseen : plusSeen jobs job = false) : Open s job := by
  intro plus start member isOf
  rcases sound.guarded start member with visible | alone
  · have isSeen := plusSeen_of_visible visible isOf kept
    rw [unseen] at isSeen
    cases isSeen
  · exact (alone job mem pending plus isOf).symm

/-! ## Starts -/

/-- Every other waiting job of the user and name of a member is a member itself. -/
def SiblingsCarry (s : State) (job : Job) : Prop :=
  job.plus = true → ∀ other ∈ s.jobs, inUserJobs job other = true → other.isPending = true →
    other.jobId ≠ job.jobId → other.plus = true

section Starts

variable {s : State} {job : Job} {newId : Nat}

theorem fresh_iff : s.fresh newId = true ↔ (∀ other ∈ s.jobs, other.jobId ≠ newId) ∧
    ∀ start ∈ s.starts, start.jobId ≠ newId := by
  simp [State.fresh]

variable {jobs : List Job} {other later : Job} {start : Start}

theorem mem_selectNodes (mem : other ∈ selectNodes jobs job newId) :
    (other ∈ jobs ∧ other ≠ job) ∨ other = startedRecord newId job ∨
      (job.tasks ≠ 0 ∧ other = { job with tasks := job.tasks - 1 }) := by
  rcases mem_append.mp mem with replaced | rest
  · obtain ⟨before, member, isOther⟩ := mem_map.mp replaced
    split_ifs at isOther with same
    · exact .inr (.inl isOther.symm)
    · exact .inl ⟨isOther ▸ member, isOther ▸ same⟩
  · unfold remainder at rest
    split_ifs at rest with whole
    · cases rest
    · exact .inr (.inr ⟨whole, mem_singleton.mp rest⟩)

theorem mem_selectNodes_of_ne (mem : other ∈ jobs) (ne : other ≠ job) :
    other ∈ selectNodes jobs job newId :=
  mem_append_left _ (mem_map.mpr ⟨other, mem, if_neg ne⟩)

theorem started_mem_selectNodes (mem : job ∈ jobs) :
    startedRecord newId job ∈ selectNodes jobs job newId :=
  mem_append_left _ (mem_map.mpr ⟨job, mem, if_pos rfl⟩)

theorem eq_of_jobId (sound : Sound s) {first second : Job} (mem : first ∈ s.jobs)
    (member : second ∈ s.jobs) (sameId : first.jobId = second.jobId) : first = second :=
  inj_on_of_nodup_map sound.ids mem member sameId

theorem selectNodes_ids (sound : Sound s) (mem : job ∈ s.jobs)
    (fresh : ∀ other ∈ s.jobs, other.jobId ≠ newId) :
    ((selectNodes s.jobs job newId).map Job.jobId).Nodup := by
  by_cases whole : job.tasks = 0
  · have same : (selectNodes s.jobs job newId).map Job.jobId = s.jobs.map Job.jobId := by
      simp only [selectNodes, remainder, if_pos whole, append_nil, map_map]
      refine map_congr_left ?_
      intro other _
      by_cases isJob : other = job
      · simp [isJob, startedRecord, whole]
      · simp [isJob]
    rw [same]
    exact sound.ids
  · have replaced : ∀ other, (if other = job then startedRecord newId job else other).jobId =
        if other = job then newId else other.jobId := by
      intro other
      split_ifs <;> simp [startedRecord, whole]
    rw [selectNodes, map_append, map_map, nodup_append]
    refine ⟨?_, by simp [remainder, whole], ?_⟩
    · refine List.Nodup.map_on ?_ (List.Nodup.of_map _ sound.ids)
      intro first member second member' sameId
      simp only [Function.comp_apply, replaced] at sameId
      split_ifs at sameId with isJob isJob' isJob'
      · rw [isJob, isJob']
      · exact absurd sameId.symm (fresh second member')
      · exact absurd sameId (fresh first member)
      · exact eq_of_jobId sound member member' sameId
    · intro first isFirst second isSecond
      obtain ⟨other, member, rfl⟩ := mem_map.mp isFirst
      have isRest : second = job.jobId := by simpa [remainder, whole] using isSecond
      simp only [Function.comp_apply, replaced, isRest]
      split_ifs with isJob
      · exact fun same => fresh job mem same.symm
      · exact fun same => isJob (eq_of_jobId sound member mem same)

theorem mem_noteStart (mem : start ∈ s.noteStart job newId) :
    start ∈ s.starts ∨ (job.plus = true ∧ start.isOf job = true ∧
      start.jobId = (startedRecord newId job).jobId) := by
  unfold State.noteStart at mem
  split at mem
  · next name isName =>
      split_ifs at mem with plus
      · rcases mem_cons.mp mem with rfl | old
        · exact .inr ⟨plus, by simp [Start.isOf, isName], rfl⟩
        · exact .inl old
      · exact .inl mem
  · exact .inl mem

theorem isOf_congr {first second : Start} (isOf : first.isOf job = true)
    (sameUser : first.userId = second.userId) (sameName : first.name = second.name) :
    second.isOf job = true := by
  rw [Start.isOf, ← sameUser, ← sameName]
  exact isOf

theorem started_jobId (sound : Sound s) (mem : job ∈ s.jobs) (member : start ∈ s.starts)
    (sameId : start.jobId = job.jobId) : (startedRecord newId job).jobId = job.jobId := by
  have whole := sound.single start member job mem sameId.symm
  simp [startedRecord, whole]

theorem Sound.startJob (sound : Sound s) (mem : job ∈ s.jobs) (pending : job.isPending = true)
    (isOpen : Open s job) (fresh : s.fresh newId = true) : Sound (s.startJob job newId) := by
  obtain ⟨freshJobs, freshStarts⟩ := fresh_iff.mp fresh
  refine ⟨selectNodes_ids sound mem freshJobs, ?_, ?_, ?_⟩
  · have group : ∀ start ∈ s.starts, job.plus = true → start.isOf job = true →
        start.jobId = (startedRecord newId job).jobId := by
      intro start member plus isOf
      have sameId := isOpen plus start member isOf
      exact sameId.trans (started_jobId sound mem member sameId).symm
    intro first isFirst second isSecond sameUser sameName
    rcases mem_noteStart isFirst with old | ⟨plus, isOf, isNew⟩
    · rcases mem_noteStart isSecond with old' | ⟨plus, isOf, isNew⟩
      · exact sound.once first old second old' sameUser sameName
      · exact (group first old plus (isOf_congr isOf sameUser.symm sameName.symm)).trans isNew.symm
    · rcases mem_noteStart isSecond with old' | ⟨-, -, isNew'⟩
      · exact isNew.trans (group second old' plus (isOf_congr isOf sameUser sameName)).symm
      · exact isNew.trans isNew'.symm
  · intro start isStart
    rcases mem_noteStart isStart with old | ⟨-, isOf, isNew⟩
    · refine (sound.guarded start old).imp ?_ ?_
      · rintro ⟨other, member, sameId, otherOf, seen⟩
        have ne : other ≠ job := by
          rintro rfl
          rw [not_isPending_of_isSeen seen] at pending
          cases pending
        exact ⟨other, mem_selectNodes_of_ne member ne, sameId, otherOf, seen⟩
      · intro alone other member waits plus otherOf
        rcases mem_selectNodes member with ⟨here, -⟩ | rfl | ⟨-, rfl⟩
        · exact alone other here waits plus otherOf
        · simp [startedRecord, Job.isPending] at waits
        · exact alone job mem waits plus otherOf
    · exact .inl ⟨_, started_mem_selectNodes mem, isNew.symm, isOf, by simp [startedRecord, Job.isSeen]⟩
  · intro start isStart other member sameId
    rcases mem_selectNodes member with ⟨here, ne⟩ | rfl | ⟨more, rfl⟩
    · rcases mem_noteStart isStart with old | ⟨-, -, isNew⟩
      · exact sound.single start old other here sameId
      · have isId := sameId.trans isNew
        by_cases whole : job.tasks = 0
        · simp only [startedRecord, if_pos whole] at isId
          exact absurd (eq_of_jobId sound here mem isId) ne
        · simp only [startedRecord, if_neg whole] at isId
          exact absurd isId (freshJobs other here)
    · rfl
    · rcases mem_noteStart isStart with old | ⟨-, -, isNew⟩
      · exact absurd (sound.single start old job mem sameId) more
      · have isId : job.jobId = newId := by simpa [startedRecord, more] using sameId.trans isNew
        exact absurd isId (freshJobs job mem)

theorem cancelSiblings_spec (jobs : List Job) (job : Job) :
    List.Forall₂ (fun before after => Moved before after ∧
      if inUserJobs job before = true ∧ before.isPending = true ∧ before.jobId ≠ job.jobId then
        after.state = .cancelled
      else after.state = before.state) jobs (cancelSiblings jobs job) := by
  rw [cancelSiblings, forall₂_map_right_iff, forall₂_same]
  intro other _
  by_cases sibling : inUserJobs job other = true ∧ other.isPending = true ∧ other.jobId ≠ job.jobId
  · rw [if_pos sibling, if_pos (by simp [sibling])]
    exact ⟨⟨rfl, rfl, rfl, rfl, fun _ => by simp [Job.isSeen], by simp [Job.isPending]⟩, rfl⟩
  · rw [if_neg sibling, if_neg (by simpa [and_assoc] using sibling)]
    exact ⟨.refl other, rfl⟩

theorem dropPlus_spec (jobs : List Job) (started : job.isPending = false) :
    List.Forall₂ (fun before after => Moved before after ∧ after.state = before.state) jobs
      (dropPlus jobs job) := by
  refine forall₂_replace (fun other => ⟨.refl other, rfl⟩) ?_ jobs
  refine ⟨⟨rfl, rfl, rfl, rfl, id, ?_⟩, rfl⟩
  intro pending
  exact absurd (started.symm.trans pending) (by simp)

theorem startedRecord_isPending (newId : Nat) (job : Job) :
    (startedRecord newId job).isPending = false := by
  simp [startedRecord, Job.isPending]

theorem Sound.scheduleJob (sound : Sound s) (mem : job ∈ s.jobs)
    (pending : job.isPending = true) (isOpen : Open s job) (fresh : s.fresh newId = true) :
    Sound (s.scheduleJob job newId) := by
  have started := sound.startJob mem pending isOpen fresh
  unfold State.scheduleJob scheduleStart
  split_ifs
  · have cancelled := (cancelSiblings_spec (selectNodes s.jobs job newId)
      (startedRecord newId job)).imp fun _ _ both => both.1
    have dropped := (dropPlus_spec (cancelSiblings (selectNodes s.jobs job newId)
      (startedRecord newId job)) (startedRecord_isPending newId job)).imp fun _ _ both => both.1
    exact (started.moved cancelled).moved dropped
  · exact started

theorem mem_scheduleStart {after : Job} (plus : job.plus = true)
    (mem : after ∈ scheduleStart jobs job newId) :
    ∃ before ∈ selectNodes jobs job newId, Moved before after ∧
      if inUserJobs (startedRecord newId job) before = true ∧ before.isPending = true ∧
          before.jobId ≠ (startedRecord newId job).jobId then
        after.state = .cancelled
      else after.state = before.state := by
  rw [scheduleStart, if_pos plus] at mem
  obtain ⟨middle, isMiddle, moved, sameState⟩ :=
    mem_of_forall₂ (dropPlus_spec _ (startedRecord_isPending newId job)) mem
  obtain ⟨before, member, moved', state⟩ := mem_of_forall₂ (cancelSiblings_spec _ _) isMiddle
  exact ⟨before, member, moved'.trans moved, sameState ▸ state⟩

theorem inUserJobs_of_isOf (newId : Nat) (isOf : start.isOf job = true)
    (otherOf : start.isOf other = true) : inUserJobs (startedRecord newId job) other = true := by
  simp only [Start.isOf, Bool.and_eq_true, beq_iff_eq] at isOf otherOf
  simp [inUserJobs, startedRecord, isOf, otherOf]

theorem Queued.scheduleJob (queued : Queued s) (mem : job ∈ s.jobs)
    (pending : job.isPending = true) (inQueue : job.jobId ∈ s.queue) :
    Queued (s.scheduleJob job newId) := by
  have isOpen := queued job mem inQueue pending
  have old : ∀ before ∈ selectNodes s.jobs job newId, before.jobId ∈ s.queue →
      before.isPending = true → Open s before := by
    intro before member waitsIn waits
    rcases mem_selectNodes member with ⟨here, -⟩ | rfl | ⟨-, rfl⟩
    · exact queued before here waitsIn waits
    · cases waits
    · exact isOpen
  intro after member waitsIn waits plus start isStart isOf
  by_cases isPlus : job.plus = true
  · obtain ⟨before, isBefore, moved, state⟩ := mem_scheduleStart isPlus member
    obtain ⟨wasPending, wasPlus⟩ := moved.waits waits plus
    rcases mem_noteStart isStart with early | ⟨-, jobOf, isNew⟩
    · have isOpen' := old before isBefore (moved.jobId ▸ waitsIn) wasPending
      exact (isOpen' wasPlus start early (moved.isOf start ▸ isOf)).trans moved.jobId.symm
    · by_contra ne
      have sibling := inUserJobs_of_isOf newId jobOf (moved.isOf start ▸ isOf)
      have apart : before.jobId ≠ (startedRecord newId job).jobId := by
        intro same
        exact ne (isNew.trans (same.symm.trans moved.jobId.symm))
      rw [if_pos ⟨sibling, wasPending, apart⟩] at state
      rw [isPending_iff.mp waits] at state
      cases state
  · have early : start ∈ s.starts := (mem_noteStart isStart).resolve_right fun both => isPlus both.1
    have member' : after ∈ selectNodes s.jobs job newId := by
      have same : (s.scheduleJob job newId).jobs = selectNodes s.jobs job newId := by
        simp [State.scheduleJob, scheduleStart, isPlus]
      exact same ▸ member
    exact old after member' waitsIn waits plus start early isOf

/-- A start by the main scheduler cancels the other waiting jobs of the group. -/
theorem scheduleJob_cancels (sound : Sound s) (pending : job.isPending = true)
    (noted : (s.scheduleJob job newId).starts = start :: s.starts) (mem : other ∈ s.jobs)
    (waits : other.isPending = true) (isOf : start.isOf other = true)
    (ne : other.jobId ≠ start.jobId) (isLater : later ∈ (s.scheduleJob job newId).jobs)
    (sameId : later.jobId = other.jobId) : later.state = .cancelled := by
  have isNew : job.plus = true ∧ start.isOf job = true ∧
      start.jobId = (startedRecord newId job).jobId := by
    have notedStart : s.noteStart job newId = start :: s.starts := noted
    unfold State.noteStart at notedStart
    split at notedStart
    · next name isName =>
        split_ifs at notedStart with plus
        · obtain ⟨rfl, -⟩ := List.cons.inj notedStart
          exact ⟨plus, by simp [Start.isOf, isName], rfl⟩
        · exact absurd notedStart (cons_ne_self _ _).symm
    · exact absurd notedStart (cons_ne_self _ _).symm
  obtain ⟨plus, jobOf, startId⟩ := isNew
  obtain ⟨before, isBefore, moved, state⟩ := mem_scheduleStart plus isLater
  have beforeId : before.jobId = other.jobId := moved.jobId.symm.trans sameId
  have apart : before.jobId ≠ (startedRecord newId job).jobId := by
    rw [beforeId, ← startId]
    exact ne
  have group : start.isOf before = true ∧ before.isPending = true := by
    rcases mem_selectNodes isBefore with ⟨here, -⟩ | rfl | ⟨-, rfl⟩
    · rw [eq_of_jobId sound here mem beforeId]
      exact ⟨isOf, waits⟩
    · exact absurd rfl apart
    · exact ⟨jobOf, pending⟩
  rw [if_pos ⟨inUserJobs_of_isOf newId jobOf group.1, group.2, apart⟩] at state
  exact state

theorem selectNodes_spares (sound : Sound s) (pending : job.isPending = true)
    (mem : other ∈ s.jobs) (waits : other.isPending = true)
    (isLater : later ∈ selectNodes s.jobs job newId) (sameId : later.jobId = other.jobId) :
    later.state ≠ .cancelled := by
  rcases mem_selectNodes isLater with ⟨here, -⟩ | rfl | ⟨-, rfl⟩
  · rw [eq_of_jobId sound here mem sameId, isPending_iff.mp waits]
    decide
  · simp [startedRecord]
  · rw [isPending_iff.mp pending]
    decide

theorem scheduleJob_spares (sound : Sound s) (mem : job ∈ s.jobs)
    (pending : job.isPending = true) (carry : SiblingsCarry s job) (member : other ∈ s.jobs)
    (waits : other.isPending = true) (plain : other.plus = false)
    (isLater : later ∈ (s.scheduleJob job newId).jobs) (sameId : later.jobId = other.jobId) :
    later.state ≠ .cancelled := by
  by_cases plus : job.plus = true
  · obtain ⟨before, isBefore, moved, state⟩ := mem_scheduleStart plus isLater
    have beforeId : before.jobId = other.jobId := moved.jobId.symm.trans sameId
    rcases mem_selectNodes isBefore with ⟨here, ne⟩ | rfl | ⟨-, rfl⟩
    · obtain rfl := eq_of_jobId sound here member beforeId
      have notSibling : ¬(inUserJobs (startedRecord newId job) before = true ∧
          before.isPending = true ∧ before.jobId ≠ (startedRecord newId job).jobId) := by
        rintro ⟨sibling, -, -⟩
        have apart : before.jobId ≠ job.jobId :=
          fun same => ne (eq_of_jobId sound here mem same)
        have carries := carry plus before member sibling waits apart
        rw [plain] at carries
        cases carries
      rw [if_neg notSibling, isPending_iff.mp waits] at state
      rw [state]
      decide
    · have running : ¬(inUserJobs (startedRecord newId job) (startedRecord newId job) = true ∧
          (startedRecord newId job).isPending = true ∧
          (startedRecord newId job).jobId ≠ (startedRecord newId job).jobId) :=
        fun all => all.2.2 rfl
      rw [if_neg running] at state
      rw [state]
      simp [startedRecord]
    · obtain rfl := eq_of_jobId sound mem member beforeId
      rw [plus] at plain
      cases plain
  · have isSelected : later ∈ selectNodes s.jobs job newId := by
      have same : (s.scheduleJob job newId).jobs = selectNodes s.jobs job newId := by
        simp [State.scheduleJob, scheduleStart, plus]
      exact same ▸ isLater
    exact selectNodes_spares sound pending member waits isSelected sameId

end Starts

/-! ## The condition on a step and the property -/

/-- Another member of the group of a waiting member was started. -/
def Outdone (s : State) (job : Job) : Prop :=
  job.isPending = true ∧ job.plus = true ∧
    ∃ start ∈ s.starts, start.isOf job = true ∧ start.jobId ≠ job.jobId

/-- No other dependency keeps a test from the plussingleton one of a job that is outdone. -/
def Reached (s : State) (answers : Answers) (job : Job) : Prop :=
  Outdone s job → reachesPlus (answers job.jobId) job.dependList = true

/-- The condition on an event. A member comes into a group with a started one only while a
test sees that one; a started one is lost from sight only when no other waits; nothing in
front of the plussingleton dependency ends a test; the main scheduler starts a member only
if all the waiting jobs of its user and name are members. -/
def Careful (s : State) : Event → Prop
  | .submit job => job.plus = true → ∀ start ∈ s.starts, start.isOf job = true →
      Visible s.jobs start
  | .change jobId state => ∀ job ∈ s.jobs, job.jobId = jobId →
      (∀ start ∈ s.starts, start.jobId = jobId →
        { job with state := state }.isSeen = true ∨ Alone s.jobs start) ∧
      (state = .pending → job.plus = true → ∀ start ∈ s.starts, start.isOf job = true →
        start.jobId ≠ jobId → Visible s.jobs start)
  | .cancel _ => True
  | .setReason _ _ => True
  | .purgeOldJob answers _ => ∀ job ∈ s.jobs, Reached s answers job
  | .buildJobQueue answers _ _ => ∀ job ∈ s.jobs, Reached s answers job
  | .schedule jobId _ => ∀ job ∈ s.jobs, job.jobId = jobId → SiblingsCarry s job
  | .fifo jobId _ answers _ selected => ∀ job ∈ s.jobs, job.jobId = jobId →
      Reached s answers job ∧ (selected = true → SiblingsCarry s job)
  | .backfill jobId _ answers _ _ => ∀ job ∈ s.jobs, job.jobId = jobId → Reached s answers job

/-- The event tests a job that is not held back. -/
def Event.tests (job : Job) : Event → Bool
  | .purgeOldJob _ _ => true
  | .buildJobQueue _ reached _ => reached job.jobId && job.reason == .other
  | .fifo jobId _ _ _ _ => job.jobId == jobId && job.reason == .other
  | .backfill jobId _ _ _ _ => job.jobId == jobId && job.reason == .other
  | _ => false

/-- The main scheduler starts a job. -/
def Event.byMain : Event → Bool
  | .schedule _ _ => true
  | .fifo _ _ _ _ _ => true
  | _ => false

/-- The event cancels a job for its own sake: its user does, or one of its dependencies on
other jobs cannot be met. -/
def Event.ownReason (job : Job) : Event → Prop
  | .cancel jobId => job.jobId = jobId
  | .purgeOldJob answers _ =>
    (∃ spec ∈ job.dependList, answers job.jobId spec = .fails) ∨ job.reason = .depInvalid
  | .buildJobQueue answers _ _ =>
    (∃ spec ∈ job.dependList, answers job.jobId spec = .fails) ∨ job.reason = .depInvalid
  | .fifo _ _ answers _ _ =>
    (∃ spec ∈ job.dependList, answers job.jobId spec = .fails) ∨ job.reason = .depInvalid
  | .backfill _ _ answers _ _ =>
    (∃ spec ∈ job.dependList, answers job.jobId spec = .fails) ∨ job.reason = .depInvalid
  | _ => False

/-- What an event does to waiting jobs. A member that is outdone is cancelled when it is
tested, and at once by a start of the main scheduler; a job that is no member is cancelled
for its own sake only. -/
structure CancelsMembers (s : State) (event : Event) (after : State) : Prop where
  tested : ∀ job ∈ s.jobs, Outdone s job → event.tests job = true →
    ∀ later ∈ after.jobs, later.jobId = job.jobId → later.state = .cancelled
  started : ∀ start, after.starts = start :: s.starts → event.byMain = true →
    ∀ job ∈ s.jobs, job.isPending = true → start.isOf job = true → job.jobId ≠ start.jobId →
      ∀ later ∈ after.jobs, later.jobId = job.jobId → later.state = .cancelled
  spared : ∀ job ∈ s.jobs, job.isPending = true → job.plus = false →
    ∀ later ∈ after.jobs, later.jobId = job.jobId → later.state = .cancelled →
      event.ownReason job

/-! ## One step -/

section Steps

variable {s after : State} {killInvalidDep : Bool} {job new : Job}

theorem find_spec {jobId : Nat} (found : s.find jobId = some job) :
    job ∈ s.jobs ∧ job.jobId = jobId :=
  ⟨mem_of_find?_eq_some found, by simpa using find?_some found⟩

theorem queued_nil {jobs : List Job} {starts : List Start} : Queued ⟨jobs, [], starts⟩ :=
  fun _ _ inQueue => absurd inQueue not_mem_nil

theorem CancelsMembers.of_starts {event : Event} (same : after.starts = s.starts)
    (tested : ∀ job ∈ s.jobs, Outdone s job → event.tests job = true →
      ∀ later ∈ after.jobs, later.jobId = job.jobId → later.state = .cancelled)
    (spared : ∀ job ∈ s.jobs, job.isPending = true → job.plus = false →
      ∀ later ∈ after.jobs, later.jobId = job.jobId → later.state = .cancelled →
        event.ownReason job) : CancelsMembers s event after := by
  refine ⟨tested, ?_, spared⟩
  intro start noted
  rw [same] at noted
  exact absurd noted (cons_ne_self _ _).symm

theorem Sound.replaced (sound : Sound s) (mem : job ∈ s.jobs) (sameId : new.jobId = job.jobId)
    {other later : Job} (member : other ∈ s.jobs) (isLater : later ∈ (s.update job new).jobs)
    (laterId : later.jobId = other.jobId) :
    (other = job ∧ later = new) ∨ (other ≠ job ∧ later = other) := by
  obtain ⟨before, here, isBefore⟩ := mem_map.mp isLater
  split_ifs at isBefore with isJob
  · have isOther : job = other := by
      refine eq_of_jobId sound mem member ?_
      rw [← sameId, isBefore, laterId]
    exact .inl ⟨isOther.symm, isBefore.symm⟩
  · subst isBefore
    have isOther := eq_of_jobId sound here member laterId
    exact .inr ⟨isOther ▸ isJob, isOther⟩

theorem Sound.update (sound : Sound s) (moved : Moved job new) : Sound (s.update job new) :=
  sound.moved (forall₂_replace Moved.refl moved s.jobs)

theorem Sound.endPass (sound : Sound s) : Sound s.endPass :=
  ⟨sound.ids, sound.once, sound.guarded, sound.single⟩

theorem step_cancel {jobId : Nat} (sound : Sound s)
    (stepped : s.step killInvalidDep (.cancel jobId) = some after) :
    Sound after ∧ Queued after ∧ CancelsMembers s (.cancel jobId) after := by
  simp only [State.step] at stepped
  split at stepped
  · cases stepped
  · next job found =>
      obtain ⟨mem, isId⟩ := find_spec found
      split_ifs at stepped with pending
      obtain rfl := some.inj stepped
      have moved : Moved job { job with state := .cancelled } :=
        ⟨rfl, rfl, rfl, rfl, fun _ => by simp [Job.isSeen], by simp [Job.isPending]⟩
      refine ⟨sound.endPass.update moved, queued_nil, .of_starts rfl (by simp [Event.tests]) ?_⟩
      intro other member waits plain later isLater laterId cancelled
      rcases sound.endPass.replaced mem moved.jobId member isLater laterId with ⟨rfl, -⟩ | ⟨-, rfl⟩
      · exact isId
      · rw [isPending_iff.mp waits] at cancelled
        cases cancelled

theorem step_setReason {jobId : Nat} {reason : WaitReason} (sound : Sound s)
    (stepped : s.step killInvalidDep (.setReason jobId reason) = some after) :
    Sound after ∧ Queued after ∧ CancelsMembers s (.setReason jobId reason) after := by
  simp only [State.step] at stepped
  split at stepped
  · cases stepped
  · next job found =>
      obtain ⟨mem, isId⟩ := find_spec found
      split_ifs at stepped with pending
      obtain rfl := some.inj stepped
      have moved : Moved job { job with reason := reason } :=
        ⟨rfl, rfl, rfl, rfl, id, fun waits plus => ⟨waits, plus⟩⟩
      refine ⟨sound.endPass.update moved, queued_nil, .of_starts rfl (by simp [Event.tests]) ?_⟩
      intro other member waits plain later isLater laterId cancelled
      have state : later.state = .pending := by
        rcases sound.endPass.replaced mem moved.jobId member isLater laterId with ⟨-, rfl⟩ | ⟨-, rfl⟩
        · exact isPending_iff.mp pending
        · exact isPending_iff.mp waits
      rw [state] at cancelled
      cases cancelled

variable {answers : Answers} {newId : Nat} {eligible selected : Bool}

theorem step_submit (sound : Sound s) (careful : Careful s (.submit new))
    (stepped : s.step killInvalidDep (.submit new) = some after) :
    Sound after ∧ Queued after ∧ CancelsMembers s (.submit new) after := by
  simp only [State.step] at stepped
  split_ifs at stepped with allowed
  obtain rfl := some.inj stepped
  obtain ⟨pending, fresh⟩ := Bool.and_eq_true_iff.mp allowed
  obtain ⟨freshJobs, freshStarts⟩ := fresh_iff.mp fresh
  refine ⟨⟨?_, sound.once, ?_, ?_⟩, queued_nil, .of_starts rfl (by simp [Event.tests]) ?_⟩
  · rw [map_append, nodup_append]
    refine ⟨sound.ids, nodup_singleton _, ?_⟩
    intro first isFirst second isSecond
    obtain ⟨job, mem, rfl⟩ := mem_map.mp isFirst
    rw [map_singleton, mem_singleton] at isSecond
    exact isSecond ▸ freshJobs job mem
  · intro start isStart
    have visible : Visible s.jobs start → Visible (s.jobs ++ [new]) start := by
      rintro ⟨job, mem, rest⟩
      exact ⟨job, mem_append_left _ mem, rest⟩
    rcases sound.guarded start isStart with seen | alone
    · exact .inl (visible seen)
    · by_cases joins : new.plus = true ∧ start.isOf new = true
      · exact .inl (visible (careful joins.1 start isStart joins.2))
      · refine .inr ?_
        intro job mem waits plus isOf
        rcases mem_append.mp mem with old | isNew
        · exact alone job old waits plus isOf
        · rw [mem_singleton.mp isNew] at plus isOf
          exact absurd ⟨plus, isOf⟩ joins
  · intro start isStart job mem sameId
    rcases mem_append.mp mem with old | isNew
    · exact sound.single start isStart job old sameId
    · rw [mem_singleton.mp isNew] at sameId
      exact absurd sameId.symm (freshStarts start isStart)
  · intro other member waits plain later isLater laterId cancelled
    have state : later = other := by
      rcases mem_append.mp isLater with old | isNew
      · exact eq_of_jobId sound old member laterId
      · rw [mem_singleton.mp isNew] at laterId
        exact absurd laterId.symm (freshJobs other member)
    rw [state, isPending_iff.mp waits] at cancelled
    cases cancelled

theorem step_change {jobId : Nat} {state : JobStates} (sound : Sound s)
    (careful : Careful s (.change jobId state))
    (stepped : s.step killInvalidDep (.change jobId state) = some after) :
    Sound after ∧ Queued after ∧ CancelsMembers s (.change jobId state) after := by
  simp only [State.step] at stepped
  split at stepped
  · cases stepped
  · next job found =>
      obtain ⟨mem, isId⟩ := find_spec found
      split_ifs at stepped with refused
      obtain rfl := some.inj stepped
      have idle : job.isPending = false := by
        simp only [Bool.or_eq_true, not_or] at refused
        simpa using refused.1
      obtain ⟨losing, joining⟩ := careful job mem isId
      have kept : ∀ other ∈ s.jobs, other ≠ job →
          other ∈ (s.endPass.update job { job with state := state }).jobs :=
        fun other member ne => mem_map.mpr ⟨other, member, if_neg ne⟩
      have visible : ∀ start, start.jobId ≠ jobId → Visible s.jobs start →
          Visible (s.endPass.update job { job with state := state }).jobs start := by
        rintro start ne ⟨other, member, sameId, isOf, seen⟩
        refine ⟨other, kept other member ?_, sameId, isOf, seen⟩
        rintro rfl
        exact ne (sameId.symm.trans isId)
      refine ⟨⟨?_, sound.once, ?_, ?_⟩, queued_nil, .of_starts rfl (by simp [Event.tests]) ?_⟩
      · have same : (s.endPass.update job { job with state := state }).jobs.map Job.jobId =
            s.jobs.map Job.jobId := by
          simp only [State.update, State.endPass, map_map]
          refine map_congr_left ?_
          intro other _
          by_cases isJob : other = job
          · simp [isJob]
          · simp [isJob]
        rw [same]
        exact sound.ids
      · intro start isStart
        have alone : Alone s.jobs start → start.jobId = jobId →
            Alone (s.endPass.update job { job with state := state }).jobs start := by
          intro alone startId later isLater waits plus isOf
          obtain ⟨before, member, isBefore⟩ := mem_map.mp isLater
          split_ifs at isBefore with isJob
          · rw [← isBefore, startId]
            exact isId
          · exact alone later (isBefore ▸ member) waits plus isOf
        by_cases startId : start.jobId = jobId
        · rcases losing start isStart startId with seen | isAlone
          · rcases sound.guarded start isStart with ⟨other, member, sameId, isOf, otherSeen⟩ | isAlone
            · obtain rfl := eq_of_jobId sound member mem (sameId.trans (startId.trans isId.symm))
              exact .inl ⟨_, mem_map.mpr ⟨other, member, if_pos rfl⟩, sameId, isOf, seen⟩
            · exact .inr (alone isAlone startId)
          · exact .inr (alone isAlone startId)
        · rcases sound.guarded start isStart with seen | isAlone
          · exact .inl (visible start startId seen)
          · by_cases joins : state = .pending ∧ job.plus = true ∧ start.isOf job = true
            · exact .inl (visible start startId
                (joining joins.1 joins.2.1 start isStart joins.2.2 startId))
            · refine .inr ?_
              intro later isLater waits plus isOf
              obtain ⟨before, member, isBefore⟩ := mem_map.mp isLater
              split_ifs at isBefore with isJob
              · rw [← isBefore] at waits plus isOf
                exact absurd ⟨isPending_iff.mp waits, plus, isOf⟩ joins
              · exact isAlone later (isBefore ▸ member) waits plus isOf
      · intro start isStart later isLater sameId
        obtain ⟨before, member, isBefore⟩ := mem_map.mp isLater
        split_ifs at isBefore with isJob
        · rw [← isBefore] at sameId ⊢
          exact sound.single start isStart job mem sameId
        · exact sound.single start isStart later (isBefore ▸ member) sameId
      · intro other member waits plain later isLater laterId cancelled
        have sameId : ({ job with state := state } : Job).jobId = job.jobId := rfl
        rcases sound.endPass.replaced mem sameId member isLater laterId with
          ⟨rfl, -⟩ | ⟨-, rfl⟩
        · rw [idle] at waits
          cases waits
        · rw [isPending_iff.mp waits] at cancelled
          cases cancelled

theorem Sound.outdone_seen (sound : Sound s) {jobs : List Job} (mem : job ∈ s.jobs)
    (outdone : Outdone s job) (kept : ∀ other ∈ s.jobs, other.isPending = false → other ∈ jobs) :
    plusSeen jobs job = true := by
  obtain ⟨pending, plus, start, member, isOf, ne⟩ := outdone
  rcases sound.guarded start member with visible | alone
  · exact plusSeen_of_visible visible isOf kept
  · exact absurd (alone job mem pending plus isOf).symm ne

theorem Sound.swept (sound : Sound s) {turn : List Job → Job → Job × Bool}
    (tested : ∀ jobs job, Tested (answers job.jobId) job (turn jobs job).1)
    (keeps : ∀ jobs job, job.isPending = false → (turn jobs job).1 = job) {entry : Job × Bool}
    (isEntry : entry ∈ sweep turn [] s.jobs) (mem : job ∈ s.jobs)
    (sameId : entry.1.jobId = job.jobId) :
    ∃ jobs, (∀ other ∈ s.jobs, other.isPending = false → other ∈ jobs) ∧ entry = turn jobs job := by
  obtain ⟨before, member, jobs, kept, isTurn⟩ := mem_of_forall₂ (sweep_spec keeps [] s.jobs) isEntry
  have beforeId : before.jobId = job.jobId := by
    rw [← (tested jobs before).jobId, ← isTurn]
    exact sameId
  obtain rfl := eq_of_jobId sound member mem beforeId
  exact ⟨jobs, kept, isTurn⟩

theorem sweep_moved {turn : List Job → Job → Job × Bool}
    (tested : ∀ jobs job, Tested (answers job.jobId) job (turn jobs job).1)
    (keeps : ∀ jobs job, job.isPending = false → (turn jobs job).1 = job) (jobs : List Job) :
    List.Forall₂ Moved jobs ((sweep turn [] jobs).map Prod.fst) := by
  rw [forall₂_map_right_iff]
  refine (sweep_spec keeps [] jobs).imp ?_
  rintro job entry ⟨kept, -, rfl⟩
  exact (tested kept job).moved

theorem purgeTest_keeps (killInvalidDep : Bool) (answer : DependSpec → Answer) (jobs : List Job)
    (idle : job.isPending = false) : purgeTest killInvalidDep answer jobs job = job := by
  simp [purgeTest, idle]

theorem step_purgeOldJob {old : Nat → Bool} (sound : Sound s)
    (careful : Careful s (.purgeOldJob answers old))
    (stepped : s.step killInvalidDep (.purgeOldJob answers old) = some after) :
    Sound after ∧ Queued after ∧ CancelsMembers s (.purgeOldJob answers old) after := by
  obtain rfl := some.inj stepped
  have tested : ∀ jobs (job : Job), Tested (answers job.jobId) job
      (purgeTest killInvalidDep (answers job.jobId) jobs job, false).1 :=
    fun jobs job => purgeTest_tested killInvalidDep (answers job.jobId) jobs job
  have keeps : ∀ jobs (job : Job), job.isPending = false →
      (purgeTest killInvalidDep (answers job.jobId) jobs job, false).1 = job :=
    fun jobs job idle => purgeTest_keeps killInvalidDep (answers job.jobId) jobs idle
  have swept := sound.moved (sweep_moved tested keeps s.jobs)
  have cancels : ∀ job ∈ s.jobs, Outdone s job → ∀ later ∈ (sweep (fun jobs job =>
      (purgeTest killInvalidDep (answers job.jobId) jobs job, false)) [] s.jobs).map Prod.fst,
      later.jobId = job.jobId → later.state = .cancelled := by
    intro job mem outdone later isLater sameId
    obtain ⟨entry, isEntry, rfl⟩ := mem_map.mp isLater
    obtain ⟨jobs, kept, rfl⟩ := sound.swept tested keeps isEntry mem sameId
    exact purgeTest_cancels outdone.1 outdone.2.1 (sound.outdone_seen mem outdone kept)
      (careful job mem outdone)
  refine ⟨⟨?_, sound.once, ?_, ?_⟩, queued_nil, .of_starts rfl ?_ ?_⟩
  · exact swept.ids.sublist (filter_sublist.map Job.jobId)
  · intro start isStart
    refine .inr ?_
    intro later isLater waits plus isOf
    have isSwept := mem_of_mem_filter isLater
    by_contra ne
    obtain ⟨job, mem, moved⟩ := mem_of_forall₂ (sweep_moved tested keeps s.jobs) isSwept
    have waited := moved.waits waits plus
    have outdone : Outdone s job := ⟨waited.1, waited.2, start, isStart, moved.isOf start ▸ isOf,
      fun same => ne (moved.jobId.trans same.symm)⟩
    have state := cancels job mem outdone later isSwept moved.jobId
    rw [isPending_iff.mp waits] at state
    cases state
  · intro start isStart later isLater sameId
    exact swept.single start isStart later (mem_of_mem_filter isLater) sameId
  · intro job mem outdone _ later isLater sameId
    exact cancels job mem outdone later (mem_of_mem_filter isLater) sameId
  · intro job mem waits plain later isLater sameId cancelled
    obtain ⟨entry, isEntry, rfl⟩ := mem_map.mp (mem_of_mem_filter isLater)
    obtain ⟨jobs, -, rfl⟩ := sound.swept tested keeps isEntry mem sameId
    refine (tested jobs job).others plain ?_
    rw [cancelled, isPending_iff.mp waits]
    decide

theorem queueTest_tested (killInvalidDep : Bool) (answers : Answers) (reached eligible : Nat → Bool)
    (jobs : List Job) (job : Job) : Tested (answers job.jobId) job
      (State.queueTest killInvalidDep answers reached eligible jobs job).1 := by
  unfold State.queueTest
  split_ifs
  · exact jobIndependent_tested killInvalidDep (answers job.jobId) (eligible job.jobId) jobs job
  · exact .refl _ job

theorem queueTest_keeps (killInvalidDep : Bool) (answers : Answers) (reached eligible : Nat → Bool)
    (jobs : List Job) (job : Job) (idle : job.isPending = false) :
    (State.queueTest killInvalidDep answers reached eligible jobs job).1 = job := by
  simp [State.queueTest, idle]

theorem step_buildJobQueue {reached eligible : Nat → Bool} (sound : Sound s)
    (careful : Careful s (.buildJobQueue answers reached eligible))
    (stepped : s.step killInvalidDep (.buildJobQueue answers reached eligible) = some after) :
    Sound after ∧ Queued after ∧
      CancelsMembers s (.buildJobQueue answers reached eligible) after := by
  obtain rfl := some.inj stepped
  have tested := queueTest_tested killInvalidDep answers reached eligible
  have keeps := queueTest_keeps killInvalidDep answers reached eligible
  have swept := sound.moved (sweep_moved tested keeps s.jobs)
  refine ⟨⟨swept.ids, swept.once, swept.guarded, swept.single⟩, ?_, .of_starts rfl ?_ ?_⟩
  · intro later isLater inQueue waits
    obtain ⟨job, mem, moved⟩ := mem_of_forall₂ (sweep_moved tested keeps s.jobs) isLater
    obtain ⟨entry, isEntry, isId⟩ := mem_map.mp inQueue
    obtain ⟨isEntry, passes⟩ := mem_filter.mp isEntry
    obtain ⟨jobs, kept, rfl⟩ := sound.swept tested keeps isEntry mem (isId.trans moved.jobId)
    have same : (State.queueTest killInvalidDep answers reached eligible jobs job).1 = later :=
      eq_of_jobId swept (mem_map.mpr ⟨_, isEntry, rfl⟩) isLater isId
    intro plus
    have wasPending := (moved.waits waits plus).1
    have unseen : plusSeen jobs job = false := by
      rw [← same] at plus
      unfold State.queueTest at passes plus
      split_ifs at passes plus with isTested
      exact (jobIndependent_passes passes).2 plus
    exact moved.open (sound.open_of_unseen mem wasPending kept unseen) waits plus
  · intro job mem outdone tests later isLater sameId
    obtain ⟨entry, isEntry, rfl⟩ := mem_map.mp isLater
    obtain ⟨jobs, kept, rfl⟩ := sound.swept tested keeps isEntry mem sameId
    have isTested : reached job.jobId = true ∧ job.reason = .other := by
      simpa [Event.tests] using tests
    rw [State.queueTest, if_pos (by simp [outdone.1, isTested.1])]
    exact jobIndependent_cancels outdone.2.1 isTested.2
      (sound.outdone_seen mem outdone kept) (careful job mem outdone)
  · intro job mem waits plain later isLater sameId cancelled
    obtain ⟨entry, isEntry, rfl⟩ := mem_map.mp isLater
    obtain ⟨jobs, -, rfl⟩ := sound.swept tested keeps isEntry mem sameId
    refine (tested jobs job).others plain ?_
    rw [cancelled, isPending_iff.mp waits]
    decide

theorem step_schedule {jobId : Nat} (sound : Sound s) (queued : Queued s)
    (careful : Careful s (.schedule jobId newId))
    (stepped : s.step killInvalidDep (.schedule jobId newId) = some after) :
    Sound after ∧ Queued after ∧ CancelsMembers s (.schedule jobId newId) after := by
  simp only [State.step] at stepped
  split at stepped
  · cases stepped
  · next job found =>
      obtain ⟨mem, isId⟩ := find_spec found
      split_ifs at stepped with allowed
      obtain rfl := some.inj stepped
      simp only [Bool.and_eq_true, contains_iff_mem] at allowed
      obtain ⟨⟨pending, inQueue⟩, fresh⟩ := allowed
      rw [← isId] at inQueue
      have isOpen := queued job mem inQueue pending
      refine ⟨sound.scheduleJob mem pending isOpen fresh,
        queued.scheduleJob mem pending inQueue, by simp [Event.tests], ?_, ?_⟩
      · intro start noted _ other member waits isOf ne later isLater sameId
        exact scheduleJob_cancels sound pending noted member waits isOf ne isLater sameId
      · intro other member waits plain later isLater sameId cancelled
        exact absurd cancelled (scheduleJob_spares sound mem pending (careful job mem isId)
          member waits plain isLater sameId)

theorem testAndStart_eq {start : State → Job → State} {jobId : Nat}
    (stepped : State.testAndStart killInvalidDep s start jobId answers eligible selected = some after) :
    ∃ job ∈ s.jobs, job.jobId = jobId ∧ job.isPending = true ∧ ∃ new passes,
      jobIndependent killInvalidDep (answers jobId) eligible s.jobs job = (new, passes) ∧
      after = if passes = true ∧ selected = true then start (s.update job new) new
        else s.update job new := by
  unfold State.testAndStart at stepped
  split at stepped
  · cases stepped
  · next job found =>
      obtain ⟨mem, isId⟩ := find_spec found
      split_ifs at stepped with pending
      refine ⟨job, mem, isId, pending, _, _, rfl, ?_⟩
      simpa [Bool.and_eq_true] using (some.inj stepped).symm

/-- What is known behind the test of one job. -/
structure TestedOne (s : State) (answers : Answers) (job new : Job) (passes : Bool) : Prop where
  tested : Tested (answers job.jobId) job new
  cancels : Outdone s job → job.reason = .other → new.state = .cancelled
  state : passes = true → new.isPending = true
  isOpen : passes = true → Open s new

theorem testedOne {passes : Bool} (sound : Sound s) (mem : job ∈ s.jobs)
    (pending : job.isPending = true) (reached : Reached s answers job)
    (isTest : jobIndependent killInvalidDep (answers job.jobId) eligible s.jobs job = (new, passes)) :
    TestedOne s answers job new passes := by
  have tested := jobIndependent_tested killInvalidDep (answers job.jobId) eligible s.jobs job
  have passing := @jobIndependent_passes (answers job.jobId) s.jobs job killInvalidDep eligible
  rw [isTest] at tested passing
  have waits : passes = true → new.isPending = true := by
    intro isPassing
    rw [isPending_iff, (passing isPassing).1]
    exact isPending_iff.mp pending
  refine ⟨tested, ?_, waits, ?_⟩
  · intro outdone waiting
    have cancelled := @jobIndependent_cancels (answers job.jobId) s.jobs job killInvalidDep eligible
      outdone.2.1 waiting (sound.outdone_seen mem outdone fun _ member _ => member)
      (reached outdone)
    rw [isTest] at cancelled
    exact cancelled
  · intro isPassing plus
    have unseen := (passing isPassing).2 plus
    exact tested.moved.open (sound.open_of_unseen mem pending (fun _ member _ => member) unseen)
      (waits isPassing) plus

theorem testedOne_only {event : Event} {passes : Bool} (sound : Sound s) (mem : job ∈ s.jobs)
    (pending : job.isPending = true) (one : TestedOne s answers job new passes)
    (tests : ∀ other ∈ s.jobs, event.tests other = true → other = job ∧ other.reason = .other)
    (reason : (∃ spec ∈ job.dependList, answers job.jobId spec = .fails) ∨
      job.reason = .depInvalid → event.ownReason job) :
    Sound (s.endPass.update job new) ∧ Queued (s.endPass.update job new) ∧
      CancelsMembers s event (s.endPass.update job new) := by
  refine ⟨sound.endPass.update one.tested.moved, queued_nil, .of_starts rfl ?_ ?_⟩
  · intro other member outdone isTested later isLater sameId
    obtain ⟨rfl, waiting⟩ := tests other member isTested
    rcases sound.endPass.replaced mem one.tested.jobId member isLater sameId with
      ⟨-, rfl⟩ | ⟨ne, -⟩
    · exact one.cancels outdone waiting
    · exact absurd rfl ne
  · intro other member waits plain later isLater sameId cancelled
    rcases sound.endPass.replaced mem one.tested.jobId member isLater sameId with
      ⟨rfl, rfl⟩ | ⟨-, rfl⟩
    · refine reason (one.tested.others plain ?_)
      rw [cancelled, isPending_iff.mp waits]
      decide
    · rw [isPending_iff.mp waits] at cancelled
      cases cancelled

theorem mem_update_of_passes (one : TestedOne s answers job new true) {other : Job}
    (mem : other ∈ s.jobs) (waits : other.isPending = true) :
    ∃ later ∈ (s.endPass.update job new).jobs, later.jobId = other.jobId ∧
      later.isPending = true ∧ (∀ start, Start.isOf start later = start.isOf other) ∧
      (other.plus = false → later.plus = false) := by
  by_cases isJob : other = job
  · subst isJob
    refine ⟨new, mem_map.mpr ⟨other, mem, if_pos rfl⟩, one.tested.jobId, one.state rfl,
      one.tested.moved.isOf, ?_⟩
    intro plain
    by_contra plus
    have wasPlus := one.tested.plus (by simpa using plus)
    rw [plain] at wasPlus
    cases wasPlus
  · exact ⟨other, mem_map.mpr ⟨other, mem, if_neg isJob⟩, rfl, waits, fun _ => rfl, id⟩

theorem fresh_update (moved : Moved job new) (fresh : s.fresh newId = true) :
    (s.endPass.update job new).fresh newId = true := by
  obtain ⟨freshJobs, freshStarts⟩ := fresh_iff.mp fresh
  refine fresh_iff.mpr ⟨?_, freshStarts⟩
  intro later isLater
  obtain ⟨before, mem, head⟩ := mem_of_forall₂ (forall₂_replace Moved.refl moved s.jobs) isLater
  exact head.jobId ▸ freshJobs before mem

theorem TestedOne.not_outdone (one : TestedOne s answers job new true)
    (waiting : job.reason = .other) : ¬Outdone s job := by
  intro outdone
  have cancelled := one.cancels outdone waiting
  rw [isPending_iff.mp (one.state rfl)] at cancelled
  cases cancelled

theorem step_fifo {jobId : Nat} (sound : Sound s)
    (careful : Careful s (.fifo jobId newId answers eligible selected))
    (stepped : s.step killInvalidDep (.fifo jobId newId answers eligible selected) = some after) :
    Sound after ∧ Queued after ∧
      CancelsMembers s (.fifo jobId newId answers eligible selected) after := by
  simp only [State.step] at stepped
  split_ifs at stepped with fresh
  obtain ⟨job, mem, rfl, pending, new, passes, isTest, rfl⟩ := testAndStart_eq stepped
  obtain ⟨reached, carry⟩ := careful job mem rfl
  have one := testedOne sound mem pending reached isTest
  have tests : ∀ other ∈ s.jobs, Event.tests other
      (.fifo job.jobId newId answers eligible selected) = true →
      other = job ∧ other.reason = .other := by
    intro other member isTested
    have both : other.jobId = job.jobId ∧ other.reason = .other := by
      simpa [Event.tests] using isTested
    exact ⟨eq_of_jobId sound member mem both.1, both.2⟩
  split_ifs with starts
  · obtain ⟨rfl, isSelected⟩ := starts
    have tested : Sound (s.endPass.update job new) := sound.endPass.update one.tested.moved
    have newInside : new ∈ (s.endPass.update job new).jobs :=
      mem_map.mpr ⟨job, mem, if_pos rfl⟩
    have newFresh := fresh_update one.tested.moved fresh
    refine ⟨tested.scheduleJob newInside (one.state rfl) (one.isOpen rfl) newFresh, queued_nil,
      ?_, ?_, ?_⟩
    · intro other member outdone isTested
      obtain ⟨rfl, waiting⟩ := tests other member isTested
      exact absurd outdone (one.not_outdone waiting)
    · intro start noted _ other member waits isOf ne later isLater sameId
      obtain ⟨record, isRecord, recordId, stillWaits, sameGroup, -⟩ :=
        mem_update_of_passes one member waits
      exact scheduleJob_cancels tested (one.state rfl) noted isRecord stillWaits
        ((sameGroup start).trans isOf) (recordId ▸ ne) isLater (sameId.trans recordId.symm)
    · intro other member waits plain later isLater sameId cancelled
      obtain ⟨record, isRecord, recordId, stillWaits, -, stillPlain⟩ :=
        mem_update_of_passes one member waits
      refine absurd cancelled (scheduleJob_spares tested newInside (one.state rfl) ?_ isRecord
        stillWaits (stillPlain plain) isLater (sameId.trans recordId.symm))
      intro plus sibling isSibling sameUser siblingWaits ne
      rcases mem_map.mp isSibling with ⟨before, wasMember, isBefore⟩
      split_ifs at isBefore with isJob
      · rw [← isBefore] at ne
        exact absurd rfl ne
      · rw [← isBefore] at sameUser siblingWaits ne ⊢
        have sameUser' : inUserJobs job before = true := by
          rw [inUserJobs, one.tested.userId, one.tested.name] at sameUser
          exact sameUser
        exact carry isSelected (one.tested.plus plus) before wasMember sameUser' siblingWaits
          (one.tested.jobId ▸ ne)
  · exact testedOne_only sound mem pending one tests id

theorem step_backfill {jobId : Nat} (sound : Sound s)
    (careful : Careful s (.backfill jobId newId answers eligible selected))
    (stepped : s.step killInvalidDep (.backfill jobId newId answers eligible selected) = some after) :
    Sound after ∧ Queued after ∧
      CancelsMembers s (.backfill jobId newId answers eligible selected) after := by
  simp only [State.step] at stepped
  split_ifs at stepped with fresh
  obtain ⟨job, mem, rfl, pending, new, passes, isTest, rfl⟩ := testAndStart_eq stepped
  have one := testedOne sound mem pending (careful job mem rfl) isTest
  have tests : ∀ other ∈ s.jobs, Event.tests other
      (.backfill job.jobId newId answers eligible selected) = true →
      other = job ∧ other.reason = .other := by
    intro other member isTested
    have both : other.jobId = job.jobId ∧ other.reason = .other := by
      simpa [Event.tests] using isTested
    exact ⟨eq_of_jobId sound member mem both.1, both.2⟩
  split_ifs with starts
  · obtain ⟨rfl, -⟩ := starts
    have tested : Sound (s.endPass.update job new) := sound.endPass.update one.tested.moved
    have newInside : new ∈ (s.endPass.update job new).jobs :=
      mem_map.mpr ⟨job, mem, if_pos rfl⟩
    have newFresh := fresh_update one.tested.moved fresh
    refine ⟨tested.startJob newInside (one.state rfl) (one.isOpen rfl) newFresh, queued_nil,
      ?_, by simp [Event.byMain], ?_⟩
    · intro other member outdone isTested
      obtain ⟨rfl, waiting⟩ := tests other member isTested
      exact absurd outdone (one.not_outdone waiting)
    · intro other member waits plain later isLater sameId cancelled
      obtain ⟨record, isRecord, recordId, stillWaits, -, -⟩ := mem_update_of_passes one member waits
      exact absurd cancelled (selectNodes_spares tested (one.state rfl) isRecord stillWaits isLater
        (sameId.trans recordId.symm))
  · exact testedOne_only sound mem pending one tests id

theorem Sound.step {event : Event} (sound : Sound s) (queued : Queued s) (careful : Careful s event)
    (stepped : s.step killInvalidDep event = some after) :
    Sound after ∧ Queued after ∧ CancelsMembers s event after := by
  cases event with
  | submit new => exact step_submit sound careful stepped
  | change jobId state => exact step_change sound careful stepped
  | cancel jobId => exact step_cancel sound stepped
  | setReason jobId reason => exact step_setReason sound stepped
  | purgeOldJob answers old => exact step_purgeOldJob sound careful stepped
  | buildJobQueue answers reached eligible => exact step_buildJobQueue sound careful stepped
  | schedule jobId newId => exact step_schedule sound queued careful stepped
  | fifo jobId newId answers eligible selected => exact step_fifo sound careful stepped
  | backfill jobId newId answers eligible selected => exact step_backfill sound careful stepped

end Steps

/-! ## Runs -/

/-- A set of pending jobs with distinct ids before any pass. -/
structure Initial (s : State) : Prop where
  ids : (s.jobs.map Job.jobId).Nodup
  pending : ∀ job ∈ s.jobs, job.isPending = true
  queue : s.queue = []
  starts : s.starts = []

/-- The states that runs reach whose events all meet a condition. -/
inductive Reachable (condition : State → Event → Prop) (killInvalidDep : Bool) (start : State) :
    State → Prop where
  | refl : Reachable condition killInvalidDep start start
  | step {s after : State} {event : Event} (before : Reachable condition killInvalidDep start s)
      (meets : condition s event) (stepped : s.step killInvalidDep event = some after) :
      Reachable condition killInvalidDep start after

theorem Reachable.sound {killInvalidDep : Bool} {start s : State} (initial : Initial start)
    (reachable : Reachable Careful killInvalidDep start s) : Sound s ∧ Queued s := by
  induction reachable with
  | refl =>
    refine ⟨⟨initial.ids, ?_, ?_, ?_⟩, ?_⟩
    all_goals simp [initial.starts, initial.queue, Queued]
  | step _ meets stepped ih =>
    have next := ih.1.step ih.2 meets stepped
    exact ⟨next.1, next.2.1⟩

/-- At most one member of a group was started, and no event loses a member or cancels
another job. -/
structure Exclusive (condition : State → Event → Prop) (killInvalidDep : Bool) (s : State) :
    Prop where
  once : ∀ first ∈ s.starts, ∀ second ∈ s.starts, first.userId = second.userId →
    first.name = second.name → first.jobId = second.jobId
  cancels : ∀ event after, condition s event → s.step killInvalidDep event = some after →
    CancelsMembers s event after

instance (jobs : List Job) (start : Start) : Decidable (Visible jobs start) :=
  inferInstanceAs (Decidable (∃ job ∈ jobs, _ ∧ _ ∧ _))

instance (jobs : List Job) (start : Start) : Decidable (Alone jobs start) :=
  inferInstanceAs (Decidable (∀ job ∈ jobs, _ → _ → _ → _))

instance (s : State) (job : Job) : Decidable (Outdone s job) :=
  inferInstanceAs (Decidable (_ ∧ _ ∧ ∃ start ∈ s.starts, _ ∧ _))

instance (s : State) (job : Job) : Decidable (SiblingsCarry s job) :=
  inferInstanceAs (Decidable (_ → ∀ other ∈ s.jobs, _ → _ → _ → _))

instance (s : State) (answers : Answers) (job : Job) : Decidable (Reached s answers job) :=
  inferInstanceAs (Decidable (_ → _))

instance (s : State) : (event : Event) → Decidable (Careful s event)
  | .submit _ => inferInstanceAs (Decidable (_ → ∀ start ∈ s.starts, _ → _))
  | .change _ _ => inferInstanceAs (Decidable (∀ job ∈ s.jobs, _ → (∀ start ∈ s.starts, _ → _) ∧
      (_ → _ → ∀ start ∈ s.starts, _ → _ → _)))
  | .cancel _ => isTrue trivial
  | .setReason _ _ => isTrue trivial
  | .purgeOldJob _ _ => inferInstanceAs (Decidable (∀ job ∈ s.jobs, _))
  | .buildJobQueue _ _ _ => inferInstanceAs (Decidable (∀ job ∈ s.jobs, _))
  | .schedule _ _ => inferInstanceAs (Decidable (∀ job ∈ s.jobs, _ → _))
  | .fifo _ _ _ _ _ => inferInstanceAs (Decidable (∀ job ∈ s.jobs, _ → _ ∧ (_ → _)))
  | .backfill _ _ _ _ _ => inferInstanceAs (Decidable (∀ job ∈ s.jobs, _ → _))

/-- A pending job of user 7 with the name `a`. -/
def pendingJob (jobId : Nat) (dependList : List DependSpec) : Job :=
  ⟨jobId, 7, some "a", .pending, .other, dependList, false, false, 0⟩

end SlurmSim.Controller.PlusSingleton
