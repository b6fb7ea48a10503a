import Mathlib.Algebra.Group.Nat.Defs
import Mathlib.Algebra.Order.Group.Int
import SlurmSim.Backfill.NodeSpace

/-!
# The time limit of a job that has been started

A job with a minimum time limit gets a limit as high as possible when it starts: it is let
down to the begin of every record of the table in which a node of the job is reserved.
-/

namespace SlurmSim.Backfill

/-- `INFINITE` -/
def infiniteLimit : Nat := 0xffffffff

/-- `YEAR_SECONDS` -/
def yearSeconds : Nat := 365 * 24 * 60 * 60

/-- The seconds of a time limit, as `_attempt_backfill` and `_pack_start_now` set the end of
a job that starts. -/
def hardLimit (timeLimit : Nat) : Nat :=
  if timeLimit = infiniteLimit then yearSeconds else timeLimit * 60 % 2 ^ 32

/-- A job that starts now, with the end that its callers have set. -/
structure StartedJob where
  nodeBitmap : Finset Nat
  timeMin : Nat
  timeLimit : Nat
  ordered : timeMin ≤ timeLimit
  bounded : timeLimit < 2 ^ 32

def StartedJob.endTime (job : StartedJob) (now : Int) : Int := now + hardLimit job.timeLimit

/-- A table of a cycle.  Its window is an `int`, so its times are near. -/
structure NearTable (now : Int) extends NodeSpace where
  near : ∀ w ∈ toNodeSpace.windows, now - 2 ^ 31 ≤ w.beginTime ∧ w.beginTime < now + 2 ^ 31

/-- `resv_delay`, as the unsigned number it is compared as and stored. -/
def resvDelay (now : Int) (w : Window) : Nat :=
  ((((w.beginTime : Int) - now).tdiv 60) % 2 ^ 32).toNat

/-- The test of a record: it does not begin now, it begins before the job ends, and a node of
the job is not available. -/
def StartedJob.conflicts (job : StartedJob) (now : Int) (w : Window) : Prop :=
  (w.beginTime : Int) ≠ now ∧ (w.beginTime : Int) < job.endTime now ∧
    ¬ job.nodeBitmap ⊆ w.availBitmap

instance (job : StartedJob) (now : Int) (w : Window) : Decidable (job.conflicts now w) :=
  inferInstanceAs (Decidable (_ ∧ _ ∧ _))

/-- The loop of `_reset_job_time_limit` over the records from slot `j` on. -/
def resetLoop (now : Int) (job : StartedJob) (t : NodeSpace) : Nat → Nat → Nat → Nat
  | 0, _, timeLimit => timeLimit
  | fuel + 1, j, timeLimit =>
    let w := (t.slot j).toWindow
    let timeLimit :=
      if job.conflicts now w then
        if resvDelay now w < timeLimit then resvDelay now w else timeLimit
      else timeLimit
    if (t.slot j).next = 0 then timeLimit
    else resetLoop now job t fuel (t.slot j).next timeLimit

/-- `_reset_job_time_limit`, up to `job_time_adj_resv`: the limit and the end of the job. -/
def resetJobTimeLimit (now : Int) (job : StartedJob) (t : NodeSpace) : Nat × Int :=
  let newTimeLimit := max job.timeMin (resetLoop now job t t.recs 0 job.timeLimit)
  (newTimeLimit, now + (newTimeLimit * 60 % 2 ^ 32 : Nat))

/-! ## What the limit is for -/

/-- A record that does not begin now, in which a node of the job is not available. -/
def StartedJob.Lacks (job : StartedJob) (now : Int) (w : Window) : Prop :=
  (w.beginTime : Int) ≠ now ∧ ¬ job.nodeBitmap ⊆ w.availBitmap

/-- The limit is in its range, and a job with more than its minimum ends before the records
in which one of its nodes is not available. -/
def LimitRight (now : Int) (job : StartedJob) (t : NodeSpace) : Prop :=
  (job.timeMin ≤ (resetJobTimeLimit now job t).1 ∧
    (resetJobTimeLimit now job t).1 ≤ job.timeLimit) ∧
  (job.timeMin < (resetJobTimeLimit now job t).1 →
    ∀ w ∈ t.windows, job.Lacks now w → (resetJobTimeLimit now job t).2 ≤ w.beginTime)

/-- A record lets the limit down to the minimum. -/
def LetDown (now : Int) (job : StartedJob) (t : NodeSpace) : Prop :=
  ∃ w ∈ t.windows, job.conflicts now w ∧ resvDelay now w ≤ job.timeMin

/-- No record without a node of the job began a minute ago or before that, and a limit of
`INFINITE` comes with a record without a node within a year, if there is one at all. -/
def OnlyAhead (now : Int) (job : StartedJob) (t : NodeSpace) : Prop :=
  (∀ w ∈ t.windows, job.Lacks now w → now - 60 < w.beginTime) ∧
  (job.timeLimit = infiniteLimit → ∀ w ∈ t.windows, job.Lacks now w →
    ∃ v ∈ t.windows, job.Lacks now v ∧ (v.beginTime : Int) < now + yearSeconds)

/-! ## The loop -/

/-- One record on the limit. -/
def clip (now : Int) (job : StartedJob) (timeLimit : Nat) (w : Window) : Nat :=
  if job.conflicts now w then
    if resvDelay now w < timeLimit then resvDelay now w else timeLimit
  else timeLimit

theorem resetLoop_eq (now : Int) (job : StartedJob) (t : NodeSpace) (fuel j timeLimit : Nat) :
    resetLoop now job t fuel j timeLimit =
      (NodeSpace.windows.go t fuel j).foldl (clip now job) timeLimit := by
  induction fuel generalizing j timeLimit with
  | zero => rfl
  | succ fuel ih =>
    rw [resetLoop, NodeSpace.windows.go, List.foldl_cons]
    by_cases isLast : (t.slot j).next = 0
    · rw [if_pos isLast, if_pos isLast]
      rfl
    · rw [if_neg isLast, if_neg isLast, ih]
      rfl

/-- The limit is the least of the first one and the delays of the records that conflict. -/
theorem foldl_clip (now : Int) (job : StartedJob) (ws : List Window) (timeLimit : Nat) :
    ws.foldl (clip now job) timeLimit ≤ timeLimit ∧
    (∀ w ∈ ws, job.conflicts now w → ws.foldl (clip now job) timeLimit ≤ resvDelay now w) ∧
    (ws.foldl (clip now job) timeLimit = timeLimit ∨
      ∃ w ∈ ws, job.conflicts now w ∧ ws.foldl (clip now job) timeLimit = resvDelay now w) := by
  induction ws generalizing timeLimit with
  | nil => simp
  | cons w ws ih =>
    obtain ⟨le, least, isOne⟩ := ih (clip now job timeLimit w)
    have step : clip now job timeLimit w ≤ timeLimit ∧
        (job.conflicts now w → clip now job timeLimit w ≤ resvDelay now w) ∧
        (clip now job timeLimit w = timeLimit ∨
          job.conflicts now w ∧ clip now job timeLimit w = resvDelay now w) := by
      unfold clip
      split_ifs with isConflict less
      · exact ⟨less.le, fun _ => le_refl _, .inr ⟨isConflict, rfl⟩⟩
      · exact ⟨le_refl _, fun _ => not_lt.mp less, .inl rfl⟩
      · exact ⟨le_refl _, fun conflict => absurd conflict isConflict, .inl rfl⟩
    rw [List.foldl_cons]
    refine ⟨le.trans step.1, fun v mem conflict => ?_, ?_⟩
    · rcases List.mem_cons.mp mem with rfl | later
      · exact le.trans (step.2.1 conflict)
      · exact least v later conflict
    · rcases isOne with same | ⟨v, later, conflict, isDelay⟩
      · rcases step.2.2 with kept | ⟨conflict, isDelay⟩
        · exact .inl (same.trans kept)
        · exact .inr ⟨w, List.mem_cons_self, conflict, same.trans isDelay⟩
      · exact .inr ⟨v, List.mem_cons_of_mem _ later, conflict, isDelay⟩

/-- The limit behind the loop. -/
def loopLimit (now : Int) (job : StartedJob) (t : NodeSpace) : Nat :=
  resetLoop now job t t.recs 0 job.timeLimit

theorem loopLimit_spec (now : Int) (job : StartedJob) (t : NodeSpace) :
    loopLimit now job t ≤ job.timeLimit ∧
    (∀ w ∈ t.windows, job.conflicts now w → loopLimit now job t ≤ resvDelay now w) ∧
    (loopLimit now job t = job.timeLimit ∨
      ∃ w ∈ t.windows, job.conflicts now w ∧ loopLimit now job t = resvDelay now w) := by
  rw [loopLimit, resetLoop_eq]
  exact foldl_clip now job _ job.timeLimit

/-! ## One record -/

section Delay

variable {now : Int} {w : Window}

theorem resvDelay_recent (after : now - 60 < w.beginTime) (before : (w.beginTime : Int) < now) :
    resvDelay now w = 0 := by
  have small : ((w.beginTime : Int) - now).tdiv 60 = 0 := by
    rw [← Int.neg_sub, Int.neg_tdiv, Int.tdiv_eq_ediv_of_nonneg (by omega)]
    omega
  rw [resvDelay, small]
  rfl

theorem resvDelay_ahead (after : now ≤ w.beginTime) (near : (w.beginTime : Int) < now + 2 ^ 31) :
    (resvDelay now w : Int) * 60 ≤ w.beginTime - now ∧ resvDelay now w * 60 < 2 ^ 32 := by
  have isDiv : ((w.beginTime : Int) - now).tdiv 60 = ((w.beginTime : Int) - now) / 60 :=
    Int.tdiv_eq_ediv_of_nonneg (by omega)
  rw [resvDelay, isDiv]
  omega

end Delay

/-! ## The limit -/

variable {now : Int} {job : StartedJob}

theorem resetJobTimeLimit_of_lt {t : NodeSpace}
    (above : job.timeMin < (resetJobTimeLimit now job t).1) :
    (resetJobTimeLimit now job t).1 = loopLimit now job t := by
  have isMax : (resetJobTimeLimit now job t).1 = max job.timeMin (loopLimit now job t) := rfl
  omega

theorem end_le_of_conflict (table : NearTable now) {w : Window} (mem : w ∈ table.windows)
    (ahead : now - 60 < w.beginTime)
    (above : job.timeMin < (resetJobTimeLimit now job table.toNodeSpace).1)
    (le : loopLimit now job table.toNodeSpace ≤ resvDelay now w) :
    (resetJobTimeLimit now job table.toNodeSpace).2 ≤ w.beginTime := by
  have isLoop := resetJobTimeLimit_of_lt above
  have later : now ≤ w.beginTime := by
    by_contra before
    have none := resvDelay_recent ahead (not_le.mp before)
    omega
  have isEnd : (resetJobTimeLimit now job table.toNodeSpace).2 =
      now + ((resetJobTimeLimit now job table.toNodeSpace).1 * 60 % 2 ^ 32 : Nat) := rfl
  obtain ⟨delay, small⟩ := resvDelay_ahead later (table.near w mem).2
  omega

theorem limit_range (now : Int) (job : StartedJob) (t : NodeSpace) :
    job.timeMin ≤ (resetJobTimeLimit now job t).1 ∧
      (resetJobTimeLimit now job t).1 ≤ job.timeLimit := by
  exact ⟨le_max_left _ _, max_le job.ordered (loopLimit_spec now job t).1⟩

theorem end_le_of_behind (table : NearTable now) (only : OnlyAhead now job table.toNodeSpace)
    {w : Window} (mem : w ∈ table.windows) (lacks : job.Lacks now w)
    (behind : job.endTime now ≤ w.beginTime)
    (above : job.timeMin < (resetJobTimeLimit now job table.toNodeSpace).1) :
    (resetJobTimeLimit now job table.toNodeSpace).2 ≤ w.beginTime := by
  have isLoop := resetJobTimeLimit_of_lt above
  obtain ⟨_, least, isLimit | ⟨v, inV, conflict, isDelay⟩⟩ :=
    loopLimit_spec now job table.toNodeSpace
  · have isEnd : (resetJobTimeLimit now job table.toNodeSpace).2 =
        now + (job.timeLimit * 60 % 2 ^ 32 : Nat) := by
      rw [← isLimit, ← isLoop]
      rfl
    by_cases isInfinite : job.timeLimit = infiniteLimit
    · obtain ⟨v, inV, lacksV, withinYear⟩ := only.2 isInfinite w mem lacks
      have conflict : job.conflicts now v := by
        refine ⟨lacksV.1, ?_, lacksV.2⟩
        rw [StartedJob.endTime, hardLimit, if_pos isInfinite]
        exact withinYear
      have le := least v inV conflict
      have small : resvDelay now v * 60 < 2 ^ 32 := by
        rcases lt_or_ge (v.beginTime : Int) now with before | later
        · rw [resvDelay_recent (only.1 v inV lacksV) before]
          decide
        · exact (resvDelay_ahead later (table.near v inV).2).2
      rw [isLimit, isInfinite, infiniteLimit] at le
      omega
    · rw [StartedJob.endTime, hardLimit, if_neg isInfinite] at behind
      exact isEnd ▸ behind
  · have ahead := only.1 v inV ⟨conflict.1, conflict.2.2⟩
    have before := end_le_of_conflict table inV ahead above isDelay.le
    exact before.trans (conflict.2.1.le.trans behind)

theorem limitRight_of_onlyAhead (table : NearTable now)
    (only : OnlyAhead now job table.toNodeSpace) : LimitRight now job table.toNodeSpace := by
  refine ⟨limit_range now job table.toNodeSpace, fun above w mem lacks => ?_⟩
  rcases lt_or_ge (w.beginTime : Int) (job.endTime now) with before | behind
  · have conflict : job.conflicts now w := ⟨lacks.1, before, lacks.2⟩
    exact end_le_of_conflict table mem (only.1 w mem lacks) above
      ((loopLimit_spec now job table.toNodeSpace).2.1 w mem conflict)
  · exact end_le_of_behind table only mem lacks behind above

theorem limitRight_of_eq {t : NodeSpace} (same : (resetJobTimeLimit now job t).1 = job.timeMin) :
    LimitRight now job t :=
  ⟨limit_range now job t, fun above => absurd above (same ▸ lt_irrefl _)⟩

/-- A job whose limit is not let down to the minimum keeps to it only with records ahead. -/
theorem onlyAhead_of_limitRight (table : NearTable now)
    (right : LimitRight now job table.toNodeSpace) (room : job.timeMin ≠ job.timeLimit)
    (notDown : ¬ LetDown now job table.toNodeSpace) : OnlyAhead now job table.toNodeSpace := by
  obtain ⟨_, least, isOne⟩ := loopLimit_spec now job table.toNodeSpace
  have above : job.timeMin < loopLimit now job table.toNodeSpace := by
    rcases isOne with isLimit | ⟨v, inV, conflict, isDelay⟩
    · rw [isLimit]
      exact lt_of_le_of_ne job.ordered room
    · rw [isDelay]
      exact not_le.mp fun le => notDown ⟨v, inV, conflict, le⟩
  have isMax : (resetJobTimeLimit now job table.toNodeSpace).1 =
      max job.timeMin (loopLimit now job table.toNodeSpace) := rfl
  have isEnd : (resetJobTimeLimit now job table.toNodeSpace).2 =
      now + ((resetJobTimeLimit now job table.toNodeSpace).1 * 60 % 2 ^ 32 : Nat) := rfl
  have before := right.2 (isMax ▸ lt_max_of_lt_right above)
  refine ⟨fun w mem lacks => ?_, fun isInfinite w mem lacks => ?_⟩
  · have le := before w mem lacks
    omega
  · by_contra far
    push Not at far
    have noConflict : ∀ v ∈ table.windows, ¬ job.conflicts now v := by
      intro v inV conflict
      have late := far v inV ⟨conflict.1, conflict.2.2⟩
      have early := conflict.2.1
      rw [StartedJob.endTime, hardLimit, if_pos isInfinite] at early
      exact absurd early (not_lt.mpr late)
    have le := before w mem lacks
    have near := (table.near w mem).2
    have isLimit : loopLimit now job table.toNodeSpace = infiniteLimit := by
      rcases isOne with isLimit | ⟨v, inV, conflict, _⟩
      · exact isLimit.trans isInfinite
      · exact absurd conflict (noConflict v inV)
    rw [isEnd, isMax, max_eq_right above.le, isLimit] at le
    have wraps : infiniteLimit * 60 % 2 ^ 32 = 4294967236 := by decide
    omega

/-- The limit keeps the end before the records without a node exactly when it is the minimum
already, is let down to it, or all these records are ahead. -/
theorem limitRight_iff (now : Int) (job : StartedJob) (table : NearTable now) :
    LimitRight now job table.toNodeSpace ↔
      job.timeMin = job.timeLimit ∨ LetDown now job table.toNodeSpace ∨
        OnlyAhead now job table.toNodeSpace := by
  obtain ⟨least, most⟩ := limit_range now job table.toNodeSpace
  constructor
  · intro right
    by_cases room : job.timeMin = job.timeLimit
    · exact .inl room
    · by_cases down : LetDown now job table.toNodeSpace
      · exact .inr (.inl down)
      · exact .inr (.inr (onlyAhead_of_limitRight table right room down))
  · rintro (same | ⟨w, inside, conflict, le⟩ | only)
    · exact limitRight_of_eq (le_antisymm (most.trans same.ge) least)
    · have down := ((loopLimit_spec now job table.toNodeSpace).2.1 w inside conflict).trans le
      exact limitRight_of_eq (max_eq_left down)
    · exact limitRight_of_onlyAhead table only

/-- A minute of the table is over in which node 0 was reserved. -/
def pastMinute : NearTable 1090 where
  slot := fun j => if j = 0 then ⟨⟨1000, 1060, {1}⟩, 1⟩ else ⟨⟨1060, 87400, {0, 1}⟩, 0⟩
  recs := 2
  near := by decide

/-- A job on node 0 with limits of 10 and 60 minutes. -/
def hourJob : StartedJob := ⟨{0}, 10, 60, by decide, by decide⟩

/-- At 1090 the record is more than a minute old, and does not let the limit down. -/
theorem hourJob_passes_record : ¬ LimitRight 1090 hourJob pastMinute.toNodeSpace := by
  intro right
  have before := right.2 (by decide) ⟨1000, 1060, {1}⟩ (by decide) ⟨by decide, by decide⟩
  exact absurd before (by decide)

end SlurmSim.Backfill
