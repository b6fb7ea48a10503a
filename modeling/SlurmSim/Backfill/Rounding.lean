import Mathlib.Algebra.Group.Nat.Defs
import SlurmSim.Backfill.AddReservation

/-!
# Rounding reservations to the backfill resolution

Before a reservation enters the node space table, `_attempt_backfill` rounds
its start and its end down to a multiple of the backfill resolution, in 32-bit
arithmetic.  The table survives exactly when every job handed over reaches the
next multiple of the resolution behind its start.
-/

namespace SlurmSim.Backfill

open List

/-- `BACKFILL_RESOLUTION` -/
def defaultResolution : Nat := 60

/-- The `bf_resolution` part of `_load_config`: the value `atoi` read, if the
parameter is present. -/
def loadResolution : Option Int32 → Nat
  | none => defaultResolution
  | some value => if value < 1 then defaultResolution else value.toInt.toNat

theorem loadResolution_bounds (bfResolution : Option Int32) :
    1 ≤ loadResolution bfResolution ∧ loadResolution bfResolution < 2 ^ 31 := by
  cases bfResolution with
  | none => decide
  | some value =>
    rw [loadResolution]
    split_ifs with small
    · decide
    · have lower : 1 ≤ value.toInt := by
        have := Int32.le_iff_toInt_le.mp (Int32.not_lt.mp small)
        simpa using this
      have upper := value.toInt_lt
      omega

/-- What a backfill cycle knows before its first job. -/
structure Cycle where
  schedStart : Nat
  backfillWindow : Nat
  backfillResolution : Nat
  maxBackfillJobCnt : Nat
  nodeCnt : Nat

/-- A job that reaches the rounding with its expected start and nodes. -/
structure PlannedJob where
  startTime : Nat
  bootTime : UInt32
  timeLimit : UInt32
  availBitmap : Finset Nat

def roundDown (backfillResolution : Nat) (time : UInt32) : UInt32 :=
  time / UInt32.ofNat backfillResolution * UInt32.ofNat backfillResolution

namespace Cycle

/-- The rounded start that is passed on as `start_time`. -/
def startReserve (c : Cycle) (job : PlannedJob) : UInt32 :=
  roundDown c.backfillResolution (UInt32.ofNat job.startTime)

/-- The rounded end that is passed on as `end_reserve`. -/
def endReserve (c : Cycle) (job : PlannedJob) : UInt32 :=
  roundDown c.backfillResolution
    (UInt32.ofNat (job.startTime + job.bootTime.toNat + (job.timeLimit * 60).toNat))

/-- `bit_not` turns the chosen nodes into those that stay available. -/
def reservation (c : Cycle) (job : PlannedJob) : Reservation :=
  ⟨c.startReserve job, c.endReserve job, Finset.range c.nodeCnt \ job.availBitmap⟩

/-- The jobs of a cycle that are handed to `_add_reservation`, each with the
table after it: a job beyond the window is passed over, a full table ends the cycle. -/
def attempt (c : Cycle) : NodeSpace → List PlannedJob → List (PlannedJob × NodeSpace)
  | _, [] => []
  | t, job :: jobs =>
    if c.schedStart + c.backfillWindow < job.startTime then attempt c t jobs
    else if c.maxBackfillJobCnt ≤ t.recs then []
    else (job, t.reserveOne (c.reservation job)) ::
      attempt c (t.reserveOne (c.reservation job)) jobs

/-- The job starts within the cycle, has a time limit and fits in 32 bits. -/
structure Admissible (c : Cycle) (job : PlannedJob) : Prop where
  started : c.schedStart ≤ job.startTime
  limited : 1 ≤ job.timeLimit.toNat
  bounded : job.startTime + job.bootTime.toNat + job.timeLimit.toNat * 60 < 2 ^ 32

/-- The job runs over the next multiple of the resolution behind its start. -/
def ReachesNext (c : Cycle) (job : PlannedJob) : Prop :=
  c.backfillResolution ≤
    job.startTime % c.backfillResolution + job.bootTime.toNat + job.timeLimit.toNat * 60

/-- The clamped start of the reservation lies before its end. -/
def Ordered (c : Cycle) (job : PlannedJob) : Prop :=
  max (c.startReserve job).toNat c.schedStart < (c.endReserve job).toNat

end Cycle

/-! ## The rounded pair -/

theorem roundDown_toNat {backfillResolution time : Nat}
    (resolution : backfillResolution < 2 ^ 32) (bounded : time < 2 ^ 32) :
    (roundDown backfillResolution (UInt32.ofNat time)).toNat =
      time / backfillResolution * backfillResolution := by
  have below : time / backfillResolution * backfillResolution < 2 ^ 32 :=
    Nat.lt_of_le_of_lt (Nat.div_mul_le_self _ _) bounded
  rw [roundDown, UInt32.toNat_mul, UInt32.toNat_div, UInt32.toNat_ofNat_of_lt' bounded,
    UInt32.toNat_ofNat_of_lt' resolution, Nat.mod_eq_of_lt below]

/-- Rounding two instants down keeps a clamped interval apart exactly when the
second reaches the next multiple. -/
theorem rounded_lt_iff {backfillResolution start length first : Nat}
    (resolution : 1 ≤ backfillResolution) (clamp : first ≤ start) :
    max (start / backfillResolution * backfillResolution) first <
        (start + length) / backfillResolution * backfillResolution ↔
      backfillResolution ≤ start % backfillResolution + length := by
  have split : start = start / backfillResolution * backfillResolution +
      start % backfillResolution := (Nat.div_add_mod' _ _).symm
  have below := Nat.mod_lt start resolution
  constructor
  · intro apart
    by_contra short
    have same : (start + length) / backfillResolution = start / backfillResolution := by
      apply Nat.div_eq_of_lt_le
      · omega
      · rw [Nat.succ_mul]
        omega
    rw [same] at apart
    omega
  · intro reaches
    have next : start / backfillResolution + 1 ≤ (start + length) / backfillResolution := by
      apply (Nat.le_div_iff_mul_le resolution).mpr
      rw [Nat.succ_mul]
      omega
    have grown := Nat.mul_le_mul_right backfillResolution next
    rw [Nat.succ_mul] at grown
    omega

namespace Cycle

variable {c : Cycle} {job : PlannedJob}

theorem ordered_iff (lower : 1 ≤ c.backfillResolution) (upper : c.backfillResolution < 2 ^ 32)
    (admissible : c.Admissible job) : c.Ordered job ↔ c.ReachesNext job := by
  obtain ⟨started, _, bounded⟩ := admissible
  have limitEq : (job.timeLimit * 60).toNat = job.timeLimit.toNat * 60 := by
    exact Nat.mod_eq_of_lt (by change job.timeLimit.toNat * 60 < 2 ^ 32; omega)
  rw [Ordered, startReserve, endReserve, limitEq, roundDown_toNat upper (by omega),
    roundDown_toNat upper bounded, Nat.add_assoc, rounded_lt_iff lower started, ReachesNext,
    Nat.add_assoc]

end Cycle

/-! ## Runs of the cycle -/

section Runs

variable (c : Cycle)

/-- Every job handed over has an ordered pair and leaves a well-formed table. -/
def Cycle.KeepsOrder (steps : List (PlannedJob × NodeSpace)) : Prop :=
  ∀ step ∈ steps, c.Ordered step.1 ∧
    WellFormed step.2 c.schedStart (c.schedStart + c.backfillWindow)

/-- Ordered pairs alone keep the table well formed along the run. -/
theorem Cycle.attempt_keepsOrder {jobs : List PlannedJob} {t : NodeSpace}
    (wellFormed : WellFormed t c.schedStart (c.schedStart + c.backfillWindow))
    (ordered : ∀ step ∈ c.attempt t jobs, c.Ordered step.1) :
    c.KeepsOrder (c.attempt t jobs) := by
  induction jobs generalizing t with
  | nil =>
    intro step mem
    cases mem
  | cons job jobs ih =>
    rw [Cycle.attempt] at ordered ⊢
    split_ifs at ordered ⊢ with beyond full
    · exact ih wellFormed ordered
    · intro step mem
      cases mem
    · have here := ordered _ mem_cons_self
      obtain ⟨cells, linked⟩ := wellFormed
      have fits : t.clampedStart (c.startReserve job) < (c.endReserve job).toNat := by
        rw [NodeSpace.clampedStart, linked.beginTime_eq]
        exact here
      obtain ⟨stepped, _, _⟩ :=
        linked.addReservation (Finset.range c.nodeCnt \ job.availBitmap) fits
      have later := ih stepped fun step mem => ordered step (mem_cons_of_mem _ mem)
      intro step mem
      rcases mem_cons.mp mem with rfl | behind
      · exact ⟨here, stepped⟩
      · exact later step behind

theorem Cycle.mem_of_mem_attempt {jobs : List PlannedJob} {t : NodeSpace}
    {step : PlannedJob × NodeSpace} (mem : step ∈ c.attempt t jobs) : step.1 ∈ jobs := by
  induction jobs generalizing t with
  | nil => cases mem
  | cons job jobs ih =>
    rw [Cycle.attempt] at mem
    split_ifs at mem
    · exact mem_cons_of_mem _ (ih mem)
    · cases mem
    · rcases mem_cons.mp mem with rfl | behind
      · exact mem_cons_self
      · exact mem_cons_of_mem _ (ih behind)

end Runs

/-- A rounded pair is ordered exactly when its job reaches the next multiple of the
resolution, and a run keeps the table in order exactly when every job it hands over does. -/
theorem attempt_keepsOrder_iff (bfResolution : Option Int32)
    (schedStart backfillWindow maxBackfillJobCnt nodeCnt : Nat)
    (availNodeBitmap : Finset Nat) (jobs : List PlannedJob) (window : 0 < backfillWindow)
    (admissible : ∀ job ∈ jobs, Cycle.Admissible
      ⟨schedStart, backfillWindow, loadResolution bfResolution, maxBackfillJobCnt, nodeCnt⟩ job) :
    let c : Cycle :=
      ⟨schedStart, backfillWindow, loadResolution bfResolution, maxBackfillJobCnt, nodeCnt⟩
    let steps := c.attempt (NodeSpace.init schedStart backfillWindow availNodeBitmap) jobs
    (∀ job ∈ jobs, (c.Ordered job ↔ c.ReachesNext job)) ∧
      (c.KeepsOrder steps ↔ ∀ step ∈ steps, c.ReachesNext step.1) := by
  intro c steps
  obtain ⟨lower, upper⟩ := loadResolution_bounds bfResolution
  have pair : ∀ job ∈ jobs, (c.Ordered job ↔ c.ReachesNext job) := by
    intro job member
    exact Cycle.ordered_iff lower (Nat.lt_trans upper (by decide)) (admissible job member)
  refine ⟨pair, ?_, ?_⟩
  · intro kept step member
    exact (pair step.1 (c.mem_of_mem_attempt member)).mp (kept step member).1
  · intro reaches
    refine c.attempt_keepsOrder (init_wellFormed schedStart availNodeBitmap window) ?_
    intro step member
    exact (pair step.1 (c.mem_of_mem_attempt member)).mpr (reaches step member)

/-- Two jobs of ten minutes each with a resolution of ten minutes. -/
theorem attempt_keepsOrder_ten_minutes :
    let c : Cycle := ⟨1000, 86400, 600, 100, 2⟩
    c.KeepsOrder (c.attempt (NodeSpace.init 1000 86400 {0, 1})
      [⟨1100, 0, 10, {0}⟩, ⟨1400, 0, 10, {1}⟩]) := by
  have admissible : ∀ job ∈ ([⟨1100, 0, 10, {0}⟩, ⟨1400, 0, 10, {1}⟩] : List PlannedJob),
      Cycle.Admissible ⟨1000, 86400, loadResolution (some 600), 100, 2⟩ job := by
    intro job member
    simp only [mem_cons, not_mem_nil, or_false] at member
    rcases member with rfl | rfl
    · exact ⟨by decide, by decide, by decide⟩
    · exact ⟨by decide, by decide, by decide⟩
  obtain ⟨_, kept⟩ := attempt_keepsOrder_iff (some 600) 1000 86400 100 2 {0, 1}
    [⟨1100, 0, 10, {0}⟩, ⟨1400, 0, 10, {1}⟩] (by decide) admissible
  refine kept.mpr fun step member => ?_
  have handed := Cycle.mem_of_mem_attempt _ member
  simp only [mem_cons, not_mem_nil, or_false] at handed
  unfold Cycle.ReachesNext
  rcases handed with same | same
  · rw [same]
    decide
  · rw [same]
    decide

/-- With a resolution of ten minutes a job of one minute is rounded to an interval
that ends before the cycle starts, and the table gets an inverted record. -/
theorem attempt_inverts_short_job :
    let c : Cycle := ⟨1000, 86400, loadResolution (some 600), 100, 2⟩
    let job : PlannedJob := ⟨1100, 0, 1, {0}⟩
    c.Admissible job ∧ ¬c.Ordered job ∧
      (c.attempt (NodeSpace.init 1000 86400 {0, 1}) [job]).map (fun step => step.2.windows) =
        [[⟨1000, 600, {0, 1}⟩, ⟨600, 87400, {0, 1}⟩]] ∧
      ¬c.KeepsOrder (c.attempt (NodeSpace.init 1000 86400 {0, 1}) [job]) := by
  intro c job
  have unordered : ¬c.Ordered job := by
    unfold Cycle.Ordered
    decide
  refine ⟨⟨by decide, by decide, by decide⟩, unordered, by decide, ?_⟩
  intro kept
  rw [Cycle.attempt, if_neg (by decide), if_neg (by decide)] at kept
  exact unordered (kept _ mem_cons_self).1

end SlurmSim.Backfill
