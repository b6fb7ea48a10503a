import SlurmSim.Backfill.Rounding

/-!
# The retry loop of the backfill scheduler

`_attempt_backfill` tests a job at a start time and, through `TRY_LATER`, tests
it again at a later one.  The clock stands still meanwhile, so the loop ends
only by itself.  Advance reservations, the select plugin and the attempt to
start the job are an environment that answers once per test.
-/

namespace SlurmSim.Backfill

/-- The values of `state_reason` that the loop distinguishes. -/
inductive StateReason where
  | noReason
  | burstBufferResource
  | burstBufferStaging
  | other
  deriving DecidableEq

namespace StateReason

def stageWait : StateReason → Bool
  | burstBufferResource | burstBufferStaging => true
  | noReason | other => false

end StateReason

/-- What `_start_job` can end with, as far as the loop tells the codes apart. -/
inductive StartResult where
  | started
  | unknownStart
  | accountingPolicy
  | failed
  deriving DecidableEq

/-- What `bb_g_job_test_stage_in` can answer: -1, 0 and 1. -/
inductive StageIn where
  | notReady
  | staging
  | ready
  deriving DecidableEq

/-- The outputs of `job_test_resv`. -/
structure ResvTest where
  success : Bool
  startRes : Nat
  availBitmap : Finset Nat
  resvOverlap : Bool

/-- A selection of nodes with the start time the select plugin reports. -/
structure Selection where
  startTime : Nat
  nodeBitmap : Finset Nat

/-- A job as the loop sees it.  `usable` holds the nodes of the partition that
are up and pass the owner and MCS filters. -/
structure BackfillJob where
  timeLimit : UInt32
  minNodes : Nat
  usable : Finset Nat
  reqNodeBitmap : Finset Nat
  excNodeBitmap : Finset Nat
  packTime : Nat
  packed : Bool
  delayedWorkflow : Bool
  delay : UInt32
  jobNoReserve : Bool
  jobReqNodeFilter : Finset Nat → Option (Finset Nat)
  filter_subset : ∀ nodes kept, jobReqNodeFilter nodes = some kept → kept ⊆ nodes

/-- The cycle at one frozen instant. -/
structure Pass extends Cycle where
  now : Nat
  bootTime : UInt32
  cgNodeBitmap : Finset Nat
  assocLimitStop : Bool

/-- The answers of reservations, select plugin and job start, by retry count. -/
structure Environment where
  jobTestResv : Nat → Bool → Nat → ResvTest
  findResvEnd : Nat → Nat → Nat
  activeBitmap : Finset Nat → Option (Finset Nat)
  trySched : Nat → Finset Nat → Option Selection
  stageIn : Nat → StageIn
  startJob : Nat → StartResult
  resv_not_earlier : ∀ k reboot start, start ≤ (jobTestResv k reboot start).startRes
  resvEnd_not_earlier : ∀ k time, time ≤ findResvEnd k time
  active_subset : ∀ nodes active, activeBitmap nodes = some active → active ⊆ nodes
  selected_subset : ∀ k nodes selection, trySched k nodes = some selection →
    selection.nodeBitmap ⊆ nodes
  start_fixed : ∀ k l nodes first second, trySched k nodes = some first →
    trySched l nodes = some second → first.startTime = second.startTime

/-- One pass through the loop either leaves it or comes back to `TRY_LATER`. -/
inductive Retry where
  | leave
  | tryLater (laterStart : Nat) (reason : StateReason)
  deriving DecidableEq

/-! ## The loops over the table -/

/-- `INFINITE` -/
def infinite : UInt32 := 0xffffffff

/-- `later_start` becomes the end of the first record that is not over at
`startRes` and has a successor. -/
def noteLaterStart (startRes : Nat) (w : Window) (isLast : Bool) (laterStart : Nat) : Nat :=
  if startRes < w.endTime ∧ isLast = false ∧ laterStart = 0 then w.endTime else laterStart

/-- Narrow the nodes by the records the job would run in and note a later start. -/
def scanRecords (startRes : Nat) (endTime : UInt32) :
    List Window → Nat × Finset Nat → Nat × Finset Nat
  | [], found => found
  | w :: ws, (laterStart, availBitmap) =>
    let laterStart := noteLaterStart startRes w ws.isEmpty laterStart
    if w.endTime ≤ startRes then scanRecords startRes endTime ws (laterStart, availBitmap)
    else if w.beginTime ≤ endTime.toNat then
      scanRecords startRes endTime ws (laterStart, availBitmap ∩ w.availBitmap)
    else (laterStart, availBitmap)

/-- Narrow the nodes by the records that only the boot time reaches. -/
def scanBootRecords (startRes : Nat) (origEndTime endTime : UInt32) :
    List Window → Finset Nat → Finset Nat
  | [], availBitmap => availBitmap
  | w :: ws, availBitmap =>
    if w.endTime ≤ startRes then scanBootRecords startRes origEndTime endTime ws availBitmap
    else if w.beginTime ≤ endTime.toNat then
      scanBootRecords startRes origEndTime endTime ws
        (if origEndTime.toNat < w.beginTime then availBitmap ∩ w.availBitmap else availBitmap)
    else availBitmap

/-- `_test_resv_overlap` -/
def testResvOverlap (ws : List Window) (useBitmap : Finset Nat)
    (startTime endReserve : UInt32) : Bool :=
  ws.any fun w => startTime.toNat < w.endTime ∧ w.beginTime < endReserve.toNat ∧
    ¬useBitmap ⊆ w.availBitmap

/-! ## One pass -/

namespace BackfillJob

/-- The start of the next test before advance reservations are looked at. -/
def entryStart (job : BackfillJob) (laterStart : Nat) : Nat :=
  max laterStart job.packTime + if job.delayedWorkflow then (job.delay * 60).toNat else 0

end BackfillJob

namespace Pass

def windowEnd (p : Pass) : Nat := p.schedStart + p.backfillWindow

/-- The 32-bit end time of a test, infinite when it wraps below the clock. -/
def endTime (p : Pass) (job : BackfillJob) (startRes : Nat) : UInt32 :=
  let endTime := UInt32.ofNat ((job.timeLimit * 60).toNat + max startRes p.now)
  if endTime.toNat < p.now then infinite else endTime

/-- The end of an overlapping advance reservation may come before `laterStart`. -/
def deferToResvEnd (p : Pass) (resvEnd laterStart : Nat) : Nat :=
  if resvEnd ≠ 0 ∧ resvEnd + 1 < p.windowEnd ∧ (laterStart = 0 ∨ resvEnd + 1 < laterStart) then
    resvEnd + 1
  else laterStart

/-- The edges behind the select test: too far ahead of a later record, beyond the
window, a full table, and the overlap with a planned reservation. -/
def planReservation (p : Pass) (job : BackfillJob) (t : NodeSpace) (planned : PlannedJob)
    (laterStart : Nat) (reason : StateReason) : Retry :=
  if p.now < planned.startTime ∧ job.jobNoReserve then .leave
  else if laterStart ≠ 0 ∧ laterStart < planned.startTime then .tryLater laterStart reason
  else if p.windowEnd < planned.startTime then .leave
  else if p.maxBackfillJobCnt ≤ t.recs then .leave
  else if p.now < planned.startTime ∧ reason.stageWait = false ∧
      testResvOverlap t.windows planned.availBitmap (p.startReserve planned)
        (p.endReserve planned) then
    .tryLater planned.startTime reason
  else .leave

/-- A selection was found: wait for completing nodes or stage-in, start the job
when its time has come, else plan a reservation. -/
def settle (p : Pass) (job : BackfillJob) (t : NodeSpace) (env : Environment) (k : Nat)
    (bootTime : UInt32) (startRes laterStart : Nat) (selection : Selection)
    (reason : StateReason) : Retry :=
  let start := max selection.startTime startRes
  let planned (startTime : Nat) : PlannedJob :=
    ⟨startTime, bootTime, job.timeLimit, selection.nodeBitmap⟩
  if p.now < start then p.planReservation job t (planned start) laterStart reason
  else if (selection.nodeBitmap ∩ p.cgNodeBitmap).Nonempty then
    p.planReservation job t (planned (p.now + 1)) 0 reason
  else
    match env.stageIn k with
    | .notReady => .leave
    | .staging =>
      if reason = .noReason then
        p.planReservation job t (planned (p.now + 1)) 0 .burstBufferStaging
      else p.planReservation job t (planned start) 0 reason
    | .ready =>
      if job.packed then p.planReservation job t (planned start) laterStart reason
      else
        match env.startJob k with
        | .started => .leave
        | .unknownStart => .leave
        | .accountingPolicy =>
          if p.assocLimitStop then
            p.planReservation job t
              (planned (if laterStart ≠ 0 then laterStart else p.now + 500)) laterStart .other
          else .leave
        | .failed => p.planReservation job t (planned start) 0 reason

/-- The job does not fit at this start: try later if there is a later start. -/
def retryLater (job : BackfillJob) (laterStart : Nat) (reason : StateReason) : Retry :=
  if laterStart ≠ 0 ∧ job.jobNoReserve = false then .tryLater laterStart reason else .leave

/-- Test with features that are available only after a reboot. -/
def tryWithReboot (p : Pass) (job : BackfillJob) (t : NodeSpace) (env : Environment) (k : Nat)
    (startRes laterStart : Nat) (availBitmap : Finset Nat) (reason : StateReason) : Retry :=
  let resv := env.jobTestResv k true startRes
  let resvEnd := if resv.resvOverlap then env.findResvEnd k resv.startRes else 0
  let laterStart := p.deferToResvEnd resvEnd laterStart
  let availBitmap := if resv.success then availBitmap ∩ resv.availBitmap else availBitmap
  let origEndTime := p.endTime job startRes
  let availBitmap :=
    scanBootRecords resv.startRes origEndTime (origEndTime + p.bootTime) t.windows availBitmap
  match env.trySched k availBitmap with
  | none => retryLater job laterStart reason
  | some selection =>
    p.settle job t env k p.bootTime resv.startRes laterStart selection reason

/-- The select test on the nodes that are left. -/
def trySelect (p : Pass) (job : BackfillJob) (t : NodeSpace) (env : Environment) (k : Nat)
    (startRes laterStart : Nat) (availBitmap : Finset Nat) (reason : StateReason) : Retry :=
  match env.activeBitmap availBitmap with
  | some active =>
    match env.trySched k active with
    | some selection => p.settle job t env k 0 startRes laterStart selection reason
    | none => p.tryWithReboot job t env k startRes laterStart availBitmap reason
  | none =>
    match env.trySched k availBitmap with
    | some selection => p.settle job t env k 0 startRes laterStart selection reason
    | none => retryLater job laterStart reason

/-- One pass from `TRY_LATER` on. -/
def tryLater (p : Pass) (job : BackfillJob) (t : NodeSpace) (env : Environment) (k : Nat)
    (laterStart : Nat) (reason : StateReason) : Retry :=
  let resv := env.jobTestResv k false (job.entryStart laterStart)
  if resv.success = false then .leave
  else
    let startRes := resv.startRes
    let resvEnd := if resv.resvOverlap then env.findResvEnd k startRes else 0
    let found := scanRecords startRes (p.endTime job startRes) t.windows
      (0, resv.availBitmap ∩ job.usable)
    let laterStart := p.deferToResvEnd resvEnd found.1
    let availBitmap := found.2 \ job.excNodeBitmap
    if availBitmap.card < job.minNodes ∨ ¬job.reqNodeBitmap ⊆ availBitmap then
      retryLater job laterStart reason
    else
      match job.jobReqNodeFilter availBitmap with
      | none => retryLater job laterStart reason
      | some availBitmap => p.trySelect job t env k startRes laterStart availBitmap reason

/-- The loop, for at most `fuel` passes: true when it has been left. -/
def runLater (p : Pass) (job : BackfillJob) (t : NodeSpace) (env : Environment) :
    Nat → Nat → Nat → StateReason → Bool
  | 0, _, _, _ => false
  | fuel + 1, k, laterStart, reason =>
    match p.tryLater job t env k laterStart reason with
    | .leave => true
    | .tryLater laterStart reason => runLater p job t env fuel (k + 1) laterStart reason

/-- The loop entered with `laterStart` is left after finitely many passes. -/
def Ends (p : Pass) (job : BackfillJob) (t : NodeSpace) (env : Environment)
    (laterStart : Nat) (reason : StateReason) : Prop :=
  ∃ fuel, p.runLater job t env fuel 0 laterStart reason = true

/-- The node sets the select plugin can be offered at a start time: some bitmap
of `job_test_resv`, narrowed by the records and by what the job asks for, with
the boot time that goes with it. -/
def Offers (p : Pass) (job : BackfillJob) (t : NodeSpace) (time : Nat) (bootTime : UInt32)
    (offered : Finset Nat) : Prop :=
  ∃ resvBitmap availBitmap kept,
    availBitmap = (scanRecords time (p.endTime job time) t.windows
      (0, resvBitmap ∩ job.usable)).2 \ job.excNodeBitmap ∧
    job.minNodes ≤ availBitmap.card ∧ job.reqNodeBitmap ⊆ availBitmap ∧
    job.jobReqNodeFilter availBitmap = some kept ∧
    ((bootTime = 0 ∧ offered = kept) ∨
      (bootTime = p.bootTime ∧ offered = scanBootRecords time (p.endTime job time)
        (p.endTime job time + bootTime) t.windows kept))

/-- At this start time the overlap edge leads back to the same start time: a
record that is over at `time`, but not at `time` rounded down, lacks a node. -/
structure StallsAt (p : Pass) (job : BackfillJob) (t : NodeSpace) (time : Nat) : Prop where
  waits : p.now < time
  reenters : job.entryStart time = time
  inWindow : time ≤ p.windowEnd
  reserves : job.jobNoReserve = false
  room : t.recs < p.maxBackfillJobCnt
  blocked : ∃ bootTime offered, p.Offers job t time bootTime offered ∧
    ∃ w ∈ t.windows, (p.startReserve ⟨time, bootTime, job.timeLimit, offered⟩).toNat < w.endTime ∧
      w.endTime ≤ time ∧
      w.beginTime < (p.endReserve ⟨time, bootTime, job.timeLimit, offered⟩).toNat ∧
      ¬offered ⊆ w.availBitmap

end Pass

/-! ## What the scans find -/

section Scans

variable {startRes first last : Nat} {endTime origEndTime : UInt32} {ws : List Window}

theorem Contiguous.endTime_le (tiles : Contiguous first last ws) :
    first ≤ last ∧ ∀ w ∈ ws, w.endTime ≤ last := by
  induction ws generalizing first with
  | nil =>
    refine ⟨Nat.le_of_eq tiles, ?_⟩
    intro w mem
    cases mem
  | cons w ws ih =>
    obtain ⟨beginEq, ordered, rest⟩ := tiles
    obtain ⟨restLe, endsLe⟩ := ih rest
    refine ⟨by omega, ?_⟩
    intro v mem
    rcases List.mem_cons.mp mem with rfl | later
    · exact restLe
    · exact endsLe v later

/-- The later start is the end of a record that is not over yet. -/
theorem scanRecords_laterStart (tiles : Contiguous first last ws) (found : Nat × Finset Nat) :
    (scanRecords startRes endTime ws found).1 = found.1 ∨
      (startRes < (scanRecords startRes endTime ws found).1 ∧
        (scanRecords startRes endTime ws found).1 ≤ last) := by
  induction ws generalizing first found with
  | nil => exact Or.inl rfl
  | cons w ws ih =>
    obtain ⟨laterStart, availBitmap⟩ := found
    have bounds := tiles.endTime_le.2 w List.mem_cons_self
    obtain ⟨beginEq, ordered, rest⟩ := tiles
    rw [scanRecords]
    have here : noteLaterStart startRes w ws.isEmpty laterStart = laterStart ∨
        (startRes < noteLaterStart startRes w ws.isEmpty laterStart ∧
          noteLaterStart startRes w ws.isEmpty laterStart ≤ last) := by
      unfold noteLaterStart
      split_ifs with taken
      · exact Or.inr ⟨taken.1, bounds⟩
      · exact Or.inl rfl
    generalize noteLaterStart startRes w ws.isEmpty laterStart = later at here ⊢
    have behind : ∀ nodes, (scanRecords startRes endTime ws (later, nodes)).1 = laterStart ∨
        (startRes < (scanRecords startRes endTime ws (later, nodes)).1 ∧
          (scanRecords startRes endTime ws (later, nodes)).1 ≤ last) := by
      intro nodes
      rcases ih rest (later, nodes) with same | found
      · rw [same]
        exact here
      · exact Or.inr found
    split_ifs
    · exact behind availBitmap
    · exact behind (availBitmap ∩ w.availBitmap)
    · exact here

theorem scanRecords_subset (found : Nat × Finset Nat) :
    (scanRecords startRes endTime ws found).2 ⊆ found.2 := by
  induction ws generalizing found with
  | nil => exact Finset.Subset.refl _
  | cons w ws ih =>
    rw [scanRecords]
    split_ifs
    · exact ih _
    · exact (ih _).trans Finset.inter_subset_left
    · exact Finset.Subset.refl _

theorem scanRecords_subset_window (tiles : Contiguous first last ws) (found : Nat × Finset Nat)
    {w : Window} (mem : w ∈ ws) (open_ : startRes < w.endTime)
    (reached : w.beginTime ≤ endTime.toNat) :
    (scanRecords startRes endTime ws found).2 ⊆ w.availBitmap := by
  induction ws generalizing first found with
  | nil => cases mem
  | cons v ws ih =>
    obtain ⟨beginEq, ordered, rest⟩ := tiles
    rw [scanRecords]
    rcases List.mem_cons.mp mem with rfl | later
    · rw [if_neg (Nat.not_le.mpr open_), if_pos reached]
      exact (scanRecords_subset _).trans Finset.inter_subset_right
    · have := rest.first_le w later
      split_ifs with passed started
      · exact ih rest _ later
      · exact ih rest _ later
      · omega

theorem scanBootRecords_subset (availBitmap : Finset Nat) :
    scanBootRecords startRes origEndTime endTime ws availBitmap ⊆ availBitmap := by
  induction ws generalizing availBitmap with
  | nil => exact Finset.Subset.refl _
  | cons w ws ih =>
    rw [scanBootRecords]
    split_ifs
    · exact ih _
    · exact (ih _).trans Finset.inter_subset_left
    · exact ih _
    · exact Finset.Subset.refl _

theorem scanBootRecords_mono {smaller larger : Finset Nat} (subset : smaller ⊆ larger) :
    scanBootRecords startRes origEndTime endTime ws smaller ⊆
      scanBootRecords startRes origEndTime endTime ws larger := by
  induction ws generalizing smaller larger with
  | nil => exact subset
  | cons w ws ih =>
    rw [scanBootRecords, scanBootRecords]
    split_ifs
    · exact ih subset
    · exact ih (Finset.inter_subset_inter_right subset)
    · exact ih subset
    · exact subset

theorem scanBootRecords_subset_window (tiles : Contiguous first last ws)
    (availBitmap : Finset Nat) {w : Window} (mem : w ∈ ws) (open_ : startRes < w.endTime)
    (beyond : origEndTime.toNat < w.beginTime) (reached : w.beginTime ≤ endTime.toNat) :
    scanBootRecords startRes origEndTime endTime ws availBitmap ⊆ w.availBitmap := by
  induction ws generalizing first availBitmap with
  | nil => cases mem
  | cons v ws ih =>
    obtain ⟨beginEq, ordered, rest⟩ := tiles
    rw [scanBootRecords]
    rcases List.mem_cons.mp mem with rfl | later
    · rw [if_neg (Nat.not_le.mpr open_), if_pos reached, if_pos beyond]
      exact (scanBootRecords_subset _).trans Finset.inter_subset_right
    · have := rest.first_le w later
      split_ifs with passed started
      · exact ih rest _ later
      · exact ih rest _ later
      · exact ih rest _ later
      · omega

theorem testResvOverlap_iff {useBitmap : Finset Nat} {startTime endReserve : UInt32} :
    testResvOverlap ws useBitmap startTime endReserve = true ↔
      ∃ w ∈ ws, startTime.toNat < w.endTime ∧ w.beginTime < endReserve.toNat ∧
        ¬useBitmap ⊆ w.availBitmap := by
  simp [testResvOverlap]

end Scans

end SlurmSim.Backfill
