import SlurmSim.Backfill.TryLater

/-!
# When the retry loop ends

Every edge back to `TRY_LATER` carries a later start inside the window.  It lies
strictly behind the one tested before, except on the overlap edge of a stalled
start time, where the loop can come back to the same test forever.
-/

namespace SlurmSim.Backfill

namespace Pass

variable {p : Pass} {job : BackfillJob} {t : NodeSpace} {env : Environment}

/-- A later start, when there is one, lies behind `time` and in the window. -/
def Behind (p : Pass) (time laterStart : Nat) : Prop :=
  laterStart = 0 ∨ (time < laterStart ∧ laterStart ≤ p.windowEnd)

variable {time laterStart next startRes : Nat} {reason reason' : StateReason} {bootTime : UInt32}

theorem deferToResvEnd_behind {resvEnd : Nat} (behind : p.Behind time laterStart)
    (resv : resvEnd = 0 ∨ time ≤ resvEnd) :
    p.Behind time (p.deferToResvEnd resvEnd laterStart) := by
  unfold deferToResvEnd
  split_ifs with taken
  · refine Or.inr ⟨?_, Nat.le_of_lt taken.2.1⟩
    rcases resv with none | some
    · exact absurd none taken.1
    · exact Nat.lt_succ_of_le some
  · exact behind

/-- The overlap edge fired for a planned reservation. -/
structure OverlapEdge (p : Pass) (job : BackfillJob) (t : NodeSpace) (planned : PlannedJob) :
    Prop where
  waits : p.now < planned.startTime
  inWindow : planned.startTime ≤ p.windowEnd
  reserves : job.jobNoReserve = false
  room : t.recs < p.maxBackfillJobCnt
  overlap : testResvOverlap t.windows planned.availBitmap (p.startReserve planned)
    (p.endReserve planned) = true

/-! ## The edges -/

theorem planReservation_cases {planned : PlannedJob}
    (again : p.planReservation job t planned laterStart reason = .tryLater next reason') :
    (next = laterStart ∧ laterStart ≠ 0) ∨
      (next = planned.startTime ∧ p.OverlapEdge job t planned) := by
  unfold planReservation at again
  split_ifs at again with skipped ahead beyond full overlaps
  · cases again
    exact Or.inl ⟨rfl, ahead.1⟩
  · cases again
    obtain ⟨waits, _, overlap⟩ := overlaps
    refine Or.inr ⟨rfl, waits, Nat.le_of_not_lt beyond, ?_, Nat.lt_of_not_le full, overlap⟩
    cases noReserve : job.jobNoReserve with
    | false => rfl
    | true => exact absurd ⟨waits, noReserve⟩ skipped

theorem planReservation_progress {planned : PlannedJob} (behind : p.Behind startRes laterStart)
    (notEarlier : startRes ≤ planned.startTime)
    (again : p.planReservation job t planned laterStart reason = .tryLater next reason') :
    next ≤ p.windowEnd ∧ (startRes < next ∨
      (next = startRes ∧ planned.startTime = startRes ∧ p.OverlapEdge job t planned)) := by
  rcases planReservation_cases again with ⟨rfl, found⟩ | ⟨rfl, edge⟩
  · rcases behind with none | ⟨after, inWindow⟩
    · exact absurd none found
    · exact ⟨inWindow, Or.inl after⟩
  · refine ⟨edge.inWindow, ?_⟩
    rcases Nat.lt_or_eq_of_le notEarlier with after | same
    · exact Or.inl after
    · exact Or.inr ⟨same.symm, same.symm, edge⟩

theorem settle_progress {k base : Nat} {selection : Selection} (baseLe : base ≤ startRes)
    (behind : p.Behind base laterStart)
    (again : p.settle job t env k bootTime startRes laterStart selection reason = .tryLater next reason') :
    next ≤ p.windowEnd ∧ (base < next ∨ (next = base ∧ startRes = base ∧
      p.OverlapEdge job t ⟨base, bootTime, job.timeLimit, selection.nodeBitmap⟩)) := by
  have startLe : base ≤ max selection.startTime startRes :=
    Nat.le_trans baseLe (Nat.le_max_right _ _)
  have none : p.Behind base 0 := Or.inl rfl
  have strict : ∀ {planned : PlannedJob} {later : Nat} {r : StateReason},
      p.Behind base later → base ≤ p.now → base ≤ planned.startTime →
      p.planReservation job t planned later r = .tryLater next reason' →
      next ≤ p.windowEnd ∧ (base < next ∨ (next = base ∧ startRes = base ∧
        p.OverlapEdge job t ⟨base, bootTime, job.timeLimit, selection.nodeBitmap⟩)) := by
    intro planned later r laterBehind due notEarlier edge
    obtain ⟨inWindow, after | ⟨_, same, overlap⟩⟩ :=
      planReservation_progress laterBehind notEarlier edge
    · exact ⟨inWindow, Or.inl after⟩
    · have := overlap.waits
      omega
  unfold settle at again
  by_cases waits : p.now < max selection.startTime startRes
  · rw [if_pos waits] at again
    obtain ⟨inWindow, after | ⟨same, startEq, edge⟩⟩ :=
      planReservation_progress behind startLe again
    · exact ⟨inWindow, Or.inl after⟩
    · have startEq : max selection.startTime startRes = base := startEq
      refine ⟨inWindow, Or.inr ⟨same, by omega, ?_⟩⟩
      rwa [startEq] at edge
  · rw [if_neg waits] at again
    have due : base ≤ p.now := by omega
    by_cases completing : (selection.nodeBitmap ∩ p.cgNodeBitmap).Nonempty
    · rw [if_pos completing] at again
      exact strict none due (Nat.le_succ_of_le due) again
    · rw [if_neg completing] at again
      cases stage : env.stageIn k with
      | notReady => simp [stage] at again
      | staging =>
        simp only [stage] at again
        split_ifs at again
        · exact strict none due (Nat.le_succ_of_le due) again
        · exact strict none due startLe again
      | ready =>
        simp only [stage] at again
        by_cases packed : job.packed = true
        · rw [if_pos packed] at again
          exact strict behind due startLe again
        · rw [if_neg packed] at again
          cases result : env.startJob k with
          | started => simp [result] at again
          | unknownStart => simp [result] at again
          | accountingPolicy =>
            simp only [result] at again
            split_ifs at again with stop found
            · refine strict behind due ?_ again
              rcases behind with zero | ⟨after, _⟩
              · exact absurd zero found
              · exact Nat.le_of_lt after
            · exact strict behind due (by simp only; omega) again
          | failed =>
            simp only [result] at again
            exact strict none due startLe again

theorem retryLater_progress (behind : p.Behind startRes laterStart)
    (again : retryLater job laterStart reason = .tryLater next reason') :
    next ≤ p.windowEnd ∧ startRes < next := by
  unfold retryLater at again
  split_ifs at again with found
  cases again
  rcases behind with zero | ⟨after, inWindow⟩
  · exact absurd zero found.1
  · exact ⟨inWindow, after⟩

/-! ## Which record can overlap -/

theorem roundDown_le (backfillResolution : Nat) (time : UInt32) :
    (roundDown backfillResolution time).toNat ≤ time.toNat := by
  exact Nat.le_trans (Nat.mod_le _ _) (Nat.div_mul_le_self _ _)

theorem endReserve_le {time : Nat} {bootTime : UInt32} {nodes : Finset Nat} (waits : p.now < time)
    (finite : p.endTime job time ≠ infinite) :
    (p.endReserve ⟨time, bootTime, job.timeLimit, nodes⟩).toNat ≤
      (p.endTime job time + bootTime).toNat := by
  have endEq : p.endTime job time = UInt32.ofNat ((job.timeLimit * 60).toNat + time) := by
    unfold endTime at finite ⊢
    rw [Nat.max_eq_left (Nat.le_of_lt waits)] at finite ⊢
    simp only at finite ⊢
    split_ifs at finite ⊢ with wrapped
    · exact absurd rfl finite
    · rfl
  refine Nat.le_trans (roundDown_le _ _) (Nat.le_of_eq ?_)
  rw [endEq, UInt32.toNat_add, UInt32.toNat_ofNat', UInt32.toNat_ofNat', Nat.mod_add_mod]
  congr 1
  simp only
  omega

/-- A record that is still open at the start and overlaps has been looked at by
one of the two scans, so it holds every offered node. -/
theorem Offers.subset_window {first last : Nat} {offered nodes : Finset Nat}
    (offers : p.Offers job t time bootTime offered) (tiles : Contiguous first last t.windows)
    (waits : p.now < time) {w : Window} (mem : w ∈ t.windows) (open_ : time < w.endTime)
    (reached : w.beginTime < (p.endReserve ⟨time, bootTime, job.timeLimit, nodes⟩).toNat) :
    offered ⊆ w.availBitmap := by
  obtain ⟨resvBitmap, availBitmap, kept, availEq, _, _, filtered, shape⟩ := offers
  have keptSubset : kept ⊆ (scanRecords time (p.endTime job time) t.windows
      (0, resvBitmap ∩ job.usable)).2 := by
    refine (job.filter_subset _ _ filtered).trans ?_
    rw [availEq]
    exact Finset.sdiff_subset
  have offeredKept : offered ⊆ kept := by
    rcases shape with ⟨_, rfl⟩ | ⟨_, rfl⟩
    · exact Finset.Subset.refl _
    · exact scanBootRecords_subset _
  by_cases covered : w.beginTime ≤ (p.endTime job time).toNat
  · exact offeredKept.trans
      (keptSubset.trans (scanRecords_subset_window tiles _ mem open_ covered))
  · have finite : p.endTime job time ≠ infinite := by
      intro isInfinite
      rw [isInfinite] at covered
      have := (p.endReserve ⟨time, bootTime, job.timeLimit, nodes⟩).toNat_lt
      have : infinite.toNat = 2 ^ 32 - 1 := rfl
      omega
    have bound := @endReserve_le p job time bootTime nodes waits finite
    rcases shape with ⟨rfl, _⟩ | ⟨_, rfl⟩
    · rw [UInt32.add_zero] at bound
      omega
    · exact scanBootRecords_subset_window tiles _ mem open_ (Nat.lt_of_not_le covered) (by omega)

theorem stallsAt_of_overlapEdge {first last : Nat} {offered chosen : Finset Nat}
    (offers : p.Offers job t time bootTime offered) (chosenSubset : chosen ⊆ offered)
    (tiles : Contiguous first last t.windows) (reenters : job.entryStart time = time)
    (edge : p.OverlapEdge job t ⟨time, bootTime, job.timeLimit, chosen⟩) :
    p.StallsAt job t time := by
  refine ⟨edge.waits, reenters, edge.inWindow, edge.reserves, edge.room, bootTime, offered,
    offers, ?_⟩
  obtain ⟨w, mem, started, reached, missing⟩ := testResvOverlap_iff.mp edge.overlap
  refine ⟨w, mem, started, ?_, reached, fun all => missing (chosenSubset.trans all)⟩
  by_contra open_
  exact missing (chosenSubset.trans
    (offers.subset_window tiles edge.waits mem (Nat.lt_of_not_le open_) reached))

/-! ## One pass -/

/-- What a pass that comes back to `TRY_LATER` can carry: a start behind the
tested one, or the tested one itself out of a stalled start. -/
def Progress (p : Pass) (job : BackfillJob) (t : NodeSpace) (startRes next : Nat) : Prop :=
  next ≤ p.windowEnd ∧ (startRes < next ∨ (next = startRes ∧
    (job.entryStart startRes = startRes → p.StallsAt job t startRes)))

section OnePass

variable {first last k startRes laterStart next : Nat} {resvBitmap availBitmap kept : Finset Nat}
  {reason reason' : StateReason}

theorem tryWithReboot_progress (tiles : Contiguous first last t.windows)
    (behind : p.Behind startRes laterStart)
    (availEq : availBitmap = (scanRecords startRes (p.endTime job startRes) t.windows
      (0, resvBitmap ∩ job.usable)).2 \ job.excNodeBitmap)
    (enough : job.minNodes ≤ availBitmap.card) (required : job.reqNodeBitmap ⊆ availBitmap)
    (filtered : job.jobReqNodeFilter availBitmap = some kept)
    (again : p.tryWithReboot job t env k startRes laterStart kept reason =
      .tryLater next reason') : p.Progress job t startRes next := by
  have notEarlier := env.resv_not_earlier k true startRes
  have resvLater : p.Behind startRes (p.deferToResvEnd
      (if (env.jobTestResv k true startRes).resvOverlap then
        env.findResvEnd k (env.jobTestResv k true startRes).startRes else 0) laterStart) := by
    refine deferToResvEnd_behind behind ?_
    split_ifs
    · exact Or.inr (Nat.le_trans notEarlier (env.resvEnd_not_earlier k _))
    · exact Or.inl rfl
  unfold tryWithReboot at again
  simp only at again
  generalize selected : env.trySched k _ = answer at again
  cases answer with
  | none =>
    obtain ⟨inWindow, after⟩ := retryLater_progress resvLater again
    exact ⟨inWindow, Or.inl after⟩
  | some selection =>
    obtain ⟨inWindow, after | ⟨same, startEq, edge⟩⟩ :=
      settle_progress notEarlier resvLater again
    · exact ⟨inWindow, Or.inl after⟩
    · refine ⟨inWindow, Or.inr ⟨same, fun reenters => ?_⟩⟩
      have offers : p.Offers job t startRes p.bootTime
          (scanBootRecords startRes (p.endTime job startRes)
            (p.endTime job startRes + p.bootTime) t.windows kept) :=
        ⟨resvBitmap, availBitmap, kept, availEq, enough, required, filtered, Or.inr ⟨rfl, rfl⟩⟩
      refine stallsAt_of_overlapEdge offers ?_ tiles reenters edge
      have chosen := env.selected_subset k _ _ selected
      rw [startEq] at chosen
      refine chosen.trans (scanBootRecords_mono ?_)
      split_ifs
      · exact Finset.inter_subset_left
      · exact Finset.Subset.refl _

theorem trySelect_progress (tiles : Contiguous first last t.windows)
    (behind : p.Behind startRes laterStart)
    (availEq : availBitmap = (scanRecords startRes (p.endTime job startRes) t.windows
      (0, resvBitmap ∩ job.usable)).2 \ job.excNodeBitmap)
    (enough : job.minNodes ≤ availBitmap.card) (required : job.reqNodeBitmap ⊆ availBitmap)
    (filtered : job.jobReqNodeFilter availBitmap = some kept)
    (again : p.trySelect job t env k startRes laterStart kept reason = .tryLater next reason') :
    p.Progress job t startRes next := by
  have settled : ∀ {selection : Selection}, selection.nodeBitmap ⊆ kept →
      p.settle job t env k 0 startRes laterStart selection reason = .tryLater next reason' →
      p.Progress job t startRes next := by
    intro selection chosen edge
    obtain ⟨inWindow, after | ⟨same, _, overlap⟩⟩ :=
      settle_progress (Nat.le_refl startRes) behind edge
    · exact ⟨inWindow, Or.inl after⟩
    · refine ⟨inWindow, Or.inr ⟨same, fun reenters => ?_⟩⟩
      have offers : p.Offers job t startRes 0 kept :=
        ⟨resvBitmap, availBitmap, kept, availEq, enough, required, filtered, Or.inl ⟨rfl, rfl⟩⟩
      exact stallsAt_of_overlapEdge offers chosen tiles reenters overlap
  unfold trySelect at again
  cases active : env.activeBitmap kept with
  | some activeNodes =>
    simp only [active] at again
    cases answer : env.trySched k activeNodes with
    | some selection =>
      simp only [answer] at again
      exact settled ((env.selected_subset k _ _ answer).trans (env.active_subset _ _ active)) again
    | none =>
      simp only [answer] at again
      exact tryWithReboot_progress tiles behind availEq enough required filtered again
  | none =>
    simp only [active] at again
    cases answer : env.trySched k kept with
    | some selection =>
      simp only [answer] at again
      exact settled (env.selected_subset k _ _ answer) again
    | none =>
      simp only [answer] at again
      obtain ⟨inWindow, after⟩ := retryLater_progress behind again
      exact ⟨inWindow, Or.inl after⟩

/-- A pass that comes back carries a later start, unless its start is stalled. -/
theorem tryLater_progress (tiles : Contiguous first p.windowEnd t.windows)
    (again : p.tryLater job t env k laterStart reason = .tryLater next reason') :
    next ≤ p.windowEnd ∧ (laterStart < next ∨ (next = laterStart ∧ p.StallsAt job t laterStart)) := by
  have entryLe : laterStart ≤ job.entryStart laterStart :=
    Nat.le_trans (Nat.le_max_left _ _) (Nat.le_add_right _ _)
  have notEarlier := env.resv_not_earlier k false (job.entryStart laterStart)
  have progress : p.Progress job t
      (env.jobTestResv k false (job.entryStart laterStart)).startRes next := by
    unfold tryLater at again
    generalize env.jobTestResv k false (job.entryStart laterStart) = resv at again notEarlier ⊢
    simp only at again
    by_cases failed : resv.success = false
    · simp [failed] at again
    · rw [if_neg failed] at again
      have behind : p.Behind resv.startRes (p.deferToResvEnd
          (if resv.resvOverlap then env.findResvEnd k resv.startRes else 0)
          (scanRecords resv.startRes (p.endTime job resv.startRes) t.windows
            (0, resv.availBitmap ∩ job.usable)).1) := by
        refine deferToResvEnd_behind (scanRecords_laterStart tiles _) ?_
        split_ifs
        · exact Or.inr (env.resvEnd_not_earlier k _)
        · exact Or.inl rfl
      split at again
      · obtain ⟨inWindow, after⟩ := retryLater_progress behind again
        exact ⟨inWindow, Or.inl after⟩
      · rename_i fits
        obtain ⟨enough, required⟩ := not_or.mp fits
        split at again
        · obtain ⟨inWindow, after⟩ := retryLater_progress behind again
          exact ⟨inWindow, Or.inl after⟩
        · rename_i kept filtered
          exact trySelect_progress tiles behind rfl (Nat.le_of_not_lt enough)
            (not_not.mp required) filtered again
  obtain ⟨inWindow, after | ⟨same, stalls⟩⟩ := progress
  · exact ⟨inWindow, Or.inl (by omega)⟩
  · refine ⟨inWindow, ?_⟩
    rcases Nat.lt_or_ge laterStart next with behind | notBehind
    · exact Or.inl behind
    · have nextEq : next = laterStart := by omega
      have startEq : (env.jobTestResv k false (job.entryStart laterStart)).startRes =
          laterStart := by omega
      rw [startEq] at stalls
      exact Or.inr ⟨nextEq, stalls (by omega)⟩

end OnePass

/-! ## The whole loop -/

/-- No start the loop can reach from `laterStart` is a stalled one. -/
def NeverStalls (p : Pass) (job : BackfillJob) (t : NodeSpace) (laterStart : Nat) : Prop :=
  ∀ time, job.entryStart laterStart ≤ time → ¬p.StallsAt job t time

theorem entryStart_mono {earlier later : Nat} (le : earlier ≤ later) :
    job.entryStart earlier ≤ job.entryStart later := by
  unfold BackfillJob.entryStart
  omega

theorem NeverStalls.mono {earlier later : Nat} (never : p.NeverStalls job t earlier)
    (le : earlier ≤ later) : p.NeverStalls job t later :=
  fun time reached => never time (Nat.le_trans (entryStart_mono le) reached)

variable {k laterStart time : Nat} {reason : StateReason}

theorem runLater_of_neverStalls {first fuel : Nat}
    (tiles : Contiguous first p.windowEnd t.windows) (never : p.NeverStalls job t laterStart)
    (enough : p.windowEnd + 1 - laterStart < fuel) :
    p.runLater job t env fuel k laterStart reason = true := by
  induction fuel generalizing k laterStart reason with
  | zero => exact absurd enough (Nat.not_lt_zero _)
  | succ fuel ih =>
    rw [runLater]
    cases pass : p.tryLater job t env k laterStart reason with
    | leave => rfl
    | tryLater next reason' =>
      obtain ⟨inWindow, after | ⟨_, stalls⟩⟩ := tryLater_progress tiles pass
      · exact ih (never.mono (Nat.le_of_lt after)) (by omega)
      · exact absurd stalls (never laterStart (Nat.le_of_eq stalls.reenters))

theorem neverStalls_of_aligned (lower : 1 ≤ p.backfillResolution)
    (upper : p.backfillResolution < 2 ^ 32) (window : p.windowEnd < 2 ^ 32)
    (aligned : ∀ w ∈ t.windows, p.backfillResolution ∣ w.endTime) :
    p.NeverStalls job t laterStart := by
  intro time _ stalls
  obtain ⟨bootTime, offered, _, w, mem, started, passed, _, _⟩ := stalls.blocked
  have inWindow := stalls.inWindow
  obtain ⟨q, endEq⟩ := aligned w mem
  have rounded : (p.startReserve ⟨time, bootTime, job.timeLimit, offered⟩).toNat =
      time / p.backfillResolution * p.backfillResolution := by
    exact roundDown_toNat upper (Nat.lt_of_le_of_lt inWindow window)
  rw [endEq, Nat.mul_comm] at passed started
  have := Nat.mul_le_mul_right p.backfillResolution ((Nat.le_div_iff_mul_le lower).mpr passed)
  omega

/-! ## The stalled loop -/

/-- Reservations that allow `resvBitmap` from `time` on, and a select plugin that
takes every node it is offered and would start the job at once. -/
def agreeableEnvironment (time : Nat) (resvBitmap : Finset Nat) (reboots : Bool) :
    Environment where
  jobTestResv := fun _ _ start => ⟨true, max start time, resvBitmap, false⟩
  findResvEnd := fun _ time => time
  activeBitmap := fun _ => if reboots then some ∅ else none
  trySched := fun _ nodes => if nodes = ∅ then none else some ⟨0, nodes⟩
  stageIn := fun _ => .ready
  startJob := fun _ => .failed
  resv_not_earlier := fun _ _ _ => Nat.le_max_left _ _
  resvEnd_not_earlier := fun _ time => Nat.le_refl time
  active_subset := by
    intro nodes active isActive
    split_ifs at isActive
    cases isActive
    exact Finset.empty_subset _
  selected_subset := by
    intro k nodes selection selected
    split_ifs at selected
    cases selected
    exact Finset.Subset.refl _
  start_fixed := by
    intro k l nodes one two selectedOne selectedTwo
    split_ifs at selectedOne selectedTwo
    cases selectedOne
    cases selectedTwo
    rfl

theorem settle_of_overlap {bootTime : UInt32} {offered : Finset Nat}
    (stalls : p.StallsAt job t time) (behind : p.Behind time laterStart)
    (notStaging : reason.stageWait = false)
    (overlap : testResvOverlap t.windows offered
      (p.startReserve ⟨time, bootTime, job.timeLimit, offered⟩)
      (p.endReserve ⟨time, bootTime, job.timeLimit, offered⟩) = true) :
    p.settle job t env k bootTime time laterStart ⟨0, offered⟩ reason = .tryLater time reason := by
  have ahead : ¬(laterStart ≠ 0 ∧ laterStart < time) := by
    rintro ⟨found, earlier⟩
    rcases behind with zero | ⟨after, _⟩
    · exact found zero
    · omega
  have skipped : ¬(p.now < time ∧ job.jobNoReserve = true) := by
    rw [stalls.reserves]
    simp
  unfold settle
  simp only [Nat.zero_max]
  rw [if_pos stalls.waits, planReservation, if_neg skipped, if_neg ahead,
    if_neg (Nat.not_lt.mpr stalls.inWindow), if_neg (Nat.not_le.mpr stalls.room),
    if_pos ⟨stalls.waits, notStaging, overlap⟩]

theorem deferToResvEnd_zero (laterStart : Nat) : p.deferToResvEnd 0 laterStart = laterStart :=
  if_neg fun taken => taken.1 rfl

/-- A stalled start can be answered so that every pass comes back to it. -/
theorem tryLater_of_stallsAt {first : Nat} (tiles : Contiguous first p.windowEnd t.windows)
    (stalls : p.StallsAt job t time) :
    ∃ env : Environment, ∀ k laterStart reason, job.entryStart laterStart ≤ time →
      reason.stageWait = false →
      p.tryLater job t env k laterStart reason = .tryLater time reason := by
  obtain ⟨bootTime, offered, ⟨resvBitmap, availBitmap, kept, availEq, enough, required, filtered,
    shape⟩, w, mem, started, passed, reached, missing⟩ := stalls.blocked
  have behind : p.Behind time (scanRecords time (p.endTime job time) t.windows
      (0, resvBitmap ∩ job.usable)).1 := scanRecords_laterStart tiles _
  have overlap : testResvOverlap t.windows offered
      (p.startReserve ⟨time, bootTime, job.timeLimit, offered⟩)
      (p.endReserve ⟨time, bootTime, job.timeLimit, offered⟩) = true :=
    testResvOverlap_iff.mpr ⟨w, mem, started, reached, missing⟩
  have nonempty : offered ≠ ∅ := by
    rintro rfl
    exact missing (Finset.empty_subset _)
  have fits : ¬(availBitmap.card < job.minNodes ∨ ¬job.reqNodeBitmap ⊆ availBitmap) := by
    rintro (few | lacking)
    · omega
    · exact lacking required
  have start : ∀ reboots k laterStart reason, job.entryStart laterStart ≤ time →
      p.tryLater job t (agreeableEnvironment time resvBitmap reboots) k laterStart reason =
        p.trySelect job t (agreeableEnvironment time resvBitmap reboots) k time
          (scanRecords time (p.endTime job time) t.windows (0, resvBitmap ∩ job.usable)).1
          kept reason := by
    intro reboots k laterStart reason entered
    unfold tryLater
    simp only [agreeableEnvironment, Nat.max_eq_right entered, ← availEq]
    rw [if_neg (by simp), if_neg fits, filtered]
    simp only [Bool.false_eq_true, if_false, deferToResvEnd_zero]
  rcases shape with ⟨rfl, rfl⟩ | ⟨rfl, offeredEq⟩
  · refine ⟨agreeableEnvironment time resvBitmap false, ?_⟩
    intro k laterStart reason entered notStaging
    rw [start false k laterStart reason entered, trySelect]
    simp only [agreeableEnvironment, Bool.false_eq_true, if_false, if_neg nonempty]
    exact settle_of_overlap stalls behind notStaging overlap
  · refine ⟨agreeableEnvironment time resvBitmap true, ?_⟩
    intro k laterStart reason entered notStaging
    have keptSubset : kept ∩ resvBitmap = kept := by
      refine Finset.inter_eq_left.mpr ((job.filter_subset _ _ filtered).trans ?_)
      rw [availEq]
      exact Finset.sdiff_subset.trans ((scanRecords_subset _).trans Finset.inter_subset_left)
    rw [start true k laterStart reason entered, trySelect]
    simp only [agreeableEnvironment, if_true]
    unfold tryWithReboot
    simp only [Nat.max_self, Bool.false_eq_true, if_false, if_true, keptSubset,
      deferToResvEnd_zero, ← offeredEq, if_neg nonempty]
    exact settle_of_overlap stalls behind notStaging overlap

theorem runLater_of_return {fuel : Nat} (entered : job.entryStart laterStart ≤ time)
    (reenters : job.entryStart time = time)
    (returns : ∀ k laterStart, job.entryStart laterStart ≤ time →
      p.tryLater job t env k laterStart reason = .tryLater time reason) :
    p.runLater job t env fuel k laterStart reason = false := by
  induction fuel generalizing k laterStart with
  | zero => rfl
  | succ fuel ih =>
    rw [runLater, returns k laterStart entered]
    exact ih (Nat.le_of_eq reenters)

end Pass

/-- The retry loop ends for all answers when it can reach no stalled start; for a
job that does not wait for a burst buffer, only then. -/
theorem tryLater_ends_iff (p : Pass) (job : BackfillJob) (t : NodeSpace)
    (wellFormed : WellFormed t p.schedStart p.windowEnd) (laterStart : Nat)
    (reason : StateReason) :
    (p.NeverStalls job t laterStart → ∀ env, p.Ends job t env laterStart reason) ∧
      (reason.stageWait = false →
        ((∀ env, p.Ends job t env laterStart reason) ↔ p.NeverStalls job t laterStart)) := by
  have tiles := wellFormed.contiguous
  have ends : p.NeverStalls job t laterStart → ∀ env, p.Ends job t env laterStart reason := by
    intro never env
    exact ⟨_, Pass.runLater_of_neverStalls tiles never (Nat.lt_succ_self _)⟩
  refine ⟨ends, fun notStaging => ⟨fun all time entered stalls => ?_, ends⟩⟩
  obtain ⟨env, returns⟩ := Pass.tryLater_of_stallsAt tiles stalls
  obtain ⟨fuel, left⟩ := all env
  have loops : p.runLater job t env fuel 0 laterStart reason = false :=
    Pass.runLater_of_return entered stalls.reenters
      fun k later reached => returns k later reason reached notStaging
  rw [loops] at left
  cases left

/-- A one minute job on any two of the nodes 0 and 1. -/
def twoNodeJob (packTime : Nat) : BackfillJob where
  timeLimit := 1
  minNodes := 2
  usable := {0, 1}
  reqNodeBitmap := ∅
  excNodeBitmap := ∅
  packTime := packTime
  packed := true
  delayedWorkflow := false
  delay := 0
  jobNoReserve := false
  jobReqNodeFilter := some
  filter_subset := by
    intro nodes kept same
    cases same
    exact Finset.Subset.refl _

/-- With the window on a multiple of the resolution the loop ends for all answers. -/
theorem tryLater_ends_aligned_window :
    let p : Pass := ⟨⟨960, 60, 60, 100, 2⟩, 960, 0, ∅, false⟩
    ∀ env, p.Ends (twoNodeJob 1020) (NodeSpace.init 960 60 {0, 1}) env 960 .noReason := by
  intro p
  have wellFormed := init_wellFormed 960 {0, 1} (show 0 < 60 by decide)
  refine (tryLater_ends_iff p (twoNodeJob 1020) _ wellFormed 960 .noReason).1 ?_
  exact Pass.neverStalls_of_aligned (by decide) (by decide) (by decide) (by decide)

/-- The window ends at 1060 and the resolution rounds 1060 down to 1020, so the
record that ends at 1060 stalls a job planned for that instant. -/
theorem tryLater_never_ends :
    let p : Pass := ⟨⟨1000, 60, 60, 100, 2⟩, 1000, 0, ∅, false⟩
    let t := (NodeSpace.init 1000 60 {0, 1}).addReservation 1020 1080 {1}
    WellFormed t 1000 1060 ∧ ¬∀ env, p.Ends (twoNodeJob 1060) t env 1000 .noReason := by
  intro p t
  obtain ⟨cells, linked⟩ := init_wellFormed 1000 {0, 1} (show 0 < 60 by decide)
  have wellFormed : WellFormed t 1000 1060 := (linked.addReservation {1} (by decide)).1
  refine ⟨wellFormed, fun all => ?_⟩
  have windowsEq : t.windows = [⟨1000, 1020, {0, 1}⟩, ⟨1020, 1060, {1}⟩] := by decide
  have stalls : p.StallsAt (twoNodeJob 1060) t 1060 := by
    refine ⟨by decide, by decide, by decide, rfl, by decide, 0, {0, 1},
      ⟨{0, 1}, {0, 1}, {0, 1}, ?_, by decide, by decide, rfl, Or.inl ⟨rfl, rfl⟩⟩, ?_⟩
    · rw [windowsEq]
      decide
    · rw [windowsEq]
      decide
  obtain ⟨env, returns⟩ := Pass.tryLater_of_stallsAt wellFormed.contiguous stalls
  obtain ⟨fuel, left⟩ := all env
  have loops : p.runLater (twoNodeJob 1060) t env fuel 0 1000 .noReason = false :=
    Pass.runLater_of_return (by decide) stalls.reenters
      fun k later reached => returns k later .noReason reached rfl
  rw [loops] at left
  cases left

end SlurmSim.Backfill
