import SlurmSim.Backfill.TryLater

/-!
# The overlap test

Before a job gets a reservation of its own, the scheduler tests whether its nodes are taken
in a record of the table that meets its time.  A job that passes is entered with the
complement of its nodes.
-/

namespace SlurmSim.Backfill

open List

namespace NodeSpace

/-- The loop of `_test_resv_overlap` from a record on. -/
def overlapLoop (useBitmap : Finset Nat) (startTime endReserve : UInt32) (t : NodeSpace) :
    Nat → Nat → Bool
  | 0, _ => false
  | fuel + 1, j =>
    if startTime.toNat < (t.slot j).endTime ∧ (t.slot j).beginTime < endReserve.toNat ∧
        ¬ useBitmap ⊆ (t.slot j).availBitmap then true
    else if (t.slot j).next = 0 then false
    else overlapLoop useBitmap startTime endReserve t fuel (t.slot j).next

/-- `_test_resv_overlap`: no loop visits more records than there are slots in use. -/
def testResvOverlap (t : NodeSpace) (useBitmap : Finset Nat) (startTime endReserve : UInt32) :
    Bool :=
  overlapLoop useBitmap startTime endReserve t t.recs 0

end NodeSpace

/-- A job with the nodes it is to use. -/
structure PlacedJob where
  useBitmap : Finset Nat
  startTime : UInt32
  endReserve : UInt32

namespace PlacedJob

/-- The job runs at an instant. -/
def RunsAt (job : PlacedJob) (time : Nat) : Prop :=
  job.startTime.toNat ≤ time ∧ time < job.endReserve.toNat

/-- `bit_not` of the nodes, and `_add_reservation`. -/
def place (job : PlacedJob) (nodeCnt : Nat) (t : NodeSpace) : NodeSpace :=
  t.addReservation job.startTime job.endReserve (Finset.range nodeCnt \ job.useBitmap)

end PlacedJob

/-- A node that the table does not have available at an instant. -/
def TakenAt (t : NodeSpace) (time node : Nat) : Prop :=
  ∃ nodes, t.availAt time = some nodes ∧ node ∉ nodes

/-- The table has the nodes of a job taken while it runs. -/
def HeldIn (t : NodeSpace) (first last : Nat) (job : PlacedJob) : Prop :=
  ∀ time, first ≤ time → time < last → job.RunsAt time → ∀ node ∈ job.useBitmap,
    TakenAt t time node

/-- Two jobs share no node at an instant of the window, nor behind it if both start in it. -/
def ApartIn (first last : Nat) (job other : PlacedJob) : Prop :=
  ∀ time, first ≤ time →
    time < last ∨ job.startTime.toNat < last ∧ other.startTime.toNat < last →
      job.RunsAt time → other.RunsAt time → Disjoint job.useBitmap other.useBitmap

/-- Jobs that are placed one after the other, each on a well formed table that it does not
overlap with. -/
inductive Placements (first last nodeCnt : Nat) (t : NodeSpace) :
    List PlacedJob → NodeSpace → Prop where
  | none : Placements first last nodeCnt t [] t
  | more {jobs : List PlacedJob} {u : NodeSpace} (job : PlacedJob)
      (before : Placements first last nodeCnt t jobs u) (wellFormed : WellFormed u first last)
      (nonempty : job.startTime < job.endReserve)
      (passed : u.testResvOverlap job.useBitmap job.startTime job.endReserve = false) :
      Placements first last nodeCnt t (jobs ++ [job]) (job.place nodeCnt u)

/-! ## Windows -/

section Windows

variable {first last : Nat} {ws : List Window}

variable {time : Nat}

theorem Contiguous.availAt_of_mem (tiles : Contiguous first last ws) {w : Window}
    (mem : w ∈ ws) (started : w.beginTime ≤ time) (running : time < w.endTime) :
    availAt ws time = some w.availBitmap := by
  induction ws generalizing first with
  | nil => cases mem
  | cons v ws ih =>
    obtain ⟨_, _, rest⟩ := tiles
    rw [availAt_cons]
    rcases mem_cons.mp mem with rfl | later
    · rw [if_pos ⟨started, running⟩]
    · have behind := rest.first_le w later
      rw [if_neg (by omega)]
      exact ih rest later

theorem exists_window_of_availAt {nodes : Finset Nat} (avail : availAt ws time = some nodes) :
    ∃ w ∈ ws, w.beginTime ≤ time ∧ time < w.endTime ∧ w.availBitmap = nodes := by
  obtain ⟨w, found, same⟩ := Option.map_eq_some_iff.mp avail
  have covers := find?_some found
  rw [decide_eq_true_eq] at covers
  exact ⟨w, mem_of_find?_eq_some found, covers.1, covers.2, same⟩

/-- Windows that meet an interval hold an instant of it. -/
theorem exists_meeting_iff (tiles : Contiguous first last ws) (pos : Positive ws)
    {startTime endReserve : Nat} (nonempty : startTime < endReserve) (useBitmap : Finset Nat) :
    (∃ w ∈ ws, startTime < w.endTime ∧ w.beginTime < endReserve ∧ ¬ useBitmap ⊆ w.availBitmap) ↔
      ∃ time, first ≤ time ∧ time < last ∧ startTime ≤ time ∧ time < endReserve ∧
        ∃ node ∈ useBitmap, ∃ nodes, availAt ws time = some nodes ∧ node ∉ nodes := by
  constructor
  · rintro ⟨w, mem, afterStart, beforeEnd, notAll⟩
    obtain ⟨node, used, taken⟩ := Finset.not_subset.mp notAll
    have lower := tiles.first_le w mem
    have upper := tiles.endTime_le.2 w mem
    have length := pos w mem
    refine ⟨max startTime w.beginTime, by omega, by omega, le_max_left _ _, by omega, node, used,
      w.availBitmap, ?_, taken⟩
    exact tiles.availAt_of_mem mem (le_max_right _ _) (by omega)
  · rintro ⟨time, _, _, afterStart, beforeEnd, node, used, nodes, avail, taken⟩
    obtain ⟨w, mem, started, running, rfl⟩ := exists_window_of_availAt avail
    exact ⟨w, mem, by omega, by omega, fun all => taken (all used)⟩

/-- A reservation that ends before the window changes nothing in it. -/
theorem reserveWindows_before (tiles : Contiguous first last ws) (pos : Positive ws)
    {startTime endReserve : Nat} (resBitmap : Finset Nat) (startBefore : startTime ≤ first)
    (endBefore : endReserve ≤ first) (mem : first ≤ time) :
    availAt (reserveWindows startTime endReserve resBitmap ws) time = availAt ws time := by
  cases ws with
  | nil => rfl
  | cons w ws =>
    obtain ⟨beginEq, _, _⟩ := tiles
    have length := (positive_cons.mp pos).1
    have split : splitStart startTime endReserve (w :: ws) = { w with endTime := startTime } ::
          { w with beginTime := startTime, endTime := endReserve } ::
            { w with beginTime := endReserve } :: ws := by
      rw [splitStart, if_pos (by omega), splitEnd, if_pos (by simp only; omega)]
    rw [reserveWindows, split, reserve, if_pos (show endReserve ≤ w.beginTime by omega)]
    have head : ∀ h : Window, h.endTime = startTime →
        availAt (mergeOne (h :: { w with beginTime := startTime, endTime := endReserve } ::
          { w with beginTime := endReserve } :: ws)) time = availAt (w :: ws) time := by
      intro h isEnd
      have same : ∀ cut ≤ first, availAt ({ w with beginTime := cut } :: ws) time =
          availAt (w :: ws) time := by
        intro cut before
        rw [availAt_cons, availAt_cons]
        exact if_congr (and_congr_left fun _ => by simp only; omega) rfl rfl
      rw [mergeOne]
      split_ifs
      · rw [availAt_cons, if_neg (by simp only; omega)]
        exact same endReserve endBefore
      · rw [availAt_cons, if_neg (by omega), mergeOne, if_pos rfl]
        exact same startTime startBefore
    split_ifs
    · exact head _ rfl
    · exact head _ rfl

end Windows

/-! ## One job -/

namespace NodeSpace

theorem overlapLoop_eq (useBitmap : Finset Nat) (startTime endReserve : UInt32) (t : NodeSpace)
    (fuel j : Nat) : overlapLoop useBitmap startTime endReserve t fuel j =
      Backfill.testResvOverlap (windows.go t fuel j) useBitmap startTime endReserve := by
  induction fuel generalizing j with
  | zero => rfl
  | succ fuel ih =>
    rw [overlapLoop, windows.go, Backfill.testResvOverlap, any_cons]
    by_cases meets : startTime.toNat < (t.slot j).endTime ∧
        (t.slot j).beginTime < endReserve.toNat ∧ ¬ useBitmap ⊆ (t.slot j).availBitmap
    · rw [if_pos meets, decide_eq_true meets, Bool.true_or]
    · rw [if_neg meets, decide_eq_false meets, Bool.false_or]
      split_ifs
      · rfl
      · exact ih _

theorem testResvOverlap_eq (t : NodeSpace) (useBitmap : Finset Nat) (startTime endReserve : UInt32) :
    t.testResvOverlap useBitmap startTime endReserve =
      Backfill.testResvOverlap t.windows useBitmap startTime endReserve :=
  overlapLoop_eq useBitmap startTime endReserve t t.recs 0

end NodeSpace

variable {t : NodeSpace} {first last : Nat}

theorem testResvOverlap_eq_true_iff (wellFormed : WellFormed t first last)
    (useBitmap : Finset Nat) {startTime endReserve : UInt32} (nonempty : startTime < endReserve) :
    t.testResvOverlap useBitmap startTime endReserve = true ↔
      ∃ time, first ≤ time ∧ time < last ∧ startTime.toNat ≤ time ∧ time < endReserve.toNat ∧
        ∃ node ∈ useBitmap, TakenAt t time node := by
  have tiles := wellFormed.contiguous
  obtain ⟨cells, linked⟩ := wellFormed
  have positive : Positive t.windows := by
    rw [NodeSpace.windows_eq_view linked.chain linked.inUse]
    exact linked.positive
  rw [NodeSpace.testResvOverlap_eq, testResvOverlap, any_eq_true]
  simp only [decide_eq_true_eq]
  exact exists_meeting_iff tiles positive (UInt32.lt_iff_toNat_lt.mp nonempty) useBitmap

/-- Whatever its times are, a reservation takes its nodes in the window while it runs, and
nothing else. -/
theorem WellFormed.addReservation_availAt (wellFormed : WellFormed t first last)
    {startTime endReserve : UInt32} (nonempty : startTime < endReserve) (resBitmap : Finset Nat)
    {time : Nat} (lower : first ≤ time) :
    (t.addReservation startTime endReserve resBitmap).availAt time =
      if startTime.toNat ≤ time ∧ time < endReserve.toNat then (t.availAt time).map (· ∩ resBitmap)
      else t.availAt time := by
  obtain ⟨cells, linked⟩ := wellFormed
  have clamp : t.clampedStart startTime = max startTime.toNat first := by
    rw [NodeSpace.clampedStart, linked.beginTime_eq]
  have ordered := UInt32.lt_iff_toNat_lt.mp nonempty
  rcases lt_or_ge (t.clampedStart startTime) endReserve.toNat with fits | ends
  · rw [(linked.addReservation resBitmap fits).2.2 time, clamp]
    exact if_congr (and_congr_left fun _ => by omega) rfl rfl
  · obtain ⟨replaced, chain, inUse, viewEq, _⟩ :=
      NodeSpace.addReservation_edit startTime endReserve resBitmap linked.chain linked.inUse
    rw [if_neg (by omega), NodeSpace.availAt, NodeSpace.windows_eq_view chain inUse, viewEq,
      NodeSpace.availAt, NodeSpace.windows_eq_view linked.chain linked.inUse]
    refine reserveWindows_before linked.contiguous linked.positive resBitmap ?_ (by omega) lower
    exact (Nat.mod_le _ _).trans (by omega)

variable {job : PlacedJob}

theorem HeldIn.place (wellFormed : WellFormed t first last) {held : PlacedJob}
    (isHeld : HeldIn t first last held) (nonempty : job.startTime < job.endReserve)
    (nodeCnt : Nat) : HeldIn (job.place nodeCnt t) first last held := by
  intro time lower upper runs node used
  obtain ⟨nodes, avail, taken⟩ := isHeld time lower upper runs node used
  have after := wellFormed.addReservation_availAt nonempty
    (Finset.range nodeCnt \ job.useBitmap) lower
  rw [avail] at after
  split_ifs at after
  · exact ⟨_, after, fun kept => taken (Finset.mem_inter.mp kept).1⟩
  · exact ⟨nodes, after, taken⟩

theorem place_heldIn (wellFormed : WellFormed t first last)
    (nonempty : job.startTime < job.endReserve) (nodeCnt : Nat) :
    HeldIn (job.place nodeCnt t) first last job := by
  intro time lower upper runs node used
  obtain ⟨nodes, avail⟩ := Option.isSome_iff_exists.mp
    (wellFormed.contiguous.availAt_isSome lower upper)
  have after := wellFormed.addReservation_availAt nonempty
    (Finset.range nodeCnt \ job.useBitmap) lower
  rw [show t.availAt time = some nodes from avail,
    if_pos (show job.startTime.toNat ≤ time ∧ _ from runs)] at after
  exact ⟨_, after, fun kept => (Finset.mem_sdiff.mp (Finset.mem_inter.mp kept).2).2 used⟩

theorem WellFormed.first_lt (wellFormed : WellFormed t first last) : first < last := by
  obtain ⟨cells, chain, _, tiles, pos⟩ := wellFormed
  cases chain with
  | cons tail =>
    obtain ⟨beginEq, _, rest⟩ := tiles
    exact (beginEq ▸ (positive_cons.mp pos).1).trans_le rest.endTime_le.1

theorem exists_instant (nonempty : first < last) {other : PlacedJob} {time : Nat}
    (lower : first ≤ time)
    (within : time < last ∨ job.startTime.toNat < last ∧ other.startTime.toNat < last)
    (runs : job.RunsAt time) (otherRuns : other.RunsAt time) :
    ∃ time, first ≤ time ∧ time < last ∧ job.RunsAt time ∧ other.RunsAt time := by
  rcases within with upper | ⟨starts, otherStarts⟩
  · exact ⟨time, lower, upper, runs, otherRuns⟩
  · obtain ⟨started, running⟩ := runs
    obtain ⟨otherStarted, otherRunning⟩ := otherRuns
    refine ⟨max first (max job.startTime.toNat other.startTime.toNat), le_max_left _ _, by omega,
      ⟨by omega, by omega⟩, by omega, by omega⟩

theorem HeldIn.apart (wellFormed : WellFormed t first last) {held : PlacedJob}
    (isHeld : HeldIn t first last held) (nonempty : job.startTime < job.endReserve)
    (passed : t.testResvOverlap job.useBitmap job.startTime job.endReserve = false) :
    ApartIn first last held job := by
  intro time lower within runs jobRuns
  obtain ⟨time, lower, upper, runs, jobRuns⟩ :=
    exists_instant wellFormed.first_lt lower within runs jobRuns
  refine Finset.disjoint_left.mpr fun node used jobUsed => ?_
  have overlaps := (testResvOverlap_eq_true_iff wellFormed job.useBitmap nonempty).mpr
    ⟨time, lower, upper, jobRuns.1, jobRuns.2, node, jobUsed, isHeld time lower upper runs node used⟩
  rw [passed] at overlaps
  cases overlaps

/-! ## Every run of jobs -/

/-- What a run keeps: the jobs are held, and apart from each other and from what was held. -/
structure RunHolds (first last : Nat) (t : NodeSpace) (jobs : List PlacedJob) (u : NodeSpace) :
    Prop where
  held : ∀ job ∈ jobs, HeldIn u first last job
  kept : ∀ earlier, HeldIn t first last earlier → HeldIn u first last earlier
  apart : jobs.Pairwise (ApartIn first last)
  apartKept : ∀ earlier, HeldIn t first last earlier → ∀ job ∈ jobs, ApartIn first last earlier job

theorem Placements.runHolds {nodeCnt : Nat} {jobs : List PlacedJob} {u : NodeSpace}
    (run : Placements first last nodeCnt t jobs u) : RunHolds first last t jobs u := by
  induction run with
  | none => exact ⟨by simp, fun _ isHeld => isHeld, .nil, by simp⟩
  | more job before wellFormed nonempty passed ih =>
    obtain ⟨held, kept, apart, apartKept⟩ := ih
    refine ⟨fun placed mem => ?_, fun earlier isHeld => ?_, ?_,
      fun earlier isHeld placed mem => ?_⟩
    · rcases mem_append.mp mem with old | new
      · exact (held placed old).place wellFormed nonempty nodeCnt
      · exact mem_singleton.mp new ▸ place_heldIn wellFormed nonempty nodeCnt
    · exact (kept earlier isHeld).place wellFormed nonempty nodeCnt
    · refine pairwise_append.mpr ⟨apart, pairwise_singleton _ _, ?_⟩
      intro placed old other new
      exact mem_singleton.mp new ▸ (held placed old).apart wellFormed nonempty passed
    · rcases mem_append.mp mem with old | new
      · exact apartKept earlier isHeld placed old
      · exact mem_singleton.mp new ▸ (kept earlier isHeld).apart wellFormed nonempty passed

/-- The overlap test is exact, and jobs that are placed behind it share no node at any instant
of the window, neither with each other nor with what the table held before. -/
theorem testResvOverlap_exact :
    (∀ (t : NodeSpace) (first last : Nat), WellFormed t first last →
      ∀ (useBitmap : Finset Nat) (startTime endReserve : UInt32), startTime < endReserve →
        (t.testResvOverlap useBitmap startTime endReserve = true ↔
          ∃ time, first ≤ time ∧ time < last ∧ startTime.toNat ≤ time ∧ time < endReserve.toNat ∧
              ∃ node ∈ useBitmap, TakenAt t time node)) ∧
    ∀ (t u : NodeSpace) (first last nodeCnt : Nat) (jobs : List PlacedJob),
      Placements first last nodeCnt t jobs u → jobs.Pairwise (ApartIn first last) ∧
          ∀ earlier, HeldIn t first last earlier → ∀ job ∈ jobs, ApartIn first last earlier job := by
  refine ⟨fun t first last wellFormed useBitmap startTime endReserve nonempty => ?_,
    fun t u first last nodeCnt jobs run => ?_⟩
  · exact testResvOverlap_eq_true_iff wellFormed useBitmap nonempty
  · have holds := run.runHolds
    exact ⟨holds.apart, holds.apartKept⟩

/-- Two jobs on node 0, one behind the other. -/
theorem testResvOverlap_exact_two_jobs :
    ((NodeSpace.init 1000 60 {0, 1}).testResvOverlap {0, 2} 1010 1020 = true ↔
      ∃ time, 1000 ≤ time ∧ time < 1060 ∧ (1010 : UInt32).toNat ≤ time ∧
        time < (1020 : UInt32).toNat ∧ ∃ node ∈ ({0, 2} : Finset Nat),
          TakenAt (NodeSpace.init 1000 60 {0, 1}) time node) ∧
    [(⟨{0}, 1010, 1030⟩ : PlacedJob), ⟨{0}, 1030, 1040⟩].Pairwise (ApartIn 1000 1060) := by
  have start := init_wellFormed 1000 {0, 1} (show 0 < 60 by decide)
  have second : WellFormed ((⟨{0}, 1010, 1030⟩ : PlacedJob).place 2 (NodeSpace.init 1000 60 {0, 1}))
      1000 1060 := by
    obtain ⟨cells, linked⟩ := start
    exact (linked.addReservation _ (by decide)).1
  have one := Placements.more ⟨{0}, 1010, 1030⟩
    (Placements.none : Placements 1000 1060 2 (NodeSpace.init 1000 60 {0, 1}) [] _) start
    (by decide) (by decide)
  have two := Placements.more ⟨{0}, 1030, 1040⟩ one second (by decide) (by decide)
  exact ⟨testResvOverlap_exact.1 _ 1000 1060 start _ 1010 1020 (by decide),
    (testResvOverlap_exact.2 _ _ 1000 1060 2 _ two).1⟩

end SlurmSim.Backfill
