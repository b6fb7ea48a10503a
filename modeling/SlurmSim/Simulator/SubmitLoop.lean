import Mathlib.Algebra.Group.Int.Defs
import Mathlib.Algebra.Group.Nat.Defs
import Mathlib.Data.List.Basic
import Mathlib.Data.List.Pairwise
import SlurmSim.Simulator.ModuleList

/-!
# The submission of a trace

The simulated clock advances by an increment, and in each turn of the main loop every record at
the head of the trace that is due is submitted.  A pack is submitted as a whole as soon as its
first record is due.
-/

namespace SlurmSim.Simulator.SubmitLoop

open SlurmSim.Simulator List

/-! ## The loop -/

/-- The fields of `job_trace_t` that decide when and how a record is submitted. -/
structure JobTrace where
  jobId : Int
  submit : Int
  duration : Int
  modularJobId : Int
  totalComponents : Int
  moduleList : List Char
  deriving DecidableEq

/-- What a call of `generateJob` submits: the job descriptions, and the durations that it sends
for them. -/
structure Submitted where
  currentSim : Nat
  jobs : List JobTrace
  durations : List Int
  deriving DecidableEq

/-- The `duration` array of a pack: the number of components, and then their durations. -/
def durationArray (totalComp : Int) (components : List JobTrace) : List Int :=
  totalComp :: components.map (·.duration)

/-- The loop of `generateJob` over the components of a pack. -/
def packDurations (duration : List Int) : List Int :=
  (List.range (duration.getD 0 0).toNat).map fun comp => duration.getD (comp + 1) 0

/-- `generateJob`; `none` does not return.  Without a modular id it submits the record `jobd`,
whose module list is never parsed. -/
def generateJob (currentSim : Nat) (jobd : Option JobTrace) (jobReqList : List JobTrace)
    (modularJobid : Int) (duration : List Int) : Option Submitted :=
  if modularJobid = 0 then
    match jobd with
    | none => none
    | some jobd =>
      if jobd.moduleList = [] then some ⟨currentSim, [jobd], [jobd.duration]⟩ else none
  else some ⟨currentSim, jobReqList, packDurations duration⟩

/-- The submission loop of `time_mgr`: what is submitted and the records that are left. -/
def submitDue (traceFormat : Nat) (currentSim : Nat) :
    List JobTrace → Option (List Submitted × List JobTrace)
  | [] => some ([], [])
  | head :: rest =>
    if head.submit ≤ currentSim then
      if 2 < traceFormat ∧ 1 < head.totalComponents then
        if (rest.length + 1 : Int) < head.totalComponents then none
        else
          let components := (head :: rest).take head.totalComponents.toNat
          let traceHead := (head :: rest).drop head.totalComponents.toNat
          (generateJob currentSim traceHead.head? components head.modularJobId
            (durationArray head.totalComponents components)).bind fun submitted =>
              (submitDue traceFormat currentSim traceHead).map fun later =>
                (submitted :: later.1, later.2)
      else
        (generateJob currentSim (some head) [] 0 []).bind fun submitted =>
          (submitDue traceFormat currentSim rest).map fun later => (submitted :: later.1, later.2)
    else some ([], head :: rest)
termination_by trace => trace.length
decreasing_by
  · rw [length_drop, length_cons]
    omega
  · exact Nat.lt_succ_self _

/-- The main loop of `time_mgr` for so many turns; `current_sim` has 32 bits. -/
def timeMgr (traceFormat timeIncr : Nat) :
    Nat → Nat → List JobTrace → Option (List Submitted × List JobTrace)
  | 0, _, trace => some ([], trace)
  | turns + 1, currentSim, trace =>
    (submitDue traceFormat currentSim trace).bind fun now =>
      (timeMgr traceFormat timeIncr turns ((currentSim + timeIncr) % 2 ^ 32) now.2).map
        fun later => (now.1 ++ later.1, later.2)

/-! ## Traces of jobs and packs -/

/-- A head that begins a pack. -/
def IsPack (traceFormat : Nat) (head : JobTrace) : Prop :=
  2 < traceFormat ∧ 1 < head.totalComponents

/-- The consecutive records of one job: those of a pack's components, or a single one. -/
structure Block (traceFormat : Nat) where
  head : JobTrace
  rest : List JobTrace
  sized : IsPack traceFormat head ∧ (rest.length + 1 : Int) = head.totalComponents ∨
    ¬IsPack traceFormat head ∧ rest = []

variable {traceFormat : Nat}

namespace Block

def records (block : Block traceFormat) : List JobTrace :=
  block.head :: block.rest

/-- A pack has a modular id, and a single job no module list. -/
def Clean (block : Block traceFormat) : Prop :=
  (IsPack traceFormat block.head → block.head.modularJobId ≠ 0) ∧
    (¬IsPack traceFormat block.head → block.head.moduleList = [])

/-- The submit time of the first record has come. -/
def due (currentSim : Nat) (block : Block traceFormat) : Bool :=
  block.head.submit ≤ (currentSim : Int)

/-- The block is submitted as a whole, each record with its own duration. -/
def submitted (block : Block traceFormat) (currentSim : Nat) : Submitted :=
  ⟨currentSim, block.records, block.records.map (·.duration)⟩

end Block

/-- The records of a trace. -/
def traceOf (blocks : List (Block traceFormat)) : List JobTrace :=
  blocks.flatMap (·.records)

/-- `current_sim` in a turn. -/
def tick (timeIncr turn : Nat) : Nat :=
  (1 + turn * timeIncr) % 2 ^ 32

/-- The first of so many turns, from a turn on, in which a submit time has come. -/
def firstTurn (timeIncr first turns : Nat) (submit : Int) : Option Nat :=
  (List.range' first turns).find? fun turn => submit ≤ tick timeIncr turn

/-! ## One turn -/

theorem packDurations_eq {totalComp : Int} {components : List JobTrace}
    (sized : (components.length : Int) = totalComp) :
    packDurations (durationArray totalComp components) = components.map (·.duration) := by
  subst sized
  apply ext_getElem
  · simp [packDurations, durationArray]
  · intro comp _ mem
    rw [length_map] at mem
    simp [packDurations, durationArray, mem]

/-- A due block at the head is submitted as a whole. -/
theorem submitDue_block {block : Block traceFormat} (clean : block.Clean) {currentSim : Nat}
    (due : block.head.submit ≤ currentSim) (trace : List JobTrace) :
    submitDue traceFormat currentSim (block.records ++ trace) =
      (submitDue traceFormat currentSim trace).map fun later =>
        (block.submitted currentSim :: later.1, later.2) := by
  obtain ⟨head, rest, sized⟩ := block
  obtain ⟨named, plain⟩ := clean
  simp only [Block.records, cons_append] at due ⊢
  rw [submitDue, if_pos due]
  rcases sized with ⟨isPack, sized⟩ | ⟨single, rfl⟩
  · have length : head.totalComponents.toNat = (head :: rest).length := by
      rw [length_cons]
      omega
    have enough : ¬((rest ++ trace).length + 1 : Int) < head.totalComponents := by
      rw [length_append]
      omega
    have taken : (head :: (rest ++ trace)).take head.totalComponents.toNat = head :: rest := by
      rw [length, ← cons_append, take_left]
    have left : (head :: (rest ++ trace)).drop head.totalComponents.toNat = trace := by
      rw [length, ← cons_append, drop_left]
    have durations : packDurations (durationArray head.totalComponents (head :: rest)) =
        (head :: rest).map (·.duration) :=
      packDurations_eq (by exact_mod_cast sized)
    have pack : 2 < traceFormat ∧ 1 < head.totalComponents := isPack
    have isNamed : head.modularJobId ≠ 0 := named isPack
    rw [if_pos pack, if_neg enough]
    simp only [taken, left, generateJob, if_neg isNamed, durations, Option.bind_some]
    rfl
  · have noPack : ¬(2 < traceFormat ∧ 1 < head.totalComponents) := single
    have noModules : head.moduleList = [] := plain single
    rw [if_neg noPack, generateJob, if_pos rfl]
    simp only [noModules, if_true, Option.bind_some, nil_append]
    rfl

/-- A turn submits the blocks at the head that are due. -/
theorem submitDue_eq {blocks : List (Block traceFormat)} (clean : ∀ block ∈ blocks, block.Clean)
    (currentSim : Nat) :
    submitDue traceFormat currentSim (traceOf blocks) =
      some ((blocks.takeWhile (Block.due currentSim)).map fun block => block.submitted currentSim,
        traceOf (blocks.dropWhile (Block.due currentSim))) := by
  induction blocks with
  | nil => rw [traceOf, flatMap_nil, submitDue]; rfl
  | cons block blocks ih =>
    have others := ih fun other mem => clean other (mem_cons_of_mem _ mem)
    rw [takeWhile_cons, dropWhile_cons]
    by_cases due : block.head.submit ≤ (currentSim : Int)
    · have isDue : block.due currentSim = true := decide_eq_true due
      rw [traceOf, flatMap_cons, submitDue_block (clean block mem_cons_self) due,
        isDue, if_pos rfl, if_pos rfl]
      change (submitDue traceFormat currentSim (traceOf blocks)).map _ = _
      rw [others]
      rfl
    · have notDue : block.due currentSim = false := decide_eq_false due
      rw [notDue, if_neg Bool.false_ne_true, if_neg Bool.false_ne_true, traceOf,
        flatMap_cons, Block.records, cons_append, submitDue, if_neg due]
      rfl

/-! ## All turns -/

/-- What is submitted within so many turns, from a turn on: every block at the first tick at
which it is due. -/
def submissions (timeIncr first turns : Nat) (blocks : List (Block traceFormat)) :
    List Submitted :=
  blocks.filterMap fun block => (firstTurn timeIncr first turns block.head.submit).map fun turn =>
    block.submitted (tick timeIncr turn)

/-- The blocks that have not become due. -/
def waiting (timeIncr first turns : Nat) (blocks : List (Block traceFormat)) :
    List (Block traceFormat) :=
  blocks.filter fun block => (firstTurn timeIncr first turns block.head.submit).isNone

section Turns

variable {blocks : List (Block traceFormat)} {timeIncr : Nat}

@[simp] theorem tick_zero (timeIncr : Nat) : tick timeIncr 0 = 1 := by
  rw [tick, Nat.zero_mul]
  rfl

theorem tick_succ (timeIncr turn : Nat) :
    (tick timeIncr turn + timeIncr) % 2 ^ 32 = tick timeIncr (turn + 1) := by
  rw [tick, tick, Nat.mod_add_mod, Nat.succ_mul, Nat.add_assoc]

theorem firstTurn_succ (timeIncr first turns : Nat) (block : Block traceFormat) :
    firstTurn timeIncr first (turns + 1) block.head.submit =
      if block.due (tick timeIncr first) then some first
      else firstTurn timeIncr (first + 1) turns block.head.submit := by
  have test : decide (block.head.submit ≤ (tick timeIncr first : Int)) =
      block.due (tick timeIncr first) := rfl
  rw [firstTurn, range'_succ, find?_cons, test]
  cases block.due (tick timeIncr first) with
  | true => rfl
  | false => rfl

/-- The blocks are in the order of their submit times. -/
def Sorted (blocks : List (Block traceFormat)) : Prop :=
  blocks.Pairwise fun earlier later => earlier.head.submit ≤ later.head.submit

theorem Sorted.not_due {currentSim : Nat} (sorted : Sorted blocks) :
    ∀ block ∈ blocks.dropWhile (Block.due currentSim), block.due currentSim = false := by
  induction blocks with
  | nil => exact fun _ mem => absurd mem not_mem_nil
  | cons first blocks ih =>
    obtain ⟨least, others⟩ := pairwise_cons.mp sorted
    rw [dropWhile_cons]
    split_ifs with due
    · exact ih others
    · intro block mem
      have late : ¬first.head.submit ≤ (currentSim : Int) := by simpa [Block.due] using due
      refine decide_eq_false fun early => late ?_
      rcases mem_cons.mp mem with rfl | behind
      · exact early
      · exact Int.le_trans (least block behind) early

theorem submissions_split (sorted : Sorted blocks) (first turns : Nat) :
    submissions timeIncr first (turns + 1) blocks =
      ((blocks.takeWhile (Block.due (tick timeIncr first))).map fun block =>
          block.submitted (tick timeIncr first)) ++
        submissions timeIncr (first + 1) turns
          (blocks.dropWhile (Block.due (tick timeIncr first))) := by
  have here : submissions timeIncr first (turns + 1)
      (blocks.takeWhile (Block.due (tick timeIncr first))) =
      (blocks.takeWhile (Block.due (tick timeIncr first))).map fun block =>
        block.submitted (tick timeIncr first) := by
    rw [submissions, ← filterMap_eq_map]
    refine filterMap_congr fun block mem => ?_
    rw [firstTurn_succ, if_pos (mem_takeWhile_imp mem)]
    rfl
  have later : submissions timeIncr first (turns + 1)
      (blocks.dropWhile (Block.due (tick timeIncr first))) =
      submissions timeIncr (first + 1) turns
        (blocks.dropWhile (Block.due (tick timeIncr first))) := by
    refine filterMap_congr fun block mem => ?_
    rw [firstTurn_succ, sorted.not_due block mem, if_neg Bool.false_ne_true]
  calc submissions timeIncr first (turns + 1) blocks = submissions timeIncr first (turns + 1)
          (blocks.takeWhile (Block.due (tick timeIncr first)) ++
            blocks.dropWhile (Block.due (tick timeIncr first))) := by
        rw [takeWhile_append_dropWhile]
    _ = _ := by
        rw [← here, ← later]
        exact filterMap_append

theorem waiting_split (sorted : Sorted blocks) (first turns : Nat) :
    waiting timeIncr first (turns + 1) blocks = waiting timeIncr (first + 1) turns
        (blocks.dropWhile (Block.due (tick timeIncr first))) := by
  have none : waiting timeIncr first (turns + 1)
      (blocks.takeWhile (Block.due (tick timeIncr first))) = [] := by
    refine filter_eq_nil_iff.mpr fun block mem => ?_
    rw [firstTurn_succ, if_pos (mem_takeWhile_imp mem)]
    exact Bool.false_ne_true
  calc waiting timeIncr first (turns + 1) blocks = waiting timeIncr first (turns + 1)
          (blocks.takeWhile (Block.due (tick timeIncr first)) ++
            blocks.dropWhile (Block.due (tick timeIncr first))) := by
        rw [takeWhile_append_dropWhile]
    _ = waiting timeIncr first (turns + 1) (blocks.dropWhile (Block.due (tick timeIncr first))) :=
        (filter_append _ _).trans (by rw [← waiting, none, nil_append, waiting])
    _ = _ := by
        refine filter_congr fun block mem => ?_
        rw [firstTurn_succ, sorted.not_due block mem, if_neg Bool.false_ne_true]

theorem timeMgr_eq (clean : ∀ block ∈ blocks, block.Clean) (sorted : Sorted blocks)
    (first turns : Nat) :
    timeMgr traceFormat timeIncr turns (tick timeIncr first) (traceOf blocks) =
      some (submissions timeIncr first turns blocks,
        traceOf (waiting timeIncr first turns blocks)) := by
  induction turns generalizing first blocks with
  | zero =>
    have all : waiting timeIncr first 0 blocks = blocks :=
      filter_eq_self.mpr fun _ _ => rfl
    have none : submissions timeIncr first 0 blocks = [] :=
      filterMap_eq_nil_iff.mpr fun _ _ => rfl
    rw [timeMgr, all, none]
  | succ turns ih =>
    have kept := dropWhile_sublist (Block.due (tick timeIncr first)) (l := blocks)
    have later := @ih (blocks.dropWhile (Block.due (tick timeIncr first)))
      (fun block mem => clean block (kept.subset mem)) (sorted.sublist kept) (first + 1)
    rw [timeMgr, submitDue_eq clean, Option.bind_some, tick_succ, later, Option.map_some,
      submissions_split sorted, waiting_split sorted]

theorem firstTurn_isSome (pos : 0 < timeIncr) {submit : Int}
    (reached : submit + timeIncr ≤ 2 ^ 32) :
    (firstTurn timeIncr 0 (2 ^ 32 + 1) submit).isSome := by
  obtain ⟨turn, few, late, mem⟩ : ∃ turn, turn ≤ 2 ^ 32 ∧
      submit ≤ (1 + turn * timeIncr : Nat) ∧ 1 + turn * timeIncr < 2 ^ 32 := by
    by_cases atOnce : submit ≤ 1
    · exact ⟨0, by omega, by omega, by omega⟩
    · have upper := Nat.div_add_mod ((submit - 1).toNat + timeIncr - 1) timeIncr
      have small := Nat.mod_lt ((submit - 1).toNat + timeIncr - 1) pos
      refine ⟨((submit - 1).toNat + timeIncr - 1) / timeIncr, ?_, ?_, ?_⟩
      · have few := Nat.le_mul_of_pos_left (((submit - 1).toNat + timeIncr - 1) / timeIncr) pos
        omega
      · rw [Nat.mul_comm]
        omega
      · rw [Nat.mul_comm]
        omega
  rw [firstTurn, find?_isSome]
  refine ⟨turn, mem_range'_1.mpr ⟨Nat.zero_le _, by omega⟩, decide_eq_true ?_⟩
  rw [tick, Nat.mod_eq_of_lt mem]
  exact late

end Turns

/-! ## What the loop promises -/

/-- The records are in the order of their submit times. -/
def SortedTrace (blocks : List (Block traceFormat)) : Prop :=
  (traceOf blocks).Pairwise fun earlier later => earlier.submit ≤ later.submit

/-- Each record by itself is submitted at the first tick not earlier than its submit time, with
its own duration. -/
def EachSubmitted (timeIncr : Nat) (blocks : List (Block traceFormat)) : Prop :=
  ∀ turns, ∃ submitted left,
    timeMgr traceFormat timeIncr turns 1 (traceOf blocks) = some (submitted, left) ∧
      (submitted.flatMap fun call =>
        (call.jobs.zip call.durations).map fun job => (call.currentSim, job)) =
        (traceOf blocks).filterMap fun record =>
          (firstTurn timeIncr 0 turns record.submit).map fun turn =>
            (tick timeIncr turn, record, record.duration)

/-- Each block is submitted once and in order, at the first tick not earlier than the submit time
of its first record, and each of its records with its own duration. -/
structure BlocksSubmitted (timeIncr : Nat) (blocks : List (Block traceFormat)) : Prop where
  within : ∀ turns, timeMgr traceFormat timeIncr turns 1 (traceOf blocks) =
    some (submissions timeIncr 0 turns blocks, traceOf (waiting timeIncr 0 turns blocks))
  all : (∀ block ∈ blocks, block.head.submit + timeIncr ≤ 2 ^ 32) →
    ∃ turns, waiting timeIncr 0 turns blocks = []

theorem SortedTrace.sorted {blocks : List (Block traceFormat)} (sorted : SortedTrace blocks) :
    Sorted blocks := by
  refine (pairwise_flatMap.mp sorted).2.imp fun order => ?_
  exact order _ mem_cons_self _ mem_cons_self

/-- A sorted trace of clean jobs is submitted job by job. -/
theorem blocks_submitted (timeIncr : Nat) (positive : 0 < timeIncr)
    (blocks : List (Block traceFormat)) (sorted : SortedTrace blocks)
    (clean : ∀ block ∈ blocks, block.Clean) : BlocksSubmitted timeIncr blocks where
  within := by
    intro turns
    rw [← timeMgr_eq clean sorted.sorted 0, tick_zero]
  all := by
    intro reached
    refine ⟨2 ^ 32 + 1, filter_eq_nil_iff.mpr fun block mem => ?_⟩
    rw [← Option.not_isSome, firstTurn_isSome positive (reached block mem)]
    exact Bool.false_ne_true

/-- A pack of two components with different submit times. -/
def latePack : Block 3 where
  head := ⟨7, 1, 10, 7, 2, []⟩
  rest := [⟨7, 5, 20, 7, 2, []⟩]
  sized := .inl ⟨⟨by decide, by decide⟩, by decide⟩

theorem latePack_clean : ∀ block ∈ [latePack], block.Clean := by
  intro block mem
  rw [mem_singleton.mp mem]
  exact ⟨fun _ => by decide, fun _ => rfl⟩

theorem latePack_sorted : SortedTrace [latePack] := by
  rw [SortedTrace]
  decide

theorem blocks_submitted_pack : BlocksSubmitted 1 [latePack] :=
  blocks_submitted 1 (by decide) [latePack] latePack_sorted latePack_clean

/-- The second component is submitted with the first one, four ticks early. -/
theorem each_submitted_fails : ¬∀ (traceFormat timeIncr : Nat), 0 < timeIncr →
    ∀ blocks : List (Block traceFormat), SortedTrace blocks → EachSubmitted timeIncr blocks := by
  intro each
  obtain ⟨submitted, left, runs, same⟩ :=
    each 3 1 (by decide) [latePack] latePack_sorted 1
  have run := @timeMgr_eq 3 [latePack] 1 latePack_clean latePack_sorted.sorted 0 1
  rw [tick_zero, runs] at run
  cases run
  revert same
  decide

end SlurmSim.Simulator.SubmitLoop
