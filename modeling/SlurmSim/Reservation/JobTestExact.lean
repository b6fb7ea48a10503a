import Mathlib.Data.List.TakeWhile
import SlurmSim.Reservation.JobTest

/-!
# What the reservation test takes out

The nodes that a job may use are reset for every start time, but the excluded cores and the
overlap flag are kept from the start times that were given up.
-/

namespace SlurmSim.Reservation

open List

theorem foldl_or {α β : Type} {step : β → α → β} {adds : α → Prop} (holds : β → Prop)
    (one : ∀ b a, holds (step b a) ↔ holds b ∨ adds a) (b : β) (list : List α) :
    holds (list.foldl step b) ↔ holds b ∨ ∃ a ∈ list, adds a := by
  induction list generalizing b with
  | nil => simp only [foldl_nil, not_mem_nil, false_and, exists_false, or_false]
  | cons first rest ih =>
    rw [foldl_cons, ih, one, exists_mem_cons_iff, or_assoc]

namespace Call

variable (call : Call)

/-- A reservation of full nodes, or one that a job with whole nodes does not share. -/
def TakesNodes (start : Int) (resv : Resv) : Prop :=
  call.Overlaps start resv ∧ (resv.fullNodes = true ∨ call.details.wholeNode = 1)

/-- Another reservation, of some cores. -/
def TakesCores (start : Int) (resv : Resv) (cores : Finset Nat) : Prop :=
  call.Overlaps start resv ∧ ¬(resv.fullNodes = true ∨ call.details.wholeNode = 1) ∧
    resv.coreBitmap = some cores

/-- The reservation takes nodes or cores, if there are any in it. -/
def Takes (start : Int) (resv : Resv) : Prop :=
  call.TakesNodes start resv ∨ ∃ cores, call.TakesCores start resv cores

/-- The reservation removes nodes or cores. -/
def Removes (start : Int) (resv : Resv) : Prop :=
  (call.TakesNodes start resv ∧ ∃ n ∈ resv.nodeBitmap.getD ∅, n < call.nodeRecordCount) ∨
    ∃ cores, call.TakesCores start resv cores ∧ cores.Nonempty

/-- The outputs are those of the reservations that overlap the run of the job. -/
structure Exact (resvs : List Resv) (result : Result) : Prop where
  nodes : ∃ nodes, result.nodeBitmap = some nodes ∧ ∀ n, n ∈ nodes ↔ n < call.nodeRecordCount ∧
    ¬∃ resv ∈ resvs, call.TakesNodes result.when resv ∧ n ∈ resv.nodeBitmap.getD ∅
  cores : ∀ core, core ∈ result.excCoreBitmap.getD ∅ ↔
    ∃ resv ∈ resvs, ∃ cores, call.TakesCores result.when resv cores ∧ core ∈ cores
  has_cores : result.excCoreBitmap.isSome = true ↔
    ∃ resv ∈ resvs, ∃ cores, call.TakesCores result.when resv cores
  overlap : result.resvOverlap = true ↔ ∃ resv ∈ resvs, call.Removes result.when resv

variable {call} {start : Int}

/-! ## One reservation -/

theorem TakesNodes.not_cores {resv : Resv} (takes : call.TakesNodes start resv)
    (cores : Finset Nat) : ¬call.TakesCores start resv cores :=
  fun takes_cores => takes_cores.2.1 takes.2

/-- A reservation takes nothing, its nodes or its cores. -/
theorem takeStep_cases (found : Found) (resv : Resv) :
    (¬call.Takes start resv ∧ call.takeStep start found resv = found) ∨
      (call.TakesNodes start resv ∧ call.takeStep start found resv = { found with
          nodeBitmap := found.nodeBitmap \ resv.nodeBitmap.getD ∅
          resvOverlap := true }) ∨
      ∃ cores, call.TakesCores start resv cores ∧ call.takeStep start found resv = { found with
          excCoreBitmap := some (found.excCoreBitmap.getD ∅ ∪ cores)
          resvOverlap := true } := by
  by_cases overlaps : call.Overlaps start resv
  · rw [takeStep, if_pos overlaps, takeOut]
    by_cases full : resv.fullNodes = true ∨ call.details.wholeNode = 1
    · rw [if_pos (by simpa using full)]
      exact .inr (.inl ⟨⟨overlaps, full⟩, rfl⟩)
    · rw [if_neg (by simpa using full)]
      cases has_cores : resv.coreBitmap with
      | none =>
        refine .inl ⟨?_, rfl⟩
        rintro (takes | ⟨cores, takes⟩)
        · exact full takes.2
        · cases has_cores.symm.trans takes.2.2
      | some cores =>
        refine .inr (.inr ⟨cores, ⟨overlaps, full, has_cores⟩, ?_⟩)
        cases found.excCoreBitmap with
        | none => rw [Option.getD_none, Finset.empty_union]
        | some excluded => rfl
  · rw [takeStep, if_neg overlaps]
    refine .inl ⟨?_, rfl⟩
    rintro (takes | ⟨cores, takes⟩)
    · exact overlaps takes.1
    · exact overlaps takes.1

theorem takeStep_nodes (n : Nat) (found : Found) (resv : Resv) :
    n ∉ (call.takeStep start found resv).nodeBitmap ↔ n ∉ found.nodeBitmap ∨
      (call.TakesNodes start resv ∧ n ∈ resv.nodeBitmap.getD ∅) := by
  rcases takeStep_cases found resv with ⟨nothing, step⟩ | ⟨takes, step⟩ | ⟨cores, takes, step⟩
  · rw [step]
    tauto
  · rw [step, Finset.mem_sdiff]
    tauto
  · have no_nodes : ¬call.TakesNodes start resv := fun full => full.not_cores cores takes
    rw [step]
    tauto

theorem takeStep_overlap (found : Found) (resv : Resv) :
    (call.takeStep start found resv).resvOverlap = true ↔
      found.resvOverlap = true ∨ call.Takes start resv := by
  rcases takeStep_cases found resv with ⟨nothing, step⟩ | ⟨takes, step⟩ | ⟨cores, takes, step⟩
  · rw [step, or_iff_left nothing]
  · rw [step]
    exact iff_of_true rfl (.inr (.inl takes))
  · rw [step]
    exact iff_of_true rfl (.inr (.inr ⟨cores, takes⟩))

theorem takeStep_cores (core : Nat) (found : Found) (resv : Resv) :
    core ∈ (call.takeStep start found resv).excCoreBitmap.getD ∅ ↔
      core ∈ found.excCoreBitmap.getD ∅ ∨
        ∃ cores, call.TakesCores start resv cores ∧ core ∈ cores := by
  rcases takeStep_cases found resv with ⟨nothing, step⟩ | ⟨takes, step⟩ | ⟨cores, takes, step⟩
  · rw [step, or_iff_left fun ⟨cores, takes, _⟩ => nothing (.inr ⟨cores, takes⟩)]
  · rw [step, or_iff_left fun ⟨cores, takes_cores, _⟩ => takes.not_cores cores takes_cores]
  · rw [step, Option.getD_some, Finset.mem_union]
    refine or_congr_right ⟨fun mem => ⟨cores, takes, mem⟩, ?_⟩
    rintro ⟨others, takes_others, mem⟩
    obtain rfl : cores = others := Option.some.inj (takes.2.2.symm.trans takes_others.2.2)
    exact mem

theorem takeStep_has_cores (found : Found) (resv : Resv) :
    (call.takeStep start found resv).excCoreBitmap.isSome = true ↔
      found.excCoreBitmap.isSome = true ∨ ∃ cores, call.TakesCores start resv cores := by
  rcases takeStep_cases found resv with ⟨nothing, step⟩ | ⟨takes, step⟩ | ⟨cores, takes, step⟩
  · rw [step, or_iff_left fun ⟨cores, takes⟩ => nothing (.inr ⟨cores, takes⟩)]
  · rw [step, or_iff_left fun ⟨cores, takes_cores⟩ => takes.not_cores cores takes_cores]
  · rw [step]
    exact iff_of_true rfl (.inr ⟨cores, takes⟩)

/-! ## All start times -/

theorem collect_nodes (n : Nat) (found : Found) (attempt : Attempt) :
    n ∉ (call.collect found attempt).nodeBitmap ↔ n ∉ call.allNodes ∨ ∃ resv ∈ attempt.passed,
        call.TakesNodes attempt.start resv ∧ n ∈ resv.nodeBitmap.getD ∅ :=
  foldl_or (fun found : Found => n ∉ found.nodeBitmap) (takeStep_nodes n) _ attempt.passed

theorem foldl_collect_overlap (found : Found) (attempts : List Attempt) :
    (attempts.foldl call.collect found).resvOverlap = true ↔ found.resvOverlap = true ∨
      ∃ attempt ∈ attempts, ∃ resv ∈ attempt.passed, call.Takes attempt.start resv :=
  let holds := fun found : Found => found.resvOverlap = true
  foldl_or holds (fun _ attempt => foldl_or holds takeStep_overlap _ attempt.passed) found attempts

theorem foldl_collect_cores (core : Nat) (found : Found) (attempts : List Attempt) :
    core ∈ (attempts.foldl call.collect found).excCoreBitmap.getD ∅ ↔
      core ∈ found.excCoreBitmap.getD ∅ ∨ ∃ attempt ∈ attempts, ∃ resv ∈ attempt.passed,
        ∃ cores, call.TakesCores attempt.start resv cores ∧ core ∈ cores :=
  let holds := fun found : Found => core ∈ found.excCoreBitmap.getD ∅
  foldl_or holds (fun _ attempt => foldl_or holds (takeStep_cores core) _ attempt.passed) found
    attempts

theorem foldl_collect_has_cores (found : Found) (attempts : List Attempt) :
    (attempts.foldl call.collect found).excCoreBitmap.isSome = true ↔
      found.excCoreBitmap.isSome = true ∨ ∃ attempt ∈ attempts, ∃ resv ∈ attempt.passed,
        ∃ cores, call.TakesCores attempt.start resv cores :=
  let holds := fun found : Found => found.excCoreBitmap.isSome = true
  foldl_or holds (fun _ attempt => foldl_or holds takeStep_has_cores _ attempt.passed) found
    attempts

theorem attemptAt_passed_all {resvs : List Resv}
    (free : (call.attemptAt start resvs).chosen = none) :
    (call.attemptAt start resvs).passed = resvs.map call.upToDate := by
  rw [attemptAt_passed]
  unfold attemptAt at free
  cases none_blocks : call.blocker start resvs with
  | some resv =>
    rw [none_blocks] at free
    exact absurd free nofun
  | none =>
    refine takeWhile_eq_self_iff.mpr fun resv mem => ?_
    have passes := find?_eq_none.mp none_blocks resv mem
    rw [Bool.eq_false_iff.mpr passes]
    rfl

theorem attemptsOf_passed_all (start : Int) (resvList : List Resv) :
    ∀ attempt ∈ call.attemptsOf start resvList, attempt.chosen = none →
      attempt.passed = attempt.stored.map call.upToDate := by
  rw [attemptsOf]
  split_ifs
  · exact forall_mem_singleton.mpr fun _ => rfl
  · refine attempts_forall (fun start resvs free => ?_) 10 start resvList
    rw [attemptAt_stored, attemptAt_passed_all free]

variable (call)

/-- The cores taken at the start times that were given up are taken at the last one as well. -/
def CoresTakenAgain (abandoned : List Attempt) (final : Attempt) : Prop :=
  ∀ attempt ∈ abandoned, ∀ resv ∈ attempt.passed, ∀ cores,
    call.TakesCores attempt.start resv cores →
      (∃ again ∈ final.passed, ∃ others, call.TakesCores final.start again others) ∧
        ∀ core ∈ cores, ∃ again ∈ final.passed, ∃ others,
          call.TakesCores final.start again others ∧ core ∈ others

/-- When a reservation took something at any start time, one removes something at the last. -/
def TakingRemoves (attempts : List Attempt) (final : Attempt) : Prop :=
  (∃ attempt ∈ attempts, ∃ resv ∈ attempt.passed, call.Takes attempt.start resv) →
    ∃ resv ∈ final.passed, call.Removes final.start resv

/-- The outputs of a success, from the start times that were tried. -/
structure Collected (abandoned : List Attempt) (final : Attempt) (result : Result) : Prop where
  when : result.when = final.start
  passed : final.passed = final.stored.map call.upToDate
  nodes : ∃ nodes, result.nodeBitmap = some nodes ∧ ∀ n, n ∈ nodes ↔ n < call.nodeRecordCount ∧
    ¬∃ resv ∈ final.passed, call.TakesNodes final.start resv ∧ n ∈ resv.nodeBitmap.getD ∅
  cores : ∀ core, core ∈ result.excCoreBitmap.getD ∅ ↔
    ∃ attempt ∈ abandoned ++ [final], ∃ resv ∈ attempt.passed, ∃ cores,
      call.TakesCores attempt.start resv cores ∧ core ∈ cores
  has_cores : result.excCoreBitmap.isSome = true ↔
    ∃ attempt ∈ abandoned ++ [final], ∃ resv ∈ attempt.passed, ∃ cores,
      call.TakesCores attempt.start resv cores
  overlap : result.resvOverlap = true ↔
    ∃ attempt ∈ abandoned ++ [final], ∃ resv ∈ attempt.passed, call.Takes attempt.start resv

theorem jobTestResv_collected {resvList : List Resv} {abandoned : List Attempt} {final : Attempt}
    (tried : call.attemptsOf start resvList = abandoned ++ [final])
    (success : (call.jobTestResv start resvList).busy = false) :
    call.Collected abandoned final (call.jobTestResv start resvList) := by
  have tells := call.jobTestResv_tells start resvList
  obtain ⟨_, last, split, busy, time⟩ := tells.last
  obtain ⟨-, same⟩ := append_inj' (tried.symm.trans split) rfl
  obtain rfl : final = last := singleton_inj.mp same
  have free : final.chosen = none := by
    rw [success] at busy
    exact Option.not_isSome_iff_eq_none.mp (by rw [← busy]; exact Bool.false_ne_true)
  have mem : final ∈ call.attemptsOf start resvList := by
    rw [tried]
    exact mem_append_right _ mem_cons_self
  have passed := attemptsOf_passed_all start resvList final mem free
  rw [tried] at tells
  exact {
    when := by rw [time, free, Option.getD_none]
    passed := passed
    nodes := by
      refine ⟨_, tells.nodeBitmap success, fun n => ?_⟩
      rw [foldl_append, foldl_cons, foldl_nil, ← not_iff_not, collect_nodes,
        allNodes, Finset.mem_range, not_and_or, not_not]
    cores := fun core => by
      rw [tells.excCoreBitmap, foldl_collect_cores]
      exact or_iff_right (Finset.notMem_empty core)
    has_cores := by
      rw [tells.excCoreBitmap, foldl_collect_has_cores]
      exact or_iff_right Bool.false_ne_true
    overlap := by
      rw [tells.resvOverlap, foldl_collect_overlap]
      exact or_iff_right Bool.false_ne_true }

/-- A call of the witnesses: four nodes, and a job of a minute that needs node 1. -/
def onNodeOne : Call where
  zone := stillZone
  now := 900
  newId := fun _ => none
  nodeRecordCount := 4
  details := ⟨some {1}, 0, none⟩
  duration := 60
  moveTime := true
  licenseJobTest := fun _ resvs => (false, resvs)

/-- A reservation of full nodes. -/
def nodeResv (name : String) (nodes : Finset Nat) (start stop : Int) : Resv :=
  { powerResv name plainFlags start stop 0 with nodeBitmap := some nodes, fullNodes := true }

/-- A reservation of cores. -/
def coreResv (name : String) (nodes cores : Finset Nat) (start stop : Int) : Resv :=
  { nodeResv name nodes start stop with coreBitmap := some cores, fullNodes := false }

end Call

end SlurmSim.Reservation
