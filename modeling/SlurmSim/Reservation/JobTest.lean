import SlurmSim.Reservation.Watts

/-!
# Reservation test of a job

A job without a reservation is tested at its start time and then, if a reservation or its
licenses stand in the way, at up to ten other times.  Which times are tried depends on the
reservations alone, not on the outputs that are collected meanwhile.
-/

namespace SlurmSim.Reservation

open List

/-- `job_details` and `license_list` of a job, as far as the test reads them. -/
structure Details where
  reqNodeBitmap : Option (Finset Nat)
  wholeNode : Nat
  licenseList : Option (List String)
  deriving DecidableEq

/-- `license_list_overlap` -/
def licenseListOverlap : Option (List String) → Option (List String) → Bool
  | some one, some other => one.any fun name => other.contains name
  | _, _ => false

/-- What stays the same in one call of `job_test_resv`.  The license test may advance
reservations as well. -/
structure Call where
  zone : Zone
  now : Int
  newId : Resv → Option Nat
  nodeRecordCount : Nat
  details : Details
  duration : Nat
  moveTime : Bool
  licenseJobTest : Int → List Resv → Bool × List Resv

/-- The outputs that are collected over the reservations. -/
structure Found where
  nodeBitmap : Finset Nat
  excCoreBitmap : Option (Finset Nat)
  resvOverlap : Bool
  deriving DecidableEq

/-- The end of the loop over the reservations: the stored end time of the one that broke it. -/
structure Scan where
  busy : Option Int
  licResvTime : Int
  found : Found
  resvs : List Resv
  deriving DecidableEq

/-- The end of the call; it is busy or a success. -/
structure Result where
  busy : Bool
  when : Int
  nodeBitmap : Option (Finset Nat)
  excCoreBitmap : Option (Finset Nat)
  resvOverlap : Bool
  resvs : List Resv
  deriving DecidableEq

/-- One start time that was tried: the reservations as they were, those before the one that
excludes it, whether the licenses are waited for, and the time to try next if it is busy. -/
structure Attempt where
  start : Int
  stored : List Resv
  passed : List Resv
  blocker : Option Resv
  waits : Bool
  chosen : Option Int
  deriving DecidableEq

namespace Call

variable (call : Call)

/-- `bit_nset(*node_bitmap, 0, (node_record_count - 1))` -/
def allNodes : Finset Nat := Finset.range call.nodeRecordCount

/-- A reservation that does not float is advanced if it has ended. -/
def upToDate (resv : Resv) : Resv :=
  if resv.flags.timeFloat then resv
  else advanceIfEnded call.zone call.now (call.newId resv) resv

/-- A required node is reserved. -/
def requires (resv : Resv) : Bool :=
  match call.details.reqNodeBitmap, resv.nodeBitmap with
  | some required, some nodes =>
    decide (required ∩ nodes).Nonempty && (!resv.hasTres || call.details.wholeNode == 1)
  | _, _ => false

/-- The time at which the first licenses of a job are freed. -/
def freeLicenses (resv : Resv) (licResvTime : Int) : Int :=
  if licenseListOverlap call.details.licenseList resv.licenseList then
    if licResvTime = 0 ∨ resv.endTime < licResvTime then resv.endTime else licResvTime
  else licResvTime

/-- The nodes or the cores of a reservation are taken out. -/
def takeOut (resv : Resv) (nodes : Finset Nat) (found : Found) : Found :=
  if resv.fullNodes || call.details.wholeNode == 1 then
    { found with nodeBitmap := found.nodeBitmap \ nodes, resvOverlap := true }
  else
    match resv.coreBitmap, found.excCoreBitmap with
    | none, _ => found
    | some cores, none => { found with excCoreBitmap := some cores, resvOverlap := true }
    | some cores, some excluded =>
      { found with excCoreBitmap := some (excluded ∪ cores), resvOverlap := true }

/-- The loop over the reservations, for one start time. -/
def scanResvs (start : Int) : List Resv → Int → Found → Scan
  | [], licResvTime, found => ⟨none, licResvTime, found, []⟩
  | stored :: rest, licResvTime, found =>
    let resv := call.upToDate stored
    let continued := fun (licResvTime : Int) (found : Found) =>
      let scan := scanResvs start rest licResvTime found
      { scan with resvs := resv :: scan.resvs }
    let period := resv.relativePeriod call.now
    match resv.nodeBitmap with
    | none => continued licResvTime found
    | some nodes =>
      if start + call.duration ≤ period.1 ∨ period.2 ≤ start then continued licResvTime found
      else if resv.flags.allNodes then ⟨some resv.endTime, licResvTime, found, resv :: rest⟩
      else if call.requires resv then ⟨some resv.endTime, licResvTime, found, resv :: rest⟩
      else continued (call.freeLicenses resv licResvTime) (call.takeOut resv nodes found)

/-- One start time: with the time to try next if it is busy. -/
def tryStart (start : Int) (found : Found) (resvs : List Resv) : Option Int × Found × List Resv :=
  let scan := call.scanResvs start resvs 0 found
  match scan.busy with
  | some stop => (some (if call.moveTime then stop else start), scan.found, scan.resvs)
  | none =>
    if call.moveTime then
      match call.licenseJobTest start scan.resvs with
      | (true, resvs) => (some scan.licResvTime, scan.found, resvs)
      | (false, resvs) => (none, scan.found, resvs)
    else (none, scan.found, scan.resvs)

/-- The loop over the start times, with the retries that are left. -/
def tryStarts : Nat → Int → Found → List Resv → Result
  | tries, start, found, resvs =>
    match call.tryStart start found resvs with
    | (none, found, resvs) =>
      ⟨false, start, some found.nodeBitmap, found.excCoreBitmap, found.resvOverlap, resvs⟩
    | (some time, found, resvs) =>
      match call.moveTime, tries with
      | true, tries + 1 =>
        tryStarts tries time { found with nodeBitmap := call.allNodes } resvs
      | _, _ => ⟨true, time, none, found.excCoreBitmap, found.resvOverlap, resvs⟩

/-- `job_test_resv` of a job without a reservation. -/
def jobTestResv (start : Int) (resvList : List Resv) : Result :=
  if resvList = [] then ⟨false, start, some call.allNodes, none, false, []⟩
  else call.tryStarts 10 start ⟨call.allNodes, none, false⟩ resvList

/-! ## One start time -/

/-- The nodes of a reservation and the run of the job overlap in time. -/
def Overlaps (start : Int) (resv : Resv) : Prop :=
  resv.nodeBitmap.isSome = true ∧ (resv.relativePeriod call.now).1 < start + call.duration ∧
    start < (resv.relativePeriod call.now).2

instance (start : Int) (resv : Resv) : Decidable (call.Overlaps start resv) :=
  inferInstanceAs (Decidable (_ ∧ _))

/-- The reservation excludes a start at this time. -/
def Blocks (start : Int) (resv : Resv) : Prop :=
  call.Overlaps start resv ∧ (resv.flags.allNodes = true ∨ call.requires resv = true)

instance (start : Int) (resv : Resv) : Decidable (call.Blocks start resv) :=
  inferInstanceAs (Decidable (_ ∧ _))

/-- The reservations before the first that excludes the start time. -/
def passed (start : Int) (resvs : List Resv) : List Resv :=
  (resvs.map call.upToDate).takeWhile fun resv => !decide (call.Blocks start resv)

/-- The first reservation that excludes the start time. -/
def blocker (start : Int) (resvs : List Resv) : Option Resv :=
  (resvs.map call.upToDate).find? fun resv => decide (call.Blocks start resv)

/-- The reservations after the loop; those behind the first that excludes the start time are
as they were. -/
def scanned (start : Int) (resvs : List Resv) : List Resv :=
  call.passed start resvs ++
    ((call.blocker start resvs).toList ++ resvs.drop ((call.passed start resvs).length + 1))

/-- What one reservation that does not exclude the start time adds to the outputs. -/
def takeStep (start : Int) (found : Found) (resv : Resv) : Found :=
  if call.Overlaps start resv then call.takeOut resv (resv.nodeBitmap.getD ∅) found else found

/-- What it adds to the time of the licenses. -/
def licenseStep (start : Int) (licResvTime : Int) (resv : Resv) : Int :=
  if call.Overlaps start resv then call.freeLicenses resv licResvTime else licResvTime

variable {call} {start : Int}

theorem passed_cons_of_blocks {stored : Resv} (rest : List Resv)
    (blocks : call.Blocks start (call.upToDate stored)) :
    call.passed start (stored :: rest) = [] := by
  rw [passed, map_cons, takeWhile_cons_of_neg]
  rw [decide_eq_true blocks]
  exact Bool.false_ne_true

theorem blocker_cons_of_blocks {stored : Resv} (rest : List Resv)
    (blocks : call.Blocks start (call.upToDate stored)) :
    call.blocker start (stored :: rest) = some (call.upToDate stored) := by
  rw [blocker, map_cons, find?_cons_of_pos]
  exact decide_eq_true blocks

theorem passed_cons_of_not_blocks {stored : Resv} (rest : List Resv)
    (free : ¬call.Blocks start (call.upToDate stored)) :
    call.passed start (stored :: rest) = call.upToDate stored :: call.passed start rest := by
  rw [passed, map_cons, takeWhile_cons_of_pos]
  · rfl
  · rw [decide_eq_false free]
    rfl

theorem blocker_cons_of_not_blocks {stored : Resv} (rest : List Resv)
    (free : ¬call.Blocks start (call.upToDate stored)) :
    call.blocker start (stored :: rest) = call.blocker start rest := by
  rw [blocker, map_cons, find?_cons_of_neg]
  · rfl
  · rw [decide_eq_false free]
    exact Bool.false_ne_true

theorem scanned_cons_of_not_blocks {stored : Resv} (rest : List Resv)
    (free : ¬call.Blocks start (call.upToDate stored)) :
    call.scanned start (stored :: rest) = call.upToDate stored :: call.scanned start rest := by
  rw [scanned, passed_cons_of_not_blocks rest free, blocker_cons_of_not_blocks rest free]
  rfl

/-- The loop stops at the first reservation that excludes the start time, with the outputs of
those before it. -/
theorem scanResvs_eq (resvs : List Resv) (licResvTime : Int) (found : Found) :
    call.scanResvs start resvs licResvTime found =
      { busy := (call.blocker start resvs).map Resv.endTime
        licResvTime := (call.passed start resvs).foldl (call.licenseStep start) licResvTime
        found := (call.passed start resvs).foldl (call.takeStep start) found
        resvs := call.scanned start resvs } := by
  induction resvs generalizing licResvTime found with
  | nil => rfl
  | cons stored rest ih =>
    rw [scanResvs]
    dsimp only
    by_cases blocks : call.Blocks start (call.upToDate stored)
    · rw [scanned, passed_cons_of_blocks rest blocks, blocker_cons_of_blocks rest blocks]
      obtain ⟨⟨some_nodes, before_end, after_start⟩, why⟩ := blocks
      obtain ⟨nodes, has_nodes⟩ := Option.isSome_iff_exists.mp some_nodes
      rw [has_nodes]
      dsimp only
      rw [if_neg (by omega)]
      split_ifs with all required
      · rfl
      · rfl
      · exact absurd why (not_or.mpr ⟨all, required⟩)
    · rw [scanned_cons_of_not_blocks rest blocks, passed_cons_of_not_blocks rest blocks,
        blocker_cons_of_not_blocks rest blocks, foldl_cons, foldl_cons, licenseStep,
        takeStep]
      by_cases overlaps : call.Overlaps start (call.upToDate stored)
      · rw [if_pos overlaps, if_pos overlaps]
        have why : ¬((call.upToDate stored).flags.allNodes = true ∨
            call.requires (call.upToDate stored) = true) := fun why => blocks ⟨overlaps, why⟩
        obtain ⟨not_all, not_required⟩ := not_or.mp why
        obtain ⟨some_nodes, before_end, after_start⟩ := overlaps
        obtain ⟨nodes, has_nodes⟩ := Option.isSome_iff_exists.mp some_nodes
        rw [has_nodes]
        dsimp only
        rw [if_neg (by omega), if_neg not_all, if_neg not_required, ih, Option.getD_some]
      · rw [if_neg overlaps, if_neg overlaps]
        cases has_nodes : (call.upToDate stored).nodeBitmap with
        | none => rw [ih]
        | some nodes =>
          have apart :
              start + call.duration ≤ ((call.upToDate stored).relativePeriod call.now).1 ∨
                ((call.upToDate stored).relativePeriod call.now).2 ≤ start := by
            by_contra within
            push Not at within
            exact overlaps ⟨by rw [has_nodes]; rfl, within⟩
          dsimp only
          rw [if_pos apart, ih]

/-! ## The start times -/

variable (call)

/-- What one start time leads to. -/
def attemptAt (start : Int) (resvs : List Resv) : Attempt :=
  let passed := call.passed start resvs
  let waits := call.moveTime && (call.licenseJobTest start (call.scanned start resvs)).1
  match call.blocker start resvs with
  | some resv =>
    ⟨start, resvs, passed, some resv, false,
      some (if call.moveTime then resv.endTime else start)⟩
  | none =>
    ⟨start, resvs, passed, none, waits,
      if waits then some (passed.foldl (call.licenseStep start) 0) else none⟩

/-- The reservations after one start time. -/
def resvsAfter (start : Int) (resvs : List Resv) : List Resv :=
  if (call.blocker start resvs).isNone && call.moveTime then
    (call.licenseJobTest start (call.scanned start resvs)).2
  else call.scanned start resvs

/-- The start times that are tried. -/
def attempts : Nat → Int → List Resv → List Attempt
  | tries, start, resvs =>
    call.attemptAt start resvs ::
      match (call.attemptAt start resvs).chosen, call.moveTime, tries with
      | some time, true, tries + 1 => attempts tries time (call.resvsAfter start resvs)
      | _, _, _ => []

/-- The start times that `job_test_resv` tries; without reservations only the first. -/
def attemptsOf (start : Int) (resvList : List Resv) : List Attempt :=
  if resvList = [] then [⟨start, [], [], none, false, none⟩] else call.attempts 10 start resvList

/-- The outputs after another start time, for which all nodes are free again. -/
def collect (found : Found) (attempt : Attempt) : Found :=
  attempt.passed.foldl (call.takeStep attempt.start) { found with nodeBitmap := call.allNodes }

variable {call}

theorem attemptAt_start (start : Int) (resvs : List Resv) :
    (call.attemptAt start resvs).start = start := by
  rw [attemptAt]
  cases call.blocker start resvs <;> rfl

theorem attemptAt_passed (start : Int) (resvs : List Resv) :
    (call.attemptAt start resvs).passed = call.passed start resvs := by
  rw [attemptAt]
  cases call.blocker start resvs <;> rfl

theorem attemptAt_stored (start : Int) (resvs : List Resv) :
    (call.attemptAt start resvs).stored = resvs := by
  rw [attemptAt]
  cases call.blocker start resvs <;> rfl

theorem tryStart_eq (found : Found) (resvs : List Resv) :
    call.tryStart start found resvs = ((call.attemptAt start resvs).chosen,
        (call.passed start resvs).foldl (call.takeStep start) found,
        call.resvsAfter start resvs) := by
  rw [tryStart, scanResvs_eq, attemptAt, resvsAfter]
  cases call.blocker start resvs with
  | some resv => rfl
  | none =>
    cases call.moveTime with
    | false => rfl
    | true =>
      cases call.licenseJobTest start (call.scanned start resvs) with
      | mk waits later => cases waits <;> rfl

/-- What the start times that were tried say about the result. -/
structure Tells (call : Call) (attempts : List Attempt) (found : Found) (result : Result) : Prop where
  last : ∃ abandoned final, attempts = abandoned ++ [final] ∧
    result.busy = final.chosen.isSome ∧ result.when = final.chosen.getD final.start
  chosen : attempts.IsChain fun one next => one.chosen = some next.start
  excCoreBitmap : result.excCoreBitmap = (attempts.foldl call.collect found).excCoreBitmap
  resvOverlap : result.resvOverlap = (attempts.foldl call.collect found).resvOverlap
  nodeBitmap : result.busy = false →
    result.nodeBitmap = some (attempts.foldl call.collect found).nodeBitmap

theorem collect_attemptAt {found : Found} (full : found.nodeBitmap = call.allNodes)
    (resvs : List Resv) : call.collect found (call.attemptAt start resvs) =
      (call.passed start resvs).foldl (call.takeStep start) found := by
  rw [collect, attemptAt_start, attemptAt_passed, ← full]

theorem collect_full (found : Found) (attempt : Attempt) :
    call.collect { found with nodeBitmap := call.allNodes } attempt = call.collect found attempt :=
  rfl

theorem Tells.cons {found : Found} {resvs : List Resv} {time : Int} {later : List Attempt}
    {result : Result} (full : found.nodeBitmap = call.allNodes)
    (chosen : (call.attemptAt start resvs).chosen = some time)
    (first : ∃ next rest, later = next :: rest ∧ next.start = time)
    (tells : call.Tells later { (call.passed start resvs).foldl (call.takeStep start) found with
      nodeBitmap := call.allNodes } result) :
    call.Tells (call.attemptAt start resvs :: later) found result := by
  obtain ⟨next, rest, rfl, next_start⟩ := first
  have outputs : (call.attemptAt start resvs :: next :: rest).foldl call.collect found =
      (next :: rest).foldl call.collect { (call.passed start resvs).foldl
        (call.takeStep start) found with nodeBitmap := call.allNodes } := by
    rw [foldl_cons, collect_attemptAt full, foldl_cons, foldl_cons, collect_full]
  obtain ⟨abandoned, final, split, busy, time_eq⟩ := tells.last
  exact {
    last := ⟨call.attemptAt start resvs :: abandoned, final, by rw [split]; rfl, busy, time_eq⟩
    chosen := isChain_cons_cons.mpr ⟨by rw [chosen, next_start], tells.chosen⟩
    excCoreBitmap := by rw [outputs, tells.excCoreBitmap]
    resvOverlap := by rw [outputs, tells.resvOverlap]
    nodeBitmap := fun free => by rw [outputs, tells.nodeBitmap free] }

theorem attempts_head (tries : Nat) (start : Int) (resvs : List Resv) :
    ∃ next rest, call.attempts tries start resvs = next :: rest ∧ next.start = start := by
  unfold attempts
  exact ⟨_, _, rfl, attemptAt_start start resvs⟩

theorem tells_last {found : Found} (full : found.nodeBitmap = call.allNodes) {resvs : List Resv}
    {result : Result} (busy : result.busy = (call.attemptAt start resvs).chosen.isSome)
    (time : result.when = (call.attemptAt start resvs).chosen.getD start)
    (excCoreBitmap : result.excCoreBitmap =
      ((call.passed start resvs).foldl (call.takeStep start) found).excCoreBitmap)
    (resvOverlap : result.resvOverlap =
      ((call.passed start resvs).foldl (call.takeStep start) found).resvOverlap)
    (nodeBitmap : result.busy = false → result.nodeBitmap =
      some ((call.passed start resvs).foldl (call.takeStep start) found).nodeBitmap) :
    call.Tells [call.attemptAt start resvs] found result := by
  have outputs : [call.attemptAt start resvs].foldl call.collect found =
      (call.passed start resvs).foldl (call.takeStep start) found :=
    collect_attemptAt full resvs
  exact {
    last := ⟨[], _, rfl, busy, by rw [time, attemptAt_start]⟩
    chosen := .singleton _
    excCoreBitmap := by rw [outputs, excCoreBitmap]
    resvOverlap := by rw [outputs, resvOverlap]
    nodeBitmap := fun free => by rw [outputs, nodeBitmap free] }

/-- The result is told by the start times that were tried. -/
theorem tryStarts_tells (tries : Nat) (start : Int) (found : Found) (resvs : List Resv)
    (full : found.nodeBitmap = call.allNodes) :
    call.Tells (call.attempts tries start resvs) found (call.tryStarts tries start found resvs) := by
  induction tries generalizing start found resvs with
  | zero =>
    unfold tryStarts attempts
    rw [tryStart_eq]
    cases chosen : (call.attemptAt start resvs).chosen with
    | none => exact tells_last full (by rw [chosen]; rfl) (by rw [chosen]; rfl) rfl rfl fun _ => rfl
    | some time =>
      cases call.moveTime <;>
        exact tells_last full (by rw [chosen]; rfl) (by rw [chosen]; rfl) rfl rfl
          fun free => absurd free.symm Bool.false_ne_true
  | succ tries ih =>
    unfold tryStarts attempts
    rw [tryStart_eq]
    cases chosen : (call.attemptAt start resvs).chosen with
    | none => exact tells_last full (by rw [chosen]; rfl) (by rw [chosen]; rfl) rfl rfl fun _ => rfl
    | some time =>
      cases call.moveTime with
      | false =>
        exact tells_last full (by rw [chosen]; rfl) (by rw [chosen]; rfl) rfl rfl
          fun free => absurd free.symm Bool.false_ne_true
      | true =>
        exact Tells.cons full chosen (attempts_head tries time _)
          (ih time _ (call.resvsAfter start resvs) rfl)

theorem jobTestResv_tells (start : Int) (resvList : List Resv) :
    call.Tells (call.attemptsOf start resvList) ⟨call.allNodes, none, false⟩
      (call.jobTestResv start resvList) := by
  rw [attemptsOf, jobTestResv]
  split_ifs with none_left
  · exact ⟨⟨[], _, rfl, rfl, rfl⟩, .singleton _, rfl, rfl, fun _ => rfl⟩
  · exact tryStarts_tells 10 start _ resvList rfl

theorem attempts_forall {holds : Attempt → Prop}
    (all : ∀ start resvs, holds (call.attemptAt start resvs)) (tries : Nat) (start : Int)
    (resvs : List Resv) : ∀ attempt ∈ call.attempts tries start resvs, holds attempt := by
  induction tries generalizing start resvs with
  | zero =>
    unfold attempts
    refine forall_mem_cons.mpr ⟨all start resvs, ?_⟩
    cases (call.attemptAt start resvs).chosen <;> cases call.moveTime <;>
      exact fun _ mem => absurd mem not_mem_nil
  | succ tries ih =>
    unfold attempts
    refine forall_mem_cons.mpr ⟨all start resvs, ?_⟩
    cases (call.attemptAt start resvs).chosen with
    | none => exact fun _ mem => absurd mem not_mem_nil
    | some time =>
      cases call.moveTime with
      | false => exact fun _ mem => absurd mem not_mem_nil
      | true => exact ih time _

end Call

end SlurmSim.Reservation
