import SlurmSim.Backfill.JobIdSet
import SlurmSim.Backfill.PackStart

/-!
# Delayed workflows

A pack job whose components are delayed gets a reservation for each of them.  If one cannot
start at its time, all reservations are deleted and tried again later.  Once all are in place
the components are split into pack jobs of equal delay.
-/

namespace SlurmSim.Backfill

open List

/-- A component: its record in the map, and the fields of its job record that
`_test_workflow` reads or writes. -/
structure Component where
  record : PackJobRec
  isJob : record.jobId ≠ 0
  partPtr : Nat
  delayedWorkflow : Bool
  packJobId : Nat
  packJobOffset : Nat
  packJobIdSet : Option (List Char)
  packJobList : Option (List Nat)
  resvName : Option String
  resvId : Nat
  unreserved : resvName = none → resvId = 0

/-- `details->delay` -/
def PackJobRec.minutes (record : PackJobRec) : Nat := record.delay.getD 0

namespace Component

def jobId (c : Component) : Nat := c.record.jobId

/-- The reservation of a component is taken from it. -/
def dropReservation (c : Component) : Component :=
  if c.resvName.isSome then { c with resvName := none, resvId := 0, unreserved := fun _ => rfl }
  else c

/-- The component leaves its pack job, whose list is destroyed with the head. -/
def leavePack (c : Component) : Component :=
  { c with
    packJobList := if c.jobId = c.packJobId then none else c.packJobList
    delayedWorkflow := false
    packJobId := 0
    packJobIdSet := none
    packJobOffset := 0 }

def zeroDelay (c : Component) : Component :=
  { c with record := { c.record with delay := c.record.delay.map fun _ => 0 } }

/-- The component becomes the head of a pack job. -/
def makeHead (c : Component) : Component :=
  { c with packJobId := c.jobId, packJobList := some [c.jobId], packJobOffset := 0 }

end Component

/-- A call that creates or deletes a reservation. -/
inductive ResvCall where
  | create (name : String)
  | delete (name : String)

/-- The answers of the reservation code, which depend on what was created and deleted before. -/
structure ReservationEnv where
  /-- The time at which the job can start; `none` for an error. -/
  jobTestResv : List ResvCall → Component → Int → Option Int
  /-- The name of the reservation; `none` for an error. -/
  createResv : List ResvCall → Component → Int → Option String
  /-- The number of the reservation; `none` for an error. -/
  validateJobResv : List ResvCall → Component → Option Nat

/-- The calls of `_delete_reservations`. -/
def deleteCalls (components : List Component) : List ResvCall :=
  components.filterMap fun c => c.resvName.map ResvCall.delete

/-- `_delete_reservations` -/
def deleteReservations (components : List Component) : List Component :=
  components.map Component.dropReservation

/-- What one pass over the components ends with: `rc`, or a later start of the pack job. -/
inductive Round where
  | finished (rc : Bool) (components : List Component) (calls : List ResvCall)
  | shifted (packStart : Int) (components : List Component) (calls : List ResvCall)

/-- The time at which a component should start. -/
def supposedTime (packStart : Int) (c : Component) : Int :=
  packStart + (c.record.minutes * 60 % 2 ^ 32 : Nat)

/-- The pass over the components, until one cannot be reserved or starts too late.  A component
with a reservation is passed over. -/
def reserveRound (env : ReservationEnv) (packStart : Int) :
    Bool → List Component → List Component → List ResvCall → Round
  | rc, done, [], calls => .finished rc done calls
  | rc, done, c :: rest, calls =>
    if c.resvName.isSome then reserveRound env packStart rc (done ++ [c]) rest calls
    else
      let job := { c with partPtr := c.record.part }
      match env.jobTestResv calls job (supposedTime packStart job) with
      | none => .finished false (done ++ job :: rest) calls
      | some startRes =>
        if startRes ≠ supposedTime packStart job then
          .shifted (packStart + (startRes - supposedTime packStart job))
            (deleteReservations (done ++ job :: rest))
            (calls ++ deleteCalls (done ++ job :: rest))
        else
          match env.createResv calls job startRes with
          | none => .finished false (done ++ job :: rest) calls
          | some name =>
            let named := { job with
              resvName := some name
              unreserved := fun h => absurd h (Option.some_ne_none name) }
            match env.validateJobResv (calls ++ [.create name]) named with
            | none => .finished false (done ++ named :: rest) (calls ++ [.create name])
            | some id =>
              reserveRound env packStart true
                (done ++ [{ named with
                  resvId := id
                  unreserved := fun h => absurd h (Option.some_ne_none name) }])
                rest (calls ++ [.create name])

/-- The rounds, while the pack job starts within the window; `none` if `fuel` are too few. -/
def reserveRounds (env : ReservationEnv) (windowEnd : Int) :
    Nat → Bool → Int → List Component → List ResvCall →
      Option (Bool × List Component × List ResvCall)
  | 0, _, _, _, _ => none
  | fuel + 1, rc, packStart, components, calls =>
    if packStart ≤ windowEnd then
      match reserveRound env packStart rc [] components calls with
      | .finished rc components calls => some (rc, components, calls)
      | .shifted packStart components calls =>
        reserveRounds env windowEnd fuel false packStart components calls
    else some (rc, components, calls)

/-! ## The split -/

/-- The components before `new_pack_head`, those from it to `prev_rec`, and `jobid_hostset`. -/
structure Splitting where
  front : List Component
  pack : List Component
  hostset : List IdRange

/-- The delay of `prev_rec` is not needed any more. -/
def zeroLast : List Component → List Component
  | [] => []
  | [c] => [c.zeroDelay]
  | c :: next :: rest => c :: zeroLast (next :: rest)

/-- A component is added to the pack of `new_pack_head`. -/
def addToPack (state : Splitting) (head c : Component) : Splitting :=
  let pack := if head.packJobId = 0 then state.pack.modifyHead Component.makeHead else state.pack
  let hostset := if head.packJobId = 0 then [IdRange.single head.jobId] else state.hostset
  let offset := (pack.getLast?.map Component.packJobOffset).getD 0 + 1
  let listed := pack.modifyHead fun head =>
    { head with packJobList := head.packJobList.map (· ++ [c.jobId]) }
  ⟨state.front, zeroLast listed ++ [{ c with packJobId := head.jobId, packJobOffset := offset }],
    hostsetInsert hostset (IdRange.single c.jobId)⟩

/-- The members of a pack get its id set. -/
def closePack (hostset : List IdRange) : List Component → List Component
  | [] => []
  | head :: members =>
    if head.packJobId = 0 then head :: members
    else
      (head :: members).map fun c =>
        if c.jobId ∈ head.packJobList.getD [] then
          { c with packJobIdSet := some (stripBrackets (hostsetRangedString hostset)) }
        else c

/-- One component of the loop that makes new pack jobs. -/
def splitStep (state : Splitting) (c : Component) : Splitting :=
  match state.pack.head?, state.pack.getLast? with
  | some head, some prev =>
    if prev.record.minutes = c.record.minutes then addToPack state head c
    else ⟨state.front ++ zeroLast (closePack state.hostset state.pack), [c], state.hostset⟩
  | _, _ => { state with pack := [c] }

/-- The new pack jobs. -/
def splitPacks (components : List Component) : List Component :=
  let state := (components.map Component.leavePack).foldl splitStep ⟨[], [], []⟩
  state.front ++ zeroLast state.pack

/-- What `_test_workflow` returns; `notWorkflow` is -2. -/
inductive WorkflowRc where
  | success
  | error
  | notWorkflow
  deriving DecidableEq

/-- The map of a pack job with its components. -/
structure Workflow where
  compTimeLimit : Nat
  prevStart : Int
  packJobId : Nat
  components : List Component

def Workflow.records (workflow : Workflow) : List PackJobRec :=
  workflow.components.map Component.record

def Workflow.map (workflow : Workflow) : PackJobMap :=
  ⟨workflow.compTimeLimit, workflow.prevStart, workflow.packJobId, workflow.records⟩

/-- The code, the components afterwards and the calls made. -/
structure WorkflowResult where
  rc : WorkflowRc
  components : List Component
  calls : List ResvCall

/-- The workflow is delayed and has no reservations yet. -/
def Workflow.reservable (workflow : Workflow) : Bool :=
  workflow.components.head?.any fun c => c.delayedWorkflow && c.resvId = 0

/-- `_test_workflow` -/
def testWorkflow (env : ReservationEnv) (windowEnd : Int) (fuel : Nat) (workflow : Workflow) :
    Option WorkflowResult :=
  if workflow.reservable then
    (reserveRounds env windowEnd fuel true (packStartCompute workflow.map 0) workflow.components
      []).map fun (rc, components, calls) =>
        if rc then ⟨.success, splitPacks components, calls⟩
        else ⟨.error, deleteReservations components, calls ++ deleteCalls components⟩
  else some ⟨.notWorkflow, workflow.components, []⟩

/-! ## What the split is for -/

/-- The records in groups of equal delay. -/
structure Grouping (records : List PackJobRec) (groups : List (List PackJobRec)) : Prop where
  flatten : groups.flatten = records
  nonempty : ∀ group ∈ groups, group ≠ []
  equal : ∀ group ∈ groups, group.IsChain fun a b => a.minutes = b.minutes
  apart : groups.IsChain fun group next =>
    ∀ a ∈ group.getLast?, ∀ b ∈ next.head?, a.minutes ≠ b.minutes

/-- The components of a group are a pack job of their own, or an individual job. -/
structure PackRight (group : List PackJobRec) (pack : List Component) : Prop where
  jobIds : pack.map Component.jobId = group.map PackJobRec.jobId
  offsets : pack.map Component.packJobOffset = List.range pack.length
  alone : pack.length = 1 → ∀ c ∈ pack, c.packJobId = 0
  several : 2 ≤ pack.length → ∀ head ∈ pack.head?,
    head.packJobList = some (pack.map Component.jobId) ∧
      ∀ c ∈ pack, c.packJobId = head.jobId ∧ ∃ text, c.packJobIdSet = some text ∧
        ∀ id, TextIds text id ↔ id ∈ pack.map Component.jobId

/-- The components are split into new packs. -/
def SplitRight (records : List PackJobRec) (components : List Component) : Prop :=
  ∃ groups packs, Grouping records groups ∧ packs.flatten = components ∧
    List.Forall₂ PackRight groups packs

/-- The last component has a delay of its own. -/
def LastApart (records : List PackJobRec) : Prop :=
  ∀ front a b, records = front ++ [a, b] → a.minutes ≠ b.minutes

/-- The reservations that calls leave. -/
def liveReservations (calls : List ResvCall) : List String :=
  calls.foldl (fun names call =>
    match call with
    | .create name => names ++ [name]
    | .delete name => names.filter fun other => other ≠ name) []

/-- No component has a reservation, and none that was created is left. -/
def NoneKept (components : List Component) (calls : List ResvCall) : Prop :=
  (∀ c ∈ components, c.resvName = none ∧ c.resvId = 0) ∧ liveReservations calls = []

/-! ## The reservations -/

theorem dropReservation_record (c : Component) : c.dropReservation.record = c.record := by
  unfold Component.dropReservation
  split_ifs <;> rfl

theorem dropReservation_none (c : Component) :
    c.dropReservation.resvName = none ∧ c.dropReservation.resvId = 0 := by
  unfold Component.dropReservation
  split_ifs with reserved
  · exact ⟨rfl, rfl⟩
  · have isNone := Option.not_isSome_iff_eq_none.mp reserved
    exact ⟨isNone, c.unreserved isNone⟩

theorem liveReservations_create (calls : List ResvCall) (name : String) :
    liveReservations (calls ++ [.create name]) = liveReservations calls ++ [name] := by
  rw [liveReservations, foldl_append]
  rfl

theorem liveReservations_delete (calls : List ResvCall) (names : List String) :
    liveReservations (calls ++ names.map ResvCall.delete) =
      (liveReservations calls).filter fun other => other ∉ names := by
  induction names using List.reverseRecOn with
  | nil => simp
  | append_singleton names name ih =>
    have step : liveReservations (calls ++ names.map ResvCall.delete ++ [.delete name]) =
        (liveReservations (calls ++ names.map ResvCall.delete)).filter fun other =>
          other ≠ name := by
      rw [liveReservations, foldl_append]
      rfl
    rw [map_append, ← append_assoc, map_singleton, step, ih, filter_filter]
    simp [and_comm]

/-- The components are those of the workflow, and hold the reservations that are left. -/
structure Holds (records : List PackJobRec) (components : List Component)
    (calls : List ResvCall) : Prop where
  records : components.map Component.record = records
  live : ∀ name ∈ liveReservations calls, ∃ c ∈ components, c.resvName = some name

variable {records : List PackJobRec} {components : List Component} {calls : List ResvCall}

theorem Holds.deleted (holds : Holds records components calls) :
    (deleteReservations components).map Component.record = records ∧
      NoneKept (deleteReservations components) (calls ++ deleteCalls components) := by
  refine ⟨?_, fun c mem => ?_, ?_⟩
  · rw [deleteReservations, map_map, ← holds.records]
    exact map_congr_left fun c _ => dropReservation_record c
  · obtain ⟨old, _, rfl⟩ := mem_map.mp mem
    exact dropReservation_none old
  · have names : deleteCalls components =
        (components.filterMap Component.resvName).map ResvCall.delete := by
      rw [deleteCalls, map_filterMap]
    rw [names, liveReservations_delete, filter_eq_nil_iff]
    intro name isLive kept
    obtain ⟨c, mem, named⟩ := holds.live name isLive
    exact of_decide_eq_true kept (mem_filterMap.mpr ⟨c, mem, named⟩)

/-- A component without a reservation is replaced by one that may have got one. -/
theorem Holds.replace {done rest : List Component} {c job : Component} {later : List ResvCall}
    (holds : Holds records (done ++ c :: rest) calls) (isRecord : job.record = c.record)
    (unnamed : c.resvName = none)
    (live : ∀ name ∈ liveReservations later,
      name ∈ liveReservations calls ∨ job.resvName = some name) :
    Holds records (done ++ job :: rest) later := by
  refine ⟨?_, fun name isLive => ?_⟩
  · rw [← holds.records, map_append, map_append, map_cons, map_cons, isRecord]
  · rcases live name isLive with before | own
    · obtain ⟨other, mem, named⟩ := holds.live name before
      refine ⟨other, ?_, named⟩
      rcases mem_append.mp mem with inDone | inRest
      · exact mem_append_left _ inDone
      · rcases mem_cons.mp inRest with rfl | inRest
        · rw [unnamed] at named
          cases named
        · exact mem_append_right _ (mem_cons_of_mem _ inRest)
    · exact ⟨job, mem_append_right _ mem_cons_self, own⟩

/-- What holds of the components at the end of a round. -/
def Round.Holds (records : List PackJobRec) : Round → Prop
  | .finished _ components calls => Backfill.Holds records components calls
  | .shifted _ components calls => Backfill.Holds records components calls

/-- The step: a round loses no component and no reservation. -/
theorem reserveRound_holds (env : ReservationEnv) (packStart : Int) (rc : Bool)
    (done rest : List Component) (calls : List ResvCall)
    (holds : Holds records (done ++ rest) calls) :
    (reserveRound env packStart rc done rest calls).Holds records := by
  induction rest generalizing rc done calls with
  | nil => exact append_nil done ▸ holds
  | cons c rest ih =>
    unfold reserveRound
    split_ifs with reserved
    · refine ih rc (done ++ [c]) calls ?_
      rw [append_assoc]
      exact holds
    · have unnamed := Option.not_isSome_iff_eq_none.mp reserved
      dsimp only
      set job : Component := { c with partPtr := c.record.part } with isJob
      have tested : Holds records (done ++ job :: rest) calls :=
        holds.replace rfl unnamed fun name => .inl
      cases env.jobTestResv calls job (supposedTime packStart job) with
      | none => exact tested
      | some startRes =>
        dsimp only
        split_ifs with late
        · obtain ⟨sameRecords, _, noneLive⟩ := tested.deleted
          refine ⟨sameRecords, fun name isLive => ?_⟩
          rw [noneLive] at isLive
          cases isLive
        · cases env.createResv calls job startRes with
          | none => exact tested
          | some name =>
            have created : ∀ other ∈ liveReservations (calls ++ [.create name]),
                other ∈ liveReservations calls ∨ some name = some other := by
              intro other isLive
              rw [liveReservations_create] at isLive
              rcases mem_append.mp isLive with before | own
              · exact .inl before
              · exact .inr (mem_singleton.mp own ▸ rfl)
            dsimp only
            split
            · exact holds.replace rfl unnamed created
            · refine ih true _ _ ?_
              rw [append_assoc]
              exact holds.replace rfl unnamed created

/-- The run: neither does any number of rounds. -/
theorem reserveRounds_holds (env : ReservationEnv) (windowEnd : Int) {fuel : Nat} {rc after : Bool}
    {packStart : Int} {others : List Component} {later : List ResvCall}
    (holds : Holds records components calls)
    (ends : reserveRounds env windowEnd fuel rc packStart components calls =
      some (after, others, later)) : Holds records others later := by
  induction fuel generalizing rc packStart components calls with
  | zero => cases ends
  | succ fuel ih =>
    rw [reserveRounds] at ends
    split_ifs at ends
    · have round := reserveRound_holds env packStart rc [] components calls holds
      cases isRound : reserveRound env packStart rc [] components calls with
      | finished rc components calls =>
        rw [isRound] at ends round
        cases ends
        exact round
      | shifted packStart components calls =>
        rw [isRound] at ends round
        exact ih round ends
    · cases ends
      exact holds

/-! ## The packs -/

/-- The head of a pack lists its members, which carry its id, and the host set has their ids. -/
def Headed (pack : List Component) (hostset : List IdRange) : Prop :=
  ∀ head ∈ pack.head?, head.packJobList = some (pack.map Component.jobId) ∧
    (∀ c ∈ pack, c.packJobId = head.jobId) ∧
      ∀ id, covers hostset id ↔ id ∈ pack.map Component.jobId

/-- A pack that is still open: its ids are collected, but not yet given to its members. -/
structure OpenPack (group : List PackJobRec) (pack : List Component) (hostset : List IdRange) :
    Prop where
  nonempty : group ≠ []
  jobIds : pack.map Component.jobId = group.map PackJobRec.jobId
  lastDelay : pack.getLast?.map (fun c => c.record.minutes) = group.getLast?.map PackJobRec.minutes
  offsets : pack.map Component.packJobOffset = List.range pack.length
  noSets : ∀ c ∈ pack, c.packJobIdSet = none
  alone : pack.length = 1 → ∀ c ∈ pack, c.packJobId = 0
  several : 2 ≤ pack.length → Headed pack hostset

/-- The fields of a component that say to which pack it belongs. -/
structure PackFields where
  jobId : Nat
  packJobId : Nat
  packJobOffset : Nat
  packJobIdSet : Option (List Char)
  packJobList : Option (List Nat)

def Component.packFields (c : Component) : PackFields :=
  ⟨c.jobId, c.packJobId, c.packJobOffset, c.packJobIdSet, c.packJobList⟩

/-- Packs with the same fields, whatever their delays are. -/
def SameFields (pack other : List Component) : Prop :=
  pack.map Component.packFields = other.map Component.packFields

theorem zeroLast_sameFields (pack : List Component) : SameFields (zeroLast pack) pack := by
  unfold SameFields
  induction pack with
  | nil => rfl
  | cons c rest ih =>
    cases rest with
    | nil => rfl
    | cons next rest =>
      rw [zeroLast, map_cons, ih]
      rfl

namespace SameFields

variable {pack other : List Component}

theorem map {α : Type} (same : SameFields pack other) (f : PackFields → α) :
    pack.map (fun c => f c.packFields) = other.map fun c => f c.packFields := by
  have fields := congrArg (List.map f) same
  rw [map_map, map_map] at fields
  exact fields

theorem length (same : SameFields pack other) : pack.length = other.length := by
  simpa using congrArg List.length same

theorem exists_mem (same : SameFields pack other) {c : Component} (mem : c ∈ pack) :
    ∃ c' ∈ other, c'.packFields = c.packFields := by
  have fields := mem_map_of_mem (f := Component.packFields) mem
  rw [same] at fields
  exact mem_map.mp fields

theorem exists_head (same : SameFields pack other) {head : Component} (isHead : head ∈ pack.head?) :
    ∃ head' ∈ other.head?, head'.packFields = head.packFields := by
  have fields := congrArg List.head? same
  rw [head?_map, head?_map, Option.mem_def.mp isHead] at fields
  exact Option.map_eq_some_iff.mp fields.symm

end SameFields

theorem Headed.sameFields {pack other : List Component} {hostset : List IdRange}
    (headed : Headed other hostset) (same : SameFields pack other) : Headed pack hostset := by
  have ids : pack.map Component.jobId = other.map Component.jobId := same.map PackFields.jobId
  intro head isHead
  obtain ⟨head', isHead', fields⟩ := same.exists_head isHead
  obtain ⟨list, members, covered⟩ := headed head' isHead'
  have sameList : head'.packJobList = head.packJobList := congrArg PackFields.packJobList fields
  have sameId : head'.jobId = head.jobId := congrArg PackFields.jobId fields
  refine ⟨ids ▸ sameList ▸ list, fun c mem => ?_, ids ▸ covered⟩
  obtain ⟨c', inside', fields'⟩ := same.exists_mem mem
  have sameMember : c'.packJobId = c.packJobId := congrArg PackFields.packJobId fields'
  rw [← sameMember, members c' inside', sameId]

theorem PackRight.sameFields {group : List PackJobRec} {pack other : List Component}
    (right : PackRight group other) (same : SameFields pack other) : PackRight group pack := by
  have ids : pack.map Component.jobId = other.map Component.jobId := same.map PackFields.jobId
  have offsets : pack.map Component.packJobOffset = other.map Component.packJobOffset :=
    same.map PackFields.packJobOffset
  refine ⟨ids.trans right.jobIds, ?_, fun one c mem => ?_, fun two head isHead => ?_⟩
  · rw [offsets, right.offsets, same.length]
  · obtain ⟨c', inside', fields⟩ := same.exists_mem mem
    exact (congrArg PackFields.packJobId fields).symm.trans
      (right.alone (same.length ▸ one) c' inside')
  · obtain ⟨head', isHead', fields⟩ := same.exists_head isHead
    obtain ⟨list, members⟩ := right.several (same.length ▸ two) head' isHead'
    have sameList : head'.packJobList = head.packJobList := congrArg PackFields.packJobList fields
    have sameId : head'.jobId = head.jobId := congrArg PackFields.jobId fields
    refine ⟨ids ▸ sameList ▸ list, fun c mem => ?_⟩
    obtain ⟨c', inside', fields'⟩ := same.exists_mem mem
    have sameMember : c'.packJobId = c.packJobId := congrArg PackFields.packJobId fields'
    have sameSet : c'.packJobIdSet = c.packJobIdSet := congrArg PackFields.packJobIdSet fields'
    rw [← sameMember, ← sameSet, ← sameId, ids]
    exact members c' inside'

/-! ## One component more -/

variable {group : List PackJobRec} {pack : List Component} {hostset : List IdRange}

theorem OpenPack.length (isOpen : OpenPack group pack hostset) : pack.length = group.length := by
  simpa using congrArg List.length isOpen.jobIds

variable {head : Component} {members : List Component}

theorem OpenPack.head_packJobId (isOpen : OpenPack group (head :: members) hostset) :
    head.packJobId = 0 ↔ members = [] := by
  constructor
  · intro unheaded
    by_contra some
    have two : 2 ≤ (head :: members).length :=
      Nat.succ_le_succ (length_pos_iff.mpr some)
    have own := (isOpen.several two head rfl).2.1 head mem_cons_self
    exact head.isJob (own.symm.trans unheaded)
  · rintro rfl
    exact isOpen.alone rfl head mem_cons_self

theorem OpenPack.close (isOpen : OpenPack group pack hostset) :
    PackRight group (zeroLast (closePack hostset pack)) := by
  refine PackRight.sameFields ?_ (zeroLast_sameFields _)
  cases pack with
  | nil =>
    refine absurd (length_eq_zero_iff.mp ?_) isOpen.nonempty
    rw [← isOpen.length, length_nil]
  | cons head members =>
    rw [closePack]
    split_ifs with unheaded
    · obtain rfl := isOpen.head_packJobId.mp unheaded
      exact ⟨isOpen.jobIds, isOpen.offsets, isOpen.alone, fun two => absurd two (by simp)⟩
    · have two : 2 ≤ (head :: members).length :=
        Nat.succ_le_succ (length_pos_iff.mpr (mt isOpen.head_packJobId.mpr unheaded))
      obtain ⟨list, packIds, covered⟩ := isOpen.several two head rfl
      have given : (head :: members).map (fun c =>
          if c.jobId ∈ head.packJobList.getD [] then
            { c with packJobIdSet := some (stripBrackets (hostsetRangedString hostset)) }
          else c) = (head :: members).map fun c =>
            { c with packJobIdSet := some (stripBrackets (hostsetRangedString hostset)) } := by
        refine map_congr_left fun c mem => if_pos ?_
        rw [list]
        exact mem_map_of_mem mem
      have ranges : hostset ≠ [] := by
        rintro rfl
        have own := (covered head.jobId).mpr mem_cons_self
        simp [covers] at own
      rw [given]
      refine ⟨?_, ?_, fun one => ?_, fun _ head' isHead' => ?_⟩
      · rw [map_map]
        exact isOpen.jobIds
      · rw [map_map, length_map]
        exact isOpen.offsets
      · rw [length_map] at one
        omega
      · rw [map_map]
        obtain rfl := Option.some.inj isHead'
        refine ⟨list, fun c mem => ?_⟩
        obtain ⟨old, inOld, rfl⟩ := mem_map.mp mem
        refine ⟨packIds old inOld, _, rfl, fun id => ?_⟩
        rw [textIds_rangedString ranges]
        exact covered id

/-- A pack of more than one component, or one that is about to become one. -/
structure Started (group : List PackJobRec) (head : Component) (members : List Component)
    (hostset : List IdRange) : Prop where
  jobIds : (head :: members).map Component.jobId = group.map PackJobRec.jobId
  offsets : (head :: members).map Component.packJobOffset = List.range (members.length + 1)
  noSets : ∀ c ∈ head :: members, c.packJobIdSet = none
  headed : Headed (head :: members) hostset

theorem OpenPack.start (isOpen : OpenPack group (head :: members) hostset) :
    Started group (if head.packJobId = 0 then head.makeHead else head) members
      (if head.packJobId = 0 then [IdRange.single head.jobId] else hostset) := by
  split_ifs with unheaded
  · obtain rfl := isOpen.head_packJobId.mp unheaded
    refine ⟨isOpen.jobIds, rfl, ?_, ?_⟩
    · exact forall_mem_singleton.mpr (isOpen.noSets head mem_cons_self)
    · intro first isFirst
      obtain rfl := Option.some.inj isFirst
      refine ⟨rfl, forall_mem_singleton.mpr rfl, fun id => ?_⟩
      rw [covers_single]
      exact mem_singleton.symm
  · have two : 2 ≤ (head :: members).length :=
      Nat.succ_le_succ (length_pos_iff.mpr (mt isOpen.head_packJobId.mpr unheaded))
    exact ⟨isOpen.jobIds, isOpen.offsets, isOpen.noSets, isOpen.several two⟩

theorem Started.add (started : Started group head members hostset) {c : Component}
    (fresh : c.packJobIdSet = none) :
    OpenPack (group ++ [c.record])
      (zeroLast ({ head with packJobList := head.packJobList.map (· ++ [c.jobId]) } :: members) ++
        [{ c with packJobId := head.jobId, packJobOffset := members.length + 1 }])
      (hostsetInsert hostset (IdRange.single c.jobId)) := by
  obtain ⟨list, packIds, covered⟩ := started.headed head rfl
  set listed : Component := { head with packJobList := head.packJobList.map (· ++ [c.jobId]) }
  set added : Component := { c with packJobId := head.jobId, packJobOffset := members.length + 1 }
  have same : SameFields (zeroLast (listed :: members) ++ [added])
      (listed :: (members ++ [added])) := by
    have front : (zeroLast (listed :: members)).map Component.packFields =
        (listed :: members).map Component.packFields := zeroLast_sameFields _
    rw [SameFields, map_append, front, ← map_append, cons_append]
  have ids : (listed :: (members ++ [added])).map Component.jobId =
      (head :: members).map Component.jobId ++ [c.jobId] := by
    rw [map_cons, map_append]
    rfl
  have sameIds : (zeroLast (listed :: members) ++ [added]).map Component.jobId =
      (listed :: (members ++ [added])).map Component.jobId := same.map PackFields.jobId
  have sameOffsets : (zeroLast (listed :: members) ++ [added]).map Component.packJobOffset =
      (listed :: (members ++ [added])).map Component.packJobOffset := same.map PackFields.packJobOffset
  have two : (zeroLast (listed :: members) ++ [added]).length = members.length + 2 := by
    rw [same.length, length_cons, length_append, length_singleton]
  refine ⟨by simp, ?_, ?_, ?_, fun new mem => ?_, fun one => ?_, fun _ => ?_⟩
  · rw [sameIds, ids, started.jobIds, map_append]
    rfl
  · rw [getLast?_concat, getLast?_concat]
    rfl
  · have front : (listed :: members).map Component.packJobOffset = List.range (members.length + 1) :=
      started.offsets
    rw [sameOffsets, two, ← cons_append, map_append, front]
    exact range_succ.symm
  · obtain ⟨old, inOld, fields⟩ := same.exists_mem mem
    rw [← show old.packJobIdSet = new.packJobIdSet from congrArg PackFields.packJobIdSet fields]
    rcases mem_append.mp (cons_append ▸ inOld) with inPack | isNew
    · rcases mem_cons.mp inPack with rfl | inMembers
      · exact started.noSets head mem_cons_self
      · exact started.noSets old (mem_cons_of_mem _ inMembers)
    · obtain rfl := mem_singleton.mp isNew
      exact fresh
  · omega
  · refine Headed.sameFields (fun first isFirst => ?_) same
    obtain rfl := Option.some.inj isFirst
    rw [ids]
    refine ⟨congrArg (Option.map (· ++ [c.jobId])) list, fun new mem => ?_, fun id => ?_⟩
    · rcases mem_append.mp (cons_append ▸ mem) with inPack | isNew
      · rcases mem_cons.mp inPack with rfl | inMembers
        · exact packIds head mem_cons_self
        · exact packIds new (mem_cons_of_mem _ inMembers)
      · obtain rfl := mem_singleton.mp isNew
        rfl
    · rw [covers_hostsetInsert, covered, mem_append, mem_singleton, or_comm]
      refine or_congr Iff.rfl ?_
      exact le_antisymm_iff.symm.trans eq_comm

theorem Started.lastOffset (started : Started group head members hostset) :
    (head :: members).getLast?.map Component.packJobOffset = some members.length := by
  rw [← getLast?_map, started.offsets, getLast?_range, if_neg (Nat.succ_ne_zero _)]
  rfl

theorem OpenPack.add {state : Splitting} (isPack : state.pack = head :: members)
    (isOpen : OpenPack group state.pack state.hostset) {c : Component}
    (fresh : c.packJobIdSet = none) :
    OpenPack (group ++ [c.record]) (addToPack state head c).pack
      (addToPack state head c).hostset := by
  rw [isPack] at isOpen
  have started := isOpen.start
  rw [addToPack, isPack]
  dsimp only
  split_ifs at started ⊢ with unheaded
  · rw [modifyHead_cons, started.lastOffset]
    exact started.add fresh
  · rw [started.lastOffset]
    exact started.add fresh

namespace Grouping

variable {groups : List (List PackJobRec)} {record : PackJobRec}

theorem single (record : PackJobRec) : Grouping [record] [[record]] :=
  ⟨rfl, by simp, by simp, isChain_singleton _⟩

theorem extend (grouping : Grouping records (groups ++ [group]))
    (same : ∀ last ∈ group.getLast?, last.minutes = record.minutes) :
    Grouping (records ++ [record]) (groups ++ [group ++ [record]]) := by
  obtain ⟨flatten, nonempty, equal, apart⟩ := grouping
  have some := nonempty group (by simp)
  refine ⟨?_, fun other mem => ?_, fun other mem => ?_, ?_⟩
  · rw [← flatten, flatten_append, flatten_append]
    simp
  · rcases mem_append.mp mem with before | last
    · exact nonempty other (mem_append_left _ before)
    · simp [mem_singleton.mp last]
  · rcases mem_append.mp mem with before | last
    · exact equal other (mem_append_left _ before)
    · obtain rfl := mem_singleton.mp last
      refine isChain_append.mpr ⟨equal group (by simp), isChain_singleton _, ?_⟩
      intro a isLast b isFirst
      obtain rfl := Option.some.inj isFirst
      exact same a isLast
  · obtain ⟨before, _, across⟩ := isChain_append.mp apart
    refine isChain_append.mpr ⟨before, isChain_singleton _, fun other isLast next isNext => ?_⟩
    obtain rfl := Option.some.inj isNext
    have heads : (group ++ [record]).head? = group.head? := by
      rw [head?_append_of_ne_nil _ some]
    rw [heads]
    exact across other isLast group rfl

theorem next (grouping : Grouping records (groups ++ [group]))
    (other : ∀ last ∈ group.getLast?, last.minutes ≠ record.minutes) :
    Grouping (records ++ [record]) (groups ++ [group] ++ [[record]]) := by
  obtain ⟨flatten, nonempty, equal, apart⟩ := grouping
  refine ⟨?_, fun other mem => ?_, fun other mem => ?_, ?_⟩
  · rw [flatten_append, flatten]
    simp
  · rcases mem_append.mp mem with before | last
    · exact nonempty other before
    · simp [mem_singleton.mp last]
  · rcases mem_append.mp mem with before | last
    · exact equal other before
    · rw [mem_singleton.mp last]
      exact isChain_singleton _
  · refine isChain_append.mpr ⟨apart, isChain_singleton _, fun last isLast next isNext => ?_⟩
    rw [getLast?_concat] at isLast
    obtain rfl := Option.some.inj isLast
    obtain rfl := Option.some.inj isNext
    intro a isA b isB
    obtain rfl := Option.some.inj isB
    exact other a isA

end Grouping

/-! ## The loop -/

/-- The records seen so far are in right packs, and in an open one at the end. -/
def Splits (seen : List PackJobRec) (state : Splitting) : Prop :=
  ∃ groups group packs, Grouping seen (groups ++ [group]) ∧ packs.flatten = state.front ∧
    List.Forall₂ PackRight groups packs ∧ OpenPack group state.pack state.hostset

/-- A component that belongs to no pack. -/
def Loose (c : Component) : Prop :=
  c.packJobId = 0 ∧ c.packJobOffset = 0 ∧ c.packJobIdSet = none

theorem Loose.openPack {c : Component} (loose : Loose c) (hostset : List IdRange) :
    OpenPack [c.record] [c] hostset := by
  obtain ⟨noPack, noOffset, noSet⟩ := loose
  refine ⟨by simp, rfl, rfl, ?_, forall_mem_singleton.mpr noSet,
    fun _ => forall_mem_singleton.mpr noPack, fun two => absurd two (by simp)⟩
  rw [map_singleton, noOffset]
  rfl

/-- The step: a component more is put in its pack. -/
theorem Splits.step {seen : List PackJobRec} {state : Splitting} (splits : Splits seen state)
    {c : Component} (loose : Loose c) : Splits (seen ++ [c.record]) (splitStep state c) := by
  obtain ⟨groups, group, packs, grouping, isFront, right, isOpen⟩ := splits
  cases isPack : state.pack with
  | nil =>
    rw [isPack] at isOpen
    refine absurd (length_eq_zero_iff.mp ?_) isOpen.nonempty
    rw [← isOpen.length, length_nil]
  | cons head members =>
    obtain ⟨prev, isPrev⟩ := Option.isSome_iff_exists.mp
      (getLast?_isSome.mpr (cons_ne_nil head members))
    have lastMinutes : ∀ last ∈ group.getLast?, last.minutes = prev.record.minutes := by
      intro last isLast
      have same := isOpen.lastDelay
      rw [isPack, isPrev, Option.mem_def.mp isLast] at same
      exact (Option.some.inj same).symm
    rw [splitStep, isPack, head?_cons, isPrev]
    dsimp only
    split_ifs with equal
    · exact ⟨groups, group ++ [c.record], packs,
        grouping.extend fun last isLast => (lastMinutes last isLast).trans equal, isFront, right,
        isOpen.add isPack loose.2.2⟩
    · refine ⟨groups ++ [group], [c.record],
        packs ++ [zeroLast (closePack state.hostset (head :: members))],
        grouping.next fun last isLast => lastMinutes last isLast ▸ equal, ?_, ?_,
        loose.openPack _⟩
      · rw [flatten_append, isFront, flatten_singleton]
      · exact rel_append right (.cons (isPack ▸ isOpen).close .nil)

theorem Splits.run {seen : List PackJobRec} {state : Splitting} (splits : Splits seen state)
    (loose : ∀ c ∈ components, Loose c) :
    Splits (seen ++ components.map Component.record) (components.foldl splitStep state) := by
  induction components generalizing seen state with
  | nil => simpa using splits
  | cons c rest ih =>
    obtain ⟨looseHead, looseRest⟩ := forall_mem_cons.mp loose
    have more := ih (splits.step looseHead) looseRest
    rwa [append_assoc] at more

theorem leavePack_loose (c : Component) : Loose c.leavePack := ⟨rfl, rfl, rfl⟩

theorem leavePack_records (components : List Component) :
    (components.map Component.leavePack).map Component.record = components.map Component.record := by
  rw [map_map]
  rfl

theorem splitPacks_splits (some : components ≠ []) : ∃ groups group packs pack hostset,
    Grouping (components.map Component.record) (groups ++ [group]) ∧
      List.Forall₂ PackRight groups packs ∧ OpenPack group pack hostset ∧
        splitPacks components = packs.flatten ++ zeroLast pack := by
  obtain ⟨c, rest, rfl⟩ := exists_cons_of_ne_nil some
  have first : Splits [c.record] ⟨[], [c.leavePack], []⟩ :=
    ⟨[], [c.record], [], Grouping.single _, rfl, .nil, (leavePack_loose c).openPack []⟩
  have loose : ∀ c ∈ rest.map Component.leavePack, Loose c := by
    intro c mem
    obtain ⟨old, _, rfl⟩ := mem_map.mp mem
    exact leavePack_loose old
  obtain ⟨groups, group, packs, grouping, isFront, right, isOpen⟩ := first.run loose
  rw [leavePack_records] at grouping
  refine ⟨groups, group, packs, _, _, grouping, right, isOpen, ?_⟩
  rw [isFront]
  rfl

theorem OpenPack.alone_right (isOpen : OpenPack group pack hostset) (one : group.length = 1) :
    PackRight group (zeroLast pack) := by
  have alone : pack.length = 1 := isOpen.length.trans one
  refine PackRight.sameFields ?_ (zeroLast_sameFields pack)
  exact ⟨isOpen.jobIds, isOpen.offsets, isOpen.alone, fun two => absurd two (by omega)⟩

theorem exists_last_two {α : Type} {values : List α} (two : 2 ≤ values.length) :
    ∃ front a b, values = front ++ [a, b] := by
  rcases eq_nil_or_concat' values with rfl | ⟨front, b, rfl⟩
  · exact absurd two (by simp)
  · rcases eq_nil_or_concat' front with rfl | ⟨front, a, rfl⟩
    · exact absurd two (by simp)
    · exact ⟨front, a, b, append_assoc _ _ _⟩

/-- A last component of its own is a group of its own. -/
theorem Grouping.lastApart_iff {groups : List (List PackJobRec)}
    (grouping : Grouping records (groups ++ [group])) : LastApart records ↔ group.length = 1 := by
  obtain ⟨flatten, nonempty, equal, apart⟩ := grouping
  have some := nonempty group (by simp)
  rw [flatten_append, flatten_singleton] at flatten
  constructor
  · intro alone
    by_contra more
    obtain ⟨front, a, b, rfl⟩ := exists_last_two
      (show 2 ≤ group.length by have := length_pos_iff.mpr some; omega)
    have chain := equal _ (mem_append_right _ mem_cons_self)
    have same := (isChain_append.mp chain).2.1.rel
    refine alone (groups.flatten ++ front) a b ?_ same
    rw [← flatten, append_assoc]
  · intro one front a b isRecords same
    obtain ⟨z, rfl⟩ := length_eq_one_iff.mp one
    have ends : groups.flatten ++ [z] = front ++ [a] ++ [b] := by
      rw [flatten, isRecords, append_assoc]
      rfl
    obtain ⟨before, isLast⟩ := append_inj' ends rfl
    obtain rfl := singleton_inj.mp isLast
    rcases eq_nil_or_concat' groups with rfl | ⟨others, last, rfl⟩
    · simp at before
    · rcases eq_nil_or_concat' last with rfl | ⟨lastFront, y, rfl⟩
      · exact nonempty [] (by simp) rfl
      · rw [flatten_append, flatten_singleton, ← append_assoc] at before
        obtain rfl := singleton_inj.mp (append_inj' before rfl).2
        have across := (isChain_append.mp apart).2.2 _ getLast?_concat [z] rfl
        exact across y getLast?_concat z rfl same

/-- Exactly when the last component has a delay of its own all packs are right. -/
theorem splitPacks_right_iff (some : components ≠ []) :
    SplitRight (components.map Component.record) (splitPacks components) ↔
      LastApart (components.map Component.record) := by
  obtain ⟨groups, group, packs, pack, hostset, grouping, right, isOpen, isSplit⟩ :=
    splitPacks_splits some
  constructor
  · rintro ⟨others, otherPacks, otherGrouping, isFlat, otherRight⟩
    by_contra together
    have two : 2 ≤ group.length := by
      have one := mt grouping.lastApart_iff.mpr together
      have pos := length_pos_iff.mpr isOpen.nonempty
      omega
    have openTwo : 2 ≤ (zeroLast pack).length := by
      rw [(zeroLast_sameFields pack).length, isOpen.length]
      exact two
    rcases eq_nil_or_concat' otherPacks with rfl | ⟨otherFront, other, rfl⟩
    · obtain rfl := forall₂_nil_right_iff.mp otherRight
      exact some (map_eq_nil_iff.mp otherGrouping.flatten.symm)
    · have last := forall₂_drop_append others otherFront [other] otherRight
      obtain ⟨otherGroup, otherRest, otherPack, noRest, isDrop⟩ :=
        forall₂_cons_right_iff.mp last
      obtain rfl := forall₂_nil_right_iff.mp noRest
      rw [← take_append_drop otherFront.length others, isDrop] at otherGrouping
      have otherTwo : 2 ≤ other.length := by
        have one := mt otherGrouping.lastApart_iff.mpr together
        have pos := length_pos_iff.mpr (otherGrouping.nonempty otherGroup (by simp))
        have same : other.length = otherGroup.length := by
          simpa using congrArg List.length otherPack.jobIds
        omega
      obtain ⟨front, a, b, isOpenLast⟩ := exists_last_two openTwo
      obtain ⟨front', a', b', rfl⟩ := exists_last_two otherTwo
      rw [isSplit, flatten_append, flatten_singleton, isOpenLast] at isFlat
      have sameLast : b' = b := by simpa using congrArg List.getLast? isFlat
      have inOpen : b ∈ zeroLast pack := by simp [isOpenLast]
      obtain ⟨first, isFirst⟩ : ∃ first, (front' ++ [a', b']).head? = Option.some first := by
        cases front' with
        | nil => exact ⟨a', rfl⟩
        | cons first _ => exact ⟨first, rfl⟩
      obtain ⟨_, given⟩ := otherPack.several otherTwo first isFirst
      obtain ⟨_, text, isText, _⟩ := given b' (by simp)
      obtain ⟨old, inOld, fields⟩ := (zeroLast_sameFields pack).exists_mem inOpen
      have noSet := isOpen.noSets old inOld
      rw [show old.packJobIdSet = b.packJobIdSet from congrArg PackFields.packJobIdSet fields,
        ← sameLast, isText] at noSet
      cases noSet
  · intro apart
    have one := grouping.lastApart_iff.mp apart
    refine ⟨groups ++ [group], packs ++ [zeroLast pack], grouping, ?_, ?_⟩
    · rw [flatten_append, flatten_singleton, isSplit]
    · exact rel_append right (.cons (isOpen.alone_right one) .nil)

theorem reservable_ne_nil {workflow : Workflow} (reservable : workflow.reservable = true) :
    workflow.components ≠ [] := by
  intro isNil
  simp [Workflow.reservable, isNil] at reservable

/-- A workflow that is reserved is split rightly exactly when its last component has a delay of
its own, and one that fails keeps no reservation. -/
theorem testWorkflow_splits_iff (env : ReservationEnv) (windowEnd : Int) (fuel : Nat)
    (workflow : Workflow) (result : WorkflowResult)
    (returns : testWorkflow env windowEnd fuel workflow = some result) :
    (result.rc = .success →
      (SplitRight workflow.records result.components ↔ LastApart workflow.records)) ∧
    (result.rc = .error → NoneKept result.components result.calls) := by
  unfold testWorkflow at returns
  split_ifs at returns with reservable
  · obtain ⟨⟨rc, components, calls⟩, ends, isResult⟩ := Option.map_eq_some_iff.mp returns
    have start : Holds workflow.records workflow.components [] :=
      ⟨rfl, fun _ isLive => absurd isLive not_mem_nil⟩
    have holds := reserveRounds_holds env windowEnd start ends
    dsimp only at isResult
    split_ifs at isResult with succeeds
    · obtain rfl := isResult
      refine ⟨fun _ => ?_, fun isError => (by cases isError)⟩
      have some : components ≠ [] := by
        rintro rfl
        exact reservable_ne_nil reservable (map_eq_nil_iff.mp holds.records.symm)
      rw [← holds.records]
      exact splitPacks_right_iff some
    · obtain rfl := isResult
      exact ⟨fun isSuccess => (by cases isSuccess), fun _ => holds.deleted.2⟩
  · obtain rfl := Option.some.inj returns
    exact ⟨fun isSuccess => (by cases isSuccess), fun isError => (by cases isError)⟩

/-- Every job can be reserved at its time. -/
def idleEnv : ReservationEnv where
  jobTestResv := fun _ _ start => some start
  createResv := fun _ _ _ => some "wf"
  validateJobResv := fun _ _ => some 1

/-- A component of pack job 10 that is not reserved yet. -/
def workflowComponent (jobId : Nat) (isJob : jobId ≠ 0) (delay : Nat) : Component where
  record := ⟨jobId, some delay, 0, 1⟩
  isJob := isJob
  partPtr := 1
  delayedWorkflow := true
  packJobId := 10
  packJobOffset := jobId - 10
  packJobIdSet := none
  packJobList := if jobId = 10 then some [10, 11] else none
  resvName := none
  resvId := 0
  unreserved := fun _ => rfl

/-- Two components of pack job 10, the second delayed by `delay` minutes. -/
def twoComponents (delay : Nat) : Workflow :=
  ⟨60, 0, 10, [workflowComponent 10 (by decide) 0, workflowComponent 11 (by decide) delay]⟩

/-- A component with its reservation. -/
def reservedComponent (jobId : Nat) (isJob : jobId ≠ 0) (delay : Nat) : Component :=
  { workflowComponent jobId isJob delay with
    resvName := some "wf"
    resvId := 1
    unreserved := fun h => absurd h (Option.some_ne_none "wf") }

/-- The components with their reservations, split. -/
def twoSplit (delay : Nat) : WorkflowResult :=
  ⟨.success, splitPacks [reservedComponent 10 (by decide) 0, reservedComponent 11 (by decide) delay],
    [.create "wf", .create "wf"]⟩

/-- With a delay of 5 minutes both become jobs of their own. -/
theorem twoComponents_split : (twoSplit 5).rc = .success ∧
    SplitRight (twoComponents 5).records (twoSplit 5).components := by
  refine ⟨rfl, ((testWorkflow_splits_iff idleEnv 86400 1 (twoComponents 5) (twoSplit 5) rfl).1
    rfl).mpr fun front a b isRecords => ?_⟩
  obtain rfl : front = [] := length_eq_zero_iff.mp (by
    simpa [twoComponents, Workflow.records] using congrArg List.length isRecords)
  cases isRecords
  decide

/-- Without a delay they are one pack, the last one, and get no id set. -/
theorem twoComponents_without_set :
    testWorkflow idleEnv 86400 1 (twoComponents 0) = some (twoSplit 0) ∧
      (twoSplit 0).rc = .success ∧
      ¬ SplitRight (twoComponents 0).records (twoSplit 0).components := by
  refine ⟨rfl, rfl, fun right => ?_⟩
  have apart := (@splitPacks_right_iff [reservedComponent 10 (by decide) 0,
    reservedComponent 11 (by decide) 0] (cons_ne_nil _ _)).mp right
  exact apart [] _ _ rfl rfl

end SlurmSim.Backfill
