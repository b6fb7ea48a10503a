import Mathlib.Algebra.BigOperators.Ring.Finset
import Mathlib.Algebra.Order.BigOperators.Group.Finset
import SlurmSim.Lib.Sums

/-!
# Controller locks

Every thread of the controller passes through `lock_slurmctld`, which requests
its locks in the order of the entities, and later through `unlock_slurmctld`.
One step is one critical section under `locks_mutex`: a test of a wait loop or
an unlock with its broadcast. The counters are integers without bound; the
number of threads of a process stays far below the range of an `int`.
-/

namespace SlurmSim.Controller.Locks

open List
open Finset (mem_filter mem_univ)
open Option (some.inj)

/-! ## Lock levels and counters -/

/-- `lock_level_t`. -/
inductive LockLevel where
  | noLock
  | readLock
  | writeLock
  deriving DecidableEq, Repr

/-- `lock_datatype_t`. -/
inductive LockDatatype where
  | configLock
  | jobLock
  | nodeLock
  | partLock
  | fedLock
  deriving DecidableEq, Repr

/-- The number of an entity in its enumeration. -/
def LockDatatype.rank : LockDatatype → Nat
  | .configLock => 0
  | .jobLock => 1
  | .nodeLock => 2
  | .partLock => 3
  | .fedLock => 4

/-- `slurmctld_lock_t`. -/
structure SlurmctldLock where
  config : LockLevel
  job : LockLevel
  node : LockLevel
  partition : LockLevel
  federation : LockLevel
  deriving DecidableEq, Repr

/-- The four counters that `slurmctld_lock_flags_t` keeps of one entity. -/
structure Counters where
  readLock : Int
  writeLock : Int
  writeWaitLock : Int
  writeCntLock : Int
  deriving DecidableEq, Repr

/-- `slurmctld_lock_flags_t`. -/
abbrev LockFlags := LockDatatype → Counters

/-- `init_locks`. -/
def initLocks : LockFlags := fun _ => ⟨0, 0, 0, 0⟩

/-- A call of `_wr_rdlock` or `_wr_wrlock`, or of its unlock. -/
inductive LockCall where
  | rd (datatype : LockDatatype)
  | wr (datatype : LockDatatype)
  deriving DecidableEq, Repr

/-- The entity of a call. -/
def LockCall.datatype : LockCall → LockDatatype
  | .rd datatype => datatype
  | .wr datatype => datatype

/-- The call for one entity at its level. -/
def callFor (datatype : LockDatatype) : LockLevel → List LockCall
  | .noLock => []
  | .readLock => [.rd datatype]
  | .writeLock => [.wr datatype]

/-- The calls of `lock_slurmctld`. -/
def lockSlurmctld (levels : SlurmctldLock) : List LockCall :=
  callFor .configLock levels.config ++ callFor .jobLock levels.job ++
    callFor .nodeLock levels.node ++ callFor .partLock levels.partition ++
    callFor .fedLock levels.federation

/-- The calls of `unlock_slurmctld`. -/
def unlockSlurmctld (levels : SlurmctldLock) : List LockCall :=
  callFor .fedLock levels.federation ++ callFor .partLock levels.partition ++
    callFor .nodeLock levels.node ++ callFor .jobLock levels.job ++
    callFor .configLock levels.config

/-- One test of the loop of `_wr_rdlock`, and whether the lock was taken. -/
def wrRdlock (flags : LockFlags) (datatype : LockDatatype) : LockFlags × Bool :=
  if (flags datatype).writeLock = 0 ∧ (flags datatype).writeWaitLock = 0 then
    (Function.update flags datatype
      { flags datatype with
        readLock := (flags datatype).readLock + 1
        writeCntLock := 0 }, true)
  else (flags, false)

/-- The registration of a waiting writer, in front of the loop of `_wr_wrlock`. -/
def registerWriter (flags : LockFlags) (datatype : LockDatatype) : LockFlags :=
  Function.update flags datatype
    { flags datatype with writeWaitLock := (flags datatype).writeWaitLock + 1 }

/-- One test of the loop of `_wr_wrlock`, and whether the lock was taken. -/
def wrWrlock (flags : LockFlags) (datatype : LockDatatype) : LockFlags × Bool :=
  if (flags datatype).readLock = 0 ∧ (flags datatype).writeLock = 0 then
    (Function.update flags datatype
      { flags datatype with
        writeLock := (flags datatype).writeLock + 1
        writeWaitLock := (flags datatype).writeWaitLock - 1
        writeCntLock := (flags datatype).writeCntLock + 1 }, true)
  else (flags, false)

/-- `_wr_rdunlock`, up to its broadcast. -/
def wrRdunlock (flags : LockFlags) (datatype : LockDatatype) : LockFlags :=
  Function.update flags datatype
    { flags datatype with readLock := (flags datatype).readLock - 1 }

/-- `_wr_wrunlock`, up to its broadcast. -/
def wrWrunlock (flags : LockFlags) (datatype : LockDatatype) : LockFlags :=
  Function.update flags datatype
    { flags datatype with writeLock := (flags datatype).writeLock - 1 }

/-! ## Threads -/

/-- Where a thread stands in a wait loop: before the mutex, in `pthread_cond_wait`,
or woken and about to test again. -/
inductive Wait where
  | entering
  | asleep
  | awake
  deriving DecidableEq, Repr

/-- Where a thread stands, with the calls it still has to make. -/
inductive Phase where
  | idle
  | locking (levels : SlurmctldLock) (todo : List LockCall) (wait : Wait)
  | holding (levels : SlurmctldLock)
  | unlocking (levels : SlurmctldLock) (todo : List LockCall)
  deriving DecidableEq, Repr

/-- What `pthread_cond_broadcast` does to one thread. -/
def Phase.wake : Phase → Phase
  | .locking levels todo .asleep => .locking levels todo .awake
  | phase => phase

/-- One critical section of a lock call: a writer that comes in registers itself,
and every thread tests once. -/
def request (flags : LockFlags) (wait : Wait) : LockCall → LockFlags × Bool
  | .rd datatype => wrRdlock flags datatype
  | .wr datatype =>
    wrWrlock (if wait = .entering then registerWriter flags datatype else flags) datatype

/-- The critical section of an unlock call. -/
def release (flags : LockFlags) : LockCall → LockFlags
  | .rd datatype => wrRdunlock flags datatype
  | .wr datatype => wrWrunlock flags datatype

/-- The counters and the places of all threads. -/
structure State (T : Type) where
  flags : LockFlags
  phase : T → Phase

/-- The state after `init_locks`. -/
def State.initial (T : Type) : State T := ⟨initLocks, fun _ => .idle⟩

/-- What a thread does next. -/
inductive Action where
  | lock (levels : SlurmctldLock)
  | test
  | spuriousWake
  | lockReturn
  | unlock
  | release
  | unlockReturn
  deriving DecidableEq, Repr

variable {T : Type} [DecidableEq T]

/-- One step of one thread, if it can take it. -/
def step (s : State T) (t : T) : Action → Option (State T)
  | .lock levels =>
    match s.phase t with
    | .idle => some { s with
        phase := Function.update s.phase t (.locking levels (lockSlurmctld levels) .entering) }
    | _ => none
  | .test =>
    match s.phase t with
    | .locking _ _ .asleep => none
    | .locking levels (call :: rest) wait =>
      let (flags, taken) := request s.flags wait call
      some ⟨flags, Function.update s.phase t
        (if taken then .locking levels rest .entering
         else .locking levels (call :: rest) .asleep)⟩
    | _ => none
  | .spuriousWake =>
    match s.phase t with
    | .locking levels todo .asleep => some { s with
        phase := Function.update s.phase t (.locking levels todo .awake) }
    | _ => none
  | .lockReturn =>
    match s.phase t with
    | .locking levels [] _ => some { s with
        phase := Function.update s.phase t (.holding levels) }
    | _ => none
  | .unlock =>
    match s.phase t with
    | .holding levels => some { s with
        phase := Function.update s.phase t (.unlocking levels (unlockSlurmctld levels)) }
    | _ => none
  | .release =>
    match s.phase t with
    | .unlocking levels (call :: rest) => some ⟨Locks.release s.flags call,
        Function.update (fun u => (s.phase u).wake) t (.unlocking levels rest)⟩
    | _ => none
  | .unlockReturn =>
    match s.phase t with
    | .unlocking _ [] => some { s with phase := Function.update s.phase t .idle }
    | _ => none

/-- The states of all runs of the protocol. -/
inductive Reachable : State T → Prop where
  | initial : Reachable (State.initial T)
  | step {s after : State T} {t : T} {action : Action} (reached : Reachable s)
      (taken : step s t action = some after) : Reachable after

/-! ## What a step does -/

/-- A step moves one thread on, and an unlock wakes all others. -/
theorem step_cases {s after : State T} {t : T} {action : Action}
    (taken : step s t action = some after) :
    (∃ levels, action = .lock levels ∧ s.phase t = .idle ∧
      after = ⟨s.flags, Function.update s.phase t
        (.locking levels (lockSlurmctld levels) .entering)⟩) ∨
    (∃ levels call rest wait, action = .test ∧ wait ≠ .asleep ∧
      s.phase t = .locking levels (call :: rest) wait ∧
      (request s.flags wait call).2 = true ∧
      after = ⟨(request s.flags wait call).1,
        Function.update s.phase t (.locking levels rest .entering)⟩) ∨
    (∃ levels call rest wait, action = .test ∧ wait ≠ .asleep ∧
      s.phase t = .locking levels (call :: rest) wait ∧
      (request s.flags wait call).2 = false ∧
      after = ⟨(request s.flags wait call).1,
        Function.update s.phase t (.locking levels (call :: rest) .asleep)⟩) ∨
    (∃ levels todo, action = .spuriousWake ∧ s.phase t = .locking levels todo .asleep ∧
      after = ⟨s.flags, Function.update s.phase t (.locking levels todo .awake)⟩) ∨
    (∃ levels wait, action = .lockReturn ∧ s.phase t = .locking levels [] wait ∧
      after = ⟨s.flags, Function.update s.phase t (.holding levels)⟩) ∨
    (∃ levels, action = .unlock ∧ s.phase t = .holding levels ∧
      after = ⟨s.flags, Function.update s.phase t (.unlocking levels (unlockSlurmctld levels))⟩) ∨
    (∃ levels call rest, action = .release ∧ s.phase t = .unlocking levels (call :: rest) ∧
      after = ⟨release s.flags call,
        Function.update (fun u => (s.phase u).wake) t (.unlocking levels rest)⟩) ∨
    (∃ levels, action = .unlockReturn ∧ s.phase t = .unlocking levels [] ∧
      after = ⟨s.flags, Function.update s.phase t .idle⟩) := by
  cases action with
  | lock levels =>
    simp only [step] at taken
    split at taken
    · rename_i shape
      exact .inl ⟨levels, rfl, shape, (some.inj taken).symm⟩
    · cases taken
  | test =>
    refine .inr ?_
    simp only [step] at taken
    split at taken
    · cases taken
    · rename_i levels call rest wait up shape
      have same := (some.inj taken).symm
      rcases Bool.eq_false_or_eq_true (request s.flags wait call).2 with yes | no
      · refine .inl ⟨levels, call, rest, wait, rfl, fun eq => up (eq ▸ rfl), shape, yes, ?_⟩
        rw [same, yes]
        rfl
      · refine .inr (.inl ⟨levels, call, rest, wait, rfl, fun eq => up (eq ▸ rfl), shape, no, ?_⟩)
        rw [same, no]
        rfl
    · cases taken
  | spuriousWake =>
    simp only [step] at taken
    split at taken
    · rename_i levels todo shape
      exact .inr (.inr (.inr (.inl ⟨levels, todo, rfl, shape, (some.inj taken).symm⟩)))
    · cases taken
  | lockReturn =>
    simp only [step] at taken
    split at taken
    · rename_i levels wait shape
      exact .inr (.inr (.inr (.inr (.inl ⟨levels, wait, rfl, shape, (some.inj taken).symm⟩))))
    · cases taken
  | unlock =>
    simp only [step] at taken
    split at taken
    · rename_i levels shape
      exact .inr (.inr (.inr (.inr (.inr (.inl ⟨levels, rfl, shape, (some.inj taken).symm⟩)))))
    · cases taken
  | release =>
    simp only [step] at taken
    split at taken
    · rename_i levels call rest shape
      exact .inr (.inr (.inr (.inr (.inr (.inr (.inl
        ⟨levels, call, rest, rfl, shape, (some.inj taken).symm⟩))))))
    · cases taken
  | unlockReturn =>
    simp only [step] at taken
    split at taken
    · rename_i levels shape
      exact .inr (.inr (.inr (.inr (.inr (.inr (.inr
        ⟨levels, rfl, shape, (some.inj taken).symm⟩))))))
    · cases taken

/-! ## The counters of one critical section -/

/-- The counter of the locks of one entity and mode that are in use. -/
def LockFlags.inUse (flags : LockFlags) : LockCall → Int
  | .rd datatype => (flags datatype).readLock
  | .wr datatype => (flags datatype).writeLock

/-- The condition a wait loop tests. -/
def LockFlags.Free (flags : LockFlags) : LockCall → Prop
  | .rd datatype => (flags datatype).writeLock = 0 ∧ (flags datatype).writeWaitLock = 0
  | .wr datatype => (flags datatype).readLock = 0 ∧ (flags datatype).writeLock = 0

variable {flags : LockFlags} {wait : Wait} {call : LockCall}

theorem request_taken_iff : (request flags wait call).2 = true ↔ flags.Free call := by
  cases call with
  | rd datatype =>
    simp only [request, wrRdlock, LockFlags.Free]
    split_ifs <;> simp_all
  | wr datatype =>
    simp only [request, wrWrlock, registerWriter, LockFlags.Free]
    split_ifs <;> simp_all

theorem request_granted (wait : Wait) (free : flags.Free call) :
    (∀ other, LockFlags.inUse (request flags wait call).1 other =
      flags.inUse other + if other = call then 1 else 0) ∧
    ∀ datatype, ((request flags wait call).1 datatype).writeWaitLock =
      (flags datatype).writeWaitLock -
        if call = .wr datatype ∧ wait ≠ .entering then 1 else 0 := by
  cases call with
  | rd own =>
    simp only [LockFlags.Free] at free
    simp only [request, wrRdlock, if_pos free]
    refine ⟨?_, ?_⟩
    · rintro (other | other)
      all_goals
        by_cases same : other = own
        · subst same
          simp [LockFlags.inUse]
        · simp [LockFlags.inUse, same]
    · intro datatype
      by_cases same : datatype = own
      · subst same
        simp
      · simp [same]
  | wr own =>
    simp only [LockFlags.Free] at free
    refine ⟨?_, ?_⟩
    · rintro (other | other)
      all_goals
        by_cases same : other = own
        · subst same
          by_cases fresh : wait = .entering
          · simp [request, wrWrlock, registerWriter, LockFlags.inUse, fresh, free]
          · simp [request, wrWrlock, LockFlags.inUse, fresh, free]
        · by_cases fresh : wait = .entering
          · simp [request, wrWrlock, registerWriter, LockFlags.inUse, fresh, free, same]
          · simp [request, wrWrlock, LockFlags.inUse, fresh, free, same]
    · intro datatype
      by_cases same : datatype = own
      · subst same
        by_cases fresh : wait = .entering
        · simp [request, wrWrlock, registerWriter, fresh, free]
        · simp [request, wrWrlock, fresh, free]
      · by_cases fresh : wait = .entering
        · simp [request, wrWrlock, registerWriter, fresh, free, same, Ne.symm same]
        · simp [request, wrWrlock, fresh, free, same, Ne.symm same]

theorem request_denied (wait : Wait) (busy : ¬ flags.Free call) :
    (∀ other, LockFlags.inUse (request flags wait call).1 other = flags.inUse other) ∧
    ∀ datatype, ((request flags wait call).1 datatype).writeWaitLock =
      (flags datatype).writeWaitLock +
        if call = .wr datatype ∧ wait = .entering then 1 else 0 := by
  cases call with
  | rd own =>
    simp only [LockFlags.Free] at busy
    simp [request, wrRdlock, if_neg busy]
  | wr own =>
    simp only [LockFlags.Free] at busy
    by_cases fresh : wait = .entering
    · refine ⟨?_, ?_⟩
      · rintro (other | other)
        all_goals
          by_cases same : other = own
          · subst same
            simp [request, wrWrlock, registerWriter, LockFlags.inUse, fresh, busy]
          · simp [request, wrWrlock, registerWriter, LockFlags.inUse, fresh, busy, same]
      · intro datatype
        by_cases same : datatype = own
        · subst same
          simp [request, wrWrlock, registerWriter, fresh, busy]
        · simp [request, wrWrlock, registerWriter, fresh, busy, same, Ne.symm same]
    · simp [request, wrWrlock, fresh, busy]

theorem release_counters (flags : LockFlags) (call : LockCall) :
    (∀ other, LockFlags.inUse (release flags call) other =
      flags.inUse other - if other = call then 1 else 0) ∧
    ∀ datatype, (release flags call datatype).writeWaitLock = (flags datatype).writeWaitLock := by
  cases call with
  | rd own =>
    refine ⟨?_, ?_⟩
    · rintro (other | other)
      all_goals
        by_cases same : other = own
        · subst same
          simp [release, wrRdunlock, LockFlags.inUse]
        · simp [release, wrRdunlock, LockFlags.inUse, same]
    · intro datatype
      by_cases same : datatype = own
      · subst same
        simp [release, wrRdunlock]
      · simp [release, wrRdunlock, same]
  | wr own =>
    refine ⟨?_, ?_⟩
    · rintro (other | other)
      all_goals
        by_cases same : other = own
        · subst same
          simp [release, wrWrunlock, LockFlags.inUse]
        · simp [release, wrWrunlock, LockFlags.inUse, same]
    · intro datatype
      by_cases same : datatype = own
      · subst same
        simp [release, wrWrunlock]
      · simp [release, wrWrunlock, same]

/-! ## The order of the calls -/

/-- One call precedes another when its entity does. -/
def Before (first second : LockCall) : Prop := first.datatype.rank < second.datatype.rank

variable {levels : SlurmctldLock} {rest : List LockCall}

theorem callFor_mem {datatype : LockDatatype} {level : LockLevel}
    (mem : call ∈ callFor datatype level) : call.datatype = datatype := by
  cases level with
  | noLock => cases mem
  | readLock => exact mem_singleton.mp mem ▸ rfl
  | writeLock => exact mem_singleton.mp mem ▸ rfl

theorem callFor_pairwise (datatype : LockDatatype) (level : LockLevel) :
    (callFor datatype level).Pairwise Before := by
  cases level with
  | noLock => exact List.Pairwise.nil
  | readLock => exact pairwise_singleton _ _
  | writeLock => exact pairwise_singleton _ _

theorem lockSlurmctld_ordered (levels : SlurmctldLock) :
    (lockSlurmctld levels).Pairwise Before := by
  simp only [lockSlurmctld, pairwise_append, callFor_pairwise, true_and, mem_append]
  have across : ∀ {low high : LockDatatype} {first second : LockCall} {lowLevel highLevel},
      low.rank < high.rank → first ∈ callFor low lowLevel → second ∈ callFor high highLevel →
      Before first second := by
    intro low high first second lowLevel highLevel ranks inLow inHigh
    rw [Before, callFor_mem inLow, callFor_mem inHigh]
    exact ranks
  refine ⟨⟨⟨?_, ?_⟩, ?_⟩, ?_⟩
  · exact fun _ inLow _ => across (by decide) inLow
  · rintro _ (inLow | inLow) _
    · exact across (by decide) inLow
    · exact across (by decide) inLow
  · rintro _ ((inLow | inLow) | inLow) _
    · exact across (by decide) inLow
    · exact across (by decide) inLow
    · exact across (by decide) inLow
  · rintro _ (((inLow | inLow) | inLow) | inLow) _
    · exact across (by decide) inLow
    · exact across (by decide) inLow
    · exact across (by decide) inLow
    · exact across (by decide) inLow

theorem callFor_reverse (datatype : LockDatatype) (level : LockLevel) :
    (callFor datatype level).reverse = callFor datatype level := by
  cases level <;> rfl

theorem unlockSlurmctld_eq (levels : SlurmctldLock) :
    unlockSlurmctld levels = (lockSlurmctld levels).reverse := by
  simp [lockSlurmctld, unlockSlurmctld, callFor_reverse]

theorem nodup_of_ordered {calls : List LockCall} (ordered : calls.Pairwise Before) :
    calls.Nodup := by
  refine ordered.imp fun before same => ?_
  subst same
  exact Nat.lt_irrefl _ before

theorem nodup_lockSlurmctld (levels : SlurmctldLock) : (lockSlurmctld levels).Nodup :=
  nodup_of_ordered (lockSlurmctld_ordered levels)

theorem before_of_made {todo : List LockCall} {made : LockCall}
    (suffix : (call :: todo) <:+ lockSlurmctld levels) (mem : made ∈ lockSlurmctld levels)
    (outside : made ∉ call :: todo) : Before made call := by
  obtain ⟨front, split⟩ := suffix
  have ordered := lockSlurmctld_ordered levels
  rw [← split] at mem ordered
  have inFront := (mem_append.mp mem).resolve_right outside
  exact (pairwise_append.mp ordered).2.2 made inFront call mem_cons_self

/-! ## Holders and waiting writers -/

/-- The thread has taken the lock of the call and not given it back. -/
def Phase.Holds (call : LockCall) : Phase → Prop
  | .idle => False
  | .locking levels todo _ => call ∈ lockSlurmctld levels ∧ call ∉ todo
  | .holding levels => call ∈ lockSlurmctld levels
  | .unlocking _ todo => call ∈ todo

/-- The thread is in the wait loop of `_wr_wrlock` for the entity. -/
def Phase.Waits (datatype : LockDatatype) : Phase → Prop
  | .locking _ (call :: _) wait => call = .wr datatype ∧ wait ≠ .entering
  | _ => False

/-- The thread is blocked in `pthread_cond_wait` of the call. -/
def Phase.AsleepAt (call : LockCall) : Phase → Prop
  | .locking _ (first :: _) wait => first = call ∧ wait = .asleep
  | _ => False

instance (call : LockCall) : DecidablePred (Phase.Holds call)
  | .idle => inferInstanceAs (Decidable False)
  | .locking levels todo _ =>
    inferInstanceAs (Decidable (call ∈ lockSlurmctld levels ∧ call ∉ todo))
  | .holding levels => inferInstanceAs (Decidable (call ∈ lockSlurmctld levels))
  | .unlocking _ todo => inferInstanceAs (Decidable (call ∈ todo))

instance (datatype : LockDatatype) : DecidablePred (Phase.Waits datatype)
  | .locking _ (call :: _) wait =>
    inferInstanceAs (Decidable (call = .wr datatype ∧ wait ≠ .entering))
  | .locking _ [] _ => inferInstanceAs (Decidable False)
  | .idle => inferInstanceAs (Decidable False)
  | .holding _ => inferInstanceAs (Decidable False)
  | .unlocking _ _ => inferInstanceAs (Decidable False)

/-- The calls a thread has still to make are the last of its list. -/
def Phase.Placed : Phase → Prop
  | .locking levels todo _ => todo <:+ lockSlurmctld levels
  | .unlocking levels todo => todo <:+ unlockSlurmctld levels
  | _ => True

@[simp] theorem holds_wake {phase : Phase} : phase.wake.Holds call ↔ phase.Holds call := by
  unfold Phase.wake
  split <;> rfl

@[simp] theorem placed_wake {phase : Phase} : phase.wake.Placed ↔ phase.Placed := by
  unfold Phase.wake
  split <;> rfl

@[simp] theorem waits_wake {phase : Phase} {datatype : LockDatatype} :
    phase.wake.Waits datatype ↔ phase.Waits datatype := by
  unfold Phase.wake
  split
  · rename_i levels todo
    cases todo <;> simp [Phase.Waits]
  · rfl

theorem not_asleepAt_wake {phase : Phase} : ¬ phase.wake.AsleepAt call := by
  unfold Phase.wake
  split
  · rename_i levels todo
    cases todo <;> simp [Phase.AsleepAt]
  · rename_i awake
    cases phase with
    | locking levels todo wait =>
      cases todo with
      | nil => exact id
      | cons first rest =>
        rintro ⟨-, rfl⟩
        exact awake levels (first :: rest) rfl
    | idle => exact id
    | holding levels => exact id
    | unlocking levels todo => exact id

theorem holds_granted {other : LockCall} (before after : Wait)
    (placed : (call :: rest) <:+ lockSlurmctld levels) :
    (Phase.locking levels rest after).Holds other ↔
      (Phase.locking levels (call :: rest) before).Holds other ∨ other = call := by
  have distinct := (nodup_lockSlurmctld levels).sublist placed.sublist
  have own : call ∈ lockSlurmctld levels := placed.subset mem_cons_self
  by_cases same : other = call
  · subst same
    simp [Phase.Holds, own, (nodup_cons.mp distinct).1]
  · simp [Phase.Holds, same]

theorem not_holds_next : ¬ (Phase.locking levels (call :: rest) wait).Holds call :=
  fun held => held.2 mem_cons_self

theorem holds_released {other : LockCall} :
    (Phase.unlocking levels (call :: rest)).Holds other ↔
      (Phase.unlocking levels rest).Holds other ∨ other = call := by
  simp [Phase.Holds, or_comm]

theorem not_holds_released (placed : (call :: rest) <:+ unlockSlurmctld levels) :
    ¬ (Phase.unlocking levels rest).Holds call := by
  have distinct : (unlockSlurmctld levels).Nodup := by
    rw [unlockSlurmctld_eq]
    exact nodup_reverse.mpr (nodup_lockSlurmctld levels)
  exact (nodup_cons.mp (distinct.sublist placed.sublist)).1

/-! ## The invariant -/

section Counting

omit [DecidableEq T]
variable [Fintype T]

/-- The number of threads in a phase of the given kind. -/
def count (phases : T → Phase) (kind : Phase → Prop) [DecidablePred kind] : Nat :=
  (Finset.univ.filter fun t => kind (phases t)).card

variable {phases : T → Phase} {kind : Phase → Prop} [DecidablePred kind]

theorem count_pos_of {t : T} (found : kind (phases t)) : 0 < count phases kind :=
  Finset.card_pos.mpr ⟨t, mem_filter.mpr ⟨mem_univ t, found⟩⟩

theorem count_eq_zero_iff : count phases kind = 0 ↔ ∀ t, ¬ kind (phases t) := by
  simp [count, Finset.filter_eq_empty_iff]

end Counting

variable [Fintype T] {s after : State T} {t : T}

/-- The counters count the threads, a writer is alone, and no thread sleeps while
its condition holds. -/
structure Consistent (s : State T) : Prop where
  placed : ∀ t, (s.phase t).Placed
  inUse : ∀ call, s.flags.inUse call = count s.phase (Phase.Holds call)
  waiting : ∀ datatype, (s.flags datatype).writeWaitLock = count s.phase (Phase.Waits datatype)
  exclusive : ∀ datatype, s.flags.inUse (.wr datatype) = 0 ∨
    s.flags.inUse (.wr datatype) = 1 ∧ s.flags.inUse (.rd datatype) = 0
  blocked : ∀ t call, (s.phase t).AsleepAt call → ¬ s.flags.Free call

/-- One thread has come to a phase, the others stand where they stood. -/
structure Moved (s : State T) (t : T) (new : Phase) (after : State T) : Prop where
  self : after.phase t = new
  others : ∀ u, u ≠ t → after.phase u = s.phase u

namespace Moved

variable {new : Phase}

omit [Fintype T] in
theorem update (flags : LockFlags) :
    Moved s t new ⟨flags, Function.update s.phase t new⟩ :=
  ⟨Function.update_self .., fun _ different => Function.update_of_ne different ..⟩

theorem count_change (moved : Moved s t new after) (kind : Phase → Prop) [DecidablePred kind] :
    (count after.phase kind : Int) + (if kind (s.phase t) then 1 else 0) =
      count s.phase kind + if kind new then 1 else 0 := by
  have change := Lib.sum_change (fun u => if kind (s.phase u) then 1 else 0)
    (fun u => if kind (after.phase u) then 1 else 0) (mem_univ t)
    (fun u _ ne => by rw [moved.others u ne])
  simp only [count, Finset.card_filter]
  rw [moved.self] at change
  exact_mod_cast change

omit [Fintype T] in
theorem forall_of (moved : Moved s t new after) (property : Phase → Prop) (own : property new)
    (before : ∀ u, property (s.phase u)) (u : T) : property (after.phase u) := by
  by_cases same : u = t
  · subst same
    rwa [moved.self]
  · rw [moved.others u same]
    exact before u

end Moved

namespace Consistent

section

omit [DecidableEq T]

theorem inUse_nonneg (inv : Consistent s) (call : LockCall) : 0 ≤ s.flags.inUse call := by
  rw [inv.inUse]
  exact Int.natCast_nonneg _

theorem waiting_nonneg (inv : Consistent s) (datatype : LockDatatype) :
    0 ≤ (s.flags datatype).writeWaitLock := by
  rw [inv.waiting]
  exact Int.natCast_nonneg _

theorem inUse_pos (inv : Consistent s) (held : (s.phase t).Holds call) :
    0 < s.flags.inUse call := by
  have some : 0 < count s.phase (Phase.Holds call) := count_pos_of held
  rw [inv.inUse]
  exact_mod_cast some

theorem initial : Consistent (State.initial T) := by
  refine ⟨fun _ => trivial, ?_, ?_, fun _ => .inl rfl, fun _ _ asleep => asleep.elim⟩
  · intro call
    have nobody : count (State.initial T).phase (Phase.Holds call) = 0 :=
      count_eq_zero_iff.mpr fun _ held => held
    rw [nobody]
    cases call <;> rfl
  · intro datatype
    have nobody : count (State.initial T).phase (Phase.Waits datatype) = 0 :=
      count_eq_zero_iff.mpr fun _ held => held
    rw [nobody]
    rfl

theorem free_of_more (inv : Consistent s) (more : ∀ held, s.flags.inUse held ≤ flags.inUse held)
    (pending : ∀ datatype, (s.flags datatype).writeWaitLock ≤ (flags datatype).writeWaitLock ∨
      0 < flags.inUse (.wr datatype))
    (free : flags.Free call) : s.flags.Free call := by
  have zero : ∀ held, flags.inUse held = 0 → s.flags.inUse held = 0 := fun held none =>
    le_antisymm (none ▸ more held) (inv.inUse_nonneg held)
  cases call with
  | rd datatype =>
    refine ⟨zero (.wr datatype) free.1, ?_⟩
    rcases pending datatype with less | busy
    · exact le_antisymm (free.2 ▸ less) (inv.waiting_nonneg datatype)
    · exact absurd free.1 (ne_of_gt busy)
  | wr datatype => exact ⟨zero (.rd datatype) free.1, zero (.wr datatype) free.2⟩

theorem broadcast (inv : Consistent s) :
    Consistent ⟨s.flags, fun u => (s.phase u).wake⟩ := by
  refine ⟨fun u => placed_wake.mpr (inv.placed u), ?_, ?_, inv.exclusive,
    fun u call asleep => absurd asleep not_asleepAt_wake⟩
  · intro call
    simpa only [count, holds_wake] using inv.inUse call
  · intro datatype
    simpa only [count, waits_wake] using inv.waiting datatype

end

variable {new : Phase}

theorem quiet (inv : Consistent s) (moved : Moved s t new after)
    (sameFlags : after.flags = s.flags) (placed : new.Placed)
    (holds : ∀ call, new.Holds call ↔ (s.phase t).Holds call)
    (waits : ∀ datatype, new.Waits datatype ↔ (s.phase t).Waits datatype)
    (awake : ∀ call, ¬ new.AsleepAt call) : Consistent after := by
  refine ⟨moved.forall_of Phase.Placed placed inv.placed, ?_, ?_, ?_, ?_⟩
  · intro call
    have change := moved.count_change (Phase.Holds call)
    simp only [holds call] at change
    rw [sameFlags, inv.inUse]
    exact (add_right_cancel change).symm
  · intro datatype
    have change := moved.count_change (Phase.Waits datatype)
    simp only [waits datatype] at change
    rw [sameFlags, inv.waiting]
    exact (add_right_cancel change).symm
  · rw [sameFlags]
    exact inv.exclusive
  · rw [sameFlags]
    exact fun u call => moved.forall_of (fun phase => phase.AsleepAt call → ¬ s.flags.Free call)
      (fun asleep => absurd asleep (awake call)) (fun other => inv.blocked other call) u

variable {levels : SlurmctldLock} {rest : List LockCall}

theorem granted (inv : Consistent s) (shape : s.phase t = .locking levels (call :: rest) wait)
    (moved : Moved s t (.locking levels rest .entering) after)
    (changed : after.flags = (request s.flags wait call).1) (free : s.flags.Free call) :
    Consistent after := by
  obtain ⟨inUseAfter, waitingAfter⟩ := request_granted wait free
  rw [← changed] at inUseAfter waitingAfter
  have placed := inv.placed t
  rw [shape] at placed
  refine ⟨moved.forall_of Phase.Placed ?_ inv.placed, ?_, ?_, ?_, ?_⟩
  · exact (suffix_cons call rest).trans placed
  · intro other
    have change := moved.count_change (Phase.Holds other)
    rw [shape] at change
    simp only [holds_granted wait .entering placed] at change
    rw [inUseAfter, inv.inUse]
    by_cases same : other = call
    · subst same
      simp only [not_holds_next, or_true, if_true, if_false] at change ⊢
      omega
    · simp only [same, or_false, if_false] at change ⊢
      omega
  · intro datatype
    have change := moved.count_change (Phase.Waits datatype)
    have entering : ¬ (Phase.locking levels rest .entering).Waits datatype := by
      cases rest with
      | nil => exact id
      | cons next rest => exact fun waits => waits.2 rfl
    rw [shape, if_neg entering] at change
    rw [waitingAfter, inv.waiting]
    by_cases registered : call = .wr datatype ∧ wait ≠ .entering
    · rw [if_pos (show (Phase.locking levels (call :: rest) wait).Waits datatype from registered)]
        at change
      rw [if_pos registered]
      omega
    · rw [if_neg (show ¬ (Phase.locking levels (call :: rest) wait).Waits datatype from registered)]
        at change
      rw [if_neg registered]
      omega
  · intro datatype
    rw [inUseAfter, inUseAfter]
    cases call with
    | rd own =>
      simp only [reduceCtorEq, if_false, add_zero, LockCall.rd.injEq]
      by_cases same : datatype = own
      · subst same
        exact .inl free.1
      · simpa [same] using inv.exclusive datatype
    | wr own =>
      simp only [reduceCtorEq, if_false, add_zero, LockCall.wr.injEq]
      by_cases same : datatype = own
      · subst same
        refine .inr ⟨?_, free.1⟩
        rw [if_pos rfl, show s.flags.inUse (.wr datatype) = 0 from free.2]
        rfl
      · simpa [same] using inv.exclusive datatype
  · intro u other
    refine moved.forall_of (fun phase => phase.AsleepAt other → ¬ after.flags.Free other) ?_ ?_ u
    · cases rest with
      | nil => exact fun asleep => asleep.elim
      | cons next rest => exact fun asleep => nomatch asleep.2
    · intro v asleep nowFree
      refine inv.blocked v other asleep (inv.free_of_more ?_ ?_ nowFree)
      · intro held
        rw [inUseAfter]
        split_ifs <;> omega
      · intro datatype
        by_cases own : call = .wr datatype
        · subst own
          have nonneg := inv.inUse_nonneg (.wr datatype)
          rw [inUseAfter, if_pos rfl]
          omega
        · rw [waitingAfter, if_neg fun both => own both.1]
          omega

theorem denied (inv : Consistent s) (shape : s.phase t = .locking levels (call :: rest) wait)
    (moved : Moved s t (.locking levels (call :: rest) .asleep) after)
    (changed : after.flags = (request s.flags wait call).1) (busy : ¬ s.flags.Free call) :
    Consistent after := by
  obtain ⟨inUseAfter, waitingAfter⟩ := request_denied wait busy
  rw [← changed] at inUseAfter waitingAfter
  have placed := inv.placed t
  rw [shape] at placed
  have noLonger : ∀ {other}, after.flags.Free other → s.flags.Free other := by
    refine inv.free_of_more (fun held => le_of_eq (inUseAfter held).symm) fun datatype => .inl ?_
    rw [waitingAfter]
    split_ifs <;> omega
  refine ⟨moved.forall_of Phase.Placed placed inv.placed, ?_, ?_, ?_, ?_⟩
  · intro other
    have change := moved.count_change (Phase.Holds other)
    rw [shape] at change
    rw [inUseAfter, inv.inUse]
    exact (add_right_cancel change).symm
  · intro datatype
    have change := moved.count_change (Phase.Waits datatype)
    rw [shape] at change
    rw [waitingAfter, inv.waiting]
    by_cases own : call = .wr datatype
    · rw [if_pos (show (Phase.locking levels (call :: rest) .asleep).Waits datatype from
        ⟨own, fun eq => nomatch eq⟩)] at change
      by_cases fresh : wait = .entering
      · rw [if_neg fun waits => waits.2 fresh] at change
        rw [if_pos ⟨own, fresh⟩]
        omega
      · rw [if_pos (show (Phase.locking levels (call :: rest) wait).Waits datatype from
          ⟨own, fresh⟩)] at change
        rw [if_neg fun both => fresh both.2]
        omega
    · rw [if_neg fun waits => own waits.1, if_neg fun waits => own waits.1] at change
      rw [if_neg fun both => own both.1]
      omega
  · intro datatype
    rw [inUseAfter, inUseAfter]
    exact inv.exclusive datatype
  · intro u other
    refine moved.forall_of (fun phase => phase.AsleepAt other → ¬ after.flags.Free other) ?_ ?_ u
    · rintro ⟨rfl, -⟩ nowFree
      exact busy (noLonger nowFree)
    · exact fun v asleep nowFree => inv.blocked v other asleep (noLonger nowFree)

theorem released (inv : Consistent s) (shape : s.phase t = .unlocking levels (call :: rest))
    (moved : Moved s t (.unlocking levels rest) after)
    (changed : after.flags = release s.flags call)
    (awake : ∀ u other, ¬ (s.phase u).AsleepAt other) : Consistent after := by
  obtain ⟨inUseAfter, waitingAfter⟩ := release_counters s.flags call
  rw [← changed] at inUseAfter waitingAfter
  have placed := inv.placed t
  rw [shape] at placed
  have held : (s.phase t).Holds call := by
    rw [shape]
    exact mem_cons_self
  refine ⟨moved.forall_of Phase.Placed ?_ inv.placed, ?_, ?_, ?_, ?_⟩
  · exact (suffix_cons call rest).trans placed
  · intro other
    have change := moved.count_change (Phase.Holds other)
    rw [shape] at change
    simp only [holds_released] at change
    rw [inUseAfter, inv.inUse]
    by_cases same : other = call
    · subst same
      simp only [not_holds_released placed, or_true, if_true, if_false] at change ⊢
      omega
    · simp only [same, or_false, if_false] at change ⊢
      omega
  · intro datatype
    have change := moved.count_change (Phase.Waits datatype)
    rw [shape] at change
    rw [waitingAfter, inv.waiting]
    exact (add_right_cancel change).symm
  · intro datatype
    have some := inv.inUse_pos held
    rw [inUseAfter, inUseAfter]
    rcases inv.exclusive datatype with none | ⟨one, alone⟩
    · refine .inl ?_
      rw [if_neg, none]
      · rfl
      · rintro rfl
        omega
    · have notReader : LockCall.rd datatype ≠ call := by
        rintro rfl
        omega
      rw [if_neg notReader, one, alone]
      split_ifs <;> simp
  · intro u other asleep
    exact absurd asleep (moved.forall_of (fun phase => ¬ phase.AsleepAt other) id
      (fun v => awake v other) u)

/-- Every step of every thread keeps the invariant. -/
theorem step {action : Action} (inv : Consistent s) (taken : Locks.step s t action = some after) :
    Consistent after := by
  obtain ⟨levels, -, shape, rfl⟩ | ⟨levels, call, rest, wait, -, -, shape, yes, rfl⟩ |
    ⟨levels, call, rest, wait, -, -, shape, no, rfl⟩ | ⟨levels, todo, -, shape, rfl⟩ |
    ⟨levels, wait, -, shape, rfl⟩ | ⟨levels, -, shape, rfl⟩ |
    ⟨levels, call, rest, -, shape, rfl⟩ | ⟨levels, -, shape, rfl⟩ := step_cases taken
  · refine inv.quiet (Moved.update s.flags) rfl (suffix_refl _) ?_ ?_ ?_
    · intro call
      rw [shape]
      exact iff_of_false (fun held => held.2 held.1) id
    · intro datatype
      rw [shape]
      cases lockSlurmctld levels with
      | nil => exact Iff.rfl
      | cons first rest => exact iff_of_false (fun waits => waits.2 rfl) id
    · intro call
      cases lockSlurmctld levels with
      | nil => exact id
      | cons first rest => exact fun asleep => nomatch asleep.2
  · exact inv.granted shape (Moved.update _) rfl (request_taken_iff.mp yes)
  · refine inv.denied shape (Moved.update _) rfl fun free => ?_
    rw [request_taken_iff.mpr free] at no
    cases no
  · have placed := inv.placed t
    rw [shape] at placed
    refine inv.quiet (Moved.update s.flags) rfl placed ?_ ?_ ?_
    · intro call
      rw [shape]
      rfl
    · intro datatype
      rw [shape]
      cases todo with
      | nil => exact Iff.rfl
      | cons first rest => simp [Phase.Waits]
    · intro call
      cases todo with
      | nil => exact id
      | cons first rest => exact fun asleep => nomatch asleep.2
  · refine inv.quiet (Moved.update s.flags) rfl trivial ?_ ?_ fun _ => id
    · rw [shape]
      simp [Phase.Holds]
    · intro datatype
      rw [shape]
      exact Iff.rfl
  · refine inv.quiet (Moved.update s.flags) rfl (suffix_refl _) ?_ ?_ fun _ => id
    · rw [shape]
      simp [Phase.Holds, unlockSlurmctld_eq]
    · intro datatype
      rw [shape]
      exact Iff.rfl
  · have woken : (s.phase t).wake = .unlocking levels (call :: rest) := by
      rw [shape]
      rfl
    exact inv.broadcast.released woken (Moved.update _) rfl fun u other => not_asleepAt_wake
  · refine inv.quiet (Moved.update s.flags) rfl trivial ?_ ?_ fun _ => id
    · rw [shape]
      simp [Phase.Holds]
    · intro datatype
      rw [shape]
      exact Iff.rfl

end Consistent

theorem Reachable.consistent (reached : Reachable s) : Consistent s := by
  induction reached with
  | initial => exact Consistent.initial
  | step _ taken ih => exact ih.step taken

/-! ## Progress -/

/-- The number of steps a thread has left until it is idle again. -/
def Phase.remaining : Phase → Nat
  | .idle => 0
  | .locking levels todo _ => todo.length + (unlockSlurmctld levels).length + 3
  | .holding levels => (unlockSlurmctld levels).length + 2
  | .unlocking _ todo => todo.length + 1

@[simp] theorem remaining_wake {phase : Phase} : phase.wake.remaining = phase.remaining := by
  unfold Phase.wake
  split <;> rfl

/-- The thread can take a step that brings it closer to being idle. -/
def Advances (s : State T) (t : T) : Prop :=
  ∃ action after, step s t action = some after ∧
    (after.phase t).remaining < (s.phase t).remaining

omit [Fintype T] in
theorem advances_of_outside (busy : s.phase t ≠ .idle)
    (outside : ∀ levels call rest wait, s.phase t ≠ .locking levels (call :: rest) wait) :
    Advances s t := by
  rcases shape : s.phase t with - | ⟨levels, - | ⟨call, rest⟩, wait⟩ | levels |
    ⟨levels, - | ⟨call, rest⟩⟩
  · exact absurd shape busy
  · refine ⟨.lockReturn, _, by simp only [step, shape]; rfl, ?_⟩
    simp [Phase.remaining, shape]
  · exact absurd shape (outside levels call rest wait)
  · refine ⟨.unlock, _, by simp only [step, shape]; rfl, ?_⟩
    simp [Phase.remaining, shape]
  · refine ⟨.unlockReturn, _, by simp only [step, shape]; rfl, ?_⟩
    simp [Phase.remaining, shape]
  · refine ⟨.release, _, by simp only [step, shape]; rfl, ?_⟩
    simp [Phase.remaining, shape]

theorem Consistent.advances_of_free (inv : Consistent s) {levels : SlurmctldLock}
    {rest : List LockCall} (shape : s.phase t = .locking levels (call :: rest) wait)
    (free : s.flags.Free call) : Advances s t := by
  have up : wait ≠ .asleep := by
    rintro rfl
    refine inv.blocked t call ?_ free
    rw [shape]
    exact ⟨rfl, rfl⟩
  have granted : (request s.flags wait call).2 = true := request_taken_iff.mpr free
  refine ⟨.test, ⟨(request s.flags wait call).1,
    Function.update s.phase t (.locking levels rest .entering)⟩, ?_, ?_⟩
  · cases wait with
    | asleep => exact absurd rfl up
    | entering => simp [Locks.step, shape, granted]
    | awake => simp [Locks.step, shape, granted]
  · simp [Phase.remaining, shape]

omit [DecidableEq T] in
/-- Nobody holds the last entity that a thread waits for, when all threads wait. -/
theorem Consistent.inUse_last (inv : Consistent s)
    (waiting : ∀ u, s.phase u ≠ .idle →
      ∃ levels call rest wait, s.phase u = .locking levels (call :: rest) wait)
    {held : LockCall}
    (last : ∀ u levels call rest wait, s.phase u = .locking levels (call :: rest) wait →
      call.datatype.rank ≤ held.datatype.rank) : s.flags.inUse held = 0 := by
  have nobody : count s.phase (Phase.Holds held) = 0 := by
    refine count_eq_zero_iff.mpr fun u holds => ?_
    have busy : s.phase u ≠ .idle := by
      intro idle
      rw [idle] at holds
      exact holds
    obtain ⟨levels, call, rest, wait, shape⟩ := waiting u busy
    have placed := inv.placed u
    rw [shape] at holds placed
    have before := before_of_made placed holds.1 holds.2
    exact absurd (last u levels call rest wait shape) (Nat.not_le.mpr before)
  rw [inv.inUse, nobody]
  rfl

/-- The number of the entity a thread waits for. -/
def Phase.standing : Phase → Nat
  | .locking _ (call :: _) _ => call.datatype.rank
  | _ => 0

omit [DecidableEq T] in
theorem Consistent.waiting_writer (inv : Consistent s) {datatype : LockDatatype}
    (pending : (s.flags datatype).writeWaitLock ≠ 0) :
    ∃ u levels rest wait, s.phase u = .locking levels (.wr datatype :: rest) wait := by
  have some : ¬ ∀ u, ¬ (s.phase u).Waits datatype := by
    intro nobody
    refine pending ?_
    rw [inv.waiting, count_eq_zero_iff.mpr nobody]
    rfl
  push Not at some
  obtain ⟨u, waits⟩ := some
  rcases shape : s.phase u with - | ⟨levels, - | ⟨call, rest⟩, wait⟩ | levels | ⟨levels, todo⟩
  all_goals rw [shape] at waits
  · exact waits.elim
  · exact waits.elim
  · obtain ⟨rfl, -⟩ := waits
    exact ⟨u, levels, rest, wait, shape⟩
  · exact waits.elim
  · exact waits.elim

/-- While some thread is not idle, some thread advances. -/
theorem Consistent.progress (inv : Consistent s) (busy : ∃ t, s.phase t ≠ .idle) :
    ∃ t, Advances s t := by
  by_cases waiting : ∀ u, s.phase u ≠ .idle →
      ∃ levels call rest wait, s.phase u = .locking levels (call :: rest) wait
  · obtain ⟨t, active⟩ := busy
    obtain ⟨u, mem, last⟩ := Finset.exists_max_image
      (Finset.univ.filter fun u => s.phase u ≠ .idle) (fun u => (s.phase u).standing)
      ⟨t, mem_filter.mpr ⟨mem_univ t, active⟩⟩
    obtain ⟨levels, call, rest, wait, shape⟩ := waiting u (mem_filter.mp mem).2
    have unused : ∀ held : LockCall, held.datatype = call.datatype → s.flags.inUse held = 0 := by
      intro held same
      refine inv.inUse_last waiting fun v levels' call' rest' wait' shape' => ?_
      have active' : s.phase v ≠ .idle := by
        rw [shape']
        exact fun eq => nomatch eq
      have below := last v (mem_filter.mpr ⟨mem_univ v, active'⟩)
      simp only [shape, shape', Phase.standing] at below
      rwa [same]
    cases call with
    | wr datatype =>
      exact ⟨u, inv.advances_of_free shape ⟨unused (.rd datatype) rfl, unused (.wr datatype) rfl⟩⟩
    | rd datatype =>
      by_cases pending : (s.flags datatype).writeWaitLock = 0
      · exact ⟨u, inv.advances_of_free shape ⟨unused (.wr datatype) rfl, pending⟩⟩
      · obtain ⟨v, _, _, _, shape'⟩ := inv.waiting_writer pending
        exact ⟨v, inv.advances_of_free shape'
          ⟨unused (.rd datatype) rfl, unused (.wr datatype) rfl⟩⟩
  · push Not at waiting
    obtain ⟨u, active, outside⟩ := waiting
    exact ⟨u, advances_of_outside active outside⟩

/-! ## The lock protocol -/

/-- In every reachable state a writer of an entity is alone with it, the counters are
the numbers of the threads that hold or wait, and while a thread is active some thread
can take a step towards the end of its calls. -/
theorem lock_protocol (reached : Reachable s) :
    (∀ datatype t u, (s.phase t).Holds (.wr datatype) →
      ¬ (s.phase u).Holds (.rd datatype) ∧ ((s.phase u).Holds (.wr datatype) → u = t)) ∧
    (∀ datatype, (s.flags datatype).readLock = count s.phase (Phase.Holds (.rd datatype)) ∧
      (s.flags datatype).writeLock = count s.phase (Phase.Holds (.wr datatype)) ∧
      (s.flags datatype).writeWaitLock = count s.phase (Phase.Waits datatype) ∧
      0 ≤ (s.flags datatype).readLock ∧ 0 ≤ (s.flags datatype).writeLock ∧
      0 ≤ (s.flags datatype).writeWaitLock) ∧
    ((∃ t, s.phase t ≠ .idle) → ∃ t, Advances s t) := by
  have inv := reached.consistent
  refine ⟨?_, ?_, inv.progress⟩
  · intro datatype t u writer
    have some := inv.inUse_pos writer
    obtain ⟨one, alone⟩ : s.flags.inUse (.wr datatype) = 1 ∧ s.flags.inUse (.rd datatype) = 0 :=
      (inv.exclusive datatype).resolve_left (ne_of_gt some)
    refine ⟨fun reader => absurd (inv.inUse_pos reader) (by omega), fun second => ?_⟩
    rw [inv.inUse] at one
    have atMost : count s.phase (Phase.Holds (.wr datatype)) ≤ 1 := by omega
    exact Finset.card_le_one.mp atMost u (by simpa using second) t (by simpa using writer)
  · intro datatype
    exact ⟨inv.inUse (.rd datatype), inv.inUse (.wr datatype), inv.waiting datatype,
      inv.inUse_nonneg (.rd datatype), inv.inUse_nonneg (.wr datatype),
      inv.waiting_nonneg datatype⟩

/-- A thread asks for the configuration while another one writes it. -/
theorem lock_protocol_contended :
    ∃ s : State Bool, Reachable s ∧ (s.phase true).Holds (.wr .configLock) ∧
      (s.phase false).AsleepAt (.rd .configLock) ∧ (s.flags .configLock).writeLock = 1 ∧
      0 ≤ (s.flags .configLock).readLock ∧ ∃ t, Advances s t := by
  have asked := @Reachable.step Bool _ _ _ true
    (.lock ⟨.writeLock, .noLock, .noLock, .noLock, .noLock⟩) .initial rfl
  have writing := @Reachable.step Bool _ _ _ true .test asked rfl
  have asking := @Reachable.step Bool _ _ _ false
    (.lock ⟨.readLock, .writeLock, .noLock, .noLock, .noLock⟩) writing rfl
  have reached := @Reachable.step Bool _ _ _ false .test asking rfl
  have protocol := lock_protocol reached
  refine ⟨_, reached, by decide, ⟨rfl, rfl⟩, ?_, (protocol.2.1 _).2.2.2.1, protocol.2.2 ⟨true, ?_⟩⟩
  · rfl
  · exact fun eq => nomatch eq

omit [Fintype T] in
theorem step_remaining {action : Action} (taken : step s t action = some after) {u : T}
    (other : u ≠ t) : (after.phase u).remaining = (s.phase u).remaining := by
  obtain ⟨_, -, -, rfl⟩ | ⟨_, _, _, _, -, -, -, -, rfl⟩ | ⟨_, _, _, _, -, -, -, -, rfl⟩ |
    ⟨_, _, -, -, rfl⟩ | ⟨_, _, -, -, rfl⟩ | ⟨_, -, -, rfl⟩ | ⟨_, _, _, -, -, rfl⟩ |
    ⟨_, -, -, rfl⟩ := step_cases taken
  all_goals simp only [Function.update_of_ne other, remaining_wake]

/-- From every reachable state some run of the threads ends all calls, and no lock is held or
waited for behind it. -/
theorem lock_slurmctld_drains (reached : Reachable s) :
    ∃ after, Relation.ReflTransGen (fun s after => ∃ t action, step s t action = some after)
      s after ∧ (∀ t, after.phase t = .idle) ∧
      ∀ datatype, (after.flags datatype).readLock = 0 ∧ (after.flags datatype).writeLock = 0 ∧
        (after.flags datatype).writeWaitLock = 0 := by
  induction work : ∑ t, (s.phase t).remaining using Nat.strong_induction_on generalizing s with
  | _ work ih =>
    by_cases busy : ∃ t, s.phase t ≠ .idle
    · obtain ⟨t, action, next, taken, less⟩ := reached.consistent.progress busy
      have fewer : ∑ u, (next.phase u).remaining < ∑ u, (s.phase u).remaining := by
        refine Finset.sum_lt_sum ?_ ⟨t, mem_univ t, less⟩
        intro u _
        by_cases same : u = t
        · rw [same]
          exact less.le
        · exact (step_remaining taken same).le
      obtain ⟨after, run, idle⟩ := ih _ (work ▸ fewer) (reached.step taken) rfl
      exact ⟨after, .head ⟨t, action, taken⟩ run, idle⟩
    · push Not at busy
      have inv := reached.consistent
      have nobody : ∀ p : Phase → Prop, [DecidablePred p] → ¬p .idle →
          (count s.phase p : Int) = 0 := fun p _ not => by
        rw [count_eq_zero_iff.mpr fun t => (busy t).symm ▸ not]
        rfl
      exact ⟨s, .refl, busy, fun datatype => ⟨(inv.inUse (.rd datatype)).trans (nobody _ id),
        (inv.inUse (.wr datatype)).trans (nobody _ id), (inv.waiting datatype).trans (nobody _ id)⟩⟩

/-- A thread that has asked for a write lock comes to its end. -/
theorem lock_slurmctld_drains_one :
    ∃ s : State Bool, s.phase true ≠ .idle ∧ ∃ after,
      Relation.ReflTransGen (fun s after => ∃ t action, step s t action = some after) s after ∧
        ∀ t, after.phase t = .idle := by
  have asked := @Reachable.step Bool _ _ _ true
    (.lock ⟨.writeLock, .noLock, .noLock, .noLock, .noLock⟩) .initial rfl
  obtain ⟨after, run, idle, _⟩ := lock_slurmctld_drains asked
  refine ⟨_, ?_, after, run, idle⟩
  exact fun eq => nomatch eq

end SlurmSim.Controller.Locks
