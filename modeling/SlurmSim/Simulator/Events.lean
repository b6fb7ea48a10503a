import Mathlib.Data.List.Perm.Basic

/-!
# Events of the simulated slurmd

A launched batch job becomes an event at the time of its end. The helper thread
completes the events that are due, in cycles that the simulation manager
triggers. Both sides hold `simulator_mutex` while they work on the list.
-/

namespace SlurmSim.Simulator

open List

/-- `simulator_event_t` of a batch job. -/
structure SimEvent where
  jobId : Nat
  when : Nat
  nodelist : String
  deriving DecidableEq

/-- The fields of the launch request that make up an event. -/
structure LaunchRequest where
  jobId : Nat
  duration : Nat
  nodes : String

/-- The shared lists and counters of slurmd. `added` is the history of the events
that were put into the list. -/
structure Slurmd where
  now : Nat
  pending : List SimEvent
  completed : List SimEvent
  totalSimEvents : Nat
  stopped : Bool
  added : List SimEvent

/-! ## Adding an event -/

/-- The walk behind the head: the event goes before the first one that is not
earlier. -/
def insertAfter (event : SimEvent) : List SimEvent → List SimEvent
  | [] => [event]
  | node :: rest =>
    if node.when < event.when then node :: insertAfter event rest else event :: node :: rest

/-- The cases of `simulator_add_future_event` for an empty list, a new head and
a place behind the head. -/
def insertEvent (event : SimEvent) : List SimEvent → List SimEvent
  | [] => [event]
  | head :: rest =>
    if event.when < head.when then event :: head :: rest else head :: insertAfter event rest

/-- The event of a request that arrives at a time. -/
def eventOf (now : Nat) (request : LaunchRequest) : SimEvent :=
  ⟨request.jobId, now + request.duration, request.nodes⟩

/-- `simulator_add_future_event`. Jobs without an entry in the table of the
simulated durations are refused. -/
def addFutureEvent (infos : List Nat) (now : Nat) (request : LaunchRequest) (slurmd : Slurmd) :
    Slurmd :=
  if request.jobId ∈ infos then
    { slurmd with
      now := now
      pending := insertEvent (eventOf now request) slurmd.pending
      totalSimEvents := slurmd.totalSimEvents + 1
      added := slurmd.added ++ [eventOf now request] }
  else { slurmd with now := now }

/-! ## A cycle of the helper -/

/-- The drain loop: an event is moved before its message is sent, and the thread
ends when a message cannot be sent. -/
def drain (now : Nat) (sent : SimEvent → Bool) (slurmd : Slurmd) : List SimEvent → Slurmd
  | [] => { slurmd with pending := [] }
  | event :: rest =>
    if event.when ≤ now then
      let slurmd := { slurmd with
        pending := rest
        completed := event :: slurmd.completed
        totalSimEvents := slurmd.totalSimEvents - 1 }
      if sent event then drain now sent slurmd rest else { slurmd with stopped := true }
    else { slurmd with pending := event :: rest }

/-- One cycle of `_simulator_helper`. -/
def helperCycle (now : Nat) (sent : SimEvent → Bool) (slurmd : Slurmd) : Slurmd :=
  drain now sent { slurmd with now := now } slurmd.pending

/-- A call or a cycle, with the answers that the messages of a cycle get. -/
inductive Action where
  | launch (infos : List Nat) (request : LaunchRequest)
  | cycle (sent : SimEvent → Bool)

/-- One action under the mutex. A helper that has ended holds it for ever. -/
def act (slurmd : Slurmd) (now : Nat) (action : Action) : Option Slurmd :=
  if slurmd.stopped then none
  else
    match action with
    | .launch infos request => some (addFutureEvent infos now request slurmd)
    | .cycle sent => some (helperCycle now sent slurmd)

/-- The calls and cycles in the order in which they get the mutex, at times that
do not decrease. -/
inductive Run : Slurmd → Slurmd → Prop
  | nil (slurmd : Slurmd) : Run slurmd slurmd
  | snoc {first slurmd after : Slurmd} {now : Nat} {action : Action} : Run first slurmd →
      slurmd.now ≤ now → act slurmd now action = some after → Run first after

def initial (now : Nat) : Slurmd := ⟨now, [], [], 0, false, []⟩

/-! ## The list stays sorted -/

/-- The events stand in the order of their times. -/
def Ordered (events : List SimEvent) : Prop :=
  events.Pairwise fun a b => a.when ≤ b.when

theorem insertAfter_perm (event : SimEvent) (events : List SimEvent) :
    (insertAfter event events).Perm (event :: events) := by
  induction events with
  | nil => exact List.Perm.refl _
  | cons node rest ih =>
    simp only [insertAfter]
    split
    · exact (ih.cons node).trans (List.Perm.swap event node rest)
    · exact List.Perm.refl _

theorem insertEvent_perm (event : SimEvent) (events : List SimEvent) :
    (insertEvent event events).Perm (event :: events) := by
  cases events with
  | nil => exact List.Perm.refl _
  | cons head rest =>
    simp only [insertEvent]
    split
    · exact List.Perm.refl _
    · exact ((insertAfter_perm event rest).cons head).trans (List.Perm.swap event head rest)

variable {event : SimEvent} {events rest : List SimEvent}

theorem insertAfter_ordered (ordered : Ordered events) : Ordered (insertAfter event events) := by
  induction events with
  | nil => exact pairwise_singleton _ _
  | cons node rest ih =>
    obtain ⟨first, tail⟩ := pairwise_cons.mp ordered
    simp only [insertAfter]
    split
    · rename_i earlier
      refine pairwise_cons.mpr ⟨?_, ih tail⟩
      intro other mem
      rcases mem_cons.mp ((insertAfter_perm event rest).mem_iff.mp mem) with rfl | later
      · exact Nat.le_of_lt earlier
      · exact first other later
    · rename_i notEarlier
      have bound : event.when ≤ node.when := Nat.not_lt.mp notEarlier
      refine pairwise_cons.mpr ⟨?_, ordered⟩
      intro other mem
      rcases mem_cons.mp mem with rfl | later
      · exact bound
      · exact Nat.le_trans bound (first other later)

theorem insertEvent_ordered (ordered : Ordered events) : Ordered (insertEvent event events) := by
  cases events with
  | nil => exact pairwise_singleton _ _
  | cons head rest =>
    obtain ⟨first, tail⟩ := pairwise_cons.mp ordered
    simp only [insertEvent]
    split
    · rename_i earlier
      refine pairwise_cons.mpr ⟨?_, ordered⟩
      intro other mem
      rcases mem_cons.mp mem with rfl | later
      · exact Nat.le_of_lt earlier
      · exact Nat.le_trans (Nat.le_of_lt earlier) (first other later)
    · rename_i notEarlier
      refine pairwise_cons.mpr ⟨?_, insertAfter_ordered tail⟩
      intro other mem
      rcases mem_cons.mp ((insertAfter_perm event rest).mem_iff.mp mem) with rfl | later
      · exact Nat.not_lt.mp notEarlier
      · exact first other later

/-! ## What a cycle completes -/

/-- The events that are due, and those that are not. -/
def due (now : Nat) (events : List SimEvent) : List SimEvent :=
  events.filter fun event => event.when ≤ now

def notDue (now : Nat) (events : List SimEvent) : List SimEvent :=
  events.filter fun event => now < event.when

theorem due_cons_of_le {now : Nat} (reached : event.when ≤ now) :
    due now (event :: rest) = event :: due now rest := by
  simp [due, reached]

theorem notDue_cons_of_le {now : Nat} (reached : event.when ≤ now) :
    notDue now (event :: rest) = notDue now rest := by
  simp [notDue, Nat.not_lt.mpr reached]

theorem Ordered.future {now : Nat} (ordered : Ordered (event :: rest)) (ahead : now < event.when) :
    due now (event :: rest) = [] ∧ notDue now (event :: rest) = event :: rest := by
  have all : ∀ other ∈ event :: rest, now < other.when := by
    intro other mem
    rcases mem_cons.mp mem with rfl | later
    · exact ahead
    · exact Nat.lt_of_lt_of_le ahead ((pairwise_cons.mp ordered).1 other later)
  constructor
  · refine filter_eq_nil_iff.mpr ?_
    intro other mem
    simpa using all other mem
  · refine filter_eq_self.mpr ?_
    intro other mem
    simpa using all other mem

theorem Ordered.due_append (ordered : Ordered events) (now : Nat) :
    due now events ++ notDue now events = events := by
  induction events with
  | nil => rfl
  | cons event rest ih =>
    rcases Nat.lt_or_ge now event.when with ahead | reached
    · obtain ⟨none, all⟩ := ordered.future ahead
      rw [none, all, nil_append]
    · rw [due_cons_of_le reached, notDue_cons_of_le reached, cons_append,
        ih (pairwise_cons.mp ordered).2]

/-- What a drain does to the lists: with all messages sent the due events are
completed, else those up to the first one whose message was not sent. -/
inductive Drained (now : Nat) (sent : SimEvent → Bool) (before after : Slurmd)
    (events : List SimEvent) : Prop
  | finished : (∀ event ∈ due now events, sent event = true) →
      after.pending = notDue now events →
      after.completed = (due now events).reverse ++ before.completed →
      after.stopped = before.stopped → Drained now sent before after events
  | stopped {front back : List SimEvent} {event : SimEvent} :
      due now events = front ++ event :: back → (∀ e ∈ front, sent e = true) →
      sent event = false → after.pending = back ++ notDue now events →
      after.completed = event :: front.reverse ++ before.completed →
      after.stopped = true → Drained now sent before after events

theorem drain_drained {now : Nat} {sent : SimEvent → Bool} {slurmd : Slurmd}
    {events : List SimEvent} (ordered : Ordered events) :
    Drained now sent slurmd (drain now sent slurmd events) events := by
  induction events generalizing slurmd with
  | nil => exact .finished (by simp [due]) rfl rfl rfl
  | cons event rest ih =>
    obtain ⟨first, tail⟩ := pairwise_cons.mp ordered
    unfold drain
    split
    · rename_i reached
      split
      · rename_i delivered
        cases @ih { slurmd with
          pending := rest
          completed := event :: slurmd.completed
          totalSimEvents := slurmd.totalSimEvents - 1 } tail with
        | finished all pending completed stopped =>
          refine .finished ?_ ?_ ?_ stopped
          · rw [due_cons_of_le reached]
            intro other mem
            rcases mem_cons.mp mem with rfl | later
            · exact delivered
            · exact all other later
          · rw [notDue_cons_of_le reached]
            exact pending
          · rw [due_cons_of_le reached, reverse_cons, append_assoc]
            exact completed
        | @stopped front back other shape all failed pending completed stopped =>
          refine @Drained.stopped _ _ _ _ _ (event :: front) back other ?_ ?_ failed ?_ ?_ stopped
          · rw [due_cons_of_le reached, shape, cons_append]
          · intro e mem
            rcases mem_cons.mp mem with rfl | later
            · exact delivered
            · exact all e later
          · rw [notDue_cons_of_le reached]
            exact pending
          · rw [completed]
            simp
      · rename_i lost
        refine @Drained.stopped _ _ _ _ _ [] (due now rest) event ?_ (by simp)
          (by simpa using lost) ?_ rfl rfl
        · rw [due_cons_of_le reached, nil_append]
        · rw [notDue_cons_of_le reached]
          exact (Ordered.due_append tail now).symm
    · rename_i ahead
      obtain ⟨none, all⟩ := ordered.future (Nat.lt_of_not_le ahead)
      refine .finished ?_ all.symm ?_ rfl
      · rw [none]
        simp
      · rw [none]
        rfl

/-! ## Runs -/

/-- The list is sorted and counted, every event that was added is either pending
or completed, and nothing was completed before its time. -/
structure EventsOk (slurmd : Slurmd) : Prop where
  ordered : Ordered slurmd.pending
  counted : slurmd.totalSimEvents = slurmd.pending.length
  conserved : (slurmd.pending ++ slurmd.completed).Perm slurmd.added
  reached : ∀ event ∈ slurmd.completed, event.when ≤ slurmd.now

theorem drain_added (now : Nat) (sent : SimEvent → Bool) (slurmd : Slurmd)
    (events : List SimEvent) :
    (drain now sent slurmd events).added = slurmd.added ∧
      (drain now sent slurmd events).now = slurmd.now := by
  induction events generalizing slurmd with
  | nil => exact ⟨rfl, rfl⟩
  | cons event rest ih =>
    unfold drain
    split
    · split
      · exact ih _
      · exact ⟨rfl, rfl⟩
    · exact ⟨rfl, rfl⟩

theorem drain_counted {now : Nat} {sent : SimEvent → Bool} {slurmd : Slurmd}
    (counted : slurmd.totalSimEvents = events.length) :
    (drain now sent slurmd events).totalSimEvents =
      (drain now sent slurmd events).pending.length := by
  induction events generalizing slurmd with
  | nil => exact counted
  | cons event rest ih =>
    have fewer : slurmd.totalSimEvents - 1 = rest.length := by
      rw [counted, length_cons, Nat.add_sub_cancel]
    unfold drain
    split
    · split
      · exact ih fewer
      · exact fewer
    · exact counted

namespace Drained

variable {now : Nat} {sent : SimEvent → Bool} {before after : Slurmd} {events : List SimEvent}

theorem perm (drained : Drained now sent before after events) (ordered : Ordered events) :
    (after.pending ++ after.completed).Perm (events ++ before.completed) := by
  have whole := ordered.due_append now
  cases drained with
  | finished _ pending completed _ =>
    rw [pending, completed, ← append_assoc]
    refine List.Perm.append_right _ ?_
    conv_rhs => rw [← whole]
    exact perm_append_comm.trans ((reverse_perm _).append_right _)
  | @stopped front back event shape _ _ pending completed _ =>
    rw [pending, completed, ← append_assoc]
    refine List.Perm.append_right _ ?_
    conv_rhs => rw [← whole]
    rw [shape]
    have moved : (back ++ notDue now events ++ event :: front.reverse).Perm
        (event :: front.reverse ++ (back ++ notDue now events)) := perm_append_comm
    refine moved.trans ?_
    rw [← append_assoc]
    refine List.Perm.append_right _ ?_
    exact (((reverse_perm front).append_right back).cons event).trans perm_middle.symm

theorem completed_cases (drained : Drained now sent before after events) {event : SimEvent}
    (mem : event ∈ after.completed) : event.when ≤ now ∨ event ∈ before.completed := by
  have isDue : ∀ e ∈ due now events, e.when ≤ now := by
    intro e inDue
    simpa using (mem_filter.mp inDue).2
  cases drained with
  | finished _ _ completed _ =>
    rw [completed, mem_append, mem_reverse] at mem
    exact mem.imp_left (isDue event)
  | @stopped front back last shape _ _ _ completed _ =>
    rw [completed, mem_append] at mem
    refine mem.imp_left fun moved => isDue event ?_
    rw [shape]
    simp only [mem_cons, mem_reverse, mem_append] at moved ⊢
    tauto

theorem ordered (drained : Drained now sent before after events) (inOrder : Ordered events) :
    Ordered after.pending := by
  cases drained with
  | finished _ pending _ _ =>
    rw [pending]
    exact inOrder.sublist filter_sublist
  | @stopped front back last shape _ _ pending _ _ =>
    have suffix : (back ++ notDue now events).Sublist events := by
      conv_rhs => rw [← inOrder.due_append now, shape]
      exact ((sublist_cons_self last back).trans (sublist_append_right front _)).append_right _
    rw [pending]
    exact inOrder.sublist suffix

theorem mem_pending (drained : Drained now sent before after events) {event : SimEvent}
    (mem : event ∈ events) (ahead : now < event.when) : event ∈ after.pending := by
  have kept : event ∈ notDue now events := mem_filter.mpr ⟨mem, by simpa using ahead⟩
  cases drained with
  | finished _ pending _ _ => exact pending ▸ kept
  | stopped _ _ _ pending _ _ => exact pending ▸ mem_append_right _ kept

end Drained

theorem EventsOk.act {slurmd after : Slurmd} {now : Nat} {action : Action} (ok : EventsOk slurmd)
    (forward : slurmd.now ≤ now) (acted : act slurmd now action = some after) :
    EventsOk after := by
  unfold Simulator.act at acted
  split at acted
  · cases acted
  · cases action with
    | launch infos request =>
      obtain rfl := Option.some.inj acted
      unfold addFutureEvent
      split
      · refine ⟨insertEvent_ordered ok.ordered, ?_, ?_, ?_⟩
        · rw [(insertEvent_perm _ _).length_eq, length_cons]
          exact congrArg (· + 1) ok.counted
        · refine ((insertEvent_perm _ _).append_right _).trans ?_
          exact (ok.conserved.cons _).trans (perm_append_singleton _ _).symm
        · exact fun event mem => Nat.le_trans (ok.reached event mem) forward
      · exact ⟨ok.ordered, ok.counted, ok.conserved,
          fun event mem => Nat.le_trans (ok.reached event mem) forward⟩
    | cycle sent =>
      obtain rfl := Option.some.inj acted
      have drained : Drained now sent { slurmd with now := now }
          (helperCycle now sent slurmd) slurmd.pending := drain_drained ok.ordered
      obtain ⟨added, clock⟩ := drain_added now sent { slurmd with now := now } slurmd.pending
      refine ⟨drained.ordered ok.ordered, drain_counted ok.counted, ?_, ?_⟩
      · refine (drained.perm ok.ordered).trans ?_
        rw [helperCycle, added]
        exact ok.conserved
      · intro event mem
        rw [helperCycle, clock]
        rcases drained.completed_cases mem with isDue | old
        · exact isDue
        · exact Nat.le_trans (ok.reached event old) forward

theorem Run.eventsOk {first slurmd : Slurmd} (run : Run first slurmd) (ok : EventsOk first) :
    EventsOk slurmd := by
  induction run with
  | nil => exact ok
  | snoc _ forward acted ih => exact ih.act forward acted

/-- Actions of which every cycle is at a time before the limit. -/
inductive RunBefore (limit : Nat) : Slurmd → Slurmd → Prop
  | nil (slurmd : Slurmd) : RunBefore limit slurmd slurmd
  | snoc {first slurmd after : Slurmd} {now : Nat} {action : Action} :
      RunBefore limit first slurmd → slurmd.now ≤ now →
      (∀ sent, action = .cycle sent → now < limit) → Simulator.act slurmd now action = some after →
      RunBefore limit first after

/-- An event stays pending through all cycles before its time. -/
theorem RunBefore.mem_pending {limit : Nat} {first slurmd : Slurmd} {event : SimEvent}
    (run : RunBefore limit first slurmd) (ok : EventsOk first) (time : event.when = limit)
    (mem : event ∈ first.pending) : EventsOk slurmd ∧ event ∈ slurmd.pending := by
  induction run with
  | nil => exact ⟨ok, mem⟩
  | @snoc slurmd after now action _ forward early acted ih =>
    obtain ⟨okBefore, pending⟩ := ih
    refine ⟨okBefore.act forward acted, ?_⟩
    unfold Simulator.act at acted
    split at acted
    · cases acted
    · cases action with
      | launch infos request =>
        obtain rfl := Option.some.inj acted
        unfold addFutureEvent
        split
        · exact (insertEvent_perm _ _).mem_iff.mpr (mem_cons_of_mem _ pending)
        · exact pending
      | cycle sent =>
        obtain rfl := Option.some.inj acted
        have drained : Drained now sent { slurmd with now := now }
            (helperCycle now sent slurmd) slurmd.pending := drain_drained okBefore.ordered
        exact drained.mem_pending pending (time ▸ early sent rfl)

/-- In every state of every run the list is sorted and counted, no event is lost
or doubled, a cycle completes the events that are due (up to the first one whose
message cannot be sent, at which the helper ends), and a pending event is
completed by the first cycle at or after its time. -/
theorem run_events {now : Nat} {slurmd : Slurmd} (run : Run (initial now) slurmd) :
    EventsOk slurmd ∧
      (∀ later sent, Drained later sent slurmd (helperCycle later sent slurmd) slurmd.pending) ∧
      ∀ event ∈ slurmd.pending, ∀ waited, RunBefore event.when slurmd waited →
        event ∈ waited.pending ∧ ∀ later sent, event.when ≤ later →
            (∀ e ∈ due later waited.pending, sent e = true) →
            event ∈ (helperCycle later sent waited).completed ∧
              event ∉ (helperCycle later sent waited).pending := by
  have ok : EventsOk slurmd := by
    refine run.eventsOk ⟨List.Pairwise.nil, rfl, List.Perm.refl _, ?_⟩
    intro event inside
    cases inside
  refine ⟨ok, ?_, ?_⟩
  · intro later sent
    have drained : Drained later sent { slurmd with now := later }
        (helperCycle later sent slurmd) slurmd.pending := drain_drained ok.ordered
    cases drained with
    | finished all pending completed stopped => exact .finished all pending completed stopped
    | stopped shape all failed pending completed stopped =>
      exact .stopped shape all failed pending completed stopped
  · intro event inside waited waits
    obtain ⟨okWaited, pending⟩ := waits.mem_pending ok rfl inside
    refine ⟨pending, ?_⟩
    intro later sent reached delivered
    have drained : Drained later sent { waited with now := later }
        (helperCycle later sent waited) waited.pending := drain_drained okWaited.ordered
    have isDue : event ∈ due later waited.pending :=
      mem_filter.mpr ⟨pending, by simpa using reached⟩
    cases drained with
    | finished _ left completed _ =>
      constructor
      · rw [completed]
        exact mem_append_left _ (mem_reverse.mpr isDue)
      · rw [left]
        intro kept
        have ahead : later < event.when := by simpa using (mem_filter.mp kept).2
        exact absurd reached (Nat.not_le.mpr ahead)
    | @stopped front back last shape _ failed _ _ _ =>
      have inDue : last ∈ due later waited.pending := by
        rw [shape]
        exact mem_append_right _ mem_cons_self
      rw [delivered last inDue] at failed
      cases failed

/-- Two jobs that were launched at time 10 and end at times 15 and 12. -/
def twoLaunched : Slurmd :=
  addFutureEvent [1, 2] 10 ⟨2, 2, "node2"⟩ (addFutureEvent [1, 2] 10 ⟨1, 5, "node1"⟩ (initial 10))

theorem twoLaunched_run : Run (initial 10) twoLaunched := by
  have first : act (initial 10) 10 (.launch [1, 2] ⟨1, 5, "node1"⟩) =
      some (addFutureEvent [1, 2] 10 ⟨1, 5, "node1"⟩ (initial 10)) := rfl
  have second : act (addFutureEvent [1, 2] 10 ⟨1, 5, "node1"⟩ (initial 10)) 10
      (.launch [1, 2] ⟨2, 2, "node2"⟩) = some twoLaunched := rfl
  exact .snoc (.snoc (.nil _) (Nat.le_refl 10) first) (Nat.le_refl 10) second

theorem twoLaunched_events : Run (initial 10) twoLaunched ∧ EventsOk twoLaunched ∧
    (helperCycle 13 (fun _ => true) twoLaunched).pending = [⟨1, 15, "node1"⟩] :=
  ⟨twoLaunched_run, (run_events twoLaunched_run).1, by decide⟩

/-- When the message of the first due event is lost, the cycle at time 20 leaves
the other one pending although it is due. -/
theorem twoLaunched_lost_message :
    Run (initial 10) twoLaunched ∧
      due 20 twoLaunched.pending = [⟨2, 12, "node2"⟩, ⟨1, 15, "node1"⟩] ∧
      (helperCycle 20 (fun _ => false) twoLaunched).pending = [⟨1, 15, "node1"⟩] ∧
      (helperCycle 20 (fun _ => false) twoLaunched).completed = [⟨2, 12, "node2"⟩] :=
  ⟨twoLaunched_run, by decide, by decide, by decide⟩

end SlurmSim.Simulator
