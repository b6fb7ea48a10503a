import Mathlib.Tactic.SplitIfs
import SlurmSim.Lib.Semaphore

/-!
# The threads of a simulated cycle

The handler of a cycle message lets the backfill agent and the decay thread of
the priority plugin work and waits for each of them. The threads meet at four
semaphores, which every file opens by the names it defines. A message is served
by a thread of its own, so that several handlers can be at work.

Every token carries the worker and the number of the request it belongs to.
-/

namespace SlurmSim.Simulator

open SlurmSim.Lib List
open Option (map_eq_some_iff some.inj)

/-! ## Semaphores -/

namespace ProcReq

def bfSemName : String := "bf_sem"
def bfDoneSemName : String := "bf_done_sem"
def mfSemName : String := "mf_sem"
def mfDoneSemName : String := "bf_done_sem"

end ProcReq

namespace BackfillPlugin

def bfSemName : String := "bf_sem"
def bfDoneSemName : String := "bf_done_sem"

end BackfillPlugin

namespace PriorityPlugin

def mfSemName : String := "mf_sem"
def mfDoneSemName : String := "mf_done_sem"

end PriorityPlugin

inductive Worker where
  | backfill
  | decay
  deriving DecidableEq

/-- A request to a worker, or its completion. The recalculation at the start of
the decay thread has the number 0. -/
structure Token where
  worker : Worker
  number : Nat
  deriving DecidableEq

/-! ## Threads -/

/-- `_slurm_rpc_sim_helper_cycle` behind the waits for the counters, with the
time it has read. -/
inductive HandlerPc where
  | idle
  | cycle (now : Int)
  | waitMf (now : Int) (number : Nat)
  | scheduled (now : Int)
  | waitBf (now : Int) (number : Nat)
  deriving DecidableEq

/-- `backfill_agent`, with the request it has taken. -/
inductive AgentPc where
  | notStarted
  | loopHead
  | waiting
  | woken (number : Nat)
  | admitted (number : Nat)
  | working (number : Nat)
  | posting (number : Nat)
  | ended
  deriving DecidableEq

/-- `_decay_thread`. -/
inductive DecayPc where
  | notStarted
  | settingUp
  | opening
  | recalculating (number : Nat)
  | posting (number : Nat)
  | waiting
  | ended
  deriving DecidableEq

/-- `init` of the priority plugin. -/
inductive InitPc where
  | before
  | waitCond
  | eating
  | done
  deriving DecidableEq

/-- The accounting that `init` of the priority plugin finds. -/
inductive Accounting where
  | unsupported
  | associations
  | noAssociations
  deriving DecidableEq

/-- A return of `do_backfill` or `unlock_mf_decay_th`: the request it had posted
and the token it took. -/
structure Return where
  request : Token
  token : Token
  deriving DecidableEq

/-- The threads and what they share. `requests` counts the requests of a worker,
`finished` has the requests whose work is done and `returns` the calls that have
returned. -/
structure CycleState where
  handlers : Nat → HandlerPc
  agent : AgentPc
  decay : DecayPc
  init : InitPc
  sems : Semaphores String Token
  mfOpened : Bool
  crashed : Bool
  schedulingDisabled : Bool
  stopBackfill : Bool
  multifactorInterval : Nat
  backfillInterval : Int
  lastMultifactor : Int
  lastBackfill : Int
  requests : Worker → Nat
  finished : List Token
  returns : List Return

namespace CycleState

/-- The controller before its plugins are loaded. -/
def start (schedulingDisabled : Bool) (backfillInterval : Int) : CycleState where
  handlers := fun _ => .idle
  agent := .notStarted
  decay := .notStarted
  init := .before
  sems := fun _ => []
  mfOpened := false
  crashed := false
  schedulingDisabled := schedulingDisabled
  stopBackfill := false
  multifactorInterval := 300
  backfillInterval := backfillInterval
  lastMultifactor := 0
  lastBackfill := 0
  requests := fun _ => 0
  finished := []
  returns := []

def setHandler (s : CycleState) (i : Nat) (pc : HandlerPc) : CycleState :=
  { s with handlers := Function.update s.handlers i pc }

/-- A handler posts its next request to a worker and waits. -/
def request (s : CycleState) (i : Nat) (worker : Worker) (name : String)
    (pc : Nat → HandlerPc) : CycleState :=
  let number := s.requests worker + 1
  { s with
    requests := Function.update s.requests worker number
    sems := s.sems.post name ⟨worker, number⟩
    handlers := Function.update s.handlers i (pc number) }

theorem setHandler_self (s : CycleState) (i : Nat) (pc : HandlerPc) :
    (s.setHandler i pc).handlers i = pc := by
  simp [setHandler]

theorem setHandler_of_ne (s : CycleState) {i j : Nat} (pc : HandlerPc) (ne : j ≠ i) :
    (s.setHandler i pc).handlers j = s.handlers j := by
  simp [setHandler, ne]

theorem request_self (s : CycleState) (i : Nat) (worker : Worker) (name : String)
    (pc : Nat → HandlerPc) :
    (s.request i worker name pc).handlers i = pc (s.requests worker + 1) := by
  simp [request]

theorem request_of_ne (s : CycleState) {i j : Nat} (worker : Worker) (name : String)
    (pc : Nat → HandlerPc) (ne : j ≠ i) :
    (s.request i worker name pc).handlers j = s.handlers j := by
  simp [request, ne]

/-- The tests of the handler for the two workers. -/
def MultifactorDue (s : CycleState) (now : Int) : Prop :=
  s.multifactorInterval ≠ 0 ∧ (s.multifactorInterval : Int) < now - s.lastMultifactor

def BackfillDue (s : CycleState) (now : Int) : Prop :=
  s.lastBackfill = 0 ∨ s.backfillInterval < now - s.lastBackfill

instance (s : CycleState) (now : Int) : Decidable (s.MultifactorDue now) :=
  inferInstanceAs (Decidable (_ ∧ _))

instance (s : CycleState) (now : Int) : Decidable (s.BackfillDue now) :=
  inferInstanceAs (Decidable (_ ∨ _))

end CycleState

/-! ## Steps -/

inductive InitAction where
  | start (calcPeriod : Nat) (accounting : Accounting)
  | eat

inductive DecayAction where
  | signal
  | openSems
  | finish
  | fail
  | post
  | wake

inductive AgentAction where
  | start
  | loop
  | wake
  | testStop
  | testDisabled
  | finish
  | post

inductive HandlerAction where
  | enter (now : Int)
  | multifactor
  | mfReturn
  | backfill
  | bfReturn

/-- What a thread does next, and the flags that other parts of the controller set. -/
inductive CycleAction where
  | init (action : InitAction)
  | decay (action : DecayAction)
  | agent (action : AgentAction)
  | handler (i : Nat) (action : HandlerAction)
  | setDisabled (schedulingDisabled : Bool)
  | setStop

/-- `init` of the priority plugin. It waits for the first completion of the decay
thread through a pointer that this thread sets after its signal. -/
def initStep (s : CycleState) : InitAction → Option CycleState
  | .start calcPeriod accounting =>
    match s.init, accounting with
    | .before, .unsupported => some { s with multifactorInterval := 0, init := .done }
    | .before, .associations =>
      some { s with multifactorInterval := calcPeriod, decay := .settingUp, init := .waitCond }
    | .before, .noAssociations => some { s with multifactorInterval := calcPeriod, init := .done }
    | _, _ => none
  | .eat =>
    if s.init = .eating then
      if s.mfOpened then
        (s.sems.wait PriorityPlugin.mfDoneSemName).map fun taken =>
          { s with sems := taken.2, init := .done }
      else some { s with crashed := true }
    else none

/-- `_decay_thread`. The thread ends when the decay cannot be applied. -/
def decayStep (s : CycleState) : DecayAction → Option CycleState
  | .signal =>
    if s.decay = .settingUp then some { s with decay := .opening, init := .eating } else none
  | .openSems =>
    if s.decay = .opening then some { s with decay := .recalculating 0, mfOpened := true }
    else none
  | .finish =>
    match s.decay with
    | .recalculating number =>
      some { s with decay := .posting number, finished := ⟨.decay, number⟩ :: s.finished }
    | _ => none
  | .fail =>
    match s.decay with
    | .recalculating _ => some { s with decay := .ended }
    | _ => none
  | .post =>
    match s.decay with
    | .posting number =>
      some { s with
        decay := .waiting
        sems := s.sems.post PriorityPlugin.mfDoneSemName ⟨.decay, number⟩ }
    | _ => none
  | .wake =>
    if s.decay = .waiting then
      (s.sems.wait PriorityPlugin.mfSemName).map fun taken =>
        { s with sems := taken.2, decay := .recalculating taken.1.number }
    else none

/-- `init` of the backfill plugin and `backfill_agent`. -/
def agentStep (s : CycleState) : AgentAction → Option CycleState
  | .start =>
    if s.agent = .notStarted ∧ s.schedulingDisabled = false then
      some { s with agent := .loopHead }
    else none
  | .loop =>
    if s.agent = .loopHead then
      some { s with agent := if s.stopBackfill then .ended else .waiting }
    else none
  | .wake =>
    if s.agent = .waiting then
      (s.sems.wait BackfillPlugin.bfSemName).map fun taken =>
        { s with sems := taken.2, agent := .woken taken.1.number }
    else none
  | .testStop =>
    match s.agent with
    | .woken number => some { s with agent := if s.stopBackfill then .ended else .admitted number }
    | _ => none
  | .testDisabled =>
    match s.agent with
    | .admitted number =>
      some { s with agent := if s.schedulingDisabled then .loopHead else .working number }
    | _ => none
  | .finish =>
    match s.agent with
    | .working number =>
      some { s with agent := .posting number, finished := ⟨.backfill, number⟩ :: s.finished }
    | _ => none
  | .post =>
    match s.agent with
    | .posting number =>
      some { s with
        agent := .loopHead
        sems := s.sems.post BackfillPlugin.bfDoneSemName ⟨.backfill, number⟩ }
    | _ => none

/-- The handlers. They are started by the RPC manager, which is created after the
priority plugin is loaded. -/
def handlerStep (s : CycleState) (i : Nat) : HandlerAction → Option CycleState
  | .enter now =>
    if s.init = .done ∧ s.handlers i = .idle then some (s.setHandler i (.cycle now)) else none
  | .multifactor =>
    match s.handlers i with
    | .cycle now =>
      if s.MultifactorDue now then
        some (s.request i .decay ProcReq.mfSemName (.waitMf now))
      else some (s.setHandler i (.scheduled now))
    | _ => none
  | .mfReturn =>
    match s.handlers i with
    | .waitMf now number =>
      (s.sems.wait ProcReq.mfDoneSemName).map fun taken =>
        { s.setHandler i (.scheduled now) with
          sems := taken.2
          lastMultifactor := now
          returns := ⟨⟨.decay, number⟩, taken.1⟩ :: s.returns }
    | _ => none
  | .backfill =>
    match s.handlers i with
    | .scheduled now =>
      if s.BackfillDue now then
        some (s.request i .backfill ProcReq.bfSemName (.waitBf now))
      else some (s.setHandler i .idle)
    | _ => none
  | .bfReturn =>
    match s.handlers i with
    | .waitBf now number =>
      (s.sems.wait ProcReq.bfDoneSemName).map fun taken =>
        { s.setHandler i .idle with
          sems := taken.2
          lastBackfill := now
          returns := ⟨⟨.backfill, number⟩, taken.1⟩ :: s.returns }
    | _ => none

/-- One step of one thread. -/
def cycleStep (s : CycleState) (action : CycleAction) : Option CycleState :=
  if s.crashed then none
  else
    match action with
    | .init action => initStep s action
    | .decay action => decayStep s action
    | .agent action => agentStep s action
    | .handler i action => handlerStep s i action
    | .setDisabled schedulingDisabled =>
      some { s with schedulingDisabled := schedulingDisabled }
    | .setStop => some { s with stopBackfill := true }

/-- A run is a list of steps in any order in which the threads can take them. -/
def cycleRun (s : CycleState) : List CycleAction → Option CycleState
  | [] => some s
  | action :: rest => (cycleStep s action).bind fun after => cycleRun after rest

/-! ## What the protocol should keep -/

/-- A handler is blocked in the wait for a worker that is itself blocked in the
wait for its next request. -/
def CycleState.Stuck (s : CycleState) : Worker → Prop
  | .backfill =>
    (∃ i now number, s.handlers i = .waitBf now number) ∧ s.sems ProcReq.bfDoneSemName = [] ∧
      s.agent = .waiting ∧ s.sems BackfillPlugin.bfSemName = []
  | .decay =>
    (∃ i now number, s.handlers i = .waitMf now number) ∧ s.sems ProcReq.mfDoneSemName = [] ∧
      s.decay = .waiting ∧ s.sems PriorityPlugin.mfSemName = []

/-- A call returns only when the work of its own request is done and by a token
of the worker it waited for, and nobody is stuck. -/
structure CycleState.InStep (s : CycleState) : Prop where
  served : ∀ r ∈ s.returns, r.request ∈ s.finished
  own : ∀ r ∈ s.returns, r.token.worker = r.request.worker
  live : ∀ worker, ¬ s.Stuck worker

/-! ## Runs without the slips

The handler releases the decay thread but waits for a completion of the backfill
agent, and the agent drops a request when scheduling is disabled. -/

/-- A handler is inside `do_backfill`. -/
def CycleState.Waits (s : CycleState) (i number : Nat) : Prop :=
  ∃ now, s.handlers i = .waitBf now number

/-- The decay thread is not due, `do_backfill` is not called while another
handler is inside it, and the agent that has taken a request finds scheduling
enabled. -/
def Proper (s : CycleState) : CycleAction → Prop
  | .handler i .multifactor => ∀ now, s.handlers i = .cycle now → ¬ s.MultifactorDue now
  | .handler i .backfill => ∀ now, s.handlers i = .scheduled now → s.BackfillDue now →
      ∀ j number, ¬ s.Waits j number
  | .agent .testDisabled => s.schedulingDisabled = false
  | _ => True

/-- Every step of a run is proper in the state it is taken in. -/
def ProperRun (s : CycleState) : List CycleAction → Prop
  | [] => True
  | action :: rest =>
    Proper s action ∧ ∀ after, cycleStep s action = some after → ProperRun after rest

theorem ProperRun.cons {s after : CycleState} {action : CycleAction} {rest : List CycleAction}
    (proper : Proper s action) (step : cycleStep s action = some after)
    (tail : ProperRun after rest) : ProperRun s (action :: rest) := by
  refine ⟨proper, ?_⟩
  intro other same
  obtain rfl := some.inj (step.symm.trans same)
  exact tail

/-! ## The way of a backfill request -/

/-- The request that the agent has in hand. -/
def AgentPc.holds : AgentPc → List Nat
  | .woken number => [number]
  | .admitted number => [number]
  | .working number => [number]
  | .posting number => [number]
  | _ => []

/-- The numbers of the requests on their way, the oldest one first: completed, in
hand and not yet taken. -/
def CycleState.inFlight (s : CycleState) : List Nat :=
  (s.sems "bf_done_sem").map Token.number ++ s.agent.holds ++ (s.sems "bf_sem").map Token.number

/-- Nothing is on its way when nobody waits. A handler that waits does so alone
and for the one request on its way, unless the agent has ended with it. -/
def CycleState.Pipe (s : CycleState) : Prop :=
  ((∀ i number, ¬ s.Waits i number) ∧ s.inFlight = []) ∨
    ∃ i number, s.Waits i number ∧ (∀ j other, s.Waits j other → j = i) ∧
      (s.inFlight = [number] ∨ s.inFlight = [] ∧ s.agent = .ended)

/-- What proper runs keep. -/
structure CycleState.Tidy (s : CycleState) : Prop where
  noMf : ∀ i now number, s.handlers i ≠ .waitMf now number
  pipe : s.Pipe
  done : ∀ token ∈ s.sems "bf_done_sem", token.worker = .backfill ∧ token ∈ s.finished
  posting : ∀ number, s.agent = .posting number → ⟨.backfill, number⟩ ∈ s.finished
  served : ∀ r ∈ s.returns, r.request ∈ s.finished
  own : ∀ r ∈ s.returns, r.token.worker = r.request.worker

namespace CycleState

variable {s after : CycleState}

theorem Pipe.same (pipe : s.Pipe) (handlers : after.handlers = s.handlers)
    (flight : after.inFlight = s.inFlight) (ended : s.agent = .ended → after.agent = .ended) :
    after.Pipe := by
  have waits : ∀ i number, after.Waits i number ↔ s.Waits i number := by
    intro i number
    rw [Waits, Waits, handlers]
  rcases pipe with ⟨free, empty⟩ | ⟨i, number, waiting, alone, request⟩
  · exact .inl ⟨fun i number mem => free i number ((waits i number).mp mem),
      flight.trans empty⟩
  · refine .inr ⟨i, number, (waits i number).mpr waiting, ?_, ?_⟩
    · intro j other mem
      exact alone j other ((waits j other).mp mem)
    · rw [flight]
      exact request.imp_right fun lost => ⟨lost.1, ended lost.2⟩

theorem Tidy.same (tidy : s.Tidy) (handlers : after.handlers = s.handlers)
    (agent : after.agent = s.agent) (requests : after.sems "bf_sem" = s.sems "bf_sem")
    (done : after.sems "bf_done_sem" = s.sems "bf_done_sem") (returns : after.returns = s.returns)
    (finished : ∀ token ∈ s.finished, token ∈ after.finished) : after.Tidy where
  noMf := by
    rw [handlers]
    exact tidy.noMf
  pipe := by
    refine tidy.pipe.same handlers ?_ ?_
    · rw [inFlight, inFlight, agent, requests, done]
    · rw [agent]
      exact id
  done := by
    rw [done]
    intro token mem
    exact ⟨(tidy.done token mem).1, finished token (tidy.done token mem).2⟩
  posting := by
    rw [agent]
    intro number posting
    exact finished _ (tidy.posting number posting)
  served := by
    rw [returns]
    intro r mem
    exact finished _ (tidy.served r mem)
  own := by
    rw [returns]
    exact tidy.own

theorem Tidy.passOn (tidy : s.Tidy) (handlers : after.handlers = s.handlers)
    (flight : after.inFlight = s.inFlight) (busy : s.agent ≠ .ended)
    (returns : after.returns = s.returns) (finished : ∀ token ∈ s.finished, token ∈ after.finished)
    (done : ∀ token ∈ after.sems "bf_done_sem", token.worker = .backfill ∧ token ∈ after.finished)
    (posting : ∀ number, after.agent = .posting number → ⟨.backfill, number⟩ ∈ after.finished) :
    after.Tidy where
  noMf := by
    rw [handlers]
    exact tidy.noMf
  pipe := tidy.pipe.same handlers flight fun ended => absurd ended busy
  done := done
  posting := posting
  served := by
    rw [returns]
    intro r mem
    exact finished _ (tidy.served r mem)
  own := by
    rw [returns]
    exact tidy.own

theorem inFlight_hand {number other : Nat} (hand : s.agent.holds = [number])
    (single : s.inFlight = [other]) : s.sems "bf_done_sem" = [] ∧ s.sems "bf_sem" = [] := by
  have size := congrArg List.length single
  simp only [inFlight, hand, length_append, length_cons, length_nil, length_map] at size
  constructor
  · rw [← length_eq_zero_iff]
    omega
  · rw [← length_eq_zero_iff]
    omega

theorem Pipe.ends (pipe : s.Pipe) {number : Nat} (hand : s.agent = .woken number) :
    { s with agent := .ended }.Pipe := by
  have holds : s.agent.holds = [number] := by
    rw [hand]
    rfl
  rcases pipe with ⟨_, empty⟩ | ⟨i, other, waiting, alone, single | ⟨_, ended⟩⟩
  · exact absurd empty (by simp [inFlight, holds])
  · obtain ⟨done, requests⟩ := inFlight_hand holds single
    refine .inr ⟨i, other, waiting, alone, .inr ⟨?_, rfl⟩⟩
    rw [inFlight, done, requests]
    rfl
  · rw [hand] at ended
    exact absurd ended (by simp)

theorem Tidy.initStep (tidy : s.Tidy) {action : InitAction}
    (step : initStep s action = some after) : after.Tidy := by
  cases action with
  | start calcPeriod accounting =>
    simp only [Simulator.initStep] at step
    split at step
    all_goals first
      | (obtain rfl := some.inj step
         exact tidy.same rfl rfl rfl rfl rfl fun _ mem => mem)
      | exact absurd step (by simp)
  | eat =>
    simp only [Simulator.initStep] at step
    split_ifs at step with eating opened
    · obtain ⟨⟨token, sems⟩, taken, rfl⟩ := map_eq_some_iff.mp step
      obtain ⟨_, others⟩ := Semaphores.wait_eq_some taken
      exact tidy.same rfl rfl (others _ (by decide)) (others _ (by decide)) rfl
        fun _ mem => mem
    · obtain rfl := some.inj step
      exact tidy.same rfl rfl rfl rfl rfl fun _ mem => mem

theorem Tidy.decayStep (tidy : s.Tidy) {action : DecayAction}
    (step : decayStep s action = some after) : after.Tidy := by
  cases action with
  | signal =>
    simp only [Simulator.decayStep] at step
    split_ifs at step
    obtain rfl := some.inj step
    exact tidy.same rfl rfl rfl rfl rfl fun _ mem => mem
  | openSems =>
    simp only [Simulator.decayStep] at step
    split_ifs at step
    obtain rfl := some.inj step
    exact tidy.same rfl rfl rfl rfl rfl fun _ mem => mem
  | finish =>
    simp only [Simulator.decayStep] at step
    split at step
    · obtain rfl := some.inj step
      exact tidy.same rfl rfl rfl rfl rfl fun _ mem => mem_cons_of_mem _ mem
    · exact absurd step (by simp)
  | fail =>
    simp only [Simulator.decayStep] at step
    split at step
    · obtain rfl := some.inj step
      exact tidy.same rfl rfl rfl rfl rfl fun _ mem => mem
    · exact absurd step (by simp)
  | post =>
    simp only [Simulator.decayStep] at step
    split at step
    · rename_i number _
      obtain rfl := some.inj step
      have others : ∀ name, name ≠ "mf_done_sem" →
          s.sems.post "mf_done_sem" ⟨.decay, number⟩ name = s.sems name :=
        fun _ ne => Semaphores.post_of_ne ne
      exact tidy.same rfl rfl (others "bf_sem" (by decide)) (others "bf_done_sem" (by decide)) rfl
        fun _ mem => mem
    · exact absurd step (by simp)
  | wake =>
    simp only [Simulator.decayStep] at step
    split_ifs at step
    obtain ⟨⟨token, sems⟩, taken, rfl⟩ := map_eq_some_iff.mp step
    obtain ⟨_, others⟩ := Semaphores.wait_eq_some taken
    exact tidy.same rfl rfl (others _ (by decide)) (others _ (by decide)) rfl fun _ mem => mem

theorem Tidy.moveAgent (tidy : s.Tidy) (pc : AgentPc) (holds : pc.holds = s.agent.holds)
    (busy : s.agent ≠ .ended) (notPosting : ∀ number, pc ≠ .posting number) :
    { s with agent := pc }.Tidy := by
  refine tidy.passOn rfl ?_ busy rfl (fun _ mem => mem) tidy.done ?_
  · rw [inFlight, inFlight, holds]
  · intro number posting
    exact absurd posting (notPosting number)

theorem Tidy.agentStep (tidy : s.Tidy) {action : AgentAction} (proper : Proper s (.agent action))
    (step : agentStep s action = some after) : after.Tidy := by
  cases action with
  | start =>
    simp only [Simulator.agentStep] at step
    split_ifs at step with off
    obtain rfl := some.inj step
    exact tidy.moveAgent .loopHead (by rw [off.1]; rfl) (by simp [off.1]) (by simp)
  | loop =>
    simp only [Simulator.agentStep] at step
    split_ifs at step with head stop
    · obtain rfl := some.inj step
      exact tidy.moveAgent .ended (by rw [head]; rfl) (by simp [head]) (by simp)
    · obtain rfl := some.inj step
      exact tidy.moveAgent .waiting (by rw [head]; rfl) (by simp [head]) (by simp)
  | wake =>
    simp only [Simulator.agentStep] at step
    split_ifs at step with waiting
    obtain ⟨⟨token, sems⟩, taken, rfl⟩ := map_eq_some_iff.mp step
    obtain ⟨first, others⟩ := Semaphores.wait_eq_some taken
    have done : sems "bf_done_sem" = s.sems "bf_done_sem" := others _ (by decide)
    refine tidy.passOn rfl ?_ (by simp [waiting]) rfl (fun _ mem => mem) ?_ (by simp)
    · rw [BackfillPlugin.bfSemName] at first
      simp [inFlight, done, waiting, AgentPc.holds, first]
    · intro other mem
      exact tidy.done other (done ▸ mem)
  | testStop =>
    simp only [Simulator.agentStep] at step
    split at step
    · rename_i number hand
      split_ifs at step with stop
      · obtain rfl := some.inj step
        exact ⟨tidy.noMf, tidy.pipe.ends hand, tidy.done, by simp, tidy.served, tidy.own⟩
      · obtain rfl := some.inj step
        exact tidy.moveAgent (.admitted number) (by rw [hand]; rfl) (by simp [hand]) (by simp)
    · exact absurd step (by simp)
  | testDisabled =>
    simp only [Simulator.agentStep] at step
    split at step
    · rename_i number hand
      have enabled : s.schedulingDisabled = false := proper
      rw [if_neg (by simp [enabled])] at step
      obtain rfl := some.inj step
      exact tidy.moveAgent (.working number) (by rw [hand]; rfl) (by simp [hand]) (by simp)
    · exact absurd step (by simp)
  | finish =>
    simp only [Simulator.agentStep] at step
    split at step
    · rename_i number hand
      obtain rfl := some.inj step
      refine tidy.passOn rfl ?_ (by simp [hand]) rfl
        (fun _ mem => mem_cons_of_mem _ mem) ?_ ?_
      · simp only [inFlight, hand, AgentPc.holds]
      · intro token mem
        exact ⟨(tidy.done token mem).1, mem_cons_of_mem _ (tidy.done token mem).2⟩
      · intro other posting
        obtain rfl := AgentPc.posting.inj posting
        exact mem_cons_self
    · exact absurd step (by simp)
  | post =>
    simp only [Simulator.agentStep] at step
    split at step
    · rename_i number hand
      obtain rfl := some.inj step
      have requests : s.sems.post "bf_done_sem" ⟨.backfill, number⟩ "bf_sem" = s.sems "bf_sem" :=
        Semaphores.post_of_ne (by decide)
      refine tidy.passOn rfl ?_ (by simp [hand]) rfl (fun _ mem => mem) ?_ (by simp)
      · simp [inFlight, hand, AgentPc.holds, BackfillPlugin.bfDoneSemName, requests]
      · intro token mem
        have posted : token ∈ s.sems "bf_done_sem" ++ [⟨.backfill, number⟩] :=
          @Semaphores.post_self String Token _ s.sems "bf_done_sem" ⟨.backfill, number⟩ ▸ mem
        rcases mem_append.mp posted with before | new
        · exact tidy.done token before
        · obtain rfl := mem_singleton.mp new
          exact ⟨rfl, tidy.posting number hand⟩
    · exact absurd step (by simp)

variable {i : Nat}

theorem Tidy.setHandler (tidy : s.Tidy) (pc : HandlerPc)
    (outside : ∀ now number, s.handlers i ≠ .waitBf now number)
    (noBf : ∀ now number, pc ≠ .waitBf now number) (noMf : ∀ now number, pc ≠ .waitMf now number) :
    (s.setHandler i pc).Tidy := by
  have waits : ∀ j number, (s.setHandler i pc).Waits j number ↔ s.Waits j number := by
    intro j number
    by_cases same : j = i
    · subst same
      constructor
      · rintro ⟨now, mem⟩
        rw [setHandler_self] at mem
        exact absurd mem (noBf now number)
      · rintro ⟨now, mem⟩
        exact absurd mem (outside now number)
    · rw [Waits, Waits, setHandler_of_ne s pc same]
  refine ⟨?_, ?_, tidy.done, tidy.posting, tidy.served, tidy.own⟩
  · intro j now number
    by_cases same : j = i
    · subst same
      rw [setHandler_self]
      exact noMf now number
    · rw [setHandler_of_ne s pc same]
      exact tidy.noMf j now number
  · rcases tidy.pipe with ⟨free, empty⟩ | ⟨j, number, waiting, alone, request⟩
    · exact .inl ⟨fun j number mem => free j number ((waits j number).mp mem), empty⟩
    · exact .inr ⟨j, number, (waits j number).mpr waiting,
        fun k other mem => alone k other ((waits k other).mp mem), request⟩

/-- `do_backfill` posts its request when nothing else is on its way. -/
theorem Tidy.requestBackfill (tidy : s.Tidy) {now : Int} (free : ∀ j number, ¬ s.Waits j number) :
    (s.request i .backfill ProcReq.bfSemName (.waitBf now)).Tidy := by
  have empty : s.inFlight = [] := by
    rcases tidy.pipe with ⟨_, empty⟩ | ⟨j, number, waiting, _⟩
    · exact empty
    · exact absurd waiting (free j number)
  have done : ∀ token, s.sems.post "bf_sem" token "bf_done_sem" = s.sems "bf_done_sem" :=
    fun _ => Semaphores.post_of_ne (by decide)
  refine ⟨?_, .inr ⟨i, s.requests .backfill + 1, ⟨now, request_self s i _ _ _⟩, ?_, .inl ?_⟩,
    ?_, tidy.posting, tidy.served, tidy.own⟩
  · intro j now' number
    by_cases same : j = i
    · subst same
      rw [request_self]
      exact HandlerPc.noConfusion
    · rw [request_of_ne s _ _ _ same]
      exact tidy.noMf j now' number
  · rintro j other ⟨now', mem⟩
    by_contra same
    rw [request_of_ne s _ _ _ same] at mem
    exact free j other ⟨now', mem⟩
  · simp only [inFlight, append_eq_nil_iff, map_eq_nil_iff] at empty
    simp [inFlight, request, ProcReq.bfSemName, done, empty]
  · intro token mem
    exact tidy.done token (done ⟨.backfill, s.requests .backfill + 1⟩ ▸ mem)

/-- `do_backfill` returns by the completion of its own request. -/
theorem Tidy.returnBackfill (tidy : s.Tidy) {number : Nat} {now : Int} {token : Token}
    {sems : Semaphores String Token} (mem : s.handlers i = .waitBf now number)
    (taken : s.sems.wait ProcReq.bfDoneSemName = some (token, sems)) :
    CycleState.Tidy { s.setHandler i .idle with
      sems := sems
      lastBackfill := now
      returns := ⟨⟨.backfill, number⟩, token⟩ :: s.returns } := by
  obtain ⟨first, others⟩ := Semaphores.wait_eq_some taken
  rw [ProcReq.bfDoneSemName] at first others
  have requests : sems "bf_sem" = s.sems "bf_sem" := others _ (by decide)
  obtain ⟨worker, finished⟩ := tidy.done token (first ▸ mem_cons_self)
  have flight : s.inFlight = token.number :: ((sems "bf_done_sem").map Token.number ++
      s.agent.holds ++ (sems "bf_sem").map Token.number) := by
    rw [inFlight, first, requests]
    rfl
  obtain ⟨alone, own, rest⟩ : (∀ j other, s.Waits j other → j = i) ∧ token.number = number ∧
      (sems "bf_done_sem").map Token.number ++ s.agent.holds ++
        (sems "bf_sem").map Token.number = [] := by
    rcases tidy.pipe with ⟨free, _⟩ | ⟨j, waited, ⟨now', waiting⟩, alone, request⟩
    · exact absurd ⟨now, mem⟩ (free i number)
    · obtain rfl := alone i number ⟨now, mem⟩
      rw [mem] at waiting
      obtain ⟨_, rfl⟩ := HandlerPc.waitBf.inj waiting
      rcases request with single | ⟨none, _⟩
      · rw [flight] at single
        exact ⟨alone, List.cons.inj single⟩
      · rw [flight] at none
        exact absurd none (by simp)
  have request : token = ⟨.backfill, number⟩ := by
    cases token
    simp only at worker own
    rw [worker, own]
  have idle : ∀ j other, ¬ (s.setHandler i .idle).Waits j other := by
    rintro j other ⟨now', waiting⟩
    by_cases same : j = i
    · rw [same, setHandler_self] at waiting
      exact HandlerPc.noConfusion waiting
    · rw [setHandler_of_ne s _ same] at waiting
      exact same (alone j other ⟨now', waiting⟩)
  refine ⟨?_, .inl ⟨idle, rest⟩, ?_, tidy.posting, ?_, ?_⟩
  · intro j now' other
    by_cases same : j = i
    · rw [same, setHandler_self]
      exact HandlerPc.noConfusion
    · rw [setHandler_of_ne s _ same]
      exact tidy.noMf j now' other
  · intro other old
    exact tidy.done other (first ▸ mem_cons_of_mem _ old)
  · intro r member
    rcases mem_cons.mp member with rfl | old
    · exact request ▸ finished
    · exact tidy.served r old
  · intro r member
    rcases mem_cons.mp member with rfl | old
    · exact worker
    · exact tidy.own r old

theorem Tidy.handlerStep (tidy : s.Tidy) {action : HandlerAction}
    (proper : Proper s (.handler i action)) (step : handlerStep s i action = some after) :
    after.Tidy := by
  cases action with
  | enter now =>
    simp only [Simulator.handlerStep] at step
    split_ifs at step with free
    obtain rfl := some.inj step
    exact tidy.setHandler (.cycle now) (by simp [free.2]) (by simp) (by simp)
  | multifactor =>
    simp only [Simulator.handlerStep] at step
    split at step
    · rename_i now mem
      rw [if_neg (proper now mem)] at step
      obtain rfl := some.inj step
      exact tidy.setHandler (.scheduled now) (by simp [mem]) (by simp) (by simp)
    · exact absurd step (by simp)
  | mfReturn =>
    simp only [Simulator.handlerStep] at step
    split at step
    · rename_i now number mem
      exact absurd mem (tidy.noMf i now number)
    · exact absurd step (by simp)
  | backfill =>
    simp only [Simulator.handlerStep] at step
    split at step
    · rename_i now mem
      split_ifs at step with due
      · obtain rfl := some.inj step
        exact tidy.requestBackfill (proper now mem due)
      · obtain rfl := some.inj step
        exact tidy.setHandler .idle (by simp [mem]) (by simp) (by simp)
    · exact absurd step (by simp)
  | bfReturn =>
    simp only [Simulator.handlerStep] at step
    split at step
    · rename_i now number mem
      obtain ⟨⟨token, sems⟩, taken, rfl⟩ := map_eq_some_iff.mp step
      exact tidy.returnBackfill mem taken
    · exact absurd step (by simp)

theorem Tidy.cycleStep (tidy : s.Tidy) {action : CycleAction} (proper : Proper s action)
    (step : cycleStep s action = some after) : after.Tidy := by
  unfold Simulator.cycleStep at step
  split_ifs at step
  cases action with
  | init action => exact tidy.initStep step
  | decay action => exact tidy.decayStep step
  | agent action => exact tidy.agentStep proper step
  | handler i action => exact tidy.handlerStep proper step
  | setDisabled schedulingDisabled =>
    obtain rfl := some.inj step
    exact tidy.same rfl rfl rfl rfl rfl fun _ mem => mem
  | setStop =>
    obtain rfl := some.inj step
    exact tidy.same rfl rfl rfl rfl rfl fun _ mem => mem

theorem Tidy.cycleRun (tidy : s.Tidy) {actions : List CycleAction} (proper : ProperRun s actions)
    (run : cycleRun s actions = some after) : after.Tidy := by
  induction actions generalizing s with
  | nil =>
    obtain rfl := some.inj run
    exact tidy
  | cons action rest ih =>
    obtain ⟨middle, step, run⟩ := Option.bind_eq_some_iff.mp run
    exact ih (tidy.cycleStep proper.1 step) (proper.2 middle step) run

theorem start_tidy (schedulingDisabled : Bool) (backfillInterval : Int) :
    (start schedulingDisabled backfillInterval).Tidy where
  noMf := by simp [start]
  pipe := .inl ⟨by simp [start, Waits], rfl⟩
  done := by simp [start]
  posting := by simp [start]
  served := by simp [start]
  own := by simp [start]

theorem Tidy.inStep (tidy : s.Tidy) : s.InStep where
  served := tidy.served
  own := tidy.own
  live := by
    intro worker stuck
    cases worker with
    | backfill =>
      obtain ⟨⟨i, now, number, mem⟩, done, waiting, requests⟩ := stuck
      rw [ProcReq.bfDoneSemName] at done
      rw [BackfillPlugin.bfSemName] at requests
      have empty : s.inFlight = [] := by
        rw [inFlight, done, waiting, requests]
        rfl
      rcases tidy.pipe with ⟨free, _⟩ | ⟨j, other, _, _, single | ⟨_, ended⟩⟩
      · exact free i number ⟨now, mem⟩
      · rw [empty] at single
        exact absurd single (by simp)
      · rw [waiting] at ended
        exact absurd ended (by simp)
    | decay =>
      obtain ⟨⟨i, now, number, mem⟩, _⟩ := stuck
      exact tidy.noMf i now number mem

end CycleState

/-! ## Every run -/

/-- In every run of proper steps the calls of the handlers return after the work
they asked for, by tokens of the worker they wait for, and no handler is stuck. -/
theorem properRun_inStep (schedulingDisabled : Bool) (backfillInterval : Int)
    (actions : List CycleAction)
    (proper : ProperRun (.start schedulingDisabled backfillInterval) actions) (s : CycleState)
    (run : cycleRun (.start schedulingDisabled backfillInterval) actions = some s) : s.InStep :=
  ((CycleState.start_tidy schedulingDisabled backfillInterval).cycleRun proper run).inStep

/-- The first cycle without a decay thread, with a backfill request that the agent
serves. -/
def servedCycle : List CycleAction :=
  [.init (.start 300 .unsupported), .agent .start, .agent .loop, .handler 0 (.enter 1000),
    .handler 0 .multifactor, .handler 0 .backfill, .agent .wake, .agent .testStop,
    .agent .testDisabled, .agent .finish, .agent .post, .handler 0 .bfReturn]

theorem servedCycle_inStep :
    ∃ s, cycleRun (.start false 30) servedCycle = some s ∧
      s.returns = [⟨⟨.backfill, 1⟩, ⟨.backfill, 1⟩⟩] ∧ s.InStep := by
  refine ⟨_, rfl, rfl, properRun_inStep false 30 servedCycle ?_ _ rfl⟩
  refine .cons trivial rfl (.cons trivial rfl (.cons trivial rfl (.cons trivial rfl
    (.cons ?_ rfl (.cons ?_ rfl (.cons trivial rfl (.cons trivial rfl (.cons rfl rfl
      (.cons trivial rfl (.cons trivial rfl (.cons trivial rfl trivial)))))))))))
  · intro now _ due
    exact due.1 rfl
  · rintro now _ _ j number ⟨_, waiting⟩
    cases j with
    | zero => exact HandlerPc.noConfusion waiting
    | succ j => exact HandlerPc.noConfusion waiting

/-- The first cycle after the start: the decay thread has done its work and waits
again, and the handler waits at the semaphore of the backfill agent. -/
theorem released_decay_stuck :
    ¬ ∀ (schedulingDisabled : Bool) (backfillInterval : Int) (actions : List CycleAction)
      (s : CycleState), cycleRun (.start schedulingDisabled backfillInterval) actions = some s →
      s.InStep := by
  intro all
  have inStep := all false 30
    [.init (.start 300 .associations), .decay .signal, .decay .openSems, .decay .finish,
      .decay .post, .init .eat, .handler 0 (.enter 1000), .handler 0 .multifactor, .decay .wake,
      .decay .finish, .decay .post] _ rfl
  exact inStep.live .decay ⟨⟨0, 1000, 1, rfl⟩, rfl, rfl, rfl⟩

end SlurmSim.Simulator
