import Mathlib.Data.List.Perm.Basic

/-!
# Completion of the simulated jobs

When jobs end, the helper thread of the simulated slurmd sends a completion
request for each of them and waits for the epilogs, which the controller triggers
by requests to terminate the jobs. Then it reports the number of ended jobs in a
cycle message, and the handler of this message waits until the controller has
counted as many completions and epilogs.

Requests travel on a wire and reach the controller in any order or never. A
sender that gives up a request leaves it there. The events that became due are
numbered; an event stands for the end of its job.
-/

namespace SlurmSim.Simulator

/-! ## Messages -/

inductive SimBody where
  /-- `REQUEST_COMPLETE_BATCH_SCRIPT`. -/
  | complete (event : Nat)
  /-- `MESSAGE_EPILOG_COMPLETE`. -/
  | epilog (event : Nat)
  /-- `MESSAGE_SIM_HELPER_CYCLE` with `total_jobs_ended`. -/
  | cycle (totalJobsEnded : Nat)
  deriving DecidableEq

/-- A request to the controller. Every try has a tag of its own. -/
structure SimRequest where
  tag : Nat
  body : SimBody
  deriving DecidableEq

def slurmSuccess : Int := 0
def eslurmInvalidJobId : Int := 2017
def eslurmAlreadyDone : Int := 2021

/-! ## Threads -/

/-- `_simulator_helper`, with the tag, what is sent and the number of failed tries
while it waits for a reply. -/
inductive HelperPc where
  | idle
  | drain
  | sending (tag event tries : Nat)
  | waitEpilogs
  | cycling (tag totalJobsEnded tries : Nat)
  | exited
  deriving DecidableEq

/-- The threads in which the helper has `simulator_mutex`. It exits with it. -/
def HelperPc.holdsMutex : HelperPc → Bool
  | .drain => true
  | .sending _ _ _ => true
  | .exited => true
  | _ => false

/-- The tag of the try whose reply the helper waits for. -/
def HelperPc.awaited : HelperPc → Option Nat
  | .sending tag _ _ => some tag
  | .cycling tag _ _ => some tag
  | _ => none

/-- `_slurm_rpc_sim_helper_cycle`. A counter is read before its lock is taken to
reset it. -/
inductive CyclePc where
  | idle
  | waitFinished (totalJobsEnded : Nat)
  | resetFinished (totalJobsEnded : Nat)
  | waitEpilogs (totalJobsEnded : Nat)
  | resetEpilogs (totalJobsEnded : Nat)
  | working
  | answered
  deriving DecidableEq

/-- slurmd, the wire and the controller. `completed` is `head_sim_completed_jobs`,
`killing` has the events whose epilog message is under way and `arriving` those
whose epilog is answered but not yet counted. `ended` lists the events that the
helper has reported or will report in this cycle, `counted` and `arrived` those
behind the two counters. -/
structure SimState where
  helper : HelperPc
  jobsEnded : Nat
  completed : List Nat
  waitingEpilogMsgs : Int
  killing : List Nat
  wire : List SimRequest
  replies : List (Nat × Int)
  sent : Nat
  totalFinishedJobs : Nat
  arrivedJobsEpilogs : Nat
  arriving : List Nat
  cycles : Nat → CyclePc
  events : Nat
  ended : List Nat
  counted : List Nat
  arrived : List Nat

namespace SimState

def start : SimState where
  helper := .idle
  jobsEnded := 0
  completed := []
  waitingEpilogMsgs := 0
  killing := []
  wire := []
  replies := []
  sent := 0
  totalFinishedJobs := 0
  arrivedJobsEpilogs := 0
  arriving := []
  cycles := fun _ => .idle
  events := 0
  ended := []
  counted := []
  arrived := []

/-- A request goes on the wire under a new tag. -/
def send (s : SimState) (body : SimBody) : SimState :=
  { s with wire := ⟨s.sent, body⟩ :: s.wire, sent := s.sent + 1 }

/-- A try of `_send_complete_batch_script_msg`. -/
def sendComplete (s : SimState) (event tries : Nat) : SimState :=
  { s.send (.complete event) with helper := .sending s.sent event tries }

/-- A try of `_send_sim_helper_cycle_msg`. -/
def sendCycle (s : SimState) (totalJobsEnded tries : Nat) : SimState :=
  { s.send (.cycle totalJobsEnded) with helper := .cycling s.sent totalJobsEnded tries }

end SimState

/-! ## Steps -/

inductive HelperAction where
  | wake
  | due
  | drained
  | reply (rc : Int)
  | timeout
  | epilogsDone

inductive KillAction where
  | kill (event : Nat)
  | done (event : Nat)

/-- The RPC threads of the controller. A request of another user than the slurm
user gets no reply. -/
inductive RpcAction where
  | deliver (request : SimRequest) (answer : Option Int)
  | arrive (event : Nat)

inductive CycleStep where
  | seeFinished
  | resetFinished
  | seeEpilogs
  | resetEpilogs
  | answer

inductive SimAction where
  | helper (action : HelperAction)
  | kill (action : KillAction)
  | rpc (action : RpcAction)
  | cycle (tag : Nat) (action : CycleStep)

/-- The result of `_send_complete_batch_script_msg` for a reply. -/
def completeAccepted (rc : Int) : Bool :=
  rc == slurmSuccess || rc == eslurmAlreadyDone || rc == eslurmInvalidJobId

/-- `_simulator_helper` with its two send functions. A completion that is refused
or not answered in six tries ends the thread, the result of the cycle message is
not looked at. -/
def helperStep (s : SimState) : HelperAction → Option SimState
  | .wake =>
    if s.helper = .idle then some { s with helper := .drain, jobsEnded := 0, ended := [] }
    else none
  | .due =>
    if s.helper = .drain then
      some { s.sendComplete s.events 0 with
        completed := s.events :: s.completed
        events := s.events + 1 }
    else none
  | .drained =>
    if s.helper = .drain then
      if s.jobsEnded ≠ 0 then some { s with helper := .waitEpilogs } else some (s.sendCycle 0 0)
    else none
  | .reply rc =>
    match s.helper with
    | .sending tag event _ =>
      if (tag, rc) ∈ s.replies then
        if completeAccepted rc then
          some { s with
            helper := .drain
            waitingEpilogMsgs := s.waitingEpilogMsgs + 1
            jobsEnded := s.jobsEnded + 1
            ended := event :: s.ended }
        else some { s with helper := .exited }
      else none
    | .cycling tag _ _ => if (tag, rc) ∈ s.replies then some { s with helper := .idle } else none
    | _ => none
  | .timeout =>
    match s.helper with
    | .sending _ event tries =>
      if tries < 5 then some (s.sendComplete event (tries + 1))
      else some { s with helper := .exited }
    | .cycling _ totalJobsEnded tries =>
      if tries < 5 then some (s.sendCycle totalJobsEnded (tries + 1))
      else some { s with helper := .idle }
    | _ => none
  | .epilogsDone =>
    if s.helper = .waitEpilogs ∧ s.waitingEpilogMsgs = 0 then some (s.sendCycle s.jobsEnded 0)
    else none

/-- `simulator_rpc_terminate_job`. The epilog message is sent once; its handler
goes on with or without an answer. -/
def killStep (s : SimState) : KillAction → Option SimState
  | .kill event =>
    if s.helper.holdsMutex = false ∧ event ∈ s.completed then
      some { s.send (.epilog event) with
        completed := s.completed.erase event
        killing := event :: s.killing }
    else none
  | .done event =>
    if event ∈ s.killing then
      some { s with
        killing := s.killing.erase event
        waitingEpilogMsgs := s.waitingEpilogMsgs - 1 }
    else none

/-- `_slurm_rpc_complete_batch_script`, which counts before it checks anything,
`_slurm_rpc_epilog_complete`, which answers before it counts, and the start of
`_slurm_rpc_sim_helper_cycle`. -/
def rpcStep (s : SimState) : RpcAction → Option SimState
  | .deliver request answer =>
    if request ∈ s.wire then
      match request.body with
      | .complete event =>
        some { s with
          wire := s.wire.erase request
          totalFinishedJobs := s.totalFinishedJobs + 1
          counted := event :: s.counted
          replies := (answer.map fun rc => (request.tag, rc)).toList ++ s.replies }
      | .epilog event =>
        some { s with
          wire := s.wire.erase request
          arriving := (answer.map fun _ => event).toList ++ s.arriving }
      | .cycle totalJobsEnded =>
        some { s with
          wire := s.wire.erase request
          cycles := Function.update s.cycles request.tag (.waitFinished totalJobsEnded) }
    else none
  | .arrive event =>
    if event ∈ s.arriving then
      some { s with
        arriving := s.arriving.erase event
        arrivedJobsEpilogs := s.arrivedJobsEpilogs + 1
        arrived := event :: s.arrived }
    else none

def SimState.setCycle (s : SimState) (tag : Nat) (pc : CyclePc) : SimState :=
  { s with cycles := Function.update s.cycles tag pc }

/-- The handler of the cycle message with a tag. -/
def cycleHandlerStep (s : SimState) (tag : Nat) : CycleStep → Option SimState
  | .seeFinished =>
    match s.cycles tag with
    | .waitFinished totalJobsEnded =>
      if s.totalFinishedJobs = totalJobsEnded then
        some (s.setCycle tag (.resetFinished totalJobsEnded))
      else none
    | _ => none
  | .resetFinished =>
    match s.cycles tag with
    | .resetFinished totalJobsEnded =>
      some { s.setCycle tag (.waitEpilogs totalJobsEnded) with
        totalFinishedJobs := 0
        counted := [] }
    | _ => none
  | .seeEpilogs =>
    match s.cycles tag with
    | .waitEpilogs totalJobsEnded =>
      if s.arrivedJobsEpilogs = totalJobsEnded then
        some (s.setCycle tag (.resetEpilogs totalJobsEnded))
      else none
    | _ => none
  | .resetEpilogs =>
    match s.cycles tag with
    | .resetEpilogs _ =>
      some { s.setCycle tag .working with
        arrivedJobsEpilogs := 0
        arrived := [] }
    | _ => none
  | .answer =>
    match s.cycles tag with
    | .working =>
      some { s.setCycle tag .answered with replies := (tag, slurmSuccess) :: s.replies }
    | _ => none

/-- One step of one thread. -/
def simStep (s : SimState) : SimAction → Option SimState
  | .helper action => helperStep s action
  | .kill action => killStep s action
  | .rpc action => rpcStep s action
  | .cycle tag action => cycleHandlerStep s tag action

/-- A run is a list of steps in any order in which the threads can take them. -/
def simRun (s : SimState) : List SimAction → Option SimState
  | [] => some s
  | action :: rest => (simStep s action).bind fun after => simRun after rest

/-! ## What the counters should say -/

/-- While a cycle message is handled, the completions of the reported jobs are
counted once each and nothing else is, and the epilogs are not more than reported. -/
structure SimState.CountsOnce (s : SimState) : Prop where
  counted : ∀ tag k, s.cycles tag = .waitFinished k →
    s.ended.Nodup ∧ s.ended.length = k ∧ s.counted.Perm s.ended
  finished : ∀ tag k, s.cycles tag = .waitFinished k → s.totalFinishedJobs = k
  epilogs : ∀ tag k, s.cycles tag = .waitEpilogs k → s.arrivedJobsEpilogs ≤ k

/-- A completion or cycle request reaches the controller only while the helper
waits for its reply, the helper gives up only a try that has not reached it, and
it does not give up to report ended jobs. -/
def OnceDelivered (s : SimState) : SimAction → Prop
  | .helper .timeout =>
    match s.helper with
    | .sending tag _ _ => ∃ request ∈ s.wire, request.tag = tag
    | .cycling tag totalJobsEnded tries =>
      (∃ request ∈ s.wire, request.tag = tag) ∧ (tries < 5 ∨ totalJobsEnded = 0)
    | _ => True
  | .rpc (.deliver request _) =>
    match request.body with
    | .epilog _ => True
    | _ => s.helper.awaited = some request.tag
  | _ => True

/-- Every step of a run meets the condition in the state it is taken in. -/
def OnceDeliveredRun (s : SimState) : List SimAction → Prop
  | [] => True
  | action :: rest =>
    OnceDelivered s action ∧ ∀ after, simStep s action = some after → OnceDeliveredRun after rest

end SlurmSim.Simulator
