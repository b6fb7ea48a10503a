import Mathlib.Data.List.Nodup
import SlurmSim.Simulator.Completion

/-!
# The counters over runs of the completion protocol

Both counters of the controller agree with the number in the cycle message as
long as every request that reaches the controller is also answered. The proof
follows the helper: what it waits for says which requests are counted.
-/

namespace SlurmSim.Simulator

open List

/-- The event of an epilog message. -/
def SimBody.epilogOf : SimBody → Option Nat
  | .epilog event => some event
  | _ => none

/-- The handler has nothing to wait for. -/
def CyclePc.Inactive (pc : CyclePc) : Prop :=
  pc = .idle ∨ pc = .answered

namespace SimState

/-- A request with the tag has not reached the controller. -/
def OnWire (s : SimState) (tag : Nat) : Prop :=
  ∃ request ∈ s.wire, request.tag = tag

/-- The events whose epilogs are still to be counted. -/
def underWay (s : SimState) : List Nat :=
  s.completed ++ s.wire.filterMap (fun request => request.body.epilogOf) ++ s.arriving

/-- No cycle message is handled. -/
def Quiet (s : SimState) : Prop :=
  ∀ tag, (s.cycles tag).Inactive

/-! ## The invariant -/

/-- Tags are used once, and only requests that have left the wire are answered. -/
structure Tagged (s : SimState) : Prop where
  distinct : (s.wire.map SimRequest.tag).Nodup
  used : ∀ request ∈ s.wire, request.tag < s.sent
  awaited : ∀ tag, s.helper.awaited = some tag → tag < s.sent
  replied : ∀ reply ∈ s.replies, reply.1 < s.sent ∧ ¬ s.OnWire reply.1

/-- Every event has at most one epilog, and it is one of this cycle. -/
structure Numbered (s : SimState) : Prop where
  nodup : (s.underWay ++ s.arrived).Nodup
  known : ∀ event ∈ s.underWay ++ s.arrived, event < s.events
  scope : s.helper ≠ .exited → ∀ event ∈ s.underWay ++ s.arrived,
    event ∈ s.ended ∨ ∃ tag tries, s.helper = .sending tag event tries
  ended : s.ended.Nodup
  endedKnown : ∀ event ∈ s.ended, event < s.events
  current : ∀ tag event tries, s.helper = .sending tag event tries →
    event < s.events ∧ event ∉ s.ended

/-- The counters are the lengths of the lists behind them. -/
structure Counts (s : SimState) : Prop where
  jobs : s.jobsEnded = s.ended.length
  finished : s.totalFinishedJobs = s.counted.length
  epilogs : s.arrivedJobsEpilogs = s.arrived.length

/-- What is counted where the handler of the awaited cycle message stands. -/
def CyclePhase (s : SimState) (tag : Nat) : CyclePc → Prop
  | .idle => False
  | .waitFinished k =>
    (∀ rc, (tag, rc) ∉ s.replies) ∧ k = s.jobsEnded ∧ s.counted.Perm s.ended
  | .resetFinished k =>
    (∀ rc, (tag, rc) ∉ s.replies) ∧ k = s.jobsEnded ∧ s.counted.Perm s.ended
  | .waitEpilogs k => (∀ rc, (tag, rc) ∉ s.replies) ∧ k = s.jobsEnded ∧ s.counted = []
  | .resetEpilogs _ => (∀ rc, (tag, rc) ∉ s.replies) ∧ s.counted = [] ∧ s.underWay = []
  | .working =>
    (∀ rc, (tag, rc) ∉ s.replies) ∧ s.counted = [] ∧ s.underWay = [] ∧ s.arrived = []
  | .answered => s.counted = [] ∧ s.underWay = [] ∧ s.arrived = []

/-- What is counted where the helper stands: a completion once its request has
left the wire, and nothing more after the cycle message is answered. -/
def Phase (s : SimState) : Prop :=
  match s.helper with
  | .idle => s.Quiet ∧ s.counted = [] ∧ s.underWay = [] ∧ s.arrived = []
  | .drain => s.Quiet ∧ s.counted.Perm s.ended
  | .sending tag event _ => s.Quiet ∧
      (⟨tag, .complete event⟩ ∈ s.wire ∧ s.counted.Perm s.ended ∨
        ¬ s.OnWire tag ∧ s.counted.Perm (event :: s.ended))
  | .waitEpilogs => s.Quiet ∧ s.counted.Perm s.ended
  | .cycling tag k _ => k = s.jobsEnded ∧
      (⟨tag, .cycle k⟩ ∈ s.wire ∧ s.Quiet ∧ s.counted.Perm s.ended ∨
        ¬ s.OnWire tag ∧ (∀ other, other ≠ tag → (s.cycles other).Inactive) ∧
          s.CyclePhase tag (s.cycles tag))
  | .exited => s.Quiet

structure Sound (s : SimState) : Prop where
  tagged : s.Tagged
  numbered : s.Numbered
  counts : s.Counts
  phase : s.Phase

variable {s after : SimState}

/-! ## Tags -/

theorem Tagged.unique (tagged : s.Tagged) {first second : SimRequest} (mem : first ∈ s.wire)
    (inside' : second ∈ s.wire) (same : first.tag = second.tag) : first = second :=
  inj_on_of_nodup_map tagged.distinct mem inside' same

variable {request : SimRequest} {tag event tries : Nat} {rc : Int}

theorem Tagged.erased (tagged : s.Tagged) (mem : request ∈ s.wire) :
    ¬ ∃ other ∈ s.wire.erase request, other.tag = request.tag := by
  rintro ⟨other, left, same⟩
  have nodup : s.wire.Nodup := tagged.distinct.of_map _
  have different := (List.Nodup.mem_erase_iff nodup).mp left
  exact different.1 (tagged.unique different.2 mem same)

theorem Tagged.same (tagged : s.Tagged) (wire : after.wire = s.wire) (sent : after.sent = s.sent)
    (replies : after.replies = s.replies)
    (awaited : ∀ tag, after.helper.awaited = some tag → s.helper.awaited = some tag) :
    after.Tagged where
  distinct := by
    rw [wire]
    exact tagged.distinct
  used := by
    rw [wire, sent]
    exact tagged.used
  awaited := by
    intro tag waiting
    rw [sent]
    exact tagged.awaited tag (awaited tag waiting)
  replied := by
    rw [replies, sent]
    simp only [OnWire, wire]
    exact tagged.replied

theorem Tagged.post (tagged : s.Tagged) {body : SimBody}
    (wire : after.wire = ⟨s.sent, body⟩ :: s.wire) (sent : after.sent = s.sent + 1)
    (replies : after.replies = s.replies)
    (awaited : ∀ tag, after.helper.awaited = some tag →
      tag = s.sent ∨ s.helper.awaited = some tag) : after.Tagged where
  distinct := by
    rw [wire, map_cons, nodup_cons]
    refine ⟨?_, tagged.distinct⟩
    intro mem
    obtain ⟨request, member, same⟩ := mem_map.mp mem
    exact absurd (tagged.used request member) (by simp [same])
  used := by
    rw [wire, sent]
    intro request mem
    rcases mem_cons.mp mem with rfl | old
    · exact Nat.lt_succ_self _
    · exact Nat.lt_succ_of_lt (tagged.used request old)
  awaited := by
    rw [sent]
    intro tag waiting
    rcases awaited tag waiting with rfl | old
    · exact Nat.lt_succ_self _
    · exact Nat.lt_succ_of_lt (tagged.awaited tag old)
  replied := by
    rw [replies, sent]
    intro reply mem
    obtain ⟨used, gone⟩ := tagged.replied reply mem
    refine ⟨Nat.lt_succ_of_lt used, ?_⟩
    rintro ⟨request, member, same⟩
    rw [wire] at member
    rcases mem_cons.mp member with rfl | old
    · exact absurd used (by simp [← same])
    · exact gone ⟨request, old, same⟩

theorem Tagged.take (tagged : s.Tagged) (mem : request ∈ s.wire)
    (wire : after.wire = s.wire.erase request) (sent : after.sent = s.sent)
    (helper : after.helper = s.helper)
    (replies : ∀ reply ∈ after.replies, reply ∈ s.replies ∨ reply.1 = request.tag) :
    after.Tagged where
  distinct := by
    rw [wire]
    exact tagged.distinct.sublist (erase_sublist.map _)
  used := by
    rw [wire, sent]
    intro other left
    exact tagged.used other (mem_of_mem_erase left)
  awaited := by
    rw [helper, sent]
    exact tagged.awaited
  replied := by
    rw [sent]
    intro reply member
    rcases replies reply member with old | new
    · refine ⟨(tagged.replied reply old).1, ?_⟩
      rintro ⟨other, left, same⟩
      rw [wire] at left
      exact (tagged.replied reply old).2 ⟨other, mem_of_mem_erase left, same⟩
    · rw [new]
      refine ⟨tagged.used request mem, ?_⟩
      rintro ⟨other, left, same⟩
      rw [wire] at left
      exact tagged.erased mem ⟨other, left, same⟩

/-! ## Epilogs -/

theorem filterMap_erase {wire : List SimRequest} (mem : request ∈ wire) :
    (wire.filterMap fun request => request.body.epilogOf).Perm (request.body.epilogOf.toList ++
        (wire.erase request).filterMap fun request => request.body.epilogOf) := by
  refine ((perm_cons_erase mem).filterMap _).trans ?_
  rw [filterMap_cons]
  cases request.body.epilogOf with
  | none => exact List.Perm.refl _
  | some event => exact List.Perm.refl _

theorem Numbered.move (numbered : s.Numbered) {extra : List Nat}
    (moved : (after.underWay ++ after.arrived ++ extra).Perm (s.underWay ++ s.arrived))
    (events : after.events = s.events) (ended : after.ended = s.ended)
    (helper : after.helper = s.helper) : after.Numbered := by
  have old : ∀ event ∈ after.underWay ++ after.arrived, event ∈ s.underWay ++ s.arrived :=
    fun event mem => moved.mem_iff.mp (mem_append_left _ mem)
  constructor
  · exact (nodup_append.mp (moved.nodup_iff.mpr numbered.nodup)).1
  · rw [events]
    exact fun event mem => numbered.known event (old event mem)
  · rw [helper, ended]
    exact fun running event mem => numbered.scope running event (old event mem)
  · rw [ended]
    exact numbered.ended
  · rw [ended, events]
    exact numbered.endedKnown
  · rw [helper, ended, events]
    exact numbered.current

theorem Numbered.advance (numbered : s.Numbered) (underWay : after.underWay = s.underWay)
    (arrived : after.arrived = s.arrived) (events : after.events = s.events)
    (ended : after.ended = s.ended)
    (forth : after.helper ≠ .exited → s.helper ≠ .exited ∧ ∀ tag event tries,
      s.helper = .sending tag event tries → ∃ tag' tries', after.helper = .sending tag' event tries')
    (back : ∀ tag event tries, after.helper = .sending tag event tries →
      ∃ tag' tries', s.helper = .sending tag' event tries') : after.Numbered := by
  constructor
  · rw [underWay, arrived]
    exact numbered.nodup
  · rw [underWay, arrived, events]
    exact numbered.known
  · rw [underWay, arrived, ended]
    intro running event mem
    obtain ⟨before, sending⟩ := forth running
    rcases numbered.scope before event mem with old | ⟨tag, tries, current⟩
    · exact .inl old
    · exact .inr (sending tag event tries current)
  · rw [ended]
    exact numbered.ended
  · rw [ended, events]
    exact numbered.endedKnown
  · rw [ended, events]
    intro tag event tries sending
    obtain ⟨tag', tries', current⟩ := back tag event tries sending
    exact numbered.current tag' event tries' current

theorem Numbered.length_le (numbered : s.Numbered) (running : s.helper ≠ .exited)
    (outside : ∀ tag event tries, s.helper ≠ .sending tag event tries) :
    (s.underWay ++ s.arrived).length ≤ s.ended.length := by
  refine (subperm_of_subset numbered.nodup ?_).length_le
  intro event mem
  rcases numbered.scope running event mem with old | ⟨tag, tries, sending⟩
  · exact old
  · exact absurd sending (outside tag event tries)

/-! ## Steps of the other threads and the phase -/

theorem Phase.move (phase : s.Phase) (busy : s.underWay ≠ []) (helper : after.helper = s.helper)
    (jobs : after.jobsEnded = s.jobsEnded) (ended : after.ended = s.ended)
    (counted : after.counted = s.counted) (cycles : after.cycles = s.cycles)
    (replies : after.replies = s.replies)
    (kept : ∀ request ∈ s.wire, request.body.epilogOf = none → request ∈ after.wire)
    (gone : ∀ tag, s.helper.awaited = some tag → ¬ s.OnWire tag → ¬ after.OnWire tag) :
    after.Phase := by
  have quiet : s.Quiet → after.Quiet := by
    intro quiet tag
    rw [cycles]
    exact quiet tag
  unfold Phase at phase ⊢
  rw [helper]
  cases place : s.helper with
  | idle =>
    rw [place] at phase
    exact absurd phase.2.2.1 busy
  | drain =>
    rw [place] at phase
    rw [counted, ended]
    exact ⟨quiet phase.1, phase.2⟩
  | sending tag event tries =>
    rw [place] at phase
    rw [counted, ended]
    refine ⟨quiet phase.1, ?_⟩
    rcases phase.2 with ⟨mem, same⟩ | ⟨off, same⟩
    · exact .inl ⟨kept _ mem rfl, same⟩
    · exact .inr ⟨gone tag (by rw [place]; rfl) off, same⟩
  | waitEpilogs =>
    rw [place] at phase
    rw [counted, ended]
    exact ⟨quiet phase.1, phase.2⟩
  | cycling tag k tries =>
    rw [place] at phase
    rw [counted, ended, jobs, cycles]
    refine ⟨phase.1, ?_⟩
    rcases phase.2 with ⟨mem, still, same⟩ | ⟨off, alone, handler⟩
    · exact .inl ⟨kept _ mem rfl, quiet still, same⟩
    · refine .inr ⟨gone tag (by rw [place]; rfl) off, alone, ?_⟩
      cases stand : s.cycles tag with
      | idle =>
        rw [stand] at handler
        exact handler
      | waitFinished _ =>
        rw [stand] at handler
        rw [CyclePhase, replies, jobs, counted, ended]
        exact handler
      | resetFinished _ =>
        rw [stand] at handler
        rw [CyclePhase, replies, jobs, counted, ended]
        exact handler
      | waitEpilogs _ =>
        rw [stand] at handler
        rw [CyclePhase, replies, jobs, counted]
        exact handler
      | resetEpilogs _ =>
        rw [stand] at handler
        exact absurd handler.2.2 busy
      | working =>
        rw [stand] at handler
        exact absurd handler.2.2.1 busy
      | answered =>
        rw [stand] at handler
        exact absurd handler.2.1 busy
  | exited =>
    rw [place] at phase
    exact quiet phase

theorem CyclePhase.of_reply (handler : s.CyclePhase tag (s.cycles tag))
    (reply : (tag, rc) ∈ s.replies) : s.cycles tag = .answered ∧ s.counted = [] ∧
      s.underWay = [] ∧ s.arrived = [] := by
  cases stand : s.cycles tag with
  | idle =>
    rw [stand] at handler
    exact handler.elim
  | answered =>
    rw [stand] at handler
    exact ⟨rfl, handler⟩
  | _ =>
    rw [stand] at handler
    exact absurd reply (handler.1 rc)

theorem Phase.active (phase : s.Phase) (active : ¬ (s.cycles tag).Inactive) :
    ∃ tries, s.helper = .cycling tag s.jobsEnded tries ∧ ¬ s.OnWire tag ∧
      (∀ other, other ≠ tag → (s.cycles other).Inactive) ∧ s.CyclePhase tag (s.cycles tag) := by
  unfold Phase at phase
  cases place : s.helper with
  | idle =>
    rw [place] at phase
    exact absurd (phase.1 tag) active
  | drain =>
    rw [place] at phase
    exact absurd (phase.1 tag) active
  | sending _ _ _ =>
    rw [place] at phase
    exact absurd (phase.1 tag) active
  | waitEpilogs =>
    rw [place] at phase
    exact absurd (phase.1 tag) active
  | cycling waited k tries =>
    rw [place] at phase
    obtain ⟨rfl, ⟨_, quiet, _⟩ | ⟨off, alone, handler⟩⟩ := phase
    · exact absurd (quiet tag) active
    · by_cases same : tag = waited
      · subst same
        exact ⟨tries, rfl, off, alone, handler⟩
      · exact absurd (alone tag same) active
  | exited =>
    rw [place] at phase
    exact absurd (phase tag) active

/-! ## Steps of the helper -/

theorem Phase.of_idle (phase : s.Phase) (place : s.helper = .idle) :
    s.Quiet ∧ s.counted = [] ∧ s.underWay = [] ∧ s.arrived = [] := by
  rw [Phase, place] at phase
  exact phase

theorem Phase.of_drain (phase : s.Phase) (place : s.helper = .drain) :
    s.Quiet ∧ s.counted.Perm s.ended := by
  rw [Phase, place] at phase
  exact phase

theorem Phase.of_waitEpilogs (phase : s.Phase) (place : s.helper = .waitEpilogs) :
    s.Quiet ∧ s.counted.Perm s.ended := by
  rw [Phase, place] at phase
  exact phase

theorem Phase.of_sending (phase : s.Phase) (place : s.helper = .sending tag event tries) : s.Quiet ∧
      (⟨tag, .complete event⟩ ∈ s.wire ∧ s.counted.Perm s.ended ∨
        ¬ s.OnWire tag ∧ s.counted.Perm (event :: s.ended)) := by
  rw [Phase, place] at phase
  exact phase

theorem Phase.of_cycling (phase : s.Phase) {k : Nat} (place : s.helper = .cycling tag k tries) :
    k = s.jobsEnded ∧ (⟨tag, .cycle k⟩ ∈ s.wire ∧ s.Quiet ∧ s.counted.Perm s.ended ∨
        ¬ s.OnWire tag ∧ (∀ other, other ≠ tag → (s.cycles other).Inactive) ∧
          s.CyclePhase tag (s.cycles tag)) := by
  rw [Phase, place] at phase
  exact phase

theorem Sound.sendComplete (sound : s.Sound) (next : Nat)
    (place : s.helper = .sending tag event tries) (on : s.OnWire tag) :
    (s.sendComplete event next).Sound := by
  obtain ⟨quiet, ⟨_, same⟩ | ⟨off, _⟩⟩ := sound.phase.of_sending place
  · refine ⟨?_, ?_, ⟨sound.counts.jobs, sound.counts.finished, sound.counts.epilogs⟩, ?_⟩
    · refine sound.tagged.post rfl rfl rfl ?_
      intro other waiting
      exact .inl (Option.some.inj waiting).symm
    · refine sound.numbered.advance rfl rfl rfl rfl ?_ ?_
      · intro _
        refine ⟨by simp [place], ?_⟩
        intro tag' event' tries' sending
        rw [place] at sending
        obtain ⟨_, rfl, _⟩ := HelperPc.sending.inj sending
        exact ⟨_, _, rfl⟩
      · intro tag' event' tries' sending
        obtain ⟨_, rfl, _⟩ := HelperPc.sending.inj sending
        exact ⟨_, _, place⟩
    · exact ⟨quiet, .inl ⟨mem_cons_self, same⟩⟩
  · exact absurd on off

theorem Sound.sendCycle (sound : s.Sound) (next : Nat) (running : s.helper ≠ .exited)
    (outside : ∀ tag event tries, s.helper ≠ .sending tag event tries) (quiet : s.Quiet)
    (same : s.counted.Perm s.ended) : (s.sendCycle s.jobsEnded next).Sound := by
  refine ⟨?_, ?_, ⟨sound.counts.jobs, sound.counts.finished, sound.counts.epilogs⟩, ?_⟩
  · refine sound.tagged.post rfl rfl rfl ?_
    intro other waiting
    exact .inl (Option.some.inj waiting).symm
  · refine sound.numbered.advance rfl rfl rfl rfl ?_ ?_
    · intro _
      exact ⟨running, fun tag event tries sending => absurd sending (outside tag event tries)⟩
    · intro tag event tries sending
      exact HelperPc.noConfusion sending
  · exact ⟨rfl, .inl ⟨mem_cons_self, quiet, same⟩⟩

theorem Sound.leave (sound : s.Sound) (pc : HelperPc) (free : pc.awaited = none)
    (outside : pc ≠ .exited → s.helper ≠ .exited ∧
      ∀ tag event tries, s.helper ≠ .sending tag event tries)
    (phase : { s with helper := pc }.Phase) : { s with helper := pc }.Sound := by
  refine ⟨?_, ?_, ⟨sound.counts.jobs, sound.counts.finished, sound.counts.epilogs⟩, phase⟩
  · refine sound.tagged.same rfl rfl rfl ?_
    intro tag waiting
    rw [free] at waiting
    exact absurd waiting (by simp)
  · refine sound.numbered.advance rfl rfl rfl rfl ?_ ?_
    · intro running
      obtain ⟨before, notSending⟩ := outside running
      exact ⟨before, fun tag event tries sending => absurd sending (notSending tag event tries)⟩
    · intro tag event tries sending
      rw [show pc = _ from sending] at free
      exact absurd free (by simp [HelperPc.awaited])

/-- A job ends: its event is completed before the request is sent. -/
theorem Sound.due (sound : s.Sound) (place : s.helper = .drain) :
    SimState.Sound { s.sendComplete s.events 0 with
      completed := s.events :: s.completed
      events := s.events + 1 } := by
  obtain ⟨quiet, same⟩ := sound.phase.of_drain place
  have old : ∀ event ∈ s.underWay ++ s.arrived, event ∈ s.ended := by
    intro event mem
    rcases sound.numbered.scope (by simp [place]) event mem with member | ⟨_, _, sending⟩
    · exact member
    · rw [place] at sending
      exact HelperPc.noConfusion sending
  refine ⟨?_, ⟨?_, ?_, ?_, sound.numbered.ended, ?_, ?_⟩,
    ⟨sound.counts.jobs, sound.counts.finished, sound.counts.epilogs⟩, ?_⟩
  · refine sound.tagged.post rfl rfl rfl ?_
    intro other waiting
    exact .inl (Option.some.inj waiting).symm
  · refine nodup_cons.mpr ⟨?_, sound.numbered.nodup⟩
    intro mem
    exact absurd (sound.numbered.known s.events mem) (Nat.lt_irrefl _)
  · intro event mem
    rcases mem_cons.mp mem with rfl | before
    · exact Nat.lt_succ_self _
    · exact Nat.lt_succ_of_lt (sound.numbered.known event before)
  · intro _ event mem
    rcases mem_cons.mp mem with rfl | before
    · exact .inr ⟨_, _, rfl⟩
    · exact .inl (old event before)
  · intro event mem
    exact Nat.lt_succ_of_lt (sound.numbered.endedKnown event mem)
  · intro tag event tries sending
    obtain ⟨_, rfl, _⟩ := HelperPc.sending.inj sending
    refine ⟨Nat.lt_succ_self _, ?_⟩
    intro mem
    exact absurd (sound.numbered.endedKnown _ mem) (Nat.lt_irrefl _)
  · exact ⟨quiet, .inl ⟨mem_cons_self, same⟩⟩

/-- An accepted completion is one more ended job. -/
theorem Sound.ended (sound : s.Sound) (place : s.helper = .sending tag event tries)
    (reply : (tag, rc) ∈ s.replies) :
    SimState.Sound { s with
      helper := .drain
      waitingEpilogMsgs := s.waitingEpilogMsgs + 1
      jobsEnded := s.jobsEnded + 1
      ended := event :: s.ended } := by
  obtain ⟨known, fresh⟩ := sound.numbered.current tag event tries place
  have off := (sound.tagged.replied _ reply).2
  obtain ⟨quiet, ⟨mem, _⟩ | ⟨_, same⟩⟩ := sound.phase.of_sending place
  · exact absurd ⟨_, mem, rfl⟩ off
  · refine ⟨?_, ⟨sound.numbered.nodup, sound.numbered.known, ?_,
      nodup_cons.mpr ⟨fresh, sound.numbered.ended⟩, ?_, ?_⟩,
      ⟨?_, sound.counts.finished, sound.counts.epilogs⟩, ⟨quiet, same⟩⟩
    · refine sound.tagged.same rfl rfl rfl ?_
      intro other waiting
      exact absurd waiting (by simp [HelperPc.awaited])
    · intro _ other member
      rcases sound.numbered.scope (by simp [place]) other member with old | ⟨_, _, sending⟩
      · exact .inl (mem_cons_of_mem _ old)
      · rw [place] at sending
        obtain ⟨_, rfl, _⟩ := HelperPc.sending.inj sending
        exact .inl mem_cons_self
    · intro other member
      rcases mem_cons.mp member with rfl | old
      · exact known
      · exact sound.numbered.endedKnown other old
    · intro tag' event' tries' sending
      exact HelperPc.noConfusion sending
    · rw [length_cons, sound.counts.jobs]

theorem Sound.wake (sound : s.Sound) (step : helperStep s .wake = some after) : after.Sound := by
  simp only [Simulator.helperStep] at step
  split_ifs at step with place
  obtain rfl := Option.some.inj step
  obtain ⟨quiet, counted, underWay, arrived⟩ := sound.phase.of_idle place
  refine ⟨?_, ⟨sound.numbered.nodup, sound.numbered.known, ?_, nodup_nil, by simp, ?_⟩,
    ⟨rfl, sound.counts.finished, sound.counts.epilogs⟩, ⟨quiet, ?_⟩⟩
  · refine sound.tagged.same rfl rfl rfl ?_
    intro tag waiting
    exact absurd waiting (by simp [HelperPc.awaited])
  · intro _ event mem
    have none : event ∈ s.underWay ++ s.arrived := mem
    rw [underWay, arrived] at none
    exact absurd none (by simp)
  · intro tag event tries sending
    exact HelperPc.noConfusion sending
  · rw [counted]

theorem Sound.reply (sound : s.Sound) (step : helperStep s (.reply rc) = some after) :
    after.Sound := by
  simp only [Simulator.helperStep] at step
  split at step
  · rename_i tag event tries place
    split_ifs at step with mem accepted
    · obtain rfl := Option.some.inj step
      exact sound.ended place mem
    · obtain rfl := Option.some.inj step
      exact sound.leave .exited rfl (absurd rfl) (sound.phase.of_sending place).1
  · rename_i tag k tries place
    split_ifs at step with mem
    obtain rfl := Option.some.inj step
    obtain ⟨_, ⟨on, _⟩ | ⟨_, alone, handler⟩⟩ := sound.phase.of_cycling place
    · exact absurd ⟨_, on, rfl⟩ (sound.tagged.replied _ mem).2
    · obtain ⟨answered, counted, underWay, arrived⟩ := handler.of_reply mem
      refine sound.leave .idle rfl (by simp [place]) ⟨?_, counted, underWay, arrived⟩
      intro other
      by_cases same : other = tag
      · exact .inr (same ▸ answered)
      · exact alone other same
  · exact absurd step (by simp)

/-- Without an answer the message is sent again, or the helper gives up. -/
theorem Sound.timeout (sound : s.Sound) (once : OnceDelivered s (.helper .timeout))
    (step : helperStep s .timeout = some after) : after.Sound := by
  simp only [Simulator.helperStep] at step
  simp only [OnceDelivered] at once
  split at step
  · rename_i tag event tries place
    rw [place] at once
    split_ifs at step
    · obtain rfl := Option.some.inj step
      exact sound.sendComplete (tries + 1) place once
    · obtain rfl := Option.some.inj step
      exact sound.leave .exited rfl (absurd rfl) (sound.phase.of_sending place).1
  · rename_i tag k tries place
    rw [place] at once
    obtain ⟨rfl, ⟨_, quiet, same⟩ | ⟨off, _⟩⟩ := sound.phase.of_cycling place
    · split_ifs at step with more
      · obtain rfl := Option.some.inj step
        exact sound.sendCycle (tries + 1) (by simp [place]) (by simp [place]) quiet same
      · obtain rfl := Option.some.inj step
        have none : s.ended = [] := by
          rw [← length_eq_zero_iff, ← sound.counts.jobs]
          exact once.2.resolve_left more
        have empty := sound.numbered.length_le (by simp [place]) (by simp [place])
        rw [none, length_nil, Nat.le_zero, length_eq_zero_iff, append_eq_nil_iff] at empty
        rw [none] at same
        exact sound.leave .idle rfl (by simp [place]) ⟨quiet, same.eq_nil, empty⟩
    · exact absurd once.1 off
  · exact absurd step (by simp)

theorem Sound.helperStep (sound : s.Sound) {action : HelperAction}
    (once : OnceDelivered s (.helper action)) (step : helperStep s action = some after) :
    after.Sound := by
  cases action with
  | wake => exact sound.wake step
  | due =>
    simp only [Simulator.helperStep] at step
    split_ifs at step with place
    obtain rfl := Option.some.inj step
    exact sound.due place
  | drained =>
    simp only [Simulator.helperStep] at step
    split_ifs at step with place some
    · obtain rfl := Option.some.inj step
      exact sound.leave .waitEpilogs rfl (by simp [place]) (sound.phase.of_drain place)
    · obtain rfl := Option.some.inj step
      obtain ⟨quiet, same⟩ := sound.phase.of_drain place
      have none : s.jobsEnded = 0 := by simpa using some
      exact none ▸ sound.sendCycle 0 (by simp [place]) (by simp [place]) quiet same
  | reply rc => exact sound.reply step
  | timeout => exact sound.timeout once step
  | epilogsDone =>
    simp only [Simulator.helperStep] at step
    split_ifs at step with done
    obtain rfl := Option.some.inj step
    obtain ⟨quiet, same⟩ := sound.phase.of_waitEpilogs done.1
    exact sound.sendCycle 0 (by simp [done.1]) (by simp [done.1]) quiet same

/-! ## Steps of the kill handlers and the controller -/

theorem Sound.killStep (sound : s.Sound) {action : KillAction}
    (step : killStep s action = some after) : after.Sound := by
  cases action with
  | kill event =>
    simp only [Simulator.killStep] at step
    split_ifs at step with guard
    obtain rfl := Option.some.inj step
    have busy : s.underWay ≠ [] := by
      refine ne_nil_of_mem (a := event) ?_
      exact mem_append_left _ (mem_append_left _ guard.2)
    refine ⟨?_, ?_, ⟨sound.counts.jobs, sound.counts.finished, sound.counts.epilogs⟩, ?_⟩
    · exact sound.tagged.post rfl rfl rfl fun tag waiting => .inr waiting
    · refine @Numbered.move s _ sound.numbered [] ?_ rfl rfl rfl
      rw [append_nil]
      refine List.Perm.append_right _ (List.Perm.append_right _ ?_)
      refine perm_middle.trans ?_
      exact ((perm_cons_erase guard.2).symm).append_right _
    · refine sound.phase.move busy rfl rfl rfl rfl rfl rfl ?_ ?_
      · exact fun request mem _ => mem_cons_of_mem _ mem
      · rintro tag waiting off ⟨request, mem, same⟩
        rcases mem_cons.mp mem with rfl | old
        · exact absurd (sound.tagged.awaited tag waiting) (by simp [← same])
        · exact off ⟨request, old, same⟩
  | done event =>
    simp only [Simulator.killStep] at step
    split_ifs at step
    obtain rfl := Option.some.inj step
    exact ⟨⟨sound.tagged.distinct, sound.tagged.used, sound.tagged.awaited,
      sound.tagged.replied⟩, ⟨sound.numbered.nodup, sound.numbered.known, sound.numbered.scope,
      sound.numbered.ended, sound.numbered.endedKnown, sound.numbered.current⟩,
      ⟨sound.counts.jobs, sound.counts.finished, sound.counts.epilogs⟩, sound.phase⟩

theorem underWay_take (mem : request ∈ s.wire) (other : request.body.epilogOf = none)
    (completed : after.completed = s.completed) (wire : after.wire = s.wire.erase request)
    (arriving : after.arriving = s.arriving) (arrived : after.arrived = s.arrived) :
    (after.underWay ++ after.arrived ++ []).Perm (s.underWay ++ s.arrived) := by
  have taken := filterMap_erase mem
  rw [other] at taken
  rw [append_nil, underWay, underWay, completed, wire, arriving, arrived]
  exact ((taken.symm.append_left _).append_right _).append_right _

/-- The completion request that the helper waits for is counted. -/
theorem Sound.deliverComplete (sound : s.Sound) (answer : Option Int)
    (mem : ⟨tag, .complete event⟩ ∈ s.wire) (awaited : s.helper.awaited = some tag) :
    SimState.Sound { s with
      wire := s.wire.erase ⟨tag, .complete event⟩
      totalFinishedJobs := s.totalFinishedJobs + 1
      counted := event :: s.counted
      replies := (answer.map fun rc => (tag, rc)).toList ++ s.replies } := by
  refine ⟨?_, ?_, ⟨sound.counts.jobs, ?_, sound.counts.epilogs⟩, ?_⟩
  · refine sound.tagged.take mem rfl rfl rfl ?_
    intro reply member
    rcases mem_append.mp member with new | old
    · obtain ⟨rc, _, rfl⟩ := Option.map_eq_some_iff.mp (Option.mem_toList.mp new)
      exact .inr rfl
    · exact .inl old
  · exact sound.numbered.move (underWay_take mem rfl rfl rfl rfl rfl) rfl rfl rfl
  · rw [length_cons, sound.counts.finished]
  · cases place : s.helper with
    | sending waited ending tries =>
      rw [place] at awaited
      obtain rfl := Option.some.inj awaited
      obtain ⟨quiet, ⟨mine, same⟩ | ⟨off, _⟩⟩ := sound.phase.of_sending place
      · obtain ⟨_, body⟩ := SimRequest.mk.inj (sound.tagged.unique mem mine rfl)
        obtain rfl := SimBody.complete.inj body
        exact ⟨quiet, .inr ⟨sound.tagged.erased mem, same.cons event⟩⟩
      · exact absurd ⟨_, mem, rfl⟩ off
    | cycling waited k tries =>
      rw [place] at awaited
      obtain rfl := Option.some.inj awaited
      obtain ⟨_, ⟨mine, _⟩ | ⟨off, _⟩⟩ := sound.phase.of_cycling place
      · obtain ⟨_, body⟩ := SimRequest.mk.inj (sound.tagged.unique mem mine rfl)
        exact SimBody.noConfusion body
      · exact absurd ⟨_, mem, rfl⟩ off
    | _ =>
      rw [place] at awaited
      exact absurd awaited (by simp [HelperPc.awaited])

/-- The cycle message that the helper waits for is taken by its handler. -/
theorem Sound.deliverCycle (sound : s.Sound) {k : Nat} (mem : ⟨tag, .cycle k⟩ ∈ s.wire)
    (awaited : s.helper.awaited = some tag) :
    SimState.Sound { s with
      wire := s.wire.erase ⟨tag, .cycle k⟩
      cycles := Function.update s.cycles tag (.waitFinished k) } := by
  refine ⟨?_, ?_, ⟨sound.counts.jobs, sound.counts.finished, sound.counts.epilogs⟩, ?_⟩
  · exact sound.tagged.take mem rfl rfl rfl fun reply old => .inl old
  · exact sound.numbered.move (underWay_take mem rfl rfl rfl rfl rfl) rfl rfl rfl
  · cases place : s.helper with
    | sending waited ending tries =>
      rw [place] at awaited
      obtain rfl := Option.some.inj awaited
      obtain ⟨_, ⟨mine, _⟩ | ⟨off, _⟩⟩ := sound.phase.of_sending place
      · obtain ⟨_, body⟩ := SimRequest.mk.inj (sound.tagged.unique mem mine rfl)
        exact SimBody.noConfusion body
      · exact absurd ⟨_, mem, rfl⟩ off
    | cycling waited reported tries =>
      rw [place] at awaited
      obtain rfl := Option.some.inj awaited
      obtain ⟨jobs, ⟨mine, quiet, same⟩ | ⟨off, _⟩⟩ := sound.phase.of_cycling place
      · obtain ⟨_, body⟩ := SimRequest.mk.inj (sound.tagged.unique mem mine rfl)
        obtain rfl := SimBody.cycle.inj body
        refine ⟨jobs, .inr ⟨sound.tagged.erased mem, ?_, ?_⟩⟩
        · intro other ne
          show (Function.update s.cycles waited _ other).Inactive
          rw [Function.update_of_ne ne]
          exact quiet other
        · show SimState.CyclePhase _ waited (Function.update s.cycles waited _ waited)
          rw [Function.update_self]
          refine ⟨?_, jobs, same⟩
          intro rc replied
          exact (sound.tagged.replied _ replied).2 ⟨_, mem, rfl⟩
      · exact absurd ⟨_, mem, rfl⟩ off
    | _ =>
      rw [place] at awaited
      exact absurd awaited (by simp [HelperPc.awaited])

/-- An epilog message is answered, or refused without an answer. -/
theorem Sound.deliverEpilog (sound : s.Sound) (answer : Option Int)
    (mem : ⟨tag, .epilog event⟩ ∈ s.wire) :
    SimState.Sound { s with
      wire := s.wire.erase ⟨tag, .epilog event⟩
      arriving := (answer.map fun _ => event).toList ++ s.arriving } := by
  have taken : (s.wire.filterMap fun request => request.body.epilogOf).Perm
      (event :: (s.wire.erase ⟨tag, .epilog event⟩).filterMap
        fun request => request.body.epilogOf) := filterMap_erase mem
  have busy : s.underWay ≠ [] := by
    refine ne_nil_of_mem (a := event) ?_
    exact mem_append_left _ (mem_append_right _ (taken.mem_iff.mpr mem_cons_self))
  refine ⟨?_, ?_, ⟨sound.counts.jobs, sound.counts.finished, sound.counts.epilogs⟩, ?_⟩
  · exact sound.tagged.take mem rfl rfl rfl fun reply old => .inl old
  · refine @Numbered.move s _ sound.numbered (answer.elim [event] fun _ => []) ?_ rfl rfl rfl
    simp only [perm_iff_count, underWay, count_append, taken.count_eq]
    cases answer with
    | none =>
      simp only [Option.elim_none, Option.map_none, Option.toList_none, count_cons, count_nil]
      omega
    | some rc =>
      simp only [Option.elim_some, Option.map_some, Option.toList_some, count_cons, count_nil]
      omega
  · refine sound.phase.move busy rfl rfl rfl rfl rfl rfl ?_ ?_
    · intro request member notEpilog
      refine (mem_erase_of_ne ?_).mpr member
      rintro rfl
      exact absurd notEpilog (by simp [SimBody.epilogOf])
    · rintro tag' _ off ⟨request, left, same⟩
      exact off ⟨request, mem_of_mem_erase left, same⟩

theorem Sound.rpcStep (sound : s.Sound) {action : RpcAction}
    (once : OnceDelivered s (.rpc action)) (step : rpcStep s action = some after) :
    after.Sound := by
  cases action with
  | deliver request answer =>
    obtain ⟨tag, body⟩ := request
    simp only [Simulator.rpcStep] at step
    split_ifs at step with mem
    cases body with
    | complete event =>
      obtain rfl := Option.some.inj step
      exact sound.deliverComplete answer mem once
    | epilog event =>
      obtain rfl := Option.some.inj step
      exact sound.deliverEpilog answer mem
    | cycle k =>
      obtain rfl := Option.some.inj step
      exact sound.deliverCycle mem once
  | arrive event =>
    simp only [Simulator.rpcStep] at step
    split_ifs at step with mem
    obtain rfl := Option.some.inj step
    have busy : s.underWay ≠ [] := by
      refine ne_nil_of_mem (a := event) ?_
      exact mem_append_right _ mem
    refine ⟨?_, ?_, ⟨sound.counts.jobs, sound.counts.finished, ?_⟩, ?_⟩
    · exact sound.tagged.same rfl rfl rfl fun _ waiting => waiting
    · refine @Numbered.move s _ sound.numbered [] ?_ rfl rfl rfl
      have moved := (perm_cons_erase mem).count_eq
      simp only [perm_iff_count, underWay, count_append, moved]
      simp only [count_cons, count_nil]
      omega
    · rw [length_cons, sound.counts.epilogs]
    · refine sound.phase.move busy rfl rfl rfl rfl rfl rfl ?_ ?_
      · exact fun request member _ => member
      · exact fun _ _ off => off

/-! ## Steps of the cycle handlers -/

theorem Phase.setCycle (phase : s.Phase) {pc : CyclePc} (active : ¬ (s.cycles tag).Inactive)
    (helper : after.helper = s.helper) (jobs : after.jobsEnded = s.jobsEnded)
    (wire : after.wire = s.wire) (cycles : after.cycles = Function.update s.cycles tag pc)
    (handler : after.CyclePhase tag pc) : after.Phase := by
  obtain ⟨tries, place, off, alone, _⟩ := phase.active active
  rw [Phase, helper, place]
  refine ⟨jobs.symm, .inr ⟨?_, ?_, ?_⟩⟩
  · rw [OnWire, wire]
    exact off
  · intro other ne
    rw [cycles, Function.update_of_ne ne]
    exact alone other ne
  · rw [cycles, Function.update_self]
    exact handler

theorem Phase.handler (phase : s.Phase) {pc : CyclePc} (stand : s.cycles tag = pc)
    (active : ¬ pc.Inactive) : s.CyclePhase tag pc := by
  obtain ⟨_, _, _, _, handler⟩ := phase.active (stand ▸ active)
  rw [stand] at handler
  exact handler

theorem Sound.allArrived (sound : s.Sound) (place : s.helper = .cycling tag s.jobsEnded tries)
    (all : s.arrivedJobsEpilogs = s.jobsEnded) : s.underWay = [] := by
  have bound := sound.numbered.length_le (by simp [place]) (by simp [place])
  rw [length_append, ← sound.counts.epilogs, ← sound.counts.jobs, all] at bound
  exact length_eq_zero_iff.mp (by omega)

theorem Sound.cycleHandlerStep (sound : s.Sound) {action : CycleStep}
    (step : cycleHandlerStep s tag action = some after) : after.Sound := by
  have kept : (s.underWay ++ s.arrived ++ []).Perm (s.underWay ++ s.arrived) := by
    rw [append_nil]
  cases action with
  | seeFinished =>
    simp only [Simulator.cycleHandlerStep] at step
    split at step
    · rename_i k stand
      split_ifs at step
      obtain rfl := Option.some.inj step
      have active : ¬ (CyclePc.waitFinished k).Inactive := by simp [CyclePc.Inactive]
      exact ⟨sound.tagged.same rfl rfl rfl fun _ waiting => waiting,
        sound.numbered.move kept rfl rfl rfl,
        ⟨sound.counts.jobs, sound.counts.finished, sound.counts.epilogs⟩,
        sound.phase.setCycle (stand ▸ active) rfl rfl rfl rfl (sound.phase.handler stand active)⟩
    · exact absurd step (by simp)
  | resetFinished =>
    simp only [Simulator.cycleHandlerStep] at step
    split at step
    · rename_i k stand
      obtain rfl := Option.some.inj step
      have active : ¬ (CyclePc.resetFinished k).Inactive := by simp [CyclePc.Inactive]
      obtain ⟨noReply, jobs, _⟩ := sound.phase.handler stand active
      exact ⟨sound.tagged.same rfl rfl rfl fun _ waiting => waiting,
        sound.numbered.move kept rfl rfl rfl, ⟨sound.counts.jobs, rfl, sound.counts.epilogs⟩,
        sound.phase.setCycle (stand ▸ active) rfl rfl rfl rfl ⟨noReply, jobs, rfl⟩⟩
    · exact absurd step (by simp)
  | seeEpilogs =>
    simp only [Simulator.cycleHandlerStep] at step
    split at step
    · rename_i k stand
      split_ifs at step with all
      obtain rfl := Option.some.inj step
      have active : ¬ (CyclePc.waitEpilogs k).Inactive := by simp [CyclePc.Inactive]
      obtain ⟨noReply, rfl, counted⟩ := sound.phase.handler stand active
      obtain ⟨_, place, _⟩ := sound.phase.active (stand ▸ active)
      exact ⟨sound.tagged.same rfl rfl rfl fun _ waiting => waiting,
        sound.numbered.move kept rfl rfl rfl,
        ⟨sound.counts.jobs, sound.counts.finished, sound.counts.epilogs⟩,
        sound.phase.setCycle (stand ▸ active) rfl rfl rfl rfl
          ⟨noReply, counted, sound.allArrived place all⟩⟩
    · exact absurd step (by simp)
  | resetEpilogs =>
    simp only [Simulator.cycleHandlerStep] at step
    split at step
    · rename_i k stand
      obtain rfl := Option.some.inj step
      have active : ¬ (CyclePc.resetEpilogs k).Inactive := by simp [CyclePc.Inactive]
      obtain ⟨noReply, counted, underWay⟩ := sound.phase.handler stand active
      refine ⟨sound.tagged.same rfl rfl rfl fun _ waiting => waiting,
        @Numbered.move s _ sound.numbered s.arrived ?_ rfl rfl rfl,
        ⟨sound.counts.jobs, sound.counts.finished, rfl⟩,
        sound.phase.setCycle (stand ▸ active) rfl rfl rfl rfl ⟨noReply, counted, underWay, rfl⟩⟩
      show (s.underWay ++ [] ++ s.arrived).Perm _
      rw [append_nil]
    · exact absurd step (by simp)
  | answer =>
    simp only [Simulator.cycleHandlerStep] at step
    split at step
    · rename_i stand
      obtain rfl := Option.some.inj step
      have active : ¬ CyclePc.working.Inactive := by simp [CyclePc.Inactive]
      obtain ⟨_, place, off, _⟩ := sound.phase.active (stand ▸ active)
      refine ⟨⟨sound.tagged.distinct, sound.tagged.used, sound.tagged.awaited, ?_⟩,
        sound.numbered.move kept rfl rfl rfl,
        ⟨sound.counts.jobs, sound.counts.finished, sound.counts.epilogs⟩,
        sound.phase.setCycle (stand ▸ active) rfl rfl rfl rfl (sound.phase.handler stand active).2⟩
      intro reply mem
      rcases mem_cons.mp mem with rfl | old
      · exact ⟨sound.tagged.awaited tag (by rw [place]; rfl), off⟩
      · exact sound.tagged.replied reply old
    · exact absurd step (by simp)

/-! ## Runs -/

theorem Sound.simStep (sound : s.Sound) {action : SimAction} (once : OnceDelivered s action)
    (step : simStep s action = some after) : after.Sound := by
  cases action with
  | helper action => exact sound.helperStep once step
  | kill action => exact sound.killStep step
  | rpc action => exact sound.rpcStep once step
  | cycle tag action => exact sound.cycleHandlerStep step

theorem Sound.simRun (sound : s.Sound) {actions : List SimAction}
    (once : OnceDeliveredRun s actions) (run : simRun s actions = some after) : after.Sound := by
  induction actions generalizing s with
  | nil =>
    obtain rfl := Option.some.inj run
    exact sound
  | cons action rest ih =>
    obtain ⟨middle, step, run⟩ := Option.bind_eq_some_iff.mp run
    exact ih (sound.simStep once.1 step) (once.2 middle step) run

theorem start_sound : start.Sound where
  tagged := ⟨nodup_nil, by simp [start], by simp [start, HelperPc.awaited], by simp [start]⟩
  numbered := ⟨nodup_nil, by simp [start, underWay], by simp [start, underWay],
    nodup_nil, by simp [start], by simp [start]⟩
  counts := ⟨rfl, rfl, rfl⟩
  phase := ⟨fun _ => .inl rfl, rfl, rfl, rfl⟩

theorem Sound.countsOnce (sound : s.Sound) : s.CountsOnce := by
  have counted : ∀ tag k, s.cycles tag = .waitFinished k →
      s.ended.Nodup ∧ s.ended.length = k ∧ s.counted.Perm s.ended := by
    intro tag k stand
    obtain ⟨_, jobs, same⟩ := sound.phase.handler stand (by simp [CyclePc.Inactive])
    exact ⟨sound.numbered.ended, by rw [jobs, sound.counts.jobs], same⟩
  refine ⟨counted, ?_, ?_⟩
  · intro tag k stand
    obtain ⟨_, length, same⟩ := counted tag k stand
    rw [sound.counts.finished, same.length_eq, length]
  · intro tag k stand
    have active : ¬ (CyclePc.waitEpilogs k).Inactive := by simp [CyclePc.Inactive]
    obtain ⟨_, jobs, _⟩ := sound.phase.handler stand active
    obtain ⟨_, place, _⟩ := sound.phase.active (stand ▸ active)
    have bound := sound.numbered.length_le (by simp [place]) (by simp [place])
    rw [length_append] at bound
    rw [jobs, sound.counts.jobs, sound.counts.epilogs]
    omega

end SimState

theorem OnceDeliveredRun.cons {s after : SimState} {action : SimAction} {rest : List SimAction}
    (once : OnceDelivered s action) (step : simStep s action = some after)
    (tail : OnceDeliveredRun after rest) : OnceDeliveredRun s (action :: rest) := by
  refine ⟨once, ?_⟩
  intro other same
  obtain rfl := Option.some.inj (step.symm.trans same)
  exact tail

/-- In every run in which the controller takes no completion or cycle request
whose reply the helper does not get, each cycle message finds every ended job
counted once and not more epilogs than it reports. -/
theorem onceDeliveredRun_countsOnce (actions : List SimAction)
    (once : OnceDeliveredRun .start actions) (s : SimState)
    (run : simRun .start actions = some s) : s.CountsOnce :=
  (SimState.start_sound.simRun once run).countsOnce

/-- A job ends and its completion is answered at the second try; the first one did
not reach the controller. -/
def secondTryRun : List SimAction :=
  [.helper .wake, .helper .due, .helper .timeout, .rpc (.deliver ⟨1, .complete 0⟩ (some 0)),
    .helper (.reply 0), .helper .drained, .kill (.kill 0), .rpc (.deliver ⟨2, .epilog 0⟩ (some 0)),
    .kill (.done 0), .helper .epilogsDone, .rpc (.deliver ⟨3, .cycle 1⟩ none)]

theorem secondTryRun_countsOnce :
    ∃ s, simRun .start secondTryRun = some s ∧ s.cycles 3 = .waitFinished 1 ∧
      s.totalFinishedJobs = 1 ∧ s.CountsOnce := by
  refine ⟨_, rfl, rfl, rfl, onceDeliveredRun_countsOnce secondTryRun ?_ _ rfl⟩
  exact .cons trivial rfl (.cons trivial rfl (.cons ⟨_, mem_cons_self, rfl⟩ rfl
    (.cons rfl rfl (.cons trivial rfl (.cons trivial rfl (.cons trivial rfl (.cons trivial rfl
      (.cons trivial rfl (.cons trivial rfl (.cons rfl rfl trivial))))))))))

/-- The reply to a completion is lost and the second try is answered: the cycle
message reports one job and finds two. -/
theorem lostReply_overshoots :
    ¬ ∀ (actions : List SimAction) (s : SimState), simRun .start actions = some s →
      s.CountsOnce := by
  intro all
  have once := all
    [.helper .wake, .helper .due, .rpc (.deliver ⟨0, .complete 0⟩ (some 0)), .helper .timeout,
      .rpc (.deliver ⟨1, .complete 0⟩ (some eslurmAlreadyDone)), .helper (.reply eslurmAlreadyDone),
      .helper .drained, .kill (.kill 0), .rpc (.deliver ⟨2, .epilog 0⟩ (some 0)),
      .kill (.done 0), .helper .epilogsDone, .rpc (.deliver ⟨3, .cycle 1⟩ none)] _ rfl
  exact absurd (once.finished 3 1 rfl) (by decide)

end SlurmSim.Simulator
