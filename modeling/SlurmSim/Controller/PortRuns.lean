import SlurmSim.Controller.PortMgr

/-!
# Runs of the port manager

Steps take ports and give them back while the range is configured anew. The table is
exact as long as a new range finds the steps that hold ports among the running ones of the
job lists, and none that gave its ports back.
-/

namespace SlurmSim.Controller.PortMgr

open List
open Function (update update_of_ne update_self)
open Option (map_eq_some_iff some.inj)

variable {S N : Type} [DecidableEq S] [DecidableEq N]

/-- The port manager, with the ports that every step was given and did not give back. -/
structure World (S N : Type) where
  ports : Ports S N
  held : S → List Nat

/-- A call of the port manager, or a change of a step's state. -/
inductive Event (S : Type) where
  | alloc (s : S)
  | free (s : S)
  | config (listed : List S) (mpiParams : Option (List Char))
  | setState (s : S) (state : Nat)

section Steps

variable (nodes : S → Finset N) (text : PortText)

/-- One event. Ports are taken by a step that asks for some and holds none. -/
def step (w : World S N) : Event S → Option (World S N)
  | .alloc s =>
    if w.held s = [] ∧ 1 ≤ (w.ports.step s).resvPortCnt then
      let (ports, result) := resvPortAlloc nodes text w.ports s
      some ⟨ports, if result = .success then
        update w.held s (((ports.step s).resvPortArray).getD []) else w.held⟩
    else none
  | .free s => some ⟨resvPortFree nodes w.ports s, update w.held s []⟩
  | .config listed mpiParams =>
    (reservePortConfig nodes text w.ports listed mpiParams).map fun (ports, _) =>
      ⟨ports, w.held⟩
  | .setState s state => some { w with ports := { w.ports with
      step := update w.ports.step s { w.ports.step s with state := state } } }

/-- The port manager before the first configuration, and steps without ports. -/
structure Initial (w : World S N) : Prop where
  noPorts : w.ports.portResvCnt = 0 ∧ w.ports.portResvMin = 0 ∧ w.ports.portResvMax = 0
  noArray : ∀ s, (w.ports.step s).resvPortArray = none
  noText : ∀ s, (w.ports.step s).resvPorts = none
  noHeld : ∀ s, w.held s = []

/-- The states of the runs whose events meet a condition. -/
inductive Reachable (condition : World S N → Event S → Prop) (start : World S N) :
    World S N → Prop where
  | start : Reachable condition start start
  | step {w after : World S N} {event : Event S} (reached : Reachable condition start w)
      (meets : condition w event) (taken : step nodes text w event = some after) :
      Reachable condition start after

/-- The table has for every configured port the nodes of the steps that hold it, and
steps with a common node hold different ports. A step that takes ports gets as many as it
asks for, all different and configured, and otherwise nothing is changed. -/
structure Exact (w : World S N) : Prop where
  table : ∀ port, w.ports.portResvMin ≤ port → port < w.ports.portResvMin + w.ports.portResvCnt →
    ∀ node, node ∈ w.ports.portResvTable (port - w.ports.portResvMin) ↔
      ∃ s, port ∈ w.held s ∧ node ∈ nodes s
  apart : ∀ s t port, s ≠ t → port ∈ w.held s → port ∈ w.held t → Disjoint (nodes s) (nodes t)
  given : ∀ s, 1 ≤ (w.ports.step s).resvPortCnt →
    (resvPortAlloc nodes text w.ports s).2 = .success →
    ∃ array, ((resvPortAlloc nodes text w.ports s).1.step s).resvPortArray = some array ∧
      array.Nodup ∧ array.length = (w.ports.step s).resvPortCnt ∧
      ∀ port ∈ array, w.ports.portResvMin ≤ port ∧
        port < w.ports.portResvMin + w.ports.portResvCnt
  refused : ∀ s, (resvPortAlloc nodes text w.ports s).2 ≠ .success →
    (resvPortAlloc nodes text w.ports s).1.portResvTable = w.ports.portResvTable ∧
      (resvPortAlloc nodes text w.ports s).1.step = w.ports.step

end Steps

/-- A new range is configured when all steps that hold ports are listed in a state of
`JOB_RUNNING` or later, and no listed step in such a state has the text of ports that it
gave back. -/
def Tended (w : World S N) : Event S → Prop
  | .config listed mpiParams => ∀ range ∈ (parsePorts mpiParams).join,
      range ≠ (w.ports.portResvMin, w.ports.portResvMax) →
      (∀ s, w.held s ≠ [] → s ∈ listed ∧ jobRunning ≤ (w.ports.step s).state) ∧
      ∀ s ∈ listed, jobRunning ≤ (w.ports.step s).state → (w.ports.step s).resvPorts ≠ none →
        w.held s ≠ []
  | _ => True

/-! ## The invariant -/

variable {nodes : S → Finset N} {text : PortText} {w after : World S N}

/-- A step's record agrees with what it holds. -/
structure Step.Agrees (step : Step) (held : List Nat) : Prop where
  array : step.resvPortArray = if held = [] then none else some held
  cnt : held ≠ [] → held.length = step.resvPortCnt
  ports : held ≠ [] → ∃ ports, step.resvPorts = some ports ∧ ports ≠ []
  positive : ∀ port ∈ held, 1 ≤ port

/-- The table is exact and the records agree with it. -/
structure Sound (nodes : S → Finset N) (w : World S N) : Prop where
  range : (w.ports.portResvCnt = 0 ∧ w.ports.portResvMin = 0 ∧ w.ports.portResvMax = 0) ∨
    1 ≤ w.ports.portResvMin ∧ w.ports.portResvMin ≤ w.ports.portResvMax ∧
      w.ports.portResvCnt = w.ports.portResvMax - w.ports.portResvMin + 1
  agrees : ∀ s, (w.ports.step s).Agrees (w.held s)
  table : ∀ j, j < w.ports.portResvCnt → ∀ node, node ∈ w.ports.portResvTable j ↔
    ∃ s, w.ports.portResvMin + j ∈ w.held s ∧ node ∈ nodes s
  apart : ∀ s t port, s ≠ t → port ∈ w.held s → port ∈ w.held t → Disjoint (nodes s) (nodes t)

namespace Sound

omit [DecidableEq S] [DecidableEq N] in
theorem initial (start : Initial w) : Sound nodes w := by
  have none : ∀ s port, port ∉ w.held s := by
    intro s port inside
    rw [start.noHeld s] at inside
    exact absurd inside not_mem_nil
  refine ⟨.inl start.noPorts, fun s => ⟨?_, ?_, ?_, ?_⟩, ?_, ?_⟩
  · rw [start.noArray, start.noHeld, if_pos rfl]
  · exact fun some => absurd (start.noHeld s) some
  · exact fun some => absurd (start.noHeld s) some
  · exact fun port inside => absurd inside (none s port)
  · intro j below
    rw [start.noPorts.1] at below
    exact absurd below (Nat.not_lt_zero j)
  · exact fun s t port _ inside => absurd inside (none s port)

omit [DecidableEq S] [DecidableEq N] in
theorem mem_indices_iff (sound : Sound nodes w) {array : List Nat} {j : Nat}
    (below : j < w.ports.portResvCnt) :
    j ∈ w.ports.indices array ↔ w.ports.portResvMin + j ∈ array := by
  rw [mem_indices]
  rcases sound.range with ⟨none, -, -⟩ | ⟨-, low, cnt⟩
  · omega
  · constructor
    · rintro ⟨port, inside, from_, to_, rfl⟩
      rwa [Nat.add_sub_cancel' from_]
    · intro inside
      exact ⟨_, inside, by omega, by omega, by omega⟩

theorem free (sound : Sound nodes w) {s : S}
    (taken : step nodes text w (.free s) = some after) : Sound nodes after := by
  obtain rfl := some.inj taken
  have agrees := sound.agrees s
  by_cases none : w.held s = []
  · have array := agrees.array
    rw [if_pos none] at array
    have same : resvPortFree nodes w.ports s = w.ports := by
      simp only [resvPortFree, array]
    have unchanged : update w.held s [] = w.held := by
      rw [← none]
      exact Function.update_eq_self s w.held
    rw [same, unchanged]
    exact sound
  · have array := agrees.array
    rw [if_neg none] at array
    have whole : (w.held s).take (w.ports.step s).resvPortCnt = w.held s :=
      take_of_length_le (agrees.cnt none).le
    simp only [resvPortFree, array, whole]
    have heldOther : ∀ t port, port ∈ update w.held s [] t → t ≠ s ∧ port ∈ w.held t := by
      intro t port mem
      by_cases own : t = s
      · subst own
        rw [update_self] at mem
        exact absurd mem not_mem_nil
      · rw [update_of_ne own] at mem
        exact ⟨own, mem⟩
    refine ⟨sound.range, fun t => ?_, fun j below node => ?_, fun t u port ne inT inU => ?_⟩
    · by_cases own : t = s
      · subst own
        simp only [update_self]
        exact ⟨rfl, fun some => absurd rfl some, fun some => absurd rfl some,
          fun port mem => absurd mem not_mem_nil⟩
      · simp only [update_of_ne own]
        exact sound.agrees t
    · simp only at below ⊢
      rw [mem_eachIndex_sdiff, sound.mem_indices_iff below, sound.table j below node]
      constructor
      · rintro ⟨⟨t, mem, isNode⟩, notOwn⟩
        have other : t ≠ s := by
          rintro rfl
          exact notOwn ⟨mem, isNode⟩
        refine ⟨t, ?_, isNode⟩
        rwa [update_of_ne other]
      · rintro ⟨t, mem, isNode⟩
        obtain ⟨other, before⟩ := heldOther t _ mem
        refine ⟨⟨t, before, isNode⟩, fun own => ?_⟩
        exact Finset.disjoint_left.mp (sound.apart t s _ other before own.1) isNode own.2
    · exact sound.apart t u port ne (heldOther t port inT).2 (heldOther u port inU).2

theorem setState (sound : Sound nodes w) {s : S} {state : Nat}
    (taken : step nodes text w (.setState s state) = some after) : Sound nodes after := by
  obtain rfl := some.inj taken
  refine ⟨sound.range, fun t => ?_, sound.table, sound.apart⟩
  by_cases own : t = s
  · subst own
    simp only [update_self]
    exact ⟨(sound.agrees t).array, (sound.agrees t).cnt, (sound.agrees t).ports,
      (sound.agrees t).positive⟩
  · simp only [update_of_ne own]
    exact sound.agrees t

end Sound

variable {s : S}

theorem resvPortAlloc_success {ports : Ports S N} (asks : 1 ≤ (ports.step s).resvPortCnt)
    (success : (resvPortAlloc nodes text ports s).2 = .success) :
    ∃ last found, Found ports (nodes s) found ∧ found.length = (ports.step s).resvPortCnt ∧
      (resvPortAlloc nodes text ports s).1 = { ports with
        portResvTable := eachIndex (· ∪ nodes s) ports.portResvTable found
        lastPortAlloc := last
        step := update ports.step s { ports.step s with
          resvPorts := some (text.print (found.map fun j => j + ports.portResvMin))
          resvPortArray := some (found.map fun j => j + ports.portResvMin) } } := by
  have search := findPorts_found ports (nodes s) ports.lastPortAlloc asks
  simp only [resvPortAlloc] at success ⊢
  split_ifs at success ⊢ with few short
  exact ⟨_, _, search.1, le_antisymm search.2 (Nat.le_of_not_lt short), rfl⟩

theorem resvPortAlloc_refused {ports : Ports S N}
    (failed : (resvPortAlloc nodes text ports s).2 ≠ .success) :
    ∃ last, (resvPortAlloc nodes text ports s).1 = { ports with lastPortAlloc := last } := by
  simp only [resvPortAlloc] at failed ⊢
  split_ifs at failed ⊢ with few short
  · exact ⟨ports.lastPortAlloc, rfl⟩
  · exact ⟨_, rfl⟩
  · exact absurd rfl failed

theorem mem_map_add {found : List Nat} {low j : Nat} :
    low + j ∈ found.map (fun i => i + low) ↔ j ∈ found := by
  rw [mem_map]
  constructor
  · rintro ⟨i, mem, same⟩
    obtain rfl : i = j := by omega
    exact mem
  · exact fun mem => ⟨j, mem, Nat.add_comm j low⟩

theorem Sound.take (sound : Sound nodes w) {last : Nat} {found : List Nat} {ports : List Char}
    (noText : ports ≠ []) (none : w.held s = []) (asks : 1 ≤ (w.ports.step s).resvPortCnt)
    (good : Found w.ports (nodes s) found) (enough : found.length = (w.ports.step s).resvPortCnt) :
    Sound nodes ⟨{ w.ports with
      portResvTable := eachIndex (· ∪ nodes s) w.ports.portResvTable found
      lastPortAlloc := last
      step := update w.ports.step s { w.ports.step s with
        resvPorts := some ports
        resvPortArray := some (found.map fun j => j + w.ports.portResvMin) } },
      update w.held s (found.map fun j => j + w.ports.portResvMin)⟩ := by
  have some : found.map (fun j => j + w.ports.portResvMin) ≠ [] := by
    rw [Ne, map_eq_nil_iff, ← length_eq_zero_iff]
    omega
  have clear : ∀ t j, j ∈ found → w.ports.portResvMin + j ∈ w.held t →
      Disjoint (nodes s) (nodes t) := by
    intro t j inFound mem
    refine Finset.disjoint_left.mpr fun node isOwn isOther => ?_
    have inTable := (sound.table j (good.configured j inFound) node).mpr ⟨t, mem, isOther⟩
    have empty := good.free j inFound
    exact Finset.notMem_empty node (empty ▸ Finset.mem_inter.mpr ⟨isOwn, inTable⟩)
  have ofOwn : ∀ port, port ∈ found.map (fun j => j + w.ports.portResvMin) →
      ∃ j ∈ found, port = w.ports.portResvMin + j := by
    intro port mem
    obtain ⟨j, inFound, rfl⟩ := mem_map.mp mem
    exact ⟨j, inFound, Nat.add_comm _ _⟩
  refine ⟨sound.range, fun t => ?_, fun j below node => ?_, fun t u port ne inT inU => ?_⟩
  · by_cases own : t = s
    · subst own
      simp only [update_self]
      refine ⟨(if_neg some).symm, fun _ => ?_, fun _ => ⟨ports, rfl, noText⟩, fun port mem => ?_⟩
      · rw [length_map, enough]
      · obtain ⟨j, inFound, rfl⟩ := ofOwn port mem
        have below := good.configured j inFound
        rcases sound.range with ⟨empty, -, -⟩ | ⟨pos, -, -⟩
        · omega
        · omega
    · simp only [update_of_ne own]
      exact sound.agrees t
  · simp only at below ⊢
    rw [mem_eachIndex_union, sound.table j below node]
    constructor
    · rintro (⟨t, mem, isNode⟩ | ⟨inFound, isNode⟩)
      · have other : t ≠ s := by
          rintro rfl
          rw [none] at mem
          exact absurd mem not_mem_nil
        refine ⟨t, ?_, isNode⟩
        rwa [update_of_ne other]
      · refine ⟨s, ?_, isNode⟩
        rw [update_self]
        exact mem_map_add.mpr inFound
    · rintro ⟨t, mem, isNode⟩
      by_cases own : t = s
      · subst own
        rw [update_self] at mem
        exact .inr ⟨mem_map_add.mp mem, isNode⟩
      · rw [update_of_ne own] at mem
        exact .inl ⟨t, mem, isNode⟩
  · simp only at inT inU
    by_cases ownT : t = s
    · subst ownT
      rw [update_self] at inT
      rw [update_of_ne ne.symm] at inU
      obtain ⟨j, inFound, rfl⟩ := ofOwn port inT
      exact clear u j inFound inU
    · rw [update_of_ne ownT] at inT
      by_cases ownU : u = s
      · subst ownU
        rw [update_self] at inU
        obtain ⟨j, inFound, rfl⟩ := ofOwn port inU
        exact (clear t j inFound inT).symm
      · rw [update_of_ne ownU] at inU
        exact sound.apart t u port ne inT inU

theorem Sound.alloc (sound : Sound nodes w) (printed : ∀ ports, ports ≠ [] → text.print ports ≠ [])
    (taken : step nodes text w (.alloc s) = some after) : Sound nodes after := by
  simp only [step] at taken
  split_ifs at taken with may success
  · obtain ⟨none, asks⟩ := may
    obtain ⟨last, found, good, enough, same⟩ := resvPortAlloc_success asks success
    obtain rfl := some.inj taken
    rw [same]
    simp only [update_self, Option.getD_some]
    refine sound.take (printed _ ?_) none asks good enough
    rw [Ne, map_eq_nil_iff, ← length_eq_zero_iff]
    omega
  · obtain ⟨last, same⟩ := resvPortAlloc_refused success
    obtain rfl := some.inj taken
    rw [same]
    exact ⟨sound.range, sound.agrees, sound.table, sound.apart⟩

/-! ## A new range -/

theorem makeStepResv_tended {ports : Ports S N} {held : List Nat}
    (agrees : (ports.step s).Agrees held) (kept : (ports.step s).resvPorts ≠ none → held ≠ []) :
    makeStepResv nodes text ports s = some { ports with
      portResvTable := eachIndex (· ∪ nodes s) ports.portResvTable (ports.indices held) } := by
  by_cases none : held = []
  · subst none
    have noText : (ports.step s).resvPorts = none := by
      by_contra some
      exact kept some rfl
    simp only [makeStepResv, noText]
    rfl
  · obtain ⟨resvPorts, isText, some⟩ := agrees.ports none
    have cnt := agrees.cnt none
    have array := agrees.array
    rw [if_neg none] at array
    have pos : (ports.step s).resvPortCnt ≠ 0 := by
      rw [← cnt]
      exact fun zero => none (length_eq_zero_iff.mp zero)
    have whole : held.take (ports.step s).resvPortCnt = held := take_of_length_le cnt.le
    simp [makeStepResv, isText, pos, some, array, whole]

theorem makeAllResv_tended {held : S → List Nat} {listed : List S} {ports : Ports S N}
    (agrees : ∀ s, (ports.step s).Agrees (held s))
    (kept : ∀ s ∈ listed, jobRunning ≤ (ports.step s).state → (ports.step s).resvPorts ≠ none →
      held s ≠ []) :
    ∃ table, makeAllResv nodes text ports listed = some { ports with portResvTable := table } ∧
      ∀ j node, node ∈ table j ↔ node ∈ ports.portResvTable j ∨
        ∃ s ∈ listed, jobRunning ≤ (ports.step s).state ∧ j ∈ ports.indices (held s) ∧
          node ∈ nodes s := by
  induction listed generalizing ports with
  | nil => exact ⟨ports.portResvTable, rfl, by simp⟩
  | cons s rest ih =>
    have keptRest := fun t mem => kept t (mem_cons_of_mem s mem)
    rw [makeAllResv]
    split_ifs with early
    · obtain ⟨table, made, exact⟩ := ih agrees keptRest
      refine ⟨table, made, fun j node => (exact j node).trans ?_⟩
      simp only [mem_cons, exists_eq_or_imp, Nat.not_le.mpr early, false_and, false_or]
    · have running := Nat.le_of_not_lt early
      rw [makeStepResv_tended (agrees s) (kept s mem_cons_self running)]
      obtain ⟨table, made, exact⟩ := @ih { ports with
        portResvTable := eachIndex (· ∪ nodes s) ports.portResvTable (ports.indices (held s)) }
        agrees keptRest
      refine ⟨table, made, fun j node => (exact j node).trans ?_⟩
      simp only [mem_eachIndex_union, mem_cons, exists_eq_or_imp, running, true_and, or_assoc]
      rfl

theorem parsePorts_range {mpiParams : Option (List Char)} {pMin pMax : Nat}
    (parsed : parsePorts mpiParams = some (some (pMin, pMax))) : 1 ≤ pMin ∧ pMin ≤ pMax := by
  unfold parsePorts at parsed
  split at parsed
  · cases parsed
  · simp only at parsed
    split at parsed
    · split_ifs at parsed with invalid
      · exact absurd (some.inj parsed) (Option.some_ne_none _).symm
      · obtain ⟨rfl, rfl⟩ := Prod.mk.inj (some.inj (some.inj parsed))
        omega
    · cases parsed

theorem Sound.config (sound : Sound nodes w) {listed : List S} {mpiParams : Option (List Char)}
    (tended : Tended w (.config listed mpiParams))
    (taken : step nodes text w (.config listed mpiParams) = some after) : Sound nodes after := by
  obtain ⟨⟨ports, ok⟩, configured, rfl⟩ := map_eq_some_iff.mp taken
  rw [reservePortConfig] at configured
  split at configured
  · obtain ⟨rfl, -⟩ := Prod.mk.inj (some.inj configured)
    exact ⟨.inl ⟨rfl, rfl, rfl⟩, sound.agrees, fun j below => absurd below (Nat.not_lt_zero j),
      sound.apart⟩
  · obtain ⟨rfl, -⟩ := Prod.mk.inj (some.inj configured)
    exact sound
  · rename_i pMin pMax parsed
    split_ifs at configured with same
    · obtain ⟨rfl, -⟩ := Prod.mk.inj (some.inj configured)
      exact sound
    · obtain ⟨holders, kept⟩ := tended (pMin, pMax) (by rw [parsed]; rfl)
        fun eq => same (Prod.mk.inj eq)
      obtain ⟨low, high⟩ := parsePorts_range parsed
      obtain ⟨table, made, exact⟩ := @makeAllResv_tended S N _ _ nodes text w.held listed
        { w.ports with
          portResvTable := fun _ => ∅
          portResvCnt := pMax - pMin + 1
          portResvMin := pMin
          portResvMax := pMax } sound.agrees kept
      rw [made] at configured
      obtain ⟨rfl, -⟩ := Prod.mk.inj (some.inj configured)
      refine ⟨.inr ⟨low, high, rfl⟩, sound.agrees, fun j below node => ?_, sound.apart⟩
      simp only at below ⊢
      rw [exact]
      simp only [Finset.notMem_empty, false_or, mem_indices]
      constructor
      · rintro ⟨s, -, -, ⟨port, mem, from_, to_, rfl⟩, isNode⟩
        refine ⟨s, ?_, isNode⟩
        rwa [Nat.add_sub_cancel' from_]
      · rintro ⟨s, mem, isNode⟩
        obtain ⟨isListed, running⟩ := holders s (ne_nil_of_mem mem)
        exact ⟨s, isListed, running, ⟨_, mem, by omega, by omega, by omega⟩, isNode⟩

theorem Sound.step {event : Event S} (sound : Sound nodes w)
    (printed : ∀ ports, ports ≠ [] → text.print ports ≠ []) (tended : Tended w event)
    (taken : PortMgr.step nodes text w event = some after) : Sound nodes after := by
  cases event with
  | alloc s => exact sound.alloc printed taken
  | free s => exact sound.free taken
  | config listed mpiParams => exact sound.config tended taken
  | setState s state => exact sound.setState taken

theorem Reachable.sound {start : World S N} (printed : ∀ ports, ports ≠ [] → text.print ports ≠ [])
    (initial : Initial start) (reached : Reachable nodes text Tended start w) : Sound nodes w := by
  induction reached with
  | start => exact Sound.initial initial
  | step _ meets taken ih => exact ih.step printed meets taken

/-! ## Reserved ports -/

/-- In every run in which a new range finds the steps that hold ports, and no step that gave
them back, among the running steps of the job lists, the table is exact. -/
theorem reserved_ports_exact {start : World S N}
    (printed : ∀ ports, ports ≠ [] → text.print ports ≠ []) (initial : Initial start)
    (reached : Reachable nodes text Tended start w) : Exact nodes text w := by
  have sound := reached.sound printed initial
  refine ⟨fun port low high node => ?_, sound.apart, fun s asks success => ?_, fun s failed => ?_⟩
  · have exact := sound.table (port - w.ports.portResvMin) (by omega) node
    rwa [Nat.add_sub_cancel' low] at exact
  · obtain ⟨last, found, good, enough, same⟩ := resvPortAlloc_success asks success
    rw [same]
    simp only [update_self]
    refine ⟨_, rfl, good.distinct.map fun a b eq => Nat.add_right_cancel eq, ?_, ?_⟩
    · rw [length_map, enough]
    · intro port inside
      obtain ⟨j, inFound, rfl⟩ := mem_map.mp inside
      have below := good.configured j inFound
      omega
  · obtain ⟨last, same⟩ := resvPortAlloc_refused failed
    rw [same]
    exact ⟨rfl, rfl⟩

instance [Fintype S] (w : World S N) : DecidablePred (Tended w)
  | .config listed mpiParams => inferInstanceAs (Decidable (∀ range ∈ (parsePorts mpiParams).join,
      range ≠ (w.ports.portResvMin, w.ports.portResvMax) →
      (∀ s, w.held s ≠ [] → s ∈ listed ∧ jobRunning ≤ (w.ports.step s).state) ∧
      ∀ s ∈ listed, jobRunning ≤ (w.ports.step s).state → (w.ports.step s).resvPorts ≠ none →
        w.held s ≠ []))
  | .alloc _ => inferInstanceAs (Decidable True)
  | .free _ => inferInstanceAs (Decidable True)
  | .setState _ _ => inferInstanceAs (Decidable True)

/-- A list of events that meet a condition. -/
def run (nodes : S → Finset N) (text : PortText) (condition : World S N → Event S → Prop)
    [∀ w, DecidablePred (condition w)] (w : World S N) : List (Event S) → Option (World S N)
  | [] => some w
  | event :: rest =>
    if condition w event then
      (step nodes text w event).bind fun after => run nodes text condition after rest
    else none

theorem Reachable.run {condition : World S N → Event S → Prop} [∀ w, DecidablePred (condition w)]
    {start : World S N} {events : List (Event S)} (reached : Reachable nodes text condition start w)
    (ran : run nodes text condition w events = some after) :
    Reachable nodes text condition start after := by
  induction events generalizing w with
  | nil => exact some.inj ran ▸ reached
  | cons event rest ih =>
    rw [PortMgr.run] at ran
    split_ifs at ran with meets
    obtain ⟨next, taken, ranRest⟩ := Option.bind_eq_some_iff.mp ran
    exact ih (reached.step meets taken) ranRest

/-- `hostlist_shift` until it returns `NULL`. -/
def shiftAll : Nat → Hostlist.HostList → Option (List Hostlist.Name)
  | 0, _ => some []
  | fuel + 1, hl =>
    hl.shift.bind fun shifted =>
      match shifted.1 with
      | none => some []
      | some host => (shiftAll fuel shifted.2).map (host :: ·)

/-- Single ports as a host list writes them, and any text as it reads it. -/
def singlePorts : PortText where
  print ports := List.intercalate [','] (ports.map SlurmSim.Common.Bitmap.decimal)
  read resvPorts := (Hostlist.HostList.create ('[' :: resvPorts ++ [']'])).bind fun hl =>
    (shiftAll hl.nhosts.toNat hl).map fun hosts =>
      hosts.map fun host => (SlurmSim.Common.Bitmap.strtol host).1.toNat

/-- Running steps that ask for one port each, before the first configuration. -/
def freshSteps (S N : Type) : World S N :=
  ⟨⟨fun _ => ∅, 0, 0, 0, 0, fun _ => ⟨1, none, none, jobRunning⟩⟩, fun _ => []⟩

omit [DecidableEq S] [DecidableEq N] in
theorem freshSteps_initial : Initial (freshSteps S N) :=
  ⟨⟨rfl, rfl, rfl⟩, fun _ => rfl, fun _ => rfl, fun _ => rfl⟩

theorem singlePorts_print (ports : List Nat) (some : ports ≠ []) :
    singlePorts.print ports ≠ [] := by
  obtain ⟨first, rest, rfl⟩ := exists_cons_of_ne_nil some
  have digits : SlurmSim.Common.Bitmap.decimal first ≠ [] := by
    rw [SlurmSim.Common.Bitmap.decimal, Ne, map_eq_nil_iff]
    exact Lib.Numerals.numeral_ne_nil 10 first
  cases rest <;> simp [singlePorts, List.intercalate, digits]

/-- Two steps of one node take a port each, one gives it back and leaves its job, and the
range is moved. -/
theorem reserved_ports_moved :
    ∃ w : World Bool Unit, Reachable (fun _ => {()}) singlePorts Tended (freshSteps Bool Unit) w ∧
        w.held true = [6] ∧ w.held false = [] ∧ w.ports.portResvMin = 6 ∧
        Exact (fun _ => {()}) singlePorts w := by
  have checked : (run (fun _ : Bool => ({()} : Finset Unit)) singlePorts Tended (freshSteps Bool Unit)
      [.config [true, false] "ports=5-6".toList, .alloc true, .alloc false, .free false,
        .config [true] "ports=6-9".toList]).map
        (fun w => decide (w.held true = [6] ∧ w.held false = [] ∧ w.ports.portResvMin = 6)) =
      some true := by
    decide +kernel
  obtain ⟨w, ran, holds⟩ := map_eq_some_iff.mp checked
  obtain ⟨own, other, low⟩ := of_decide_eq_true holds
  have reached := Reachable.start.run ran
  exact ⟨w, reached, own, other, low,
    reserved_ports_exact singlePorts_print freshSteps_initial reached⟩

/-- A step that gave its port back but is still listed gets it again from a new range. -/
theorem reserved_ports_revived :
    ¬ ∀ w : World Unit Unit, Reachable (fun _ => {()}) singlePorts (fun _ _ => True)
      (freshSteps Unit Unit) w → Exact (fun _ => {()}) singlePorts w := by
  intro always
  have checked : (run (fun _ : Unit => ({()} : Finset Unit)) singlePorts (fun _ _ => True)
      (freshSteps Unit Unit) [.config [()] "ports=5-6".toList, .alloc (), .free (),
        .config [()] "ports=5-7".toList]).map
        (fun w => decide (w.held () = [] ∧ w.ports.portResvMin = 5 ∧ w.ports.portResvCnt = 3 ∧
          () ∈ w.ports.portResvTable 1)) = some true := by
    decide +kernel
  obtain ⟨w, ran, holds⟩ := map_eq_some_iff.mp checked
  obtain ⟨none, low, cnt, marked⟩ := of_decide_eq_true holds
  have exact := (always w (Reachable.start.run ran)).table 6 (by omega) (by omega) ()
  rw [low] at exact
  obtain ⟨s, inside, -⟩ := exact.mp marked
  rw [none] at inside
  exact absurd inside not_mem_nil

end SlurmSim.Controller.PortMgr
