import SlurmSim.Hostlist.Ops

/-!
# Reserved ports

Every configured port has the set of nodes on which a job step has it reserved. Steps
take ports in turn and give them back, and a new range rebuilds the table from the steps
that are listed. Nodes are of any type; a bitmap is the set of its nodes. How ports are
written as text and read back is left to the host lists.
-/

namespace SlurmSim.Controller.PortMgr

open SlurmSim.Common.Bitmap List

/-- The text of a list of ports, and the hosts of such a text between brackets, read with
`atoi`. -/
structure PortText where
  print : List Nat → List Char
  read : List Char → Option (List Nat)

/-- The fields of `struct step_record` for the ports. -/
structure Step where
  resvPortCnt : Nat
  resvPorts : Option (List Char)
  resvPortArray : Option (List Nat)
  state : Nat
  deriving DecidableEq, Repr

/-- The first state of a step that runs. -/
def jobRunning : Nat := 1

/-- The variables of the port manager and the steps. Past the last port the table is not
used. -/
structure Ports (S N : Type) where
  portResvTable : Nat → Finset N
  portResvCnt : Nat
  portResvMin : Nat
  portResvMax : Nat
  lastPortAlloc : Nat
  step : S → Step

variable {S N : Type} [DecidableEq S] [DecidableEq N]

/-- A loop that changes the bitmaps of some ports, by their indices. -/
def eachIndex (change : Finset N → Finset N) (table : Nat → Finset N) (indices : List Nat) :
    Nat → Finset N :=
  indices.foldl (fun table j => Function.update table j (change (table j))) table

/-- The indices of the ports of an array that are configured. -/
def Ports.indices (ports : Ports S N) (array : List Nat) : List Nat :=
  (array.filter fun port => ¬ (port < ports.portResvMin ∨ ports.portResvMax < port)).map
    fun port => port - ports.portResvMin

section Operations

variable (nodes : S → Finset N) (text : PortText)

/-- `_rebuild_port_array`; `none` when the array has no room for the ports of the text. -/
def rebuildPortArray (step : Step) (resvPorts : List Char) : Option Step :=
  match text.read resvPorts with
  | none => some { step with resvPorts := none }
  | some hosts =>
    let array := hosts.filter fun port => 0 < port
    if step.resvPortCnt < array.length then none
    else some { step with
      resvPorts := if array = [] then none else some resvPorts
      resvPortArray := some array
      resvPortCnt := array.length }

/-- `_make_step_resv`; `none` when it reads an array that is not there. -/
def makeStepResv (ports : Ports S N) (s : S) : Option (Ports S N) :=
  let step := ports.step s
  match step.resvPorts with
  | none => some ports
  | some resvPorts =>
    if step.resvPortCnt = 0 ∨ resvPorts = [] then some ports
    else do
      let step ← if step.resvPortArray = none then rebuildPortArray text step resvPorts
        else some step
      match step.resvPortArray with
      | none => none
      | some array => some { ports with
          portResvTable := eachIndex (· ∪ nodes s) ports.portResvTable
            (ports.indices (array.take step.resvPortCnt))
          step := Function.update ports.step s step }

/-- `_make_all_resv` over the steps of all jobs. -/
def makeAllResv (ports : Ports S N) : List S → Option (Ports S N)
  | [] => some ports
  | s :: rest =>
    if (ports.step s).state < jobRunning then makeAllResv ports rest
    else (makeStepResv nodes text ports s).bind fun ports => makeAllResv ports rest

/-- `strstr`: the text from the first place where the pattern stands. -/
def strstr (str pattern : List Char) : Option (List Char) :=
  str.tails.find? fun tail => pattern.isPrefixOf tail

/-- The range of `MpiParams`; the outer `none` is no `ports=`, the inner one an invalid
range. -/
def parsePorts (mpiParams : Option (List Char)) : Option (Option (Nat × Nat)) :=
  match mpiParams.bind fun params => strstr params "ports=".toList with
  | none => none
  | some tmpP =>
    let (pMin, tmpE) := strtol (tmpP.drop 6)
    match tmpE with
    | '-' :: tmpE =>
      let pMax := toInt32 (strtol tmpE).1
      if toInt32 pMin < 1 ∨ pMax < toInt32 pMin then some none
      else some (some ((toInt32 pMin).toNat, pMax.toNat))
    | _ => some none

/-- `reserve_port_config`, with the steps that the jobs list, and whether it succeeds. -/
def reservePortConfig (ports : Ports S N) (listed : List S) (mpiParams : Option (List Char)) :
    Option (Ports S N × Bool) :=
  match parsePorts mpiParams with
  | none => some ({ ports with
      portResvTable := fun _ => ∅
      portResvCnt := 0
      portResvMin := 0
      portResvMax := 0 }, true)
  | some none => some (ports, false)
  | some (some (pMin, pMax)) =>
    if pMin = ports.portResvMin ∧ pMax = ports.portResvMax then some (ports, true)
    else
      (makeAllResv nodes text { ports with
        portResvTable := fun _ => ∅
        portResvCnt := pMax - pMin + 1
        portResvMin := pMin
        portResvMax := pMax } listed).map fun ports => (ports, true)

/-- The loop of `resv_port_alloc`, with the number of its rounds left: the last port it
looked at and the ports it found. -/
def findPorts (ports : Ports S N) (set : Finset N) (want : Nat) :
    Nat → Nat → List Nat → Nat × List Nat
  | 0, last, found => (last, found)
  | rounds + 1, last, found =>
    let last := if ports.portResvCnt ≤ last + 1 then 0 else last + 1
    if set ∩ ports.portResvTable last ≠ ∅ then findPorts ports set want rounds last found
    else if want ≤ found.length + 1 then (last, found ++ [last])
    else findPorts ports set want rounds last (found ++ [last])

/-- The values that `resv_port_alloc` returns. -/
inductive AllocResult where
  | success
  | portsInvalid
  | portsBusy
  deriving DecidableEq, Repr

/-- `resv_port_alloc` -/
def resvPortAlloc (ports : Ports S N) (s : S) : Ports S N × AllocResult :=
  let step := ports.step s
  if ports.portResvCnt < step.resvPortCnt then (ports, .portsInvalid)
  else
    let (last, found) :=
      findPorts ports (nodes s) step.resvPortCnt ports.portResvCnt ports.lastPortAlloc []
    if found.length < step.resvPortCnt then ({ ports with lastPortAlloc := last }, .portsBusy)
    else
      let portArray := found.map fun j => j + ports.portResvMin
      ({ ports with
        portResvTable := eachIndex (· ∪ nodes s) ports.portResvTable found
        lastPortAlloc := last
        step := Function.update ports.step s { step with
          resvPorts := some (text.print portArray)
          resvPortArray := some portArray } }, .success)

/-- `resv_port_free` -/
def resvPortFree (ports : Ports S N) (s : S) : Ports S N :=
  match (ports.step s).resvPortArray with
  | none => ports
  | some array => { ports with
      portResvTable := eachIndex (· \ nodes s) ports.portResvTable
        (ports.indices (array.take (ports.step s).resvPortCnt))
      step := Function.update ports.step s { ports.step s with resvPortArray := none } }

end Operations

/-! ## Loops over ports -/

variable {table : Nat → Finset N} {set : Finset N} {indices : List Nat} {j : Nat} {node : N}

theorem mem_eachIndex_union :
    node ∈ eachIndex (· ∪ set) table indices j ↔ node ∈ table j ∨ j ∈ indices ∧ node ∈ set := by
  induction indices generalizing table with
  | nil => simp [eachIndex]
  | cons first rest ih =>
    rw [eachIndex, foldl_cons]
    refine ih.trans ?_
    by_cases here : j = first
    · subst here
      rw [Function.update_self, Finset.mem_union]
      constructor
      · rintro ((before | own) | ⟨-, own⟩)
        · exact .inl before
        · exact .inr ⟨mem_cons_self, own⟩
        · exact .inr ⟨mem_cons_self, own⟩
      · rintro (before | ⟨-, own⟩)
        · exact .inl (.inl before)
        · exact .inl (.inr own)
    · rw [Function.update_of_ne here, mem_cons, or_iff_right here]

theorem mem_eachIndex_sdiff :
    node ∈ eachIndex (· \ set) table indices j ↔ node ∈ table j ∧ ¬ (j ∈ indices ∧ node ∈ set) := by
  induction indices generalizing table with
  | nil => simp [eachIndex]
  | cons first rest ih =>
    rw [eachIndex, foldl_cons]
    refine ih.trans ?_
    by_cases here : j = first
    · subst here
      rw [Function.update_self, Finset.mem_sdiff]
      constructor
      · rintro ⟨⟨before, notOwn⟩, -⟩
        exact ⟨before, fun both => notOwn both.2⟩
      · rintro ⟨before, notBoth⟩
        have notOwn : node ∉ set := fun own => notBoth ⟨mem_cons_self, own⟩
        exact ⟨⟨before, notOwn⟩, fun both => notOwn both.2⟩
    · rw [Function.update_of_ne here, mem_cons, or_iff_right here]

omit [DecidableEq S] [DecidableEq N] in
theorem mem_indices {ports : Ports S N} {array : List Nat} :
    j ∈ ports.indices array ↔ ∃ port ∈ array, ports.portResvMin ≤ port ∧
      port ≤ ports.portResvMax ∧ j = port - ports.portResvMin := by
  simp only [Ports.indices, mem_map, mem_filter, decide_eq_true_eq, not_or, not_lt]
  constructor
  · rintro ⟨port, ⟨inside, low, high⟩, rfl⟩
    exact ⟨port, inside, low, high, rfl⟩
  · rintro ⟨port, inside, low, high, rfl⟩
    exact ⟨port, ⟨inside, low, high⟩, rfl⟩

/-! ## The search for free ports -/

theorem next_mod {cnt : Nat} (some : 0 < cnt) (x : Nat) :
    (if cnt ≤ x % cnt + 1 then 0 else x % cnt + 1) = (x + 1) % cnt := by
  have below := Nat.mod_lt x some
  rw [← Nat.mod_add_mod x cnt 1]
  split_ifs with last
  · rw [show x % cnt + 1 = cnt by omega, Nat.mod_self]
  · exact (Nat.mod_eq_of_lt (by omega)).symm

theorem mod_ne_of_lt {cnt start round other : Nat} (below : round < cnt) (before : other < round) :
    (start + other) % cnt ≠ (start + round) % cnt := by
  intro same
  have eq : other ≡ round [MOD cnt] := Nat.ModEq.add_left_cancel' start same
  have equal := eq.eq_of_lt_of_lt (before.trans below) below
  omega

/-- What the loop of `resv_port_alloc` has found. -/
structure Found (ports : Ports S N) (set : Finset N) (found : List Nat) : Prop where
  distinct : found.Nodup
  configured : ∀ j ∈ found, j < ports.portResvCnt
  free : ∀ j ∈ found, set ∩ ports.portResvTable j = ∅

omit [DecidableEq S] in
/-- The search looks at no port twice; `round` is the number of ports it looked at. -/
theorem findPorts_spec {ports : Ports S N} {want : Nat} (start rounds : Nat) {round last : Nat}
    {found : List Nat} (all : round + rounds = ports.portResvCnt)
    (next : (if ports.portResvCnt ≤ last + 1 then 0 else last + 1) =
      (start + round) % ports.portResvCnt)
    (before : ∀ j ∈ found, ∃ other < round, j = (start + other) % ports.portResvCnt)
    (good : Found ports set found) (few : found.length < want) :
    Found ports set (findPorts ports set want rounds last found).2 ∧
      (findPorts ports set want rounds last found).2.length ≤ want := by
  induction rounds generalizing round last found with
  | zero => exact ⟨good, few.le⟩
  | succ rounds ih =>
    have some : 0 < ports.portResvCnt := by omega
    have after : (if ports.portResvCnt ≤ (start + round) % ports.portResvCnt + 1 then 0
        else (start + round) % ports.portResvCnt + 1) =
        (start + (round + 1)) % ports.portResvCnt := next_mod some (start + round)
    rw [findPorts]
    simp only [next]
    split_ifs with taken enough
    · refine ih (by omega) after (fun j inside => ?_) good few
      obtain ⟨other, earlier, same⟩ := before j inside
      exact ⟨other, by omega, same⟩
    all_goals
      have fresh : (start + round) % ports.portResvCnt ∉ found := by
        intro inside
        obtain ⟨other, earlier, same⟩ := before _ inside
        exact mod_ne_of_lt (by omega) earlier same.symm
      have more : Found ports set (found ++ [(start + round) % ports.portResvCnt]) := by
        refine ⟨?_, ?_, ?_⟩
        · exact nodup_append.mpr ⟨good.distinct, nodup_singleton _,
            fun a inFound b inLast same => fresh (by
              rw [mem_singleton.mp inLast] at same
              exact same ▸ inFound)⟩
        · intro j inside
          rcases mem_append.mp inside with inFound | inLast
          · exact good.configured j inFound
          · rw [mem_singleton.mp inLast]
            exact Nat.mod_lt _ some
        · intro j inside
          rcases mem_append.mp inside with inFound | inLast
          · exact good.free j inFound
          · rw [mem_singleton.mp inLast]
            exact not_not.mp taken
    · refine ⟨more, ?_⟩
      simp only [length_append, length_singleton]
      omega
    · refine ih (by omega) after (fun j inside => ?_) more ?_
      · rcases mem_append.mp inside with inFound | inLast
        · obtain ⟨other, earlier, same⟩ := before j inFound
          exact ⟨other, by omega, same⟩
        · exact ⟨round, by omega, mem_singleton.mp inLast⟩
      · simp only [length_append, length_singleton]
        omega

omit [DecidableEq S] in
theorem findPorts_found (ports : Ports S N) (set : Finset N) {want : Nat} (last : Nat)
    (positive : 0 < want) :
    Found ports set (findPorts ports set want ports.portResvCnt last []).2 ∧
      (findPorts ports set want ports.portResvCnt last []).2.length ≤ want := by
  rcases Nat.eq_zero_or_pos ports.portResvCnt with none | some
  · rw [none, findPorts]
    exact ⟨⟨nodup_nil, fun j inside => absurd inside not_mem_nil,
      fun j inside => absurd inside not_mem_nil⟩, Nat.zero_le _⟩
  · refine findPorts_spec (if ports.portResvCnt ≤ last + 1 then 0 else last + 1)
      ports.portResvCnt (Nat.zero_add _) ?_ (fun j inside => absurd inside not_mem_nil)
      ⟨nodup_nil, fun j inside => absurd inside not_mem_nil,
        fun j inside => absurd inside not_mem_nil⟩ positive
    refine (Nat.mod_eq_of_lt ?_).symm
    split_ifs <;> omega

end SlurmSim.Controller.PortMgr
