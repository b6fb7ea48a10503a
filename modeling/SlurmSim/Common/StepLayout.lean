import SlurmSim.Common.CodecRobust

/-!
# Packing and unpacking step layouts

Unpacking fills a layout field by field.  Where the buffer is cut off, what has
been filled in is destroyed again, and the destructor trusts the node count.
-/

namespace SlurmSim.Common.StepLayout

open SlurmSim.Lib.BigEndian List
open SlurmSim.Common.Codec

/-- `slurm_step_layout_t`.  An array without elements is `NULL`, as `xmalloc`
allocates no empty block. -/
structure SlurmStepLayout where
  frontEnd : Option (List UInt8)
  nodeCnt : UInt32
  nodeList : Option (List UInt8)
  planeSize : UInt16
  startProtocolVer : UInt16
  tasks : List UInt16
  taskCnt : UInt32
  taskDist : UInt32
  tids : List (List UInt32)
deriving DecidableEq

/-- A layout fresh from `xmalloc`. -/
def SlurmStepLayout.blank : SlurmStepLayout :=
  ⟨none, 0, none, 0, 0, [], 0, 0, []⟩

/-! ## Packing -/

/-- The task ids of the nodes; a read behind the arrays is not modelled. -/
def packTids (nodes : List (List UInt32 × UInt16)) (buffer : Buf) : Buf :=
  nodes.foldl (fun buffer (tids, tasks) => pack32Array tids tasks.toUInt32 buffer) buffer

def packSlurmStepLayout (protocolVersion : UInt16) (stepLayout : Option SlurmStepLayout)
    (buffer : Buf) : Buf :=
  if slurmMinProtocolVersion ≤ protocolVersion then
    match stepLayout with
    | none => pack16 0 buffer
    | some layout =>
      let buffer := pack16 1 buffer
      let buffer := packstr layout.frontEnd buffer
      let buffer := packstr layout.nodeList buffer
      let buffer := pack32 layout.nodeCnt buffer
      let buffer := pack16 layout.startProtocolVer buffer
      let buffer := pack32 layout.taskCnt buffer
      let buffer := pack32 layout.taskDist buffer
      packTids ((layout.tids.zip layout.tasks).take layout.nodeCnt.toNat) buffer
  else buffer

/-! ## Unpacking -/

/-- Why unpacking stops: the jump to `unpack_error`, or an access outside of
allocated memory or of the range of `int`. -/
inductive Stop where
  | unpackError
  | badMemory
deriving DecidableEq

/-- The rest of the buffer and the layout that is being filled. -/
structure Filling where
  input : List UInt8
  stepLayout : SlurmStepLayout
deriving DecidableEq

/-- Steps of unpacking; a step that stops keeps what it has filled in. -/
abbrev FillM (α : Type) : Type :=
  EStateM Stop Filling α

/-- A value from the buffer, or the jump to `unpack_error`. -/
def safeUnpack {α : Type} (part : Layout α) : FillM α := fun s =>
  match part s.input with
  | some (value, rest) => .ok value { s with input := rest }
  | none => .error .unpackError s

/-- What `unpack16` reads. -/
def word16 : Layout UInt16 := do
  let value ← Layout.bytes 2
  pure (UInt16.ofNat (valueOf value))

/-- The loop of `unpack32_array`. -/
def words32 : Nat → Layout (List UInt32)
  | 0 => pure []
  | n + 1 => do
      let value ← Layout.count
      let values ← words32 n
      pure (value :: values)

def setLayout (update : SlurmStepLayout → SlurmStepLayout) : FillM Unit := fun s =>
  .ok () { s with stepLayout := update s.stepLayout }

/-- What `unpackmem_xmalloc` returns as a string, `NULL` if it has no bytes. -/
def stringOf (str : List UInt8) : Option (List UInt8) :=
  if str = [] then none else some (str.takeWhile (· ≠ 0))

/-- `unpack32_array` into `tids[i]`. -/
def unpack32Array (i : Nat) : FillM UInt32 := do
  let sizeVal ← safeUnpack Layout.count
  if noVal < sizeVal then throw .unpackError
  else do
    setLayout fun layout => { layout with
      tids := layout.tids.set i (List.replicate sizeVal.toNat 0) }
    let values ← safeUnpack (words32 sizeVal.toNat)
    setLayout fun layout => { layout with tids := layout.tids.set i values }
    pure sizeVal

/-- The loop over the nodes that are left, whose index is an `int`. -/
def unpackTids : Nat → Nat → FillM Unit
  | 0, _ => pure ()
  | left + 1, i => do
      let numTids ← unpack32Array i
      setLayout fun layout => { layout with tasks := layout.tasks.set i numTids.toUInt16 }
      if 2 ^ 31 ≤ i + 1 then throw .badMemory else unpackTids left (i + 1)

/-- The fields before the arrays. -/
def unpackHeader : FillM Unit := do
  let frontEnd ← safeUnpack Layout.string
  setLayout fun layout => { layout with frontEnd := stringOf frontEnd }
  let nodeList ← safeUnpack Layout.string
  setLayout fun layout => { layout with nodeList := stringOf nodeList }
  let nodeCnt ← safeUnpack Layout.count
  setLayout fun layout => { layout with nodeCnt := nodeCnt }
  let startProtocolVer ← safeUnpack word16
  setLayout fun layout => { layout with startProtocolVer := startProtocolVer }
  let taskCnt ← safeUnpack Layout.count
  setLayout fun layout => { layout with taskCnt := taskCnt }
  let taskDist ← safeUnpack Layout.count
  setLayout fun layout => { layout with taskDist := taskDist }

/-- Both arrays, with nothing in them yet. -/
def allocateNodes : FillM Unit :=
  setLayout fun layout => { layout with
    tasks := List.replicate layout.nodeCnt.toNat 0
    tids := List.replicate layout.nodeCnt.toNat [] }

def unpackFields : FillM Unit := do
  unpackHeader
  allocateNodes
  let s ← get
  unpackTids s.stepLayout.nodeCnt.toNat 0

/-- The loop of the destructor over the nodes that are left: it reads `tids[i]`
and counts `i` up. -/
def freeTids (tids : List (List UInt32)) : Nat → Nat → Option Unit
  | 0, _ => some ()
  | left + 1, i =>
    if i < tids.length ∧ i + 1 < 2 ^ 31 then freeTids tids left (i + 1) else none

/-- `none` if the destructor leaves the memory of the layout. -/
def slurmStepLayoutDestroy (stepLayout : Option SlurmStepLayout) : Option Unit :=
  match stepLayout with
  | none => some ()
  | some layout => freeTids layout.tids layout.nodeCnt.toNat 0

/-- How unpacking returns: `*layout` in the end, and the rest of the buffer after
a success. -/
inductive Outcome where
  | success (layout : Option SlurmStepLayout) (rest : List UInt8)
  | error (layout : Option SlurmStepLayout)
  | badMemory
deriving DecidableEq

/-- The label `unpack_error`. -/
def unpackError (stepLayout : Option SlurmStepLayout) : Outcome :=
  match slurmStepLayoutDestroy stepLayout with
  | some () => .error none
  | none => .badMemory

/-- `unpack_slurm_step_layout` with the value of `*layout` before the call. -/
def unpackSlurmStepLayout (protocolVersion : UInt16) (layout : Option SlurmStepLayout)
    (input : List UInt8) : Outcome :=
  if slurmMinProtocolVersion ≤ protocolVersion then
    match word16 input with
    | none => unpackError none
    | some (flag, input) =>
      if flag = 0 then .success layout input
      else match unpackFields ⟨input, SlurmStepLayout.blank⟩ with
        | .ok _ s => .success (some s.stepLayout) s.input
        | .error .unpackError s => unpackError (some s.stepLayout)
        | .error .badMemory _ => .badMemory
  else unpackError none

/-! ## Parts of a buffer -/

theorem fill_ok {α β : Type} {step : FillM α} {next : α → FillM β} {s t : Filling} {value : α}
    (ok : step s = .ok value t) : (step >>= next) s = next value t := by
  simp only [bind, EStateM.bind, ok]

theorem fill_error {α β : Type} {step : FillM α} {next : α → FillM β} {s t : Filling} {how : Stop}
    (stopped : step s = .error how t) : (step >>= next) s = .error how t := by
  simp only [bind, EStateM.bind, stopped]

section Parts

variable {α : Type} {part : Layout α} {s : Filling} {value : α} {rest : List UInt8}

theorem safeUnpack_taken (taken : part s.input = some (value, rest)) :
    safeUnpack part s = .ok value { s with input := rest } := by
  unfold safeUnpack
  rw [taken]

theorem safeUnpack_cut (cut : part s.input = none) :
    safeUnpack part s = .error .unpackError s := by
  unfold safeUnpack
  rw [cut]

end Parts

theorem bytes_taken {n : Nat} {bytes : List UInt8} (length : bytes.length = n)
    (rest : List UInt8) : Layout.bytes n (bytes ++ rest) = some (bytes, rest) := by
  have enough : ¬(bytes ++ rest).length < n := by
    rw [length_append]
    omega
  unfold Layout.bytes
  rw [if_neg enough, take_left' length, drop_left' length]

theorem count_taken (value : UInt32) (rest : List UInt8) :
    Layout.count (bytesOf 4 value.toNat ++ rest) = some (value, rest) := by
  have number : UInt32.ofNat (valueOf (bytesOf 4 value.toNat)) = value := by
    rw [valueOf_bytesOf_of_lt value.toNat_lt, UInt32.ofNat_toNat]
  unfold Layout.count
  rw [Layout.bind_some (bytes_taken (length_bytesOf _ _) rest), number]
  rfl

theorem word16_taken (value : UInt16) (rest : List UInt8) :
    word16 (bytesOf 2 value.toNat ++ rest) = some (value, rest) := by
  have number : UInt16.ofNat (valueOf (bytesOf 2 value.toNat)) = value := by
    rw [valueOf_bytesOf_of_lt value.toNat_lt, UInt16.ofNat_toNat]
  unfold word16
  rw [Layout.bind_some (bytes_taken (length_bytesOf _ _) rest), number]
  rfl

theorem words32_taken (values : List UInt32) (rest : List UInt8) :
    words32 values.length (values.flatMap (fun value => bytesOf 4 value.toNat) ++ rest) =
      some (values, rest) := by
  induction values with
  | nil => rfl
  | cons value values ih =>
    rw [flatMap_cons, append_assoc, length_cons, words32,
      Layout.bind_some (count_taken value _), Layout.bind_some ih]
    rfl

theorem string_taken {str : Option (List UInt8)}
    (fits : ∀ s ∈ str, 0 ∉ s ∧ s.length < maxPackMemLen) (rest : List UInt8) :
    ∃ raw, Layout.string (encodeStr str ++ rest) = some (raw, rest) ∧ stringOf raw = str := by
  cases str with
  | none =>
    refine ⟨[], ?_, rfl⟩
    rfl
  | some str =>
    obtain ⟨noZero, short⟩ := fits str rfl
    refine ⟨str ++ [0], ?_, ?_⟩
    · have size : (UInt32.ofNat (str.length + 1)).toNat = str.length + 1 := by
        unfold maxPackMemLen at short
        rw [UInt32.toNat_ofNat', Nat.mod_eq_of_lt (by omega)]
      have counted := count_taken (UInt32.ofNat (str.length + 1)) ((str ++ [0]) ++ rest)
      rw [size] at counted
      have notLong : ¬maxPackMemLen < (UInt32.ofNat (str.length + 1)).toNat := by
        rw [size]
        exact Nat.not_lt.mpr short
      unfold Layout.string
      rw [encodeStr, append_assoc, Layout.bind_some counted, if_neg notLong, size]
      exact bytes_taken (length_append.trans rfl) rest
    · unfold stringOf
      rw [if_neg (by simp), takeWhile_string noZero]

theorem word16_cases (input : List UInt8) :
    (input.length < 2 ∧ word16 input = none) ∨
      ∃ value, 2 ≤ input.length ∧ word16 input = some (value, input.drop 2) := by
  by_cases cut : input.length < 2
  · exact Or.inl ⟨cut, Layout.bind_none (if_pos cut)⟩
  · exact Or.inr ⟨_, Nat.not_lt.mp cut, Layout.bind_some (if_neg cut)⟩

theorem count_cases (input : List UInt8) :
    (input.length < 4 ∧ Layout.count input = none) ∨
      ∃ value, 4 ≤ input.length ∧ Layout.count input = some (value, input.drop 4) := by
  by_cases cut : input.length < 4
  · exact Or.inl ⟨cut, Layout.bind_none (if_pos cut)⟩
  · exact Or.inr ⟨_, Nat.not_lt.mp cut, Layout.bind_some (if_neg cut)⟩

/-! ## The arrays -/

/-- The number of nodes and the array of pointers stay as they are. -/
def SameShape (s t : Filling) : Prop :=
  t.stepLayout.nodeCnt = s.stepLayout.nodeCnt ∧ t.stepLayout.tids.length = s.stepLayout.tids.length

theorem SameShape.trans {s t u : Filling} (first : SameShape s t) (second : SameShape t u) :
    SameShape s u :=
  ⟨second.1.trans first.1, second.2.trans first.2⟩

theorem unpack32Array_cases (i : Nat) (s : Filling) :
    (∃ t, unpack32Array i s = .error .unpackError t ∧ SameShape s t) ∨
      ∃ sizeVal t, unpack32Array i s = .ok sizeVal t ∧ SameShape s t := by
  unfold unpack32Array
  cases counted : Layout.count s.input with
  | none => exact Or.inl ⟨s, fill_error (safeUnpack_cut counted), rfl, rfl⟩
  | some part =>
    obtain ⟨sizeVal, rest⟩ := part
    rw [fill_ok (safeUnpack_taken counted)]
    split_ifs with large
    · exact Or.inl ⟨_, rfl, rfl, rfl⟩
    · rw [fill_ok (show setLayout _ _ = .ok () _ from rfl)]
      cases taken : words32 sizeVal.toNat rest with
      | none =>
        refine Or.inl ⟨_, fill_error (safeUnpack_cut taken), rfl, ?_⟩
        exact length_set
      | some values =>
        refine Or.inr ⟨sizeVal, _, fill_ok (safeUnpack_taken taken), rfl, ?_⟩
        exact length_set.trans length_set

theorem unpackTids_cases (left i : Nat) (small : i < 2 ^ 31) (s : Filling) :
    (∃ t, unpackTids left i s = .error .unpackError t ∧ SameShape s t) ∨
      (2 ^ 31 ≤ i + left ∧ ∃ t, unpackTids left i s = .error .badMemory t) ∨
      (i + left < 2 ^ 31 ∧ ∃ t, unpackTids left i s = .ok () t) := by
  induction left generalizing i s with
  | zero => exact Or.inr (Or.inr ⟨small, s, rfl⟩)
  | succ left ih =>
    unfold unpackTids
    rcases unpack32Array_cases i s with ⟨t, error, shape⟩ | ⟨sizeVal, t, ok, shape⟩
    · exact Or.inl ⟨t, fill_error error, shape⟩
    · rw [fill_ok ok, fill_ok (show setLayout _ _ = .ok () _ from rfl)]
      split_ifs with overflow
      · exact Or.inr (Or.inl ⟨by omega, _, rfl⟩)
      · rw [show i + (left + 1) = i + 1 + left by omega]
        rcases ih (i + 1) (Nat.not_le.mp overflow) _ with ⟨u, error, after⟩ | rest
        · exact Or.inl ⟨u, error, shape.trans after⟩
        · exact Or.inr rest

theorem freeTids_eq_some_iff (tids : List (List UInt32)) (left i : Nat) :
    freeTids tids left i = some () ↔
      left = 0 ∨ (i + left ≤ tids.length ∧ i + left < 2 ^ 31) := by
  induction left generalizing i with
  | zero => exact ⟨fun _ => Or.inl rfl, fun _ => rfl⟩
  | succ left ih =>
    rw [freeTids]
    split_ifs with mem
    · rw [ih (i + 1), false_or]
      omega
    · rw [false_or]
      constructor
      · intro impossible
        cases impossible
      · omega

/-! ## The header -/

/-- The bytes up to the node count. -/
def nodeCount : Layout UInt32 := do
  let _ ← Layout.string
  let _ ← Layout.string
  Layout.count

section Header

variable {input first second third : List UInt8} {frontEnd nodeList : List UInt8} {nodeCnt : UInt32}

theorem unpackHeader_whole (layout : SlurmStepLayout) {fourth fifth rest : List UInt8}
    {startProtocolVer : UInt16} {taskCnt taskDist : UInt32}
    (frontEndTaken : Layout.string input = some (frontEnd, first))
    (nodeListTaken : Layout.string first = some (nodeList, second))
    (nodeCntTaken : Layout.count second = some (nodeCnt, third))
    (versionTaken : word16 third = some (startProtocolVer, fourth))
    (taskCntTaken : Layout.count fourth = some (taskCnt, fifth))
    (taskDistTaken : Layout.count fifth = some (taskDist, rest)) :
    unpackHeader ⟨input, layout⟩ = .ok () ⟨rest, { layout with
      frontEnd := stringOf frontEnd, nodeList := stringOf nodeList, nodeCnt := nodeCnt,
      startProtocolVer := startProtocolVer, taskCnt := taskCnt, taskDist := taskDist }⟩ := by
  simp only [unpackHeader, bind, EStateM.bind, safeUnpack, setLayout, frontEndTaken, nodeListTaken,
    nodeCntTaken, versionTaken, taskCntTaken, taskDistTaken]

/-- Once the node count is read, ten more bytes are needed before the arrays exist. -/
theorem unpackHeader_counted (layout : SlurmStepLayout)
    (frontEndTaken : Layout.string input = some (frontEnd, first))
    (nodeListTaken : Layout.string first = some (nodeList, second))
    (nodeCntTaken : Layout.count second = some (nodeCnt, third)) :
    ∃ t, t.stepLayout.nodeCnt = nodeCnt ∧ t.stepLayout.tids = layout.tids ∧
      ((third.length < 10 ∧ unpackHeader ⟨input, layout⟩ = .error .unpackError t) ∨
        (10 ≤ third.length ∧ unpackHeader ⟨input, layout⟩ = .ok () t)) := by
  let counted : SlurmStepLayout := { layout with
    frontEnd := stringOf frontEnd, nodeList := stringOf nodeList, nodeCnt := nodeCnt }
  rcases word16_cases third with ⟨short, cut⟩ | ⟨version, enough, versionTaken⟩
  · refine ⟨⟨third, counted⟩, rfl, rfl, Or.inl ⟨by omega, ?_⟩⟩
    simp only [unpackHeader, bind, EStateM.bind, safeUnpack, setLayout, frontEndTaken,
      nodeListTaken, nodeCntTaken, cut, counted]
  rcases count_cases (third.drop 2) with ⟨short, cut⟩ | ⟨taskCnt, enough', taskCntTaken⟩
  · rw [length_drop] at short
    refine ⟨⟨third.drop 2, { counted with startProtocolVer := version }⟩, rfl, rfl,
      Or.inl ⟨by omega, ?_⟩⟩
    simp only [unpackHeader, bind, EStateM.bind, safeUnpack, setLayout, frontEndTaken,
      nodeListTaken, nodeCntTaken, versionTaken, cut, counted]
  rcases count_cases ((third.drop 2).drop 4) with ⟨short, cut⟩ | ⟨taskDist, enough'', taskDistTaken⟩
  · rw [length_drop, length_drop] at short
    refine ⟨⟨(third.drop 2).drop 4, { counted with startProtocolVer := version, taskCnt := taskCnt }⟩,
      rfl, rfl, Or.inl ⟨by omega, ?_⟩⟩
    simp only [unpackHeader, bind, EStateM.bind, safeUnpack, setLayout, frontEndTaken,
      nodeListTaken, nodeCntTaken, versionTaken, taskCntTaken, cut, counted]
  · rw [length_drop, length_drop] at enough''
    refine ⟨_, ?_, ?_, Or.inr ⟨by omega, unpackHeader_whole layout frontEndTaken nodeListTaken
      nodeCntTaken versionTaken taskCntTaken taskDistTaken⟩⟩
    · rfl
    · rfl

end Header

theorem unpackHeader_cases (input : List UInt8) (layout : SlurmStepLayout) :
    (nodeCount input = none ∧ ∃ t, unpackHeader ⟨input, layout⟩ = .error .unpackError t ∧
      t.stepLayout.nodeCnt = layout.nodeCnt) ∨
    ∃ nodeCnt rest t, nodeCount input = some (nodeCnt, rest) ∧ t.stepLayout.nodeCnt = nodeCnt ∧
      t.stepLayout.tids = layout.tids ∧
      ((rest.length < 10 ∧ unpackHeader ⟨input, layout⟩ = .error .unpackError t) ∨
        (10 ≤ rest.length ∧ unpackHeader ⟨input, layout⟩ = .ok () t)) := by
  unfold nodeCount
  cases frontEndTaken : Layout.string input with
  | none =>
    refine Or.inl ⟨Layout.bind_none frontEndTaken, ⟨input, layout⟩, ?_, rfl⟩
    exact fill_error (safeUnpack_cut frontEndTaken)
  | some part =>
    obtain ⟨frontEnd, first⟩ := part
    rw [Layout.bind_some frontEndTaken]
    cases nodeListTaken : Layout.string first with
    | none =>
      refine Or.inl ⟨Layout.bind_none nodeListTaken, ⟨first, { layout with
        frontEnd := stringOf frontEnd }⟩, ?_, rfl⟩
      simp only [unpackHeader, bind, EStateM.bind, safeUnpack, setLayout, frontEndTaken,
        nodeListTaken]
    | some part =>
      obtain ⟨nodeList, second⟩ := part
      rw [Layout.bind_some nodeListTaken]
      cases nodeCntTaken : Layout.count second with
      | none =>
        refine Or.inl ⟨rfl, ⟨second, { layout with
          frontEnd := stringOf frontEnd, nodeList := stringOf nodeList }⟩, ?_, rfl⟩
        simp only [unpackHeader, bind, EStateM.bind, safeUnpack, setLayout, frontEndTaken,
          nodeListTaken, nodeCntTaken]
      | some part =>
        obtain ⟨nodeCnt, third⟩ := part
        obtain ⟨t, count, tids, ends⟩ := unpackHeader_counted layout frontEndTaken
          nodeListTaken nodeCntTaken
        exact Or.inr ⟨nodeCnt, third, t, rfl, count, tids, ends⟩

/-! ## Any buffer -/

/-- Success, or `SLURM_ERROR` with `*layout` set to `NULL`, and no access outside of
the arrays. -/
def Outcome.WellBehaved : Outcome → Prop
  | .success _ _ => True
  | .error layout => layout = none
  | .badMemory => False

/-- Where the buffer reaches a node count other than zero, it has ten more bytes,
and the count is in the range of `int`. -/
def SaneFields (input : List UInt8) : Prop :=
  ∀ nodeCnt rest, nodeCount input = some (nodeCnt, rest) →
    nodeCnt = 0 ∨ (10 ≤ rest.length ∧ nodeCnt.toNat < 2 ^ 31)

/-- The condition on a whole buffer: it begins with a zero or its fields are sane. -/
def Sane (protocolVersion : UInt16) (input : List UInt8) : Prop :=
  slurmMinProtocolVersion ≤ protocolVersion →
    ∀ flag rest, word16 input = some (flag, rest) → flag ≠ 0 → SaneFields rest

theorem unpackError_wellBehaved_iff (layout : SlurmStepLayout) :
    (unpackError (some layout)).WellBehaved ↔ layout.nodeCnt = 0 ∨
      (layout.nodeCnt.toNat ≤ layout.tids.length ∧ layout.nodeCnt.toNat < 2 ^ 31) := by
  have freed := freeTids_eq_some_iff layout.tids layout.nodeCnt.toNat 0
  have isZero : layout.nodeCnt.toNat = 0 ↔ layout.nodeCnt = 0 := by
    rw [← UInt32.toNat_inj, UInt32.toNat_zero]
  rw [Nat.zero_add, isZero] at freed
  rw [← freed]
  simp only [unpackError, slurmStepLayoutDestroy]
  cases freeTids layout.tids layout.nodeCnt.toNat 0 with
  | none => exact ⟨fun impossible => impossible.elim, fun impossible => nomatch impossible⟩
  | some done => exact ⟨fun _ => rfl, fun _ => rfl⟩

/-- What the caller gets after the flag. -/
def leave (result : EStateM.Result Stop Filling Unit) : Outcome :=
  match result with
  | .ok _ s => .success (some s.stepLayout) s.input
  | .error .unpackError s => unpackError (some s.stepLayout)
  | .error .badMemory _ => .badMemory

theorem unpackFields_wellBehaved_iff (input : List UInt8) :
    (leave (unpackFields ⟨input, SlurmStepLayout.blank⟩)).WellBehaved ↔ SaneFields input := by
  unfold unpackFields SaneFields
  rcases unpackHeader_cases input SlurmStepLayout.blank with
    ⟨cut, t, error, zero⟩ | ⟨nodeCnt, rest, t, counted, count, tids, ends⟩
  · rw [fill_error error, leave, unpackError_wellBehaved_iff]
    refine ⟨fun _ nodeCnt rest taken => ?_, fun _ => Or.inl zero⟩
    rw [cut] at taken
    cases taken
  have only : (∀ n r, nodeCount input = some (n, r) → n = 0 ∨ (10 ≤ r.length ∧ n.toNat < 2 ^ 31)) ↔
      (nodeCnt = 0 ∨ (10 ≤ rest.length ∧ nodeCnt.toNat < 2 ^ 31)) := by
    constructor
    · intro all
      exact all nodeCnt rest counted
    · intro sane n r taken
      rw [counted] at taken
      cases taken
      exact sane
  rw [only]
  subst count
  rcases ends with ⟨short, error⟩ | ⟨enough, ok⟩
  · rw [fill_error error, leave, unpackError_wellBehaved_iff, tids]
    have long : ¬10 ≤ rest.length := Nat.not_le.mpr short
    constructor
    · rintro (zero | ⟨mem, -⟩)
      · exact Or.inl zero
      · exact Or.inl (UInt32.toNat_inj.mp (Nat.le_zero.mp mem))
    · rintro (zero | ⟨impossible, -⟩)
      · exact Or.inl zero
      · exact absurd impossible long
  · rw [fill_ok ok]
    have allocated : allocateNodes t = .ok () ⟨t.input, { t.stepLayout with
        tasks := List.replicate t.stepLayout.nodeCnt.toNat 0
        tids := List.replicate t.stepLayout.nodeCnt.toNat [] }⟩ := rfl
    rw [fill_ok allocated, fill_ok (show (get : FillM Filling) _ = .ok _ _ from rfl)]
    have sane : (t.stepLayout.nodeCnt = 0 ∨ (10 ≤ rest.length ∧ t.stepLayout.nodeCnt.toNat < 2 ^ 31)) ↔
        t.stepLayout.nodeCnt.toNat < 2 ^ 31 := by
      constructor
      · rintro (zero | ⟨-, small⟩)
        · rw [zero]
          decide
        · exact small
      · exact fun small => Or.inr ⟨enough, small⟩
    rw [sane]
    rcases unpackTids_cases t.stepLayout.nodeCnt.toNat 0 (by decide) _ with
      ⟨u, error, shape⟩ | ⟨overflow, u, error⟩ | ⟨bounded, u, ok⟩
    · rw [error, leave, unpackError_wellBehaved_iff, shape.1, shape.2]
      simp only [length_replicate, le_refl, true_and]
      refine ⟨?_, Or.inr⟩
      rintro (zero | small)
      · rw [zero]
        decide
      · exact small
    · rw [error]
      rw [Nat.zero_add] at overflow
      exact ⟨fun impossible => impossible.elim, fun small => absurd small (Nat.not_lt.mpr overflow)⟩
    · rw [ok]
      rw [Nat.zero_add] at bounded
      exact ⟨fun _ => bounded, fun _ => trivial⟩

theorem unpackSlurmStepLayout_wellBehaved_iff (protocolVersion : UInt16)
    (layout : Option SlurmStepLayout) (input : List UInt8) :
    (unpackSlurmStepLayout protocolVersion layout input).WellBehaved ↔
      Sane protocolVersion input := by
  unfold unpackSlurmStepLayout Sane
  by_cases supported : slurmMinProtocolVersion ≤ protocolVersion
  · rw [if_pos supported]
    cases flagTaken : word16 input with
    | none =>
      refine ⟨fun _ _ flag rest taken => ?_, fun _ => rfl⟩
      cases taken
    | some part =>
      obtain ⟨flag, rest⟩ := part
      have only : (slurmMinProtocolVersion ≤ protocolVersion → ∀ f r,
          some (flag, rest) = some (f, r) → f ≠ 0 → SaneFields r) ↔
          (flag ≠ 0 → SaneFields rest) := by
        constructor
        · intro all
          exact all supported flag rest rfl
        · rintro sane - f r ⟨⟩
          exact sane
      rw [only]
      by_cases zero : flag = 0
      · simp only [zero, if_true]
        exact ⟨fun _ present => absurd rfl present, fun _ => trivial⟩
      · simp only [if_neg zero]
        refine Iff.trans (unpackFields_wellBehaved_iff rest) ?_
        exact ⟨fun sane _ => sane, fun sane => sane zero⟩
  · rw [if_neg supported]
    exact ⟨fun _ present => absurd present supported, fun _ => rfl⟩

/-! ## The round trip -/

/-- The bytes of the task ids of one node. -/
def encodeIds (tids : List UInt32) : List UInt8 :=
  bytesOf 4 tids.length ++ tids.flatMap fun tid => bytesOf 4 tid.toNat

/-- The encoding of a layout, or of none. -/
def encodeLayout (stepLayout : Option SlurmStepLayout) : List UInt8 :=
  match stepLayout with
  | none => bytesOf 2 0
  | some layout =>
    bytesOf 2 1 ++ (encodeStr layout.frontEnd ++ (encodeStr layout.nodeList ++
      (bytesOf 4 layout.nodeCnt.toNat ++ (bytesOf 2 layout.startProtocolVer.toNat ++
      (bytesOf 4 layout.taskCnt.toNat ++ (bytesOf 4 layout.taskDist.toNat ++
      layout.tids.flatMap encodeIds))))))

/-- The strings are strings that can be packed; both arrays have an element for
each node, and the counts of the tasks are the lengths of the arrays of ids. -/
structure SlurmStepLayout.WellFormed (layout : SlurmStepLayout) : Prop where
  frontEnd : ∀ s ∈ layout.frontEnd, 0 ∉ s ∧ s.length < maxPackMemLen
  nodeList : ∀ s ∈ layout.nodeList, 0 ∉ s ∧ s.length < maxPackMemLen
  nodeCnt : layout.nodeCnt.toNat = layout.tids.length
  tasks : layout.tasks.map UInt16.toNat = layout.tids.map List.length

theorem packTids_packs (tids : List (List UInt32)) (tasks : List UInt16)
    (lengths : tasks.map UInt16.toNat = tids.map List.length) :
    Packs (packTids (tids.zip tasks)) (tids.flatMap encodeIds) := by
  induction tids generalizing tasks with
  | nil =>
    intro n buffer has
    simpa [packTids] using has
  | cons ids tids ih =>
    cases tasks with
    | nil => cases lengths
    | cons count tasks =>
      rw [map_cons, map_cons, List.cons.injEq] at lengths
      have node := @Packs.array _ pack32 _ Packs.u32 ids count.toUInt32
      rw [UInt16.toNat_toUInt32, lengths.1, take_length] at node
      exact node.comp (ih tasks lengths.2)

theorem packSlurmStepLayout_packs {protocolVersion : UInt16}
    (supported : slurmMinProtocolVersion ≤ protocolVersion) {layout : Option SlurmStepLayout}
    (wf : ∀ l ∈ layout, l.WellFormed) :
    Packs (packSlurmStepLayout protocolVersion layout) (encodeLayout layout) := by
  unfold packSlurmStepLayout
  simp only [if_pos supported]
  cases layout with
  | none => exact Packs.u16 0
  | some layout =>
    obtain ⟨frontEnd, nodeList, nodeCnt, tasks⟩ := wf layout rfl
    have all : (layout.tids.zip layout.tasks).take layout.nodeCnt.toNat =
        layout.tids.zip layout.tasks := by
      refine take_of_length_le ?_
      rw [nodeCnt, length_zip]
      exact Nat.min_le_left _ _
    unfold encodeLayout
    simp only [all, ← append_assoc]
    refine Packs.comp ?_ (packTids_packs layout.tids layout.tasks tasks)
    refine Packs.comp ?_ (Packs.u32 layout.taskDist)
    refine Packs.comp ?_ (Packs.u32 layout.taskCnt)
    refine Packs.comp ?_ (Packs.u16 layout.startProtocolVer)
    refine Packs.comp ?_ (Packs.u32 layout.nodeCnt)
    refine Packs.comp ?_ (Packs.str fun s present => (nodeList s present).2)
    exact Packs.comp (Packs.u16 1) (Packs.str fun s present => (frontEnd s present).2)

theorem unpack32Array_encoded {i : Nat} {ids : List UInt32} (short : ids.length < 2 ^ 16)
    (rest : List UInt8) (layout : SlurmStepLayout) :
    unpack32Array i ⟨encodeIds ids ++ rest, layout⟩ =
      .ok (UInt32.ofNat ids.length) ⟨rest, { layout with tids := layout.tids.set i ids }⟩ := by
  have size : (UInt32.ofNat ids.length).toNat = ids.length := by
    rw [UInt32.toNat_ofNat', Nat.mod_eq_of_lt (by omega)]
  have counted := count_taken (UInt32.ofNat ids.length)
    ((ids.flatMap fun tid => bytesOf 4 tid.toNat) ++ rest)
  rw [size, ← append_assoc] at counted
  have notLarge : ¬noVal < UInt32.ofNat ids.length := by
    rw [UInt32.lt_iff_toNat_lt, size]
    simp only [noVal, UInt32.reduceToNat]
    omega
  have taken := words32_taken ids rest
  unfold unpack32Array
  simp only [bind, EStateM.bind, safeUnpack, setLayout, encodeIds, counted, if_neg notLarge, size,
    taken, set_set]
  rfl

theorem unpackTids_encoded (done tids : List (List UInt32)) (doneTasks tasks : List UInt16)
    (sameDone : doneTasks.length = done.length)
    (lengths : tasks.map UInt16.toNat = tids.map List.length)
    (small : done.length + tids.length < 2 ^ 31) (rest : List UInt8) (layout : SlurmStepLayout) :
    unpackTids tids.length done.length ⟨tids.flatMap encodeIds ++ rest, { layout with
      tasks := doneTasks ++ List.replicate tids.length 0
      tids := done ++ List.replicate tids.length [] }⟩ =
      .ok () ⟨rest, { layout with tasks := doneTasks ++ tasks, tids := done ++ tids }⟩ := by
  induction tids generalizing done doneTasks tasks with
  | nil =>
    rw [map_nil, map_eq_nil_iff] at lengths
    rw [lengths]
    rfl
  | cons ids tids ih =>
    cases tasks with
    | nil => cases lengths
    | cons count tasks =>
      rw [map_cons, map_cons, List.cons.injEq] at lengths
      rw [length_cons] at small
      have short : ids.length < 2 ^ 16 := lengths.1 ▸ count.toNat_lt
      have sameCount : (UInt32.ofNat ids.length).toUInt16 = count := by
        rw [← lengths.1]
        exact UInt16.toNat_inj.mp (by simp)
      have mem : ¬2 ^ 31 ≤ done.length + 1 := by omega
      rw [length_cons, unpackTids, flatMap_cons, append_assoc,
        fill_ok (unpack32Array_encoded short _ _)]
      have stored : setLayout (fun layout => { layout with
          tasks := layout.tasks.set done.length (UInt32.ofNat ids.length).toUInt16 })
          ⟨tids.flatMap encodeIds ++ rest, { layout with
            tasks := doneTasks ++ List.replicate (tids.length + 1) 0
            tids := (done ++ List.replicate (tids.length + 1) []).set done.length ids }⟩ =
          .ok () ⟨tids.flatMap encodeIds ++ rest, { layout with
            tasks := (doneTasks ++ [count]) ++ List.replicate tids.length 0
            tids := (done ++ [ids]) ++ List.replicate tids.length [] }⟩ := by
        simp only [setLayout, sameCount, replicate_succ]
        rw [← sameDone, set_append_right _ _ le_rfl, sameDone,
          set_append_right _ _ le_rfl, Nat.sub_self]
        simp
      rw [fill_ok stored, if_neg mem]
      have next := ih (done ++ [ids]) (doneTasks ++ [count]) tasks (by simp [sameDone])
        lengths.2 (by rw [length_append, length_singleton]; omega)
      simpa only [length_append, length_singleton, append_assoc, singleton_append] using next

theorem unpackFields_encoded {layout : SlurmStepLayout} (wf : layout.WellFormed)
    (small : layout.tids.length < 2 ^ 31) (rest : List UInt8) :
    unpackFields ⟨encodeStr layout.frontEnd ++ (encodeStr layout.nodeList ++
        (bytesOf 4 layout.nodeCnt.toNat ++ (bytesOf 2 layout.startProtocolVer.toNat ++
        (bytesOf 4 layout.taskCnt.toNat ++ (bytesOf 4 layout.taskDist.toNat ++
        (layout.tids.flatMap encodeIds ++ rest)))))), SlurmStepLayout.blank⟩ =
      .ok () ⟨rest, { layout with planeSize := 0 }⟩ := by
  obtain ⟨frontEnd, frontEndTaken, sameFrontEnd⟩ := string_taken wf.frontEnd
    (encodeStr layout.nodeList ++ (bytesOf 4 layout.nodeCnt.toNat ++
      (bytesOf 2 layout.startProtocolVer.toNat ++ (bytesOf 4 layout.taskCnt.toNat ++
      (bytesOf 4 layout.taskDist.toNat ++ (layout.tids.flatMap encodeIds ++ rest))))))
  obtain ⟨nodeList, nodeListTaken, sameNodeList⟩ := string_taken wf.nodeList
    (bytesOf 4 layout.nodeCnt.toNat ++ (bytesOf 2 layout.startProtocolVer.toNat ++
      (bytesOf 4 layout.taskCnt.toNat ++ (bytesOf 4 layout.taskDist.toNat ++
      (layout.tids.flatMap encodeIds ++ rest)))))
  have header := unpackHeader_whole SlurmStepLayout.blank frontEndTaken nodeListTaken
    (count_taken _ _) (word16_taken _ _) (count_taken _ _) (count_taken _ _)
  rw [sameFrontEnd, sameNodeList] at header
  have loop := unpackTids_encoded [] layout.tids [] layout.tasks rfl wf.tasks
    ((Nat.zero_add _).trans_lt small) rest { layout with planeSize := 0 }
  rw [nil_append, nil_append, ← wf.nodeCnt] at loop
  unfold unpackFields
  rw [fill_ok header, fill_ok (show allocateNodes _ = .ok () _ from rfl),
    fill_ok (show (get : FillM Filling) _ = .ok _ _ from rfl)]
  exact loop

theorem length_flatMap_encodeIds (tids : List (List UInt32)) :
    4 * tids.length ≤ (tids.flatMap encodeIds).length := by
  induction tids with
  | nil => exact le_rfl
  | cons ids tids ih =>
    rw [flatMap_cons, length_append, length_cons, encodeIds, length_append, length_bytesOf]
    omega

/-- Packing and unpacking return the layout wherever its encoding fits into the
buffer; unpacking is well behaved exactly on the buffers that are sane. -/
theorem step_layout_codec (protocolVersion : UInt16) :
    (slurmMinProtocolVersion ≤ protocolVersion → ∀ layout : Option SlurmStepLayout,
      (∀ l ∈ layout, l.WellFormed) → ∀ buffer : Buf,
      HasRoom (encodeLayout layout).length buffer → ∀ before : Option SlurmStepLayout,
      (layout = none → before = none) → ∀ rest : List UInt8,
      ∃ bytes, (packSlurmStepLayout protocolVersion layout buffer).data = buffer.data ++ bytes ∧
        unpackSlurmStepLayout protocolVersion before (bytes ++ rest) =
          .success (layout.map fun l => { l with planeSize := 0 }) rest) ∧
    ∀ (before : Option SlurmStepLayout) (input : List UInt8),
      (unpackSlurmStepLayout protocolVersion before input).WellBehaved ↔
        Sane protocolVersion input := by
  refine ⟨?_, unpackSlurmStepLayout_wellBehaved_iff protocolVersion⟩
  intro supported layout wf buffer room before unset rest
  refine ⟨encodeLayout layout, (packSlurmStepLayout_packs supported wf 0 buffer room).1, ?_⟩
  unfold unpackSlurmStepLayout
  rw [if_pos supported]
  cases layout with
  | none =>
    have flag := word16_taken 0 rest
    rw [UInt16.toNat_zero] at flag
    simp only [encodeLayout, flag, unset rfl]
    rfl
  | some layout =>
    have small : layout.tids.length < 2 ^ 31 := by
      have ids := length_flatMap_encodeIds layout.tids
      have fits := room.room
      simp only [encodeLayout, length_append, length_bytesOf, maxBufSize] at fits
      omega
    have fields := unpackFields_encoded (wf layout rfl) small rest
    have flag := word16_taken 1 (encodeStr layout.frontEnd ++ (encodeStr layout.nodeList ++
      (bytesOf 4 layout.nodeCnt.toNat ++ (bytesOf 2 layout.startProtocolVer.toNat ++
      (bytesOf 4 layout.taskCnt.toNat ++ (bytesOf 4 layout.taskDist.toNat ++
      (layout.tids.flatMap encodeIds ++ rest)))))))
    have one : (1 : UInt16).toNat = 1 := rfl
    rw [one] at flag
    simp only [encodeLayout, append_assoc, flag, if_neg (show (1 : UInt16) ≠ 0 by decide), fields]
    rfl

/-- Two nodes with three tasks between them. -/
def twoNodes : SlurmStepLayout :=
  ⟨none, 2, some [110, 49, 44, 110, 50], 0, 7936, [2, 1], 3, 1, [[0, 2], [1]]⟩

theorem step_layout_codec_two_nodes :
    ∃ bytes, (packSlurmStepLayout slurmMinProtocolVersion (some twoNodes) ⟨bufSize, []⟩).data =
        [] ++ bytes ∧
      unpackSlurmStepLayout slurmMinProtocolVersion none (bytes ++ []) =
        .success (some twoNodes) [] := by
  refine (step_layout_codec slurmMinProtocolVersion).1 (by decide) (some twoNodes) ?_
    ⟨bufSize, []⟩ ⟨by decide, by decide, by decide⟩ none (fun _ => rfl) []
  rintro layout ⟨⟩
  exact ⟨by decide, by decide, by decide, by decide⟩

/-- A buffer that ends behind the count of its one node: the destructor reads an
array that was never allocated. -/
theorem step_layout_codec_truncated :
    unpackSlurmStepLayout slurmMinProtocolVersion none [0, 1, 0, 0, 0, 0, 0, 0, 0, 0, 0, 0, 0, 1] =
        .badMemory ∧
      ¬∀ (protocolVersion : UInt16) (before : Option SlurmStepLayout) (input : List UInt8),
        (unpackSlurmStepLayout protocolVersion before input).WellBehaved := by
  have bad : unpackSlurmStepLayout slurmMinProtocolVersion none
      [0, 1, 0, 0, 0, 0, 0, 0, 0, 0, 0, 0, 0, 1] = .badMemory := by decide +kernel
  refine ⟨bad, fun always => ?_⟩
  have behaved := always slurmMinProtocolVersion none [0, 1, 0, 0, 0, 0, 0, 0, 0, 0, 0, 0, 0, 1]
  rw [bad] at behaved
  exact behaved

end SlurmSim.Common.StepLayout
