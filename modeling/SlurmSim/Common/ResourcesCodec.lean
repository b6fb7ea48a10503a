import Mathlib.Data.Finset.Basic
import SlurmSim.Common.Pack
import SlurmSim.Common.Bitstring

/-!
# Packing and unpacking job resources

The two functions for a `struct job_resources` on a cluster that is not a
BlueGene.  Unpacking is followed down to the blocks of memory it allocates and
to the places where it leaves the defined behaviour of C.
-/

namespace SlurmSim.Common.Codec

open SlurmSim.Lib.BigEndian

/-- `SLURM_17_02_PROTOCOL_VERSION` -/
def slurm1702ProtocolVersion : UInt16 := 31 * 256

/-- `SLURM_MIN_PROTOCOL_VERSION` -/
def slurmMinProtocolVersion : UInt16 := 30 * 256

/-- `struct job_resources` less `node_bitmap`, which is not packed; `none` is `NULL`. -/
structure JobResources where
  coreBitmap : Option (List Bool)
  coreBitmapUsed : Option (List Bool)
  cpuArrayCnt : UInt32
  cpuArrayValue : Option (List UInt16)
  cpuArrayReps : Option (List UInt32)
  cpus : Option (List UInt16)
  cpusUsed : Option (List UInt16)
  coresPerSocket : Option (List UInt16)
  memoryAllocated : Option (List UInt64)
  memoryUsed : Option (List UInt64)
  nhosts : UInt32
  nodeReq : UInt32
  nodes : Option (List UInt8)
  ncpus : UInt32
  sockCoreRepCount : Option (List UInt32)
  socketsPerNode : Option (List UInt16)
  wholeNode : UInt8
deriving DecidableEq

/-! ## Packing -/

/-- An array that is packed as empty if it is not there. -/
def packIfSet {α : Type} (pack : List α → UInt32 → Buf → Buf) (array : Option (List α))
    (sizeVal : UInt32) (buffer : Buf) : Buf :=
  match array with
  | some array => pack array sizeVal buffer
  | none => pack [] 0 buffer

/-- The search for the number of socket records, with the index at its end. -/
def searchSockRecs (nhosts : UInt32) : List UInt32 → UInt32 → UInt32 → UInt32
  | [], i, _ => i
  | reps :: rest, i, sockRecs =>
    if nhosts ≤ sockRecs + reps then i
    else searchSockRecs nhosts rest (i + 1) (sockRecs + reps)

/-- How many socket records are packed: one more than the index at the end of the search. -/
def JobResources.sockRecCount (r : JobResources) : UInt32 :=
  searchSockRecs r.nhosts ((r.sockCoreRepCount.getD []).take r.nhosts.toNat) 0 0 + 1

/-- `pack_bit_str_hex` -/
def packBitStrHex (bitmap : Option (List Bool)) (buffer : Buf) : Buf :=
  match bitmap with
  | some bitmap => packstr (some (bitFmtHexmask bitmap)) (pack32 (UInt32.ofNat bitmap.length) buffer)
  | none => pack32 noVal buffer

/-- The fields of both protocol versions, which differ in the width of the memory arrays. -/
def packFields (packMemory : List UInt64 → UInt32 → Buf → Buf) (r : JobResources) (buffer : Buf) :
    Buf :=
  let buffer := pack32 r.nhosts buffer
  let buffer := pack32 r.ncpus buffer
  let buffer := pack32 r.nodeReq buffer
  let buffer := packstr r.nodes buffer
  let buffer := pack8 r.wholeNode buffer
  let buffer := packIfSet pack32Array r.cpuArrayReps r.cpuArrayCnt buffer
  let buffer := packIfSet pack16Array r.cpuArrayValue r.cpuArrayCnt buffer
  let buffer := packIfSet pack16Array r.cpus r.nhosts buffer
  let buffer := packIfSet pack16Array r.cpusUsed r.nhosts buffer
  let buffer := packIfSet packMemory r.memoryAllocated r.nhosts buffer
  let buffer := packIfSet packMemory r.memoryUsed r.nhosts buffer
  let buffer := pack16Array (r.socketsPerNode.getD []) r.sockRecCount buffer
  let buffer := pack16Array (r.coresPerSocket.getD []) r.sockRecCount buffer
  let buffer := pack32Array (r.sockCoreRepCount.getD []) r.sockRecCount buffer
  let buffer := packBitStrHex r.coreBitmap buffer
  packBitStrHex r.coreBitmapUsed buffer

/-- `pack_job_resources` -/
def packJobResources (protocolVersion : UInt16) (r : Option JobResources) (buffer : Buf) : Buf :=
  if slurm1702ProtocolVersion ≤ protocolVersion then
    match r with
    | none => pack32 noVal buffer
    | some r => packFields pack64Array r buffer
  else if slurmMinProtocolVersion ≤ protocolVersion then
    match r with
    | none => pack32 noVal buffer
    | some r => packFields pack64ArrayAs32 r buffer
  else buffer

/-! ## Memory -/

/-- The blocks that unpacking allocates: the structure, its arrays and a string. -/
inductive Block where
  | jobResrcs
  | coreBitmap
  | coreBitmapUsed
  | coresPerSocket
  | cpuArrayReps
  | cpuArrayValue
  | cpus
  | cpusUsed
  | memoryAllocated
  | memoryUsed
  | nodes
  | sockCoreRepCount
  | socketsPerNode
  | tmpStr
deriving DecidableEq, Repr

/-- Whether the pointer of a block is set in the structure. -/
def JobResources.isSet (r : JobResources) : Block → Bool
  | .jobResrcs => false
  | .coreBitmap => r.coreBitmap.isSome
  | .coreBitmapUsed => r.coreBitmapUsed.isSome
  | .coresPerSocket => r.coresPerSocket.isSome
  | .cpuArrayReps => r.cpuArrayReps.isSome
  | .cpuArrayValue => r.cpuArrayValue.isSome
  | .cpus => r.cpus.isSome
  | .cpusUsed => r.cpusUsed.isSome
  | .memoryAllocated => r.memoryAllocated.isSome
  | .memoryUsed => r.memoryUsed.isSome
  | .nodes => r.nodes.isSome
  | .sockCoreRepCount => r.sockCoreRepCount.isSome
  | .socketsPerNode => r.socketsPerNode.isSome
  | .tmpStr => false

/-- A pointer of the structure. -/
structure Slot (α : Type) where
  block : Block
  store : Option α → JobResources → JobResources
  isSet_store : ∀ value r other,
    (store value r).isSet other = if other = block then value.isSome else r.isSet other
  store_store : ∀ value other r, store value (store other r) = store value r

namespace Slot

def nodes : Slot (List UInt8) where
  block := .nodes
  store value r := { r with nodes := value }
  isSet_store value r other := by cases other <;> rfl
  store_store _ _ _ := rfl

def cpuArrayReps : Slot (List UInt32) where
  block := .cpuArrayReps
  store value r := { r with cpuArrayReps := value }
  isSet_store value r other := by cases other <;> rfl
  store_store _ _ _ := rfl

def cpuArrayValue : Slot (List UInt16) where
  block := .cpuArrayValue
  store value r := { r with cpuArrayValue := value }
  isSet_store value r other := by cases other <;> rfl
  store_store _ _ _ := rfl

def cpus : Slot (List UInt16) where
  block := .cpus
  store value r := { r with cpus := value }
  isSet_store value r other := by cases other <;> rfl
  store_store _ _ _ := rfl

def cpusUsed : Slot (List UInt16) where
  block := .cpusUsed
  store value r := { r with cpusUsed := value }
  isSet_store value r other := by cases other <;> rfl
  store_store _ _ _ := rfl

def memoryAllocated : Slot (List UInt64) where
  block := .memoryAllocated
  store value r := { r with memoryAllocated := value }
  isSet_store value r other := by cases other <;> rfl
  store_store _ _ _ := rfl

def memoryUsed : Slot (List UInt64) where
  block := .memoryUsed
  store value r := { r with memoryUsed := value }
  isSet_store value r other := by cases other <;> rfl
  store_store _ _ _ := rfl

def socketsPerNode : Slot (List UInt16) where
  block := .socketsPerNode
  store value r := { r with socketsPerNode := value }
  isSet_store value r other := by cases other <;> rfl
  store_store _ _ _ := rfl

def coresPerSocket : Slot (List UInt16) where
  block := .coresPerSocket
  store value r := { r with coresPerSocket := value }
  isSet_store value r other := by cases other <;> rfl
  store_store _ _ _ := rfl

def sockCoreRepCount : Slot (List UInt32) where
  block := .sockCoreRepCount
  store value r := { r with sockCoreRepCount := value }
  isSet_store value r other := by cases other <;> rfl
  store_store _ _ _ := rfl

def coreBitmap : Slot (List Bool) where
  block := .coreBitmap
  store value r := { r with coreBitmap := value }
  isSet_store value r other := by cases other <;> rfl
  store_store _ _ _ := rfl

def coreBitmapUsed : Slot (List Bool) where
  block := .coreBitmapUsed
  store value r := { r with coreBitmapUsed := value }
  isSet_store value r other := by cases other <;> rfl
  store_store _ _ _ := rfl

end Slot

/-! ## Unpacking -/

/-- How unpacking leaves its normal course: a jump to `unpack_error`, a failed
assertion, or an access to memory that C does not define. -/
inductive Stop where
  | unpackError
  | abort
  | badMemory
deriving DecidableEq, Repr

/-- The rest of the buffer, the variable `job_resrcs`, which is not set at first,
and the blocks that are allocated. -/
structure Unpacking where
  input : List UInt8
  jobResrcs : Option JobResources
  live : Finset Block

/-- Steps of unpacking. -/
def UnpackM (α : Type) : Type :=
  Unpacking → Except Stop α × Unpacking

instance : Monad UnpackM where
  pure value := fun s => (.ok value, s)
  bind step next := fun s =>
    match step s with
    | (.ok value, s) => next value s
    | (.error stop, s) => (.error stop, s)

def stop {α : Type} (how : Stop) : UnpackM α :=
  fun s => (.error how, s)

def xmalloc (block : Block) : UnpackM Unit :=
  fun s => (.ok (), { s with live := insert block s.live })

/-- `xfree` of a pointer that is not `NULL`. -/
def xfree (block : Block) : UnpackM Unit :=
  fun s => if block ∈ s.live then (.ok (), { s with live := s.live.erase block })
    else (.error .badMemory, s)

def setField (update : JobResources → JobResources) : UnpackM Unit :=
  fun s => (.ok (), { s with jobResrcs := s.jobResrcs.map update })

/-- What `unpack8`, `unpack16`, `unpack32` and `unpack64` do. -/
def unpackWord (width : Nat) : UnpackM Nat :=
  fun s => if s.input.length < width then (.error .unpackError, s)
    else (.ok (valueOf (s.input.take width)), { s with input := s.input.drop width })

def unpack8 : UnpackM UInt8 := UInt8.ofNat <$> unpackWord 1

def unpack16 : UnpackM UInt16 := UInt16.ofNat <$> unpackWord 2

def unpack32 : UnpackM UInt32 := UInt32.ofNat <$> unpackWord 4

def unpack64 : UnpackM UInt64 := UInt64.ofNat <$> unpackWord 8

/-- The loop of the array functions. -/
def unpackValues {α : Type} (unpack : UnpackM α) : Nat → UnpackM (List α)
  | 0 => pure []
  | n + 1 => do
      let value ← unpack
      let values ← unpackValues unpack n
      pure (value :: values)

/-- `unpack16_array` and its like: a count above `NO_VAL` is an error, the array
is allocated before it is read; `xmalloc` of nothing returns `NULL`. -/
def unpackArray {α : Type} (unpack : UnpackM α) (slot : Slot (List α)) : UnpackM UInt32 := do
  let sizeVal ← unpack32
  if noVal < sizeVal then stop .unpackError
  else if sizeVal = 0 then do
    setField (slot.store none)
    pure sizeVal
  else do
    xmalloc slot.block
    setField (slot.store (some []))
    let values ← unpackValues unpack sizeVal.toNat
    setField (slot.store (some values))
    pure sizeVal

/-- `xfree` of a pointer of the structure. -/
def xfreeField {α : Type} (slot : Slot α) : UnpackM Unit := fun s =>
  match s.jobResrcs with
  | none => (.error .badMemory, s)
  | some r =>
    (do if r.isSet slot.block = true then xfree slot.block else pure ()
        setField (slot.store none) : UnpackM Unit) s

/-- An array, which is freed again if it is empty. -/
def unpackField {α : Type} (unpack : UnpackM α) (slot : Slot (List α)) : UnpackM UInt32 := do
  let tmp32 ← unpackArray unpack slot
  if tmp32 = 0 then do
    xfreeField slot
    pure tmp32
  else pure tmp32

/-- So many bytes of the buffer in a new block. -/
def copyBytes (n : Nat) (block : Block) : UnpackM (Option (List UInt8)) :=
  fun s => if s.input.length < n then (.error .unpackError, s)
    else (.ok (some (s.input.take n)),
      { s with input := s.input.drop n, live := insert block s.live })

/-- `unpackmem_xmalloc` -/
def unpackmemXmalloc (block : Block) : UnpackM (Option (List UInt8)) := do
  let sizeVal ← unpack32
  if maxPackMemLen < sizeVal.toNat then stop .unpackError
  else if 0 < sizeVal then copyBytes sizeVal.toNat block
  else pure none

/-- The largest size that `bit_alloc` asserts. -/
def maxBits : Nat := 0x40000000

/-- `bit_unfmt_hexmask` for a string as it lies in memory.  It must be there and
end with a zero, and its index of 32 bits must not overflow; `bit_nclear`
asserts that there is a bit. -/
def unfmtHexmask (asserts : Bool) (bitsize : Nat) (str : Option (List UInt8)) :
    Except Stop (List Bool) :=
  match str with
  | none => .error .badMemory
  | some str =>
    let chars := str.takeWhile (· ≠ 0)
    if 0 ∉ str then .error .badMemory
    else if asserts = true ∧ bitsize = 0 then .error .abort
    else if 2 ^ 29 ≤ (hexBody chars).length then .error .badMemory
    else .ok (bitUnfmtHexmask bitsize chars)

/-- `unpack_bit_str_hex` -/
def unpackBitStrHex (asserts : Bool) (slot : Slot (List Bool)) : UnpackM Unit := do
  let size ← unpack32
  if size = noVal then setField (slot.store none)
  else do
    let tmpStr ← unpackmemXmalloc .tmpStr
    if asserts = true ∧ maxBits < size.toNat then stop .abort
    else do
      xmalloc slot.block
      match unfmtHexmask asserts size.toNat tmpStr with
      | .error how => stop how
      | .ok bitmap => do
          setField (slot.store (some bitmap))
          xfree .tmpStr

/-- The string with the names of the nodes, with its final zero cut off. -/
def unpackNodes : UnpackM Unit := do
  let nodes ← unpackmemXmalloc .nodes
  setField (Slot.nodes.store (nodes.map fun str => str.takeWhile (· ≠ 0)))

/-- The fields between the first and the bitmaps, in both protocol versions. -/
def unpackArrays (unpackMemory : UnpackM UInt64) (nhosts : UInt32) : UnpackM Unit := do
  let ncpus ← unpack32
  setField fun r => { r with ncpus := ncpus }
  let nodeReq ← unpack32
  setField fun r => { r with nodeReq := nodeReq }
  unpackNodes
  let wholeNode ← unpack8
  setField fun r => { r with wholeNode := wholeNode }
  let cpuArrayCnt ← unpackField unpack32 .cpuArrayReps
  setField fun r => { r with cpuArrayCnt := cpuArrayCnt }
  let tmp32 ← unpackField unpack16 .cpuArrayValue
  if tmp32 ≠ cpuArrayCnt then stop .unpackError
  else do
    let tmp32 ← unpackField unpack16 .cpus
    if tmp32 ≠ nhosts then stop .unpackError
    else do
      let _ ← unpackField unpack16 .cpusUsed
      let _ ← unpackField unpackMemory .memoryAllocated
      let _ ← unpackField unpackMemory .memoryUsed
      let _ ← unpackField unpack16 .socketsPerNode
      let _ ← unpackField unpack16 .coresPerSocket
      let _ ← unpackField unpack32 .sockCoreRepCount
      pure ()

/-- All fields after the first. -/
def unpackFields (asserts : Bool) (unpackMemory : UnpackM UInt64) (nhosts : UInt32) :
    UnpackM Unit := do
  unpackArrays unpackMemory nhosts
  unpackBitStrHex asserts .coreBitmap
  unpackBitStrHex asserts .coreBitmapUsed

/-- The structure as `xmalloc` returns it, with its first field. -/
def JobResources.blank (nhosts : UInt32) : JobResources :=
  ⟨none, none, 0, none, none, none, none, none, none, none, nhosts, 0, none, 0, none, none, 0⟩

/-- The variable `job_resrcs` points to a new structure. -/
def newJobResources (nhosts : UInt32) : UnpackM Unit :=
  fun s => (.ok (), ⟨s.input, some (JobResources.blank nhosts), insert .jobResrcs s.live⟩)

/-- One protocol version of unpacking; whether there is a structure. -/
def unpackVersion (asserts : Bool) (unpackMemory : UnpackM UInt64) : UnpackM Bool := do
  let empty ← unpack32
  if empty = noVal then pure false
  else do
    newJobResources empty
    unpackFields asserts unpackMemory empty
    pure true

/-- The order in which `free_job_resources` frees what is set. -/
def freeOrder : List Block :=
  [.coreBitmap, .coreBitmapUsed, .coresPerSocket, .cpuArrayReps, .cpuArrayValue, .cpus, .cpusUsed,
    .memoryAllocated, .memoryUsed, .nodes, .sockCoreRepCount, .socketsPerNode]

def freeBlocks (r : JobResources) : List Block → UnpackM Unit
  | [] => pure ()
  | block :: blocks => do
      if r.isSet block = true then xfree block else pure ()
      freeBlocks r blocks

/-- `free_job_resources`; a variable that is not set points anywhere. -/
def freeJobResources : UnpackM Unit := fun s =>
  match s.jobResrcs with
  | none => (.error .badMemory, s)
  | some r => (do freeBlocks r freeOrder; xfree .jobResrcs : UnpackM Unit) s

/-- How a call of `unpack_job_resources` ends: with the structure and the rest of
the buffer, with `SLURM_ERROR` and the blocks that stay allocated, or not as a call. -/
inductive Outcome where
  | success (jobResrcs : Option JobResources) (rest : List UInt8)
  | error (jobResrcs : Option JobResources) (live : Finset Block)
  | abort
  | badMemory
deriving DecidableEq

/-- The end of `unpack_job_resources`, with the label `unpack_error`. -/
def leave : Except Stop Bool × Unpacking → Outcome
  | (.ok true, s) => .success s.jobResrcs s.input
  | (.ok false, s) => .success none s.input
  | (.error .abort, _) => .abort
  | (.error .badMemory, _) => .badMemory
  | (.error .unpackError, s) =>
    match freeJobResources s with
    | (.ok (), s) => .error none s.live
    | (.error _, _) => .badMemory

/-- `unpack_job_resources`; whether assertions are compiled in is a parameter. -/
def unpackJobResources (asserts : Bool) (protocolVersion : UInt16) (input : List UInt8) : Outcome :=
  if slurm1702ProtocolVersion ≤ protocolVersion then
    leave (unpackVersion asserts unpack64 ⟨input, none, ∅⟩)
  else if slurmMinProtocolVersion ≤ protocolVersion then
    leave (unpackVersion asserts (UInt32.toUInt64 <$> unpack32) ⟨input, none, ∅⟩)
  else leave (.error .unpackError, ⟨input, none, ∅⟩)

end SlurmSim.Common.Codec
