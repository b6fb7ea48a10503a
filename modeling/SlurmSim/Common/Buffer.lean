import SlurmSim.Common.Pack

/-!
# Buffers in memory

The functions of `pack.c` on the memory of a buffer.  Sizes and offsets are
counted in 32 bits.  `none` is a read or a write outside the allocation.
-/

namespace SlurmSim.Common.Buffer

open SlurmSim.Lib.BigEndian List
open SlurmSim.Common.Codec (bufSize maxBufSize maxPackMemLen)

/-- `MAX_PACK_ARRAY_LEN` -/
def maxPackArrayLen : Nat := 128 * 1024

/-- `struct slurm_buf`. The allocation at `head` has `size` bytes; `errors` counts
the error messages so far. -/
structure SlurmBuf where
  head : List UInt8
  processed : Nat
  errors : Nat

/-- A string; its final zero is not among the bytes. -/
structure CString where
  bytes : List UInt8
  noZero : 0 ∉ bytes

/-- A string in memory. -/
def CString.memory (str : CString) : List UInt8 :=
  str.bytes ++ [0]

namespace SlurmBuf

/-- `size_buf` -/
def size (buffer : SlurmBuf) : Nat :=
  buffer.head.length

/-- `remaining_buf` -/
def remaining (buffer : SlurmBuf) : Nat :=
  (buffer.size + 2 ^ 32 - buffer.processed) % 2 ^ 32

/-- The exit with a message in the log. -/
def errorExit (buffer : SlurmBuf) : SlurmBuf :=
  { buffer with errors := buffer.errors + 1 }

/-- `xrealloc_nz`; what is in new memory is arbitrary. -/
def realloc (fresh : Nat → UInt8) (newSize : Nat) (buffer : SlurmBuf) : SlurmBuf :=
  { buffer with head := (List.range newSize).map fun i => buffer.head.getD i (fresh i) }

/-- `memcpy` to the offset and the step over what was copied. -/
def store (bytes : List UInt8) (buffer : SlurmBuf) : Option SlurmBuf :=
  if buffer.processed + bytes.length ≤ buffer.size then
    some { buffer with
      head := buffer.head.take buffer.processed ++ bytes ++
        buffer.head.drop (buffer.processed + bytes.length)
      processed := (buffer.processed + bytes.length) % 2 ^ 32 }
  else none

/-- The bytes at the offset. -/
def load (length : Nat) (buffer : SlurmBuf) : Option (List UInt8) :=
  if buffer.processed + length ≤ buffer.size then
    some ((buffer.head.drop buffer.processed).take length)
  else none

def advance (length : Nat) (buffer : SlurmBuf) : SlurmBuf :=
  { buffer with processed := (buffer.processed + length) % 2 ^ 32 }

/-- `set_buf_offset(buffer, 0)` -/
def rewind (buffer : SlurmBuf) : SlurmBuf :=
  { buffer with processed := 0 }

end SlurmBuf

/-- `init_buf` -/
def initBuf (size : Nat) : Option SlurmBuf :=
  if maxBufSize < size then none
  else some ⟨List.replicate (if size = 0 then bufSize else size) 0, 0, 0⟩

/-! ## Packing -/

section Pack

variable (fresh : Nat → UInt8)

/-- `grow_buf` -/
def growBuf (sizeVal : UInt32) (buffer : SlurmBuf) : SlurmBuf :=
  if maxBufSize < (buffer.size + sizeVal.toNat) % 2 ^ 32 then buffer.errorExit
  else buffer.realloc fresh ((buffer.size + sizeVal.toNat) % 2 ^ 32)

/-- The room that a pack function makes before it writes; `none` is its error exit. -/
def reserve (need more : Nat) (buffer : SlurmBuf) : Option SlurmBuf :=
  if buffer.remaining < need then
    if maxBufSize < (buffer.size + more) % 2 ^ 32 then none
    else some (buffer.realloc fresh ((buffer.size + more) % 2 ^ 32))
  else some buffer

/-- The pieces that a pack function copies, one behind the other. -/
def storeAll : List (List UInt8) → SlurmBuf → Option SlurmBuf
  | [], buffer => some buffer
  | bytes :: pieces, buffer => (buffer.store bytes).bind (storeAll pieces)

/-- Make room and copy. -/
def packPieces (need more : Nat) (pieces : List (List UInt8)) (buffer : SlurmBuf) :
    Option SlurmBuf :=
  (reserve fresh need more buffer).elim (some buffer.errorExit) (storeAll pieces)

def pack8 (val : UInt8) : SlurmBuf → Option SlurmBuf :=
  packPieces fresh 1 bufSize [bytesOf 1 val.toNat]

def pack16 (val : UInt16) : SlurmBuf → Option SlurmBuf :=
  packPieces fresh 2 bufSize [bytesOf 2 val.toNat]

def pack32 (val : UInt32) : SlurmBuf → Option SlurmBuf :=
  packPieces fresh 4 bufSize [bytesOf 4 val.toNat]

def pack64 (val : UInt64) : SlurmBuf → Option SlurmBuf :=
  packPieces fresh 8 bufSize [bytesOf 8 val.toNat]

def packTime (val : Int64) : SlurmBuf → Option SlurmBuf :=
  packPieces fresh 8 bufSize [bytesOf 8 val.toUInt64.toNat]

/-- The loops of the array functions. -/
def packEach {α : Type} (pack : α → SlurmBuf → Option SlurmBuf) :
    List α → SlurmBuf → Option SlurmBuf
  | [], buffer => some buffer
  | value :: values, buffer => (pack value buffer).bind (packEach pack values)

/-- `pack16_array` and its like, for an array of `size_val` elements. -/
def packArray {α : Type} (pack : α → SlurmBuf → Option SlurmBuf) (valp : List α)
    (buffer : SlurmBuf) : Option SlurmBuf :=
  (pack32 fresh (UInt32.ofNat valp.length) buffer).bind (packEach pack valp)

def pack16Array : List UInt16 → SlurmBuf → Option SlurmBuf := packArray fresh (pack16 fresh)

def pack32Array : List UInt32 → SlurmBuf → Option SlurmBuf := packArray fresh (pack32 fresh)

def pack64Array : List UInt64 → SlurmBuf → Option SlurmBuf := packArray fresh (pack64 fresh)

/-- `packmem`, with the memory from `valp` on. -/
def packmem (valp : List UInt8) (sizeVal : UInt32) (buffer : SlurmBuf) : Option SlurmBuf :=
  if maxPackMemLen < sizeVal.toNat then some buffer.errorExit
  else
    packPieces fresh (4 + sizeVal.toNat) (sizeVal.toNat + bufSize)
      [bytesOf 4 sizeVal.toNat, valp.take sizeVal.toNat] buffer

/-- The size that `packstr` computes, in 32 bits. -/
def strSize : Option CString → UInt32
  | none => 0
  | some str => UInt32.ofNat str.bytes.length + 1

/-- What is in memory from the pointer on. -/
def strBytes : Option CString → List UInt8
  | none => []
  | some str => str.memory

/-- `packstr` -/
def packstr (str : Option CString) : SlurmBuf → Option SlurmBuf :=
  packmem fresh (strBytes str) (strSize str)

/-- `packstr_array`. Its error exit leaves out the strings as well. -/
def packstrArray (valp : List (Option CString)) (buffer : SlurmBuf) : Option SlurmBuf :=
  (reserve fresh 4 bufSize buffer).elim (some buffer.errorExit) fun buffer =>
    (buffer.store (bytesOf 4 (UInt32.ofNat valp.length).toNat)).bind
      (packEach (packstr fresh) valp)

/-- `packmem_array` -/
def packmemArray (valp : List UInt8) (sizeVal : UInt32) : SlurmBuf → Option SlurmBuf :=
  packPieces fresh sizeVal.toNat (sizeVal.toNat + bufSize) [valp.take sizeVal.toNat]

end Pack

/-! ## Unpacking -/

/-- An unpack function: the value or `SLURM_ERROR`, and the buffer afterwards. -/
def Unpack (α : Type) : Type :=
  SlurmBuf → Option (Option α × SlurmBuf)

namespace Unpack

variable {α β : Type}

def succeed (value : α) : Unpack α :=
  fun buffer => some (some value, buffer)

/-- `return SLURM_ERROR` -/
def fail : Unpack α :=
  fun buffer => some (none, buffer)

def andThen (first : Unpack α) (next : α → Unpack β) : Unpack β := fun buffer =>
  match first buffer with
  | none => none
  | some (none, buffer) => some (none, buffer)
  | some (some value, buffer) => next value buffer

/-- The bytes at the offset, if so many are left. -/
def bytes (length : Nat) : Unpack (List UInt8) := fun buffer =>
  if buffer.remaining < length then some (none, buffer)
  else (buffer.load length).map fun bytes => (some bytes, buffer.advance length)

/-- A number of so many bytes. -/
def word (length : Nat) : Unpack Nat :=
  (bytes length).andThen fun bytes => succeed (valueOf bytes)

end Unpack

open Unpack

def unpack8 : Unpack UInt8 := (word 1).andThen fun value => succeed (UInt8.ofNat value)

def unpack16 : Unpack UInt16 := (word 2).andThen fun value => succeed (UInt16.ofNat value)

def unpack32 : Unpack UInt32 := (word 4).andThen fun value => succeed (UInt32.ofNat value)

def unpack64 : Unpack UInt64 := (word 8).andThen fun value => succeed (UInt64.ofNat value)

def unpackTime : Unpack Int64 :=
  (word 8).andThen fun value => succeed (UInt64.ofNat value).toInt64

/-- The loops of the array functions. -/
def unpackEach {α : Type} (unpack : Unpack α) : Nat → Unpack (List α)
  | 0 => succeed []
  | n + 1 => unpack.andThen fun value =>
    (unpackEach unpack n).andThen fun values => succeed (value :: values)

/-- `unpack16_array` and its like. -/
def unpackArray {α : Type} (unpack : Unpack α) : Unpack (List α) :=
  unpack32.andThen fun sizeVal =>
    if Codec.noVal < sizeVal then fail else unpackEach unpack sizeVal.toNat

def unpack16Array : Unpack (List UInt16) := unpackArray unpack16

def unpack32Array : Unpack (List UInt32) := unpackArray unpack32

def unpack64Array : Unpack (List UInt64) := unpackArray unpack64

/-- What the four functions for memory have in common. -/
def unpackSized : Unpack (List UInt8) :=
  unpack32.andThen fun sizeVal =>
    if maxPackMemLen < sizeVal.toNat then fail
    else if 0 < sizeVal.toNat then bytes sizeVal.toNat
    else succeed []

/-- The pointer to memory of a size; `NULL` for nothing. -/
def pointerTo (memory : List UInt8) : Option (List UInt8) :=
  if memory = [] then none else some memory

/-- `unpackmem`: the bytes in the memory of the caller. -/
def unpackmem : Unpack (List UInt8) := unpackSized

/-- `unpackmem_ptr`: what the pointer into the buffer points to. -/
def unpackmemPtr : Unpack (Option (List UInt8)) :=
  unpackSized.andThen fun memory => succeed (pointerTo memory)

/-- `unpackmem_xmalloc` -/
def unpackmemXmalloc : Unpack (Option (List UInt8)) :=
  unpackSized.andThen fun memory => succeed (pointerTo memory)

/-- `unpackmem_malloc` -/
def unpackmemMalloc : Unpack (Option (List UInt8)) :=
  unpackSized.andThen fun memory => succeed (pointerTo memory)

/-- `unpackstr_array`; `NULL` for no strings. -/
def unpackstrArray : Unpack (Option (List (Option (List UInt8)))) :=
  unpack32.andThen fun sizeVal =>
    if maxPackArrayLen < sizeVal.toNat then fail
    else if 0 < sizeVal.toNat then
      (unpackEach unpackmemXmalloc sizeVal.toNat).andThen fun strings => succeed (some strings)
    else succeed none

/-- `unpackmem_array` -/
def unpackmemArray (sizeVal : UInt32) : Unpack (List UInt8) := bytes sizeVal.toNat

/-! ## Memory -/

section Memory

variable {fresh : Nat → UInt8} {buffer after : SlurmBuf} {bytes : List UInt8}

/-- A buffer whose offset is inside and whose size is within the limit. -/
structure Sound (buffer : SlurmBuf) : Prop where
  inside : buffer.processed ≤ buffer.size
  limit : buffer.size ≤ maxBufSize

theorem Sound.remaining_eq (sound : Sound buffer) :
    buffer.remaining = buffer.size - buffer.processed := by
  obtain ⟨mem, limit⟩ := sound
  unfold SlurmBuf.remaining
  unfold maxBufSize at limit
  omega

@[simp] theorem size_realloc (newSize : Nat) :
    (buffer.realloc fresh newSize).size = newSize := by
  simp [SlurmBuf.realloc, SlurmBuf.size]

@[simp] theorem processed_realloc (newSize : Nat) :
    (buffer.realloc fresh newSize).processed = buffer.processed := rfl

theorem take_realloc {newSize count : Nat} (le : count ≤ newSize) (mem : count ≤ buffer.size) :
    (buffer.realloc fresh newSize).head.take count = buffer.head.take count := by
  refine ext_getElem? fun i => ?_
  by_cases less : i < count
  · have here : i < buffer.head.length := less.trans_le mem
    rw [getElem?_take_of_lt less, getElem?_take_of_lt less, SlurmBuf.realloc,
      getElem?_map, getElem?_range (by omega), Option.map_some,
      getD_eq_getElem?_getD, getElem?_eq_getElem here, Option.getD_some]
  · rw [getElem?_eq_none (by simp; omega), getElem?_eq_none (by simp; omega)]

/-- The bytes up to the offset. -/
def SlurmBuf.data (buffer : SlurmBuf) : List UInt8 :=
  buffer.head.take buffer.processed

theorem length_data (sound : Sound buffer) : buffer.data.length = buffer.processed := by
  rw [SlurmBuf.data, length_take]
  exact Nat.min_eq_left sound.inside

theorem store_spec (sound : Sound buffer) (room : buffer.processed + bytes.length ≤ buffer.size) :
    ∃ after, buffer.store bytes = some after ∧ Sound after ∧ after.size = buffer.size ∧
      after.processed = buffer.processed + bytes.length ∧ after.errors = buffer.errors ∧
      after.data = buffer.data ++ bytes := by
  have small : (buffer.processed + bytes.length) % 2 ^ 32 = buffer.processed + bytes.length := by
    have := sound.limit
    unfold maxBufSize at this
    omega
  have front : (buffer.head.take buffer.processed).length = buffer.processed :=
    length_data sound
  have length : (buffer.head.take buffer.processed ++ bytes ++
      buffer.head.drop (buffer.processed + bytes.length)).length = buffer.head.length := by
    have : buffer.processed + bytes.length ≤ buffer.head.length := room
    rw [length_append, length_append, front, length_drop]
    omega
  refine ⟨_, if_pos room, ⟨?_, ?_⟩, length, small, rfl, ?_⟩
  · simp only [SlurmBuf.size, small, length]
    exact room
  · simp only [SlurmBuf.size, length]
    exact sound.limit
  · simp only [SlurmBuf.data, small]
    refine take_left' ?_
    rw [length_append, front]

theorem storeAll_spec (pieces : List (List UInt8)) (sound : Sound buffer)
    (room : buffer.processed + pieces.flatten.length ≤ buffer.size) :
    ∃ after, storeAll pieces buffer = some after ∧ Sound after ∧ after.size = buffer.size ∧
      after.errors = buffer.errors ∧ after.data = buffer.data ++ pieces.flatten := by
  induction pieces generalizing buffer with
  | nil => exact ⟨buffer, rfl, sound, rfl, rfl, (append_nil _).symm⟩
  | cons bytes pieces ih =>
    rw [flatten_cons, length_append] at room
    obtain ⟨next, stored, nextSound, size, processed, errors, data⟩ :=
      store_spec sound (show buffer.processed + bytes.length ≤ buffer.size by omega)
    obtain ⟨after, all, afterSound, afterSize, afterErrors, afterData⟩ :=
      ih nextSound (by omega)
    refine ⟨after, ?_, afterSound, afterSize.trans size, afterErrors.trans errors, ?_⟩
    · rw [storeAll, stored, Option.bind_some, all]
    · rw [afterData, data, append_assoc, flatten_cons]

end Memory

end SlurmSim.Common.Buffer
