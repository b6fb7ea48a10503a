import SlurmSim.Lib.BigEndian

/-!
# Packing into buffers

A buffer grows as values are packed into it.  Beyond the largest buffer size a
value is left out with no more than a message in the log.
-/

namespace SlurmSim.Common.Codec

open SlurmSim.Lib.BigEndian List

/-- `NO_VAL` -/
def noVal : UInt32 := 0xfffffffe

/-- `BUF_SIZE` -/
def bufSize : Nat := 16 * 1024

/-- `MAX_BUF_SIZE` -/
def maxBufSize : Nat := 0xffff0000

/-- `MAX_PACK_MEM_LEN` -/
def maxPackMemLen : Nat := 1024 * 1024 * 1024

/-- `struct slurm_buf` while it is packed: the data up to `processed`. -/
structure Buf where
  size : Nat
  data : List UInt8

/-- `remaining_buf`, in 32 bits. -/
def Buf.remaining (buffer : Buf) : Nat :=
  (buffer.size + 2 ^ 32 - buffer.data.length) % 2 ^ 32

/-- What `pack8`, `pack16`, `pack32` and `pack64` do with the bytes of a value. -/
def packBytes (bytes : List UInt8) (buffer : Buf) : Buf :=
  if buffer.remaining < bytes.length then
    if maxBufSize < (buffer.size + bufSize) % 2 ^ 32 then buffer
    else ⟨(buffer.size + bufSize) % 2 ^ 32, buffer.data ++ bytes⟩
  else { buffer with data := buffer.data ++ bytes }

def pack8 (value : UInt8) : Buf → Buf := packBytes (bytesOf 1 value.toNat)

def pack16 (value : UInt16) : Buf → Buf := packBytes (bytesOf 2 value.toNat)

def pack32 (value : UInt32) : Buf → Buf := packBytes (bytesOf 4 value.toNat)

def pack64 (value : UInt64) : Buf → Buf := packBytes (bytesOf 8 value.toNat)

/-- The loops of the array functions; a read behind the array is not modelled. -/
def packArray {α : Type} (pack : α → Buf → Buf) (valp : List α) (sizeVal : UInt32)
    (buffer : Buf) : Buf :=
  (valp.take sizeVal.toNat).foldl (fun buffer value => pack value buffer) (pack32 sizeVal buffer)

def pack16Array : List UInt16 → UInt32 → Buf → Buf := packArray pack16

def pack32Array : List UInt32 → UInt32 → Buf → Buf := packArray pack32

def pack64Array : List UInt64 → UInt32 → Buf → Buf := packArray pack64

def pack64ArrayAs32 : List UInt64 → UInt32 → Buf → Buf :=
  packArray fun value => pack32 value.toUInt32

/-- `packmem` -/
def packmem (valp : List UInt8) (sizeVal : UInt32) (buffer : Buf) : Buf :=
  let bytes := bytesOf 4 sizeVal.toNat ++ valp.take sizeVal.toNat
  if maxPackMemLen < sizeVal.toNat then buffer
  else if buffer.remaining < 4 + sizeVal.toNat then
    if maxBufSize < (buffer.size + sizeVal.toNat + bufSize) % 2 ^ 32 then buffer
    else ⟨(buffer.size + sizeVal.toNat + bufSize) % 2 ^ 32, buffer.data ++ bytes⟩
  else { buffer with data := buffer.data ++ bytes }

/-- `packstr`, for a string without its final zero, or `NULL`. -/
def packstr (str : Option (List UInt8)) (buffer : Buf) : Buf :=
  match str with
  | none => packmem [] 0 buffer
  | some str => packmem (str ++ [0]) (UInt32.ofNat str.length + 1) buffer

/-! ## What is packed -/

/-- The buffer can take up so many more bytes, in whatever pieces. -/
structure HasRoom (n : Nat) (buffer : Buf) : Prop where
  within : buffer.data.length ≤ buffer.size
  small : buffer.size < 2 ^ 32
  room : buffer.data.length + 2 * n + bufSize ≤ maxBufSize

/-- The function appends the bytes wherever there is room for them. -/
def Packs (pack : Buf → Buf) (bytes : List UInt8) : Prop :=
  ∀ n buffer, HasRoom (bytes.length + n) buffer →
    (pack buffer).data = buffer.data ++ bytes ∧ HasRoom n (pack buffer)

theorem HasRoom.remaining_eq {n : Nat} {buffer : Buf} (has : HasRoom n buffer) :
    buffer.remaining = buffer.size - buffer.data.length := by
  obtain ⟨within, small, -⟩ := has
  have less : buffer.size - buffer.data.length < 2 ^ 32 := by omega
  rw [Buf.remaining, Nat.sub_add_comm within, Nat.add_mod_right, Nat.mod_eq_of_lt less]

namespace Packs

variable {pack more : Buf → Buf} {bytes moreBytes : List UInt8}

theorem comp (first : Packs pack bytes) (second : Packs more moreBytes) :
    Packs (fun buffer => more (pack buffer)) (bytes ++ moreBytes) := by
  intro n buffer room
  rw [length_append, Nat.add_assoc] at room
  obtain ⟨data, left⟩ := first _ buffer room
  obtain ⟨moreData, rest⟩ := second _ _ left
  refine ⟨?_, rest⟩
  rw [moreData, data, append_assoc]

theorem fixed (short : bytes.length ≤ bufSize) : Packs (packBytes bytes) bytes := by
  intro n buffer has
  have remaining := has.remaining_eq
  obtain ⟨within, small, room⟩ := has
  unfold packBytes
  unfold bufSize maxBufSize at *
  split_ifs with full tooLarge
  · omega
  · refine ⟨rfl, ?_, ?_, ?_⟩
    · simp only [length_append]
      omega
    · exact Nat.mod_lt _ (Nat.two_pow_pos 32)
    · simp only [length_append, bufSize, maxBufSize]
      omega
  · refine ⟨rfl, ?_, small, ?_⟩
    · simp only [length_append]
      omega
    · simp only [length_append, bufSize, maxBufSize]
      omega

theorem u8 (value : UInt8) : Packs (pack8 value) (bytesOf 1 value.toNat) :=
  fixed (by simp [bufSize])

theorem u16 (value : UInt16) : Packs (pack16 value) (bytesOf 2 value.toNat) :=
  fixed (by simp [bufSize])

theorem u32 (value : UInt32) : Packs (pack32 value) (bytesOf 4 value.toNat) :=
  fixed (by simp [bufSize])

theorem u64 (value : UInt64) : Packs (pack64 value) (bytesOf 8 value.toNat) :=
  fixed (by simp [bufSize])

theorem values {α : Type} {pack : α → Buf → Buf} {encode : α → List UInt8}
    (each : ∀ value, Packs (pack value) (encode value)) (list : List α) :
    Packs (fun buffer => list.foldl (fun buffer value => pack value buffer) buffer)
      (list.flatMap encode) := by
  induction list with
  | nil =>
    intro n buffer has
    simpa using has
  | cons value list ih => exact (each value).comp ih

theorem array {α : Type} {pack : α → Buf → Buf} {encode : α → List UInt8}
    (each : ∀ value, Packs (pack value) (encode value)) (valp : List α) (sizeVal : UInt32) :
    Packs (packArray pack valp sizeVal)
      (bytesOf 4 sizeVal.toNat ++ (valp.take sizeVal.toNat).flatMap encode) :=
  (u32 sizeVal).comp (values each _)

theorem mem {valp : List UInt8} {sizeVal : UInt32} (inside : sizeVal.toNat = valp.length)
    (short : valp.length ≤ maxPackMemLen) :
    Packs (packmem valp sizeVal) (bytesOf 4 sizeVal.toNat ++ valp) := by
  intro n buffer has
  have remaining := has.remaining_eq
  obtain ⟨within, small, room⟩ := has
  have all : valp.take sizeVal.toNat = valp := by rw [inside, take_length]
  unfold packmem
  simp only [all, length_append, length_bytesOf] at room ⊢
  rw [inside]
  unfold bufSize maxBufSize at *
  split_ifs with tooLong full tooLarge
  · exact absurd short (Nat.not_le.mpr tooLong)
  · omega
  · refine ⟨rfl, ?_, ?_, ?_⟩
    · simp only [length_append, length_bytesOf]
      omega
    · exact Nat.mod_lt _ (Nat.two_pow_pos 32)
    · simp only [length_append, length_bytesOf, bufSize, maxBufSize]
      omega
  · refine ⟨rfl, ?_, small, ?_⟩
    · simp only [length_append, length_bytesOf]
      omega
    · simp only [length_append, length_bytesOf, bufSize, maxBufSize]
      omega

end Packs

/-- The bytes of a string with its final zero, or of `NULL`. -/
def encodeStr (str : Option (List UInt8)) : List UInt8 :=
  match str with
  | none => bytesOf 4 0
  | some str => bytesOf 4 (str.length + 1) ++ (str ++ [0])

theorem Packs.str {str : Option (List UInt8)} (short : ∀ s ∈ str, s.length < maxPackMemLen) :
    Packs (packstr str) (encodeStr str) := by
  cases str with
  | none =>
    have empty := @Packs.mem [] 0 rfl (Nat.zero_le _)
    rwa [append_nil] at empty
  | some str =>
    have inside := short str rfl
    have sizeVal : (UInt32.ofNat str.length + 1).toNat = (str ++ [0]).length := by
      unfold maxPackMemLen at inside
      rw [UInt32.toNat_add, UInt32.toNat_ofNat', length_append]
      simp only [UInt32.reduceToNat, length_singleton]
      omega
    have packed := Packs.mem sizeVal (by simpa using Nat.succ_le_of_lt inside)
    rw [sizeVal, length_append] at packed
    exact packed

end SlurmSim.Common.Codec
