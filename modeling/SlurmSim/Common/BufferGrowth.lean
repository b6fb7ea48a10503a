import SlurmSim.Common.Buffer

/-!
# How buffers grow

A pack function that lacks room compares the larger size with the limit after it
has added the sizes in 32 bits.  With a large buffer the sum wraps around, and the
buffer shrinks below what it holds.
-/

namespace SlurmSim.Common.Buffer

open SlurmSim.Lib.BigEndian List
open Option (bind_some elim_some)
open SlurmSim.Common.Codec (bufSize maxBufSize maxPackMemLen)

/-- The size and the offset of a buffer. -/
structure Extent where
  size : Nat
  processed : Nat

def SlurmBuf.extent (buffer : SlurmBuf) : Extent :=
  ⟨buffer.size, buffer.processed⟩

@[simp] theorem extent_size (buffer : SlurmBuf) : buffer.extent.size = buffer.size := rfl

@[simp] theorem extent_processed (buffer : SlurmBuf) :
    buffer.extent.processed = buffer.processed := rfl

namespace Extent

/-- A write of `need` bytes into a buffer that grows by `more` for it, with the true
sums. -/
def extend (need more : Nat) (extent : Extent) : Extent :=
  if extent.processed + need ≤ extent.size then ⟨extent.size, extent.processed + need⟩
  else if maxBufSize < extent.size + more then extent
  else ⟨extent.size + more, extent.processed + need⟩

/-- There is room, or the larger size is a number of 32 bits. -/
def Roomy (need more : Nat) (extent : Extent) : Prop :=
  extent.processed + need ≤ extent.size ∨ extent.size + more < 2 ^ 32

/-- The extent after several numbers of the same length. -/
def words (length : Nat) : Nat → Extent → Extent
  | 0, extent => extent
  | count + 1, extent => (extent.extend length bufSize).words length count

/-- The extent after `packmem`. -/
def mem (sizeVal : Nat) (extent : Extent) : Extent :=
  if maxPackMemLen < sizeVal then extent else extent.extend (4 + sizeVal) (sizeVal + bufSize)

/-- The extent after several pieces of memory. -/
def mems : List Nat → Extent → Extent
  | [], extent => extent
  | sizeVal :: sizeVals, extent => (extent.mem sizeVal).mems sizeVals

/-- `packmem` refuses the memory, or there is room for it. -/
def MemRoomy (sizeVal : Nat) (extent : Extent) : Prop :=
  maxPackMemLen < sizeVal ∨ extent.Roomy (4 + sizeVal) (sizeVal + bufSize)

/-- There is room for each of several pieces of memory, one behind the other. -/
def MemsRoomy : List Nat → Extent → Prop
  | [], _ => True
  | sizeVal :: sizeVals, extent =>
    extent.MemRoomy sizeVal ∧ (extent.mem sizeVal).MemsRoomy sizeVals

/-- The buffer is too large to grow for four more bytes. -/
def Full (extent : Extent) : Prop :=
  extent.size < extent.processed + 4 ∧ maxBufSize < extent.size + bufSize

instance (extent : Extent) : Decidable extent.Full :=
  inferInstanceAs (Decidable (_ ∧ _))

/-- The extent after `packstr_array`. -/
def strings (sizeVals : List Nat) (extent : Extent) : Extent :=
  if extent.Full then extent else (extent.extend 4 bufSize).mems sizeVals

end Extent

/-! ## Single writes -/

section Writes

variable {fresh : Nat → UInt8} {buffer next after : SlurmBuf} {need more : Nat}
  {pieces : List (List UInt8)} {bytes others : List UInt8} {extent further : Extent}

/-- Bytes are appended and the buffer does not get smaller, unless an error is counted. -/
structure Packed (bytes : List UInt8) (extent : Extent) (buffer after : SlurmBuf) : Prop where
  sound : Sound after
  larger : buffer.size ≤ after.size
  extent : after.extent = extent
  errors : buffer.errors ≤ after.errors
  data : after.errors = buffer.errors → after.data = buffer.data ++ bytes

theorem Packed.refl (sound : Sound buffer) : Packed [] buffer.extent buffer buffer :=
  ⟨sound, le_rfl, rfl, le_rfl, fun _ => (append_nil _).symm⟩

theorem Packed.trans (first : Packed bytes extent buffer next)
    (second : Packed others further next after) :
    Packed (bytes ++ others) further buffer after where
  sound := second.sound
  larger := first.larger.trans second.larger
  extent := second.extent
  errors := first.errors.trans second.errors
  data := fun same => by
    have firstErrors := first.errors
    have secondErrors := second.errors
    rw [second.data (by omega), first.data (by omega), append_assoc]

theorem Packed.errorExit (bytes : List UInt8) (sound : Sound buffer) :
    Packed bytes buffer.extent buffer buffer.errorExit where
  sound := ⟨sound.inside, sound.limit⟩
  larger := le_rfl
  extent := rfl
  errors := Nat.le_succ _
  data := fun same => absurd same (Nat.succ_ne_self _)

theorem extent_eq {size processed : Nat} (sizeEq : buffer.size = size)
    (processedEq : buffer.processed = processed) : buffer.extent = ⟨size, processed⟩ := by
  rw [SlurmBuf.extent, sizeEq, processedEq]

theorem reserve_of_room (fresh : Nat → UInt8) (more : Nat) (sound : Sound buffer)
    (room : buffer.processed + need ≤ buffer.size) :
    reserve fresh need more buffer = some buffer := by
  unfold reserve
  rw [if_neg (by rw [sound.remaining_eq]; omega)]

theorem reserve_of_lack (fresh : Nat → UInt8) (more : Nat) (sound : Sound buffer)
    (lack : buffer.size < buffer.processed + need) :
    reserve fresh need more buffer =
      if maxBufSize < (buffer.size + more) % 2 ^ 32 then none
      else some (buffer.realloc fresh ((buffer.size + more) % 2 ^ 32)) := by
  have inside := sound.inside
  unfold reserve
  rw [if_pos (by rw [sound.remaining_eq]; omega)]

/-- The room that a pack function finds or makes. -/
theorem reserve_of_roomy (fresh : Nat → UInt8) (sound : Sound buffer) (enough : need ≤ more)
    (roomy : buffer.extent.Roomy need more) :
    reserve fresh need more buffer = none ∧ buffer.size < buffer.processed + need ∧
        maxBufSize < buffer.size + more ∨
      ∃ next, reserve fresh need more buffer = some next ∧ Packed [] next.extent buffer next ∧
        next.errors = buffer.errors ∧ next.processed + need ≤ next.size ∧
        buffer.extent.extend need more = ⟨next.size, buffer.processed + need⟩ ∧
        ¬(buffer.size < buffer.processed + need ∧ maxBufSize < buffer.size + more) := by
  have inside := sound.inside
  by_cases room : buffer.processed + need ≤ buffer.size
  · refine .inr ⟨buffer, reserve_of_room fresh more sound room, .refl sound, rfl, room, ?_, ?_⟩
    · rw [Extent.extend, extent_size, extent_processed, if_pos room]
    · exact fun full => absurd full.1 (not_lt.mpr room)
  · have less : buffer.size + more < 2 ^ 32 := by
      rcases roomy with here | less
      · exact absurd here room
      · exact less
    have lack := reserve_of_lack fresh more sound (not_le.mp room)
    rw [Nat.mod_eq_of_lt less] at lack
    by_cases limit : maxBufSize < buffer.size + more
    · rw [if_pos limit] at lack
      exact .inl ⟨lack, not_le.mp room, limit⟩
    · rw [if_neg limit] at lack
      have kept : (buffer.realloc fresh (buffer.size + more)).data = buffer.data :=
        take_realloc (show buffer.processed ≤ buffer.size + more by omega) inside
      refine .inr ⟨_, lack, ⟨⟨?_, ?_⟩, ?_, rfl, le_rfl, fun _ => ?_⟩, rfl, ?_, ?_, ?_⟩
      · rw [processed_realloc, size_realloc]
        omega
      · rw [size_realloc]
        omega
      · rw [size_realloc]
        omega
      · rw [kept, append_nil]
      · rw [processed_realloc, size_realloc]
        omega
      · rw [Extent.extend, extent_size, extent_processed, if_neg room, if_neg limit, size_realloc]
      · exact fun full => limit full.2

theorem packPieces_of_roomy (fresh : Nat → UInt8) (pieces : List (List UInt8))
    (sound : Sound buffer) (length : pieces.flatten.length = need) (enough : need ≤ more)
    (roomy : buffer.extent.Roomy need more) :
    ∃ after, packPieces fresh need more pieces buffer = some after ∧
      Packed pieces.flatten (buffer.extent.extend need more) buffer after := by
  rcases reserve_of_roomy fresh sound enough roomy with ⟨refused, lack, limit⟩ |
    ⟨next, reserved, grown, errors, room, extent, -⟩
  · refine ⟨buffer.errorExit, ?_, ?_⟩
    · rw [packPieces, refused, Option.elim_none]
    · rw [Extent.extend, extent_size, extent_processed, if_neg (not_le.mpr lack), if_pos limit]
      exact .errorExit _ sound
  · obtain ⟨after, stored, afterSound, size, afterErrors, data⟩ :=
      storeAll_spec pieces grown.sound (by rw [length]; exact room)
    rw [grown.data errors, append_nil] at data
    have offset : after.processed = buffer.processed + need := by
      rw [← length_data afterSound, data, length_append, length_data sound, length]
    refine ⟨after, ?_, afterSound, size ▸ grown.larger, ?_, ?_, fun _ => data⟩
    · rw [packPieces, reserved, elim_some, stored]
    · rw [extent]
      exact extent_eq size offset
    · rw [afterErrors, errors]

theorem packPieces_of_not_roomy {first : List UInt8} (sound : Sound buffer)
    (small : more < 2 ^ 31) (short : buffer.size + more < 2 ^ 32 + buffer.processed + first.length)
    (lacks : ¬buffer.extent.Roomy need more) :
    packPieces fresh need more (first :: pieces) buffer = none := by
  have limit := sound.limit
  unfold maxBufSize at limit
  simp only [Extent.Roomy, extent_size, extent_processed] at lacks
  obtain ⟨room, wraps⟩ := not_or.mp lacks
  have size : (buffer.size + more) % 2 ^ 32 = buffer.size + more - 2 ^ 32 := by omega
  have outside : ¬(buffer.realloc fresh (buffer.size + more - 2 ^ 32)).processed + first.length ≤
      (buffer.realloc fresh (buffer.size + more - 2 ^ 32)).size := by
    rw [processed_realloc, size_realloc]
    omega
  rw [packPieces, reserve_of_lack fresh more sound (not_le.mp room), size,
    if_neg (by unfold maxBufSize; omega), elim_some, storeAll, SlurmBuf.store,
    if_neg outside, Option.bind_none]

theorem Sound.roomy_bufSize (need : Nat) (sound : Sound buffer) :
    buffer.extent.Roomy need bufSize := by
  have limit := sound.limit
  unfold maxBufSize at limit
  refine .inr ?_
  rw [extent_size]
  unfold bufSize
  omega

theorem packWord_spec (fresh : Nat → UInt8) (length value : Nat) (small : length ≤ 8)
    (sound : Sound buffer) :
    ∃ after, packPieces fresh length bufSize [bytesOf length value] buffer = some after ∧
      Packed (bytesOf length value) (buffer.extent.extend length bufSize) buffer after := by
  have packs := packPieces_of_roomy fresh [bytesOf length value] sound (by simp)
    (by unfold bufSize; omega) (sound.roomy_bufSize length)
  rwa [flatten_singleton] at packs

theorem packmem_of_roomy (fresh : Nat → UInt8) {valp : List UInt8} {sizeVal : UInt32}
    (sound : Sound buffer) (there : sizeVal.toNat ≤ valp.length)
    (roomy : buffer.extent.MemRoomy sizeVal.toNat) :
    ∃ after, packmem fresh valp sizeVal buffer = some after ∧
      Packed (bytesOf 4 sizeVal.toNat ++ valp.take sizeVal.toNat)
        (buffer.extent.mem sizeVal.toNat) buffer after := by
  by_cases large : maxPackMemLen < sizeVal.toNat
  · rw [packmem, if_pos large, Extent.mem, if_pos large]
    exact ⟨_, rfl, .errorExit _ sound⟩
  · rw [packmem, if_neg large, Extent.mem, if_neg large]
    have packs := packPieces_of_roomy fresh [bytesOf 4 sizeVal.toNat, valp.take sizeVal.toNat] sound
      (by simp [Nat.min_eq_left there]) (by unfold bufSize; omega) (roomy.resolve_left large)
    simpa using packs

theorem packmem_of_not_roomy {valp : List UInt8} {sizeVal : UInt32} (sound : Sound buffer)
    (lacks : ¬buffer.extent.MemRoomy sizeVal.toNat) :
    packmem fresh valp sizeVal buffer = none := by
  obtain ⟨small, lacks⟩ := not_or.mp lacks
  have room := (not_or.mp lacks).1
  simp only [extent_size, extent_processed] at room
  rw [packmem, if_neg small]
  unfold maxPackMemLen at small
  refine packPieces_of_not_roomy sound ?_ ?_ lacks
  · unfold bufSize
    omega
  · unfold bufSize
    omega

/-! ## Loops -/

theorem packWords_spec {α : Type} (fresh : Nat → UInt8) (length : Nat) (small : length ≤ 8)
    (number : α → Nat) (values : List α) (sound : Sound buffer) :
    ∃ after, packEach (fun value =>
        packPieces fresh length bufSize [bytesOf length (number value)]) values buffer =
          some after ∧
      Packed (values.flatMap fun value => bytesOf length (number value))
        (buffer.extent.words length values.length) buffer after := by
  induction values generalizing buffer with
  | nil => exact ⟨buffer, rfl, .refl sound⟩
  | cons value values ih =>
    obtain ⟨next, first, nextPacked⟩ :=
      packWord_spec fresh length (number value) small sound
    obtain ⟨after, others, afterPacked⟩ := ih nextPacked.sound
    rw [nextPacked.extent] at afterPacked
    refine ⟨after, ?_, nextPacked.trans afterPacked⟩
    rw [packEach, first, bind_some, others]

theorem packWordArray_spec {α : Type} (fresh : Nat → UInt8) (length : Nat) (small : length ≤ 8)
    (number : α → Nat) (values : List α) (sound : Sound buffer) :
    ∃ after, packArray fresh (fun value =>
        packPieces fresh length bufSize [bytesOf length (number value)]) values buffer =
          some after ∧
      Packed (bytesOf 4 (UInt32.ofNat values.length).toNat ++
          values.flatMap fun value => bytesOf length (number value))
        ((buffer.extent.extend 4 bufSize).words length values.length) buffer after := by
  obtain ⟨next, first, nextPacked⟩ :=
    packWord_spec fresh 4 (UInt32.ofNat values.length).toNat (by omega) sound
  obtain ⟨after, others, afterPacked⟩ :=
    packWords_spec fresh length small number values nextPacked.sound
  rw [nextPacked.extent] at afterPacked
  refine ⟨after, ?_, nextPacked.trans afterPacked⟩
  rw [packArray, pack32, first, bind_some, others]

theorem strSize_le (str : Option CString) : (strSize str).toNat ≤ (strBytes str).length := by
  cases str with
  | none => exact le_rfl
  | some str =>
    rw [strSize, strBytes, CString.memory, length_append, UInt32.toNat_add]
    exact (Nat.mod_le _ _).trans (Nat.add_le_add_right (by simp [Nat.mod_le]) 1)

/-- What `packstr` writes. -/
def strPacked (str : Option CString) : List UInt8 :=
  bytesOf 4 (strSize str).toNat ++ (strBytes str).take (strSize str).toNat

/-- The sizes that `packstr` computes for several strings. -/
def strSizes (strings : List (Option CString)) : List Nat :=
  strings.map fun str => (strSize str).toNat

theorem packStrings_of_roomy (fresh : Nat → UInt8) (strings : List (Option CString))
    (sound : Sound buffer) (roomy : buffer.extent.MemsRoomy (strSizes strings)) :
    ∃ after, packEach (packstr fresh) strings buffer = some after ∧
      Packed (strings.flatMap strPacked) (buffer.extent.mems (strSizes strings)) buffer after := by
  induction strings generalizing buffer with
  | nil => exact ⟨buffer, rfl, .refl sound⟩
  | cons str strings ih =>
    obtain ⟨next, first, nextPacked⟩ :=
      packmem_of_roomy fresh sound (strSize_le str) roomy.1
    have others : next.extent.MemsRoomy (strSizes strings) := by
      rw [nextPacked.extent]
      exact roomy.2
    obtain ⟨after, others, afterPacked⟩ := ih nextPacked.sound others
    rw [nextPacked.extent] at afterPacked
    refine ⟨after, ?_, nextPacked.trans afterPacked⟩
    rw [packEach, packstr, first, bind_some, others]

theorem packStrings_of_not_roomy (strings : List (Option CString)) (sound : Sound buffer)
    (lacks : ¬buffer.extent.MemsRoomy (strSizes strings)) :
    packEach (packstr fresh) strings buffer = none := by
  induction strings generalizing buffer with
  | nil => exact absurd trivial lacks
  | cons str strings ih =>
    by_cases roomy : buffer.extent.MemRoomy (strSize str).toNat
    · obtain ⟨next, first, nextPacked⟩ := packmem_of_roomy fresh sound (strSize_le str) roomy
      have others : ¬next.extent.MemsRoomy (strSizes strings) := by
        rw [nextPacked.extent]
        exact fun others => lacks ⟨roomy, others⟩
      rw [packEach, packstr, first, bind_some, ih nextPacked.sound others]
    · rw [packEach, packstr, packmem_of_not_roomy sound roomy, Option.bind_none]

/-- The number of strings is written, or the array is refused. -/
theorem reserve_strings (fresh : Nat → UInt8) (count : Nat) (sound : Sound buffer) :
    buffer.extent.Full ∧ reserve fresh 4 bufSize buffer = none ∨
      ¬buffer.extent.Full ∧ ∃ next after, reserve fresh 4 bufSize buffer = some next ∧
        next.store (bytesOf 4 count) = some after ∧
        Packed (bytesOf 4 count) (buffer.extent.extend 4 bufSize) buffer after := by
  rcases reserve_of_roomy fresh sound (show 4 ≤ bufSize by decide) (sound.roomy_bufSize 4) with
    ⟨refused, full⟩ | ⟨next, reserved, grown, errors, room, -, full⟩
  · exact .inl ⟨full, refused⟩
  · obtain ⟨after, packed, packs⟩ := packWord_spec fresh 4 count (by omega) sound
    rw [packPieces, reserved, elim_some, storeAll] at packed
    refine .inr ⟨full, next, after, reserved, ?_, packs⟩
    have fits : next.processed + (bytesOf 4 count).length ≤ next.size := by
      exact room
    obtain ⟨stored, isStored, -⟩ := store_spec grown.sound fits
    rw [isStored] at packed
    rw [isStored]
    exact packed

theorem packstrArray_of_roomy (fresh : Nat → UInt8) (strings : List (Option CString))
    (sound : Sound buffer)
    (roomy : buffer.extent.Full ∨ (buffer.extent.extend 4 bufSize).MemsRoomy (strSizes strings)) :
    ∃ after, packstrArray fresh strings buffer = some after ∧
      Packed (bytesOf 4 (UInt32.ofNat strings.length).toNat ++ strings.flatMap strPacked)
        (buffer.extent.strings (strSizes strings)) buffer after := by
  rcases reserve_strings fresh (UInt32.ofNat strings.length).toNat sound with
    ⟨full, refused⟩ | ⟨full, next, counted, reserved, stored, packed⟩
  · rw [packstrArray, refused, Option.elim_none, Extent.strings, if_pos full]
    exact ⟨_, rfl, .errorExit _ sound⟩
  · have others : counted.extent.MemsRoomy (strSizes strings) := by
      rw [packed.extent]
      exact roomy.resolve_left full
    obtain ⟨after, others, afterPacked⟩ := packStrings_of_roomy fresh strings packed.sound others
    rw [packed.extent] at afterPacked
    rw [packstrArray, reserved, elim_some, stored, bind_some, others, Extent.strings, if_neg full]
    exact ⟨after, rfl, packed.trans afterPacked⟩

theorem packstrArray_of_not_roomy (strings : List (Option CString)) (sound : Sound buffer)
    (lacks : ¬(buffer.extent.Full ∨
      (buffer.extent.extend 4 bufSize).MemsRoomy (strSizes strings))) :
    packstrArray fresh strings buffer = none := by
  obtain ⟨notFull, lacks⟩ := not_or.mp lacks
  rcases reserve_strings fresh (UInt32.ofNat strings.length).toNat sound with
    ⟨full, -⟩ | ⟨-, next, counted, reserved, stored, packed⟩
  · exact absurd full notFull
  · rw [← packed.extent] at lacks
    rw [packstrArray, reserved, elim_some, stored, bind_some,
      packStrings_of_not_roomy strings packed.sound lacks]

end Writes

/-! ## Values -/

/-- What one call packs. -/
inductive Item where
  | word8 (val : UInt8)
  | word16 (val : UInt16)
  | word32 (val : UInt32)
  | word64 (val : UInt64)
  | time (val : Int64)
  | mem (valp : List UInt8)
  | string (str : Option CString)
  | array16 (valp : List UInt16)
  | array32 (valp : List UInt32)
  | array64 (valp : List UInt64)
  | strArray (valp : List (Option CString))

namespace Item

/-- The pack function of a value. -/
def pack (fresh : Nat → UInt8) : Item → SlurmBuf → Option SlurmBuf
  | word8 val => pack8 fresh val
  | word16 val => pack16 fresh val
  | word32 val => pack32 fresh val
  | word64 val => pack64 fresh val
  | time val => packTime fresh val
  | mem valp => packmem fresh valp (UInt32.ofNat valp.length)
  | string str => packstr fresh str
  | array16 valp => pack16Array fresh valp
  | array32 valp => pack32Array fresh valp
  | array64 valp => pack64Array fresh valp
  | strArray valp => packstrArray fresh valp

/-- The sizes that are passed along are numbers of 32 bits, and arrays of strings keep to
a limit. -/
def Sized (limit : Nat) : Item → Prop
  | mem valp => valp.length < 2 ^ 32
  | array16 valp => valp.length < 2 ^ 32
  | array32 valp => valp.length < 2 ^ 32
  | array64 valp => valp.length < 2 ^ 32
  | strArray valp => valp.length ≤ limit
  | _ => True

/-- No sum of sizes wraps around. -/
def Roomy : Item → Extent → Prop
  | mem valp, extent => extent.MemRoomy valp.length
  | string str, extent => extent.MemRoomy (strSize str).toNat
  | strArray valp, extent =>
    extent.Full ∨ (extent.extend 4 bufSize).MemsRoomy (strSizes valp)
  | _, _ => True

/-- The extent afterwards. -/
def extent : Item → Extent → Extent
  | word8 _, extent => extent.extend 1 bufSize
  | word16 _, extent => extent.extend 2 bufSize
  | word32 _, extent => extent.extend 4 bufSize
  | word64 _, extent => extent.extend 8 bufSize
  | time _, extent => extent.extend 8 bufSize
  | mem valp, extent => extent.mem valp.length
  | string str, extent => extent.mem (strSize str).toNat
  | array16 valp, extent => (extent.extend 4 bufSize).words 2 valp.length
  | array32 valp, extent => (extent.extend 4 bufSize).words 4 valp.length
  | array64 valp, extent => (extent.extend 4 bufSize).words 8 valp.length
  | strArray valp, extent => extent.strings (strSizes valp)

/-- The bytes of an array. -/
def arrayBytes {α : Type} (length : Nat) (number : α → Nat) (valp : List α) : List UInt8 :=
  bytesOf 4 (UInt32.ofNat valp.length).toNat ++
    valp.flatMap fun value => bytesOf length (number value)

/-- The bytes that are written. -/
def bytes : Item → List UInt8
  | word8 val => bytesOf 1 val.toNat
  | word16 val => bytesOf 2 val.toNat
  | word32 val => bytesOf 4 val.toNat
  | word64 val => bytesOf 8 val.toNat
  | time val => bytesOf 8 val.toUInt64.toNat
  | mem valp => bytesOf 4 valp.length ++ valp
  | string str => strPacked str
  | array16 valp => arrayBytes 2 UInt16.toNat valp
  | array32 valp => arrayBytes 4 UInt32.toNat valp
  | array64 valp => arrayBytes 8 UInt64.toNat valp
  | strArray valp => bytesOf 4 (UInt32.ofNat valp.length).toNat ++ valp.flatMap strPacked

variable {fresh : Nat → UInt8} {buffer : SlurmBuf} {limit : Nat}

theorem pack_of_roomy (fresh : Nat → UInt8) {item : Item} (sized : item.Sized limit)
    (sound : Sound buffer) (roomy : item.Roomy buffer.extent) :
    ∃ after, item.pack fresh buffer = some after ∧
      Packed item.bytes (item.extent buffer.extent) buffer after := by
  cases item with
  | word8 val => exact packWord_spec fresh 1 _ (by omega) sound
  | word16 val => exact packWord_spec fresh 2 _ (by omega) sound
  | word32 val => exact packWord_spec fresh 4 _ (by omega) sound
  | word64 val => exact packWord_spec fresh 8 _ (by omega) sound
  | time val => exact packWord_spec fresh 8 _ (by omega) sound
  | mem valp =>
    have size : (UInt32.ofNat valp.length).toNat = valp.length :=
      UInt32.toNat_ofNat_of_lt' sized
    have packs := packmem_of_roomy fresh sound size.le (by rw [size]; exact roomy)
    rwa [size, take_length] at packs
  | string str => exact packmem_of_roomy fresh sound (strSize_le str) roomy
  | array16 valp => exact packWordArray_spec fresh 2 (by omega) UInt16.toNat valp sound
  | array32 valp => exact packWordArray_spec fresh 4 (by omega) UInt32.toNat valp sound
  | array64 valp => exact packWordArray_spec fresh 8 (by omega) UInt64.toNat valp sound
  | strArray valp => exact packstrArray_of_roomy fresh valp sound roomy

theorem pack_of_not_roomy {item : Item} (sized : item.Sized limit) (sound : Sound buffer)
    (lacks : ¬item.Roomy buffer.extent) : item.pack fresh buffer = none := by
  cases item with
  | mem valp =>
    have size : (UInt32.ofNat valp.length).toNat = valp.length :=
      UInt32.toNat_ofNat_of_lt' sized
    exact packmem_of_not_roomy sound (by rw [size]; exact lacks)
  | string str => exact packmem_of_not_roomy sound lacks
  | strArray valp => exact packstrArray_of_not_roomy valp sound lacks
  | _ => exact absurd trivial lacks

end Item

/-! ## Every buffer within the limit -/

/-- A call that changes a buffer. -/
inductive Write where
  | grow (sizeVal : UInt32)
  | memArray (valp : List UInt8)
  | pack (item : Item)

namespace Write

/-- The buffer after the call; `none` if a byte is written outside. -/
def apply (fresh : Nat → UInt8) : Write → SlurmBuf → Option SlurmBuf
  | grow sizeVal, buffer => some (growBuf fresh sizeVal buffer)
  | memArray valp, buffer => packmemArray fresh valp (UInt32.ofNat valp.length) buffer
  | pack item, buffer => item.pack fresh buffer

/-- No size is larger than `MAX_PACK_MEM_LEN`. -/
def Sized : Write → Prop
  | grow sizeVal => sizeVal.toNat ≤ maxPackMemLen
  | memArray valp => valp.length ≤ maxPackMemLen
  | pack item => item.Sized maxPackMemLen

/-- No sum of sizes wraps around. -/
def Roomy : Write → Extent → Prop
  | grow sizeVal, extent => extent.size + sizeVal.toNat < 2 ^ 32
  | memArray valp, extent => extent.Roomy valp.length (valp.length + bufSize)
  | pack item, extent => item.Roomy extent

end Write

/-- Either an error leaves the buffer as it was, or it is at least as large as before and
the offset is inside. -/
def Contained (buffer after : SlurmBuf) : Prop :=
  after = buffer.errorExit ∨
    buffer.size ≤ after.size ∧ after.size ≤ maxBufSize ∧ after.processed ≤ after.size

variable {buffer : SlurmBuf}

theorem Packed.contained {bytes : List UInt8} {extent : Extent} {after : SlurmBuf}
    (packed : Packed bytes extent buffer after) : Contained buffer after :=
  .inr ⟨packed.larger, packed.sound.limit, packed.sound.inside⟩

theorem contained_growBuf_iff (fresh : Nat → UInt8) {sizeVal : UInt32}
    (sized : sizeVal.toNat ≤ maxPackMemLen) (sound : Sound buffer) :
    (∃ after, some (growBuf fresh sizeVal buffer) = some after ∧ Contained buffer after) ↔
      buffer.size + sizeVal.toNat < 2 ^ 32 := by
  have limit := sound.limit
  have inside := sound.inside
  unfold maxPackMemLen at sized
  refine ⟨fun ⟨after, grown, contained⟩ => ?_, fun less => ⟨_, rfl, ?_⟩⟩
  · by_contra wraps
    have size : (buffer.size + sizeVal.toNat) % 2 ^ 32 = buffer.size + sizeVal.toNat - 2 ^ 32 := by
      unfold maxBufSize at limit
      omega
    have shrunk : growBuf fresh sizeVal buffer =
        buffer.realloc fresh (buffer.size + sizeVal.toNat - 2 ^ 32) := by
      rw [growBuf, size, if_neg (by omega)]
    cases grown
    have same : buffer.size ≤ (growBuf fresh sizeVal buffer).size := by
      rcases contained with same | ⟨larger, _⟩
      · exact (congrArg SlurmBuf.size same).ge
      · exact larger
    rw [shrunk, size_realloc] at same
    omega
  · rw [growBuf, Nat.mod_eq_of_lt less]
    by_cases exceeded : maxBufSize < buffer.size + sizeVal.toNat
    · rw [if_pos exceeded]
      exact .inl rfl
    · rw [if_neg exceeded]
      refine .inr ⟨?_, ?_, ?_⟩
      · rw [size_realloc]
        omega
      · rw [size_realloc]
        omega
      · rw [size_realloc, processed_realloc]
        omega

theorem contained_packmemArray_iff (fresh : Nat → UInt8) {valp : List UInt8}
    (sized : valp.length ≤ maxPackMemLen) (sound : Sound buffer) :
    (∃ after, packmemArray fresh valp (UInt32.ofNat valp.length) buffer = some after ∧
      Contained buffer after) ↔
      buffer.extent.Roomy valp.length (valp.length + bufSize) := by
  have limit := sound.limit
  unfold maxPackMemLen at sized
  have size : (UInt32.ofNat valp.length).toNat = valp.length :=
    UInt32.toNat_ofNat_of_lt' (by unfold UInt32.size; omega)
  rw [packmemArray, size, take_length]
  refine ⟨fun ⟨after, packed, _⟩ => ?_, fun roomy => ?_⟩
  · by_contra lacks
    rw [packPieces_of_not_roomy sound (by unfold bufSize; omega)
      (by unfold bufSize maxBufSize at *; omega) lacks] at packed
    cases packed
  · obtain ⟨after, packed, extended⟩ := packPieces_of_roomy fresh [valp] sound
      (by rw [flatten_singleton]) (Nat.le_add_right _ _) roomy
    exact ⟨after, packed, extended.contained⟩

/-- The calls that keep every buffer within its allocation are those whose sums of sizes
are numbers of 32 bits. -/
theorem contained_iff_roomy (fresh : Nat → UInt8) (write : Write) (buffer : SlurmBuf)
    (sized : write.Sized) (sound : Sound buffer) :
    (∃ after, write.apply fresh buffer = some after ∧ Contained buffer after) ↔
      write.Roomy buffer.extent := by
  cases write with
  | grow sizeVal => exact contained_growBuf_iff fresh sized sound
  | memArray valp => exact contained_packmemArray_iff fresh sized sound
  | pack item =>
    refine ⟨fun ⟨after, packed, _⟩ => ?_, fun roomy => ?_⟩
    · by_contra lacks
      rw [Write.apply, Item.pack_of_not_roomy sized sound lacks] at packed
      cases packed
    · obtain ⟨after, packed, extended⟩ := Item.pack_of_roomy fresh sized sound roomy
      exact ⟨after, packed, extended.contained⟩

theorem contained_iff_roomy_mem :
    ∃ after, (Write.pack (.mem [7, 8, 9])).apply (fun _ => 0) ⟨[1, 2, 0, 0], 2, 0⟩ = some after ∧
      Contained ⟨[1, 2, 0, 0], 2, 0⟩ after :=
  (contained_iff_roomy _ _ _ (by simp [Write.Sized, Item.Sized])
    ⟨by decide, by decide⟩).mpr (.inr (.inr (by decide)))

/-- Memory of 48 KiB for a full buffer of the largest size: the sum is `2 ^ 32`. -/
theorem contained_fails : ¬∀ (fresh : Nat → UInt8) (write : Write) (buffer : SlurmBuf),
    write.Sized → Sound buffer →
      ∃ after, write.apply fresh buffer = some after ∧ Contained buffer after := by
  intro contained
  obtain ⟨head, headLength⟩ : ∃ head : List UInt8, head.length = maxBufSize :=
    ⟨List.replicate maxBufSize 0, length_replicate⟩
  obtain ⟨valp, valpLength⟩ : ∃ valp : List UInt8, valp.length = 49152 :=
    ⟨List.replicate 49152 0, length_replicate⟩
  have sized : (Item.mem valp).Sized maxPackMemLen := by
    rw [Item.Sized, valpLength]
    decide
  have sound : Sound ⟨head, maxBufSize, 0⟩ := ⟨headLength.ge, headLength.le⟩
  have lacks : ¬(Item.mem valp).Roomy (SlurmBuf.extent ⟨head, maxBufSize, 0⟩) := by
    rw [Item.Roomy, Extent.MemRoomy, Extent.Roomy, extent_size, extent_processed,
      SlurmBuf.size, headLength, valpLength]
    simp only [maxPackMemLen, maxBufSize, bufSize]
    omega
  obtain ⟨after, packed, -⟩ := contained (fun _ => 0) (.pack (.mem valp)) _ sized sound
  rw [Write.apply, Item.pack_of_not_roomy sized sound lacks] at packed
  cases packed

end SlurmSim.Common.Buffer
