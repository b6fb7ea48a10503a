import Mathlib.Data.List.TakeDrop
import SlurmSim.Common.BufferGrowth

/-!
# What is packed is unpacked

A sequence of values packed into a buffer comes back from the matching unpack
functions, as long as no size wraps around on the way.  The unpack functions by
themselves stay inside every buffer.
-/

namespace SlurmSim.Common.Buffer

open SlurmSim.Lib.BigEndian List
open Option (bind_some map_some some.inj)
open SlurmSim.Common.Codec (bufSize maxBufSize maxPackMemLen)
open Unpack

/-! ## Calls -/

/-- The function that takes memory or a string out of a buffer. -/
inductive MemCall where
  | copy
  | ptr
  | xmalloc
  | malloc

/-- A call of an unpack function. -/
inductive Call where
  | word8
  | word16
  | word32
  | word64
  | time
  | mem (how : MemCall)
  | array16
  | array32
  | array64
  | strArray
  | memArray (sizeVal : UInt32)

/-- What a call delivers: for memory a copy in the memory of the caller, or a pointer. -/
inductive Value where
  | word8 (val : UInt8)
  | word16 (val : UInt16)
  | word32 (val : UInt32)
  | word64 (val : UInt64)
  | time (val : Int64)
  | copied (memory : List UInt8)
  | pointer (memory : Option (List UInt8))
  | array16 (valp : List UInt16)
  | array32 (valp : List UInt32)
  | array64 (valp : List UInt64)
  | strings (valp : Option (List (Option (List UInt8))))

/-- A function together with what its result is. -/
def Unpack.deliver {α : Type} (value : α → Value) (unpack : Unpack α) : Unpack Value :=
  unpack.andThen fun result => succeed (value result)

def Call.unpack : Call → Unpack Value
  | word8 => unpack8.deliver .word8
  | word16 => unpack16.deliver .word16
  | word32 => unpack32.deliver .word32
  | word64 => unpack64.deliver .word64
  | time => unpackTime.deliver .time
  | mem .copy => unpackmem.deliver .copied
  | mem .ptr => unpackmemPtr.deliver .pointer
  | mem .xmalloc => unpackmemXmalloc.deliver .pointer
  | mem .malloc => unpackmemMalloc.deliver .pointer
  | array16 => unpack16Array.deliver .array16
  | array32 => unpack32Array.deliver .array32
  | array64 => unpack64Array.deliver .array64
  | strArray => unpackstrArray.deliver .strings
  | memArray sizeVal => (unpackmemArray sizeVal).deliver .copied

/-- The results of several calls, one after the other. -/
def unpackAll : List Call → SlurmBuf → Option (List (Option Value) × SlurmBuf)
  | [], buffer => some ([], buffer)
  | call :: calls, buffer =>
    (call.unpack buffer).bind fun (value, buffer) =>
      (unpackAll calls buffer).map fun (values, buffer) => (value :: values, buffer)

/-! ## Inside the buffer -/

section Inside

variable {α β : Type} {unpack : Unpack α} {buffer : SlurmBuf}

/-- A function that reads nothing outside of any buffer and keeps the offset inside. -/
def StaysInside (unpack : Unpack α) : Prop :=
  ∀ buffer : SlurmBuf, buffer.processed ≤ buffer.size → buffer.size < 2 ^ 32 →
    ∃ result after, unpack buffer = some (result, after) ∧ after.head = buffer.head ∧
      buffer.processed ≤ after.processed ∧ after.processed ≤ after.size

theorem StaysInside.succeed (value : α) : StaysInside (succeed value) :=
  fun buffer mem _ => ⟨some value, buffer, rfl, rfl, le_rfl, mem⟩

theorem StaysInside.fail : StaysInside (fail : Unpack α) :=
  fun buffer mem _ => ⟨none, buffer, rfl, rfl, le_rfl, mem⟩

theorem StaysInside.andThen {next : α → Unpack β} (first : StaysInside unpack)
    (second : ∀ value, StaysInside (next value)) : StaysInside (unpack.andThen next) := by
  intro buffer mem small
  obtain ⟨result, between, unpacked, head, progress, betweenInside⟩ := first buffer mem small
  have size : between.size = buffer.size := congrArg List.length head
  cases result with
  | none =>
    refine ⟨none, between, ?_, head, progress, betweenInside⟩
    rw [Unpack.andThen, unpacked]
  | some value =>
    obtain ⟨final, after, finished, afterHead, afterProgress, afterInside⟩ :=
      second value between betweenInside (size ▸ small)
    refine ⟨final, after, ?_, afterHead.trans head, progress.trans afterProgress, afterInside⟩
    rw [Unpack.andThen, unpacked]
    exact finished

theorem remaining_of_inside (mem : buffer.processed ≤ buffer.size)
    (small : buffer.size < 2 ^ 32) : buffer.remaining = buffer.size - buffer.processed := by
  unfold SlurmBuf.remaining
  omega

theorem StaysInside.bytes (length : Nat) : StaysInside (bytes length) := by
  intro buffer mem small
  have remaining := remaining_of_inside mem small
  by_cases lack : buffer.remaining < length
  · exact ⟨none, buffer, if_pos lack, rfl, le_rfl, mem⟩
  · have room : buffer.processed + length ≤ buffer.size := by omega
    have offset : (buffer.processed + length) % 2 ^ 32 = buffer.processed + length :=
      Nat.mod_eq_of_lt (by omega)
    refine ⟨some ((buffer.head.drop buffer.processed).take length), buffer.advance length, ?_,
      rfl, ?_, ?_⟩
    · rw [Unpack.bytes, if_neg lack, SlurmBuf.load, if_pos room, map_some]
    · rw [SlurmBuf.advance, offset]
      exact Nat.le_add_right _ _
    · rw [SlurmBuf.advance, offset]
      exact room

theorem StaysInside.word (length : Nat) : StaysInside (word length) :=
  (StaysInside.bytes length).andThen fun _ => .succeed _

theorem StaysInside.each (mem : StaysInside unpack) (count : Nat) :
    StaysInside (unpackEach unpack count) := by
  induction count with
  | zero => exact .succeed _
  | succ count ih => exact mem.andThen fun _ => ih.andThen fun _ => .succeed _

theorem StaysInside.unpack32 : StaysInside unpack32 :=
  (StaysInside.word 4).andThen fun _ => .succeed _

theorem StaysInside.array (mem : StaysInside unpack) : StaysInside (unpackArray unpack) := by
  refine StaysInside.unpack32.andThen fun sizeVal => ?_
  by_cases large : Codec.noVal < sizeVal
  · rw [if_pos large]
    exact .fail
  · rw [if_neg large]
    exact mem.each _

theorem StaysInside.sized : StaysInside unpackSized := by
  refine StaysInside.unpack32.andThen fun sizeVal => ?_
  split_ifs
  · exact .fail
  · exact .bytes _
  · exact .succeed _

theorem StaysInside.pointer :
    StaysInside (unpackSized.andThen fun memory => Unpack.succeed (pointerTo memory)) :=
  StaysInside.sized.andThen fun _ => .succeed _

theorem StaysInside.strArray : StaysInside unpackstrArray := by
  refine StaysInside.unpack32.andThen fun sizeVal => ?_
  split_ifs
  · exact .fail
  · exact (StaysInside.pointer.each _).andThen fun _ => .succeed _
  · exact .succeed _

theorem StaysInside.deliver {value : α → Value} (mem : StaysInside unpack) :
    StaysInside (unpack.deliver value) :=
  mem.andThen fun _ => .succeed _

theorem StaysInside.call (call : Call) : StaysInside call.unpack := by
  cases call with
  | word8 => exact ((StaysInside.word 1).andThen fun _ => .succeed _).deliver
  | word16 => exact ((StaysInside.word 2).andThen fun _ => .succeed _).deliver
  | word32 => exact StaysInside.unpack32.deliver
  | word64 => exact ((StaysInside.word 8).andThen fun _ => .succeed _).deliver
  | time => exact ((StaysInside.word 8).andThen fun _ => .succeed _).deliver
  | mem how =>
    cases how with
    | copy => exact StaysInside.sized.deliver
    | ptr => exact StaysInside.pointer.deliver
    | xmalloc => exact StaysInside.pointer.deliver
    | malloc => exact StaysInside.pointer.deliver
  | array16 => exact ((StaysInside.word 2).andThen fun _ => .succeed _).array.deliver
  | array32 => exact StaysInside.unpack32.array.deliver
  | array64 => exact ((StaysInside.word 8).andThen fun _ => .succeed _).array.deliver
  | strArray => exact StaysInside.strArray.deliver
  | memArray sizeVal => exact (StaysInside.bytes _).deliver

theorem unpackAll_inside (calls : List Call) (mem : buffer.processed ≤ buffer.size)
    (small : buffer.size < 2 ^ 32) :
    ∃ values after, unpackAll calls buffer = some (values, after) ∧
      values.length = calls.length ∧ after.head = buffer.head ∧
      buffer.processed ≤ after.processed ∧ after.processed ≤ after.size := by
  induction calls generalizing buffer with
  | nil => exact ⟨[], buffer, rfl, rfl, rfl, le_rfl, mem⟩
  | cons call calls ih =>
    obtain ⟨value, next, first, head, progress, nextInside⟩ :=
      StaysInside.call call buffer mem small
    have size : next.size = buffer.size := congrArg List.length head
    obtain ⟨values, after, others, length, afterHead, afterProgress, afterInside⟩ :=
      ih nextInside (size ▸ small)
    refine ⟨value :: values, after, ?_, ?_, afterHead.trans head,
      progress.trans afterProgress, afterInside⟩
    · simp only [unpackAll, first, bind_some, others, map_some]
    · rw [length_cons, length, length_cons]

end Inside

/-! ## Reading back -/

section Reads

variable {α β : Type} {unpack : Unpack α} {bytes others : List UInt8} {value : α} {final : β}

/-- Wherever the bytes stand in a buffer, the function steps over them and delivers the
value. -/
def Reads (unpack : Unpack α) (bytes : List UInt8) (value : α) : Prop :=
  ∀ (front rest : List UInt8) (errors : Nat), (front ++ (bytes ++ rest)).length < 2 ^ 32 →
    unpack ⟨front ++ (bytes ++ rest), front.length, errors⟩ =
      some (some value, ⟨front ++ (bytes ++ rest), (front ++ bytes).length, errors⟩)

theorem Reads.succeed (value : α) : Reads (succeed value) [] value := by
  intro front rest errors _
  rw [Unpack.succeed, append_nil]

theorem Reads.andThen {next : α → Unpack β} (first : Reads unpack bytes value)
    (second : Reads (next value) others final) :
    Reads (unpack.andThen next) (bytes ++ others) final := by
  intro front rest errors small
  have split : front ++ (bytes ++ others ++ rest) = front ++ (bytes ++ (others ++ rest)) := by
    rw [append_assoc bytes]
  have shift : front ++ (bytes ++ (others ++ rest)) = front ++ bytes ++ (others ++ rest) := by
    rw [append_assoc front]
  rw [split] at small ⊢
  rw [Unpack.andThen, first front (others ++ rest) errors small]
  rw [shift] at small ⊢
  simp only
  rw [second (front ++ bytes) rest errors small, append_assoc front bytes others]

theorem Reads.map {map : α → β} (reads : Reads unpack bytes value) :
    Reads (unpack.andThen fun result => Unpack.succeed (map result)) bytes (map value) := by
  rw [← append_nil bytes]
  exact reads.andThen (.succeed (map value))

theorem reads_bytes (memory : List UInt8) : Reads (Unpack.bytes memory.length) memory memory := by
  intro front rest errors small
  have length : (front ++ (memory ++ rest)).length =
      front.length + (memory.length + rest.length) := by
    rw [length_append, length_append]
  have room : front.length + memory.length ≤ (front ++ (memory ++ rest)).length := by omega
  have remaining : SlurmBuf.remaining ⟨front ++ (memory ++ rest), front.length, errors⟩ =
      (front ++ (memory ++ rest)).length - front.length :=
    remaining_of_inside (show front.length ≤ (front ++ (memory ++ rest)).length by omega) small
  have offset : (front.length + memory.length) % 2 ^ 32 = (front ++ memory).length := by
    rw [length_append]
    omega
  rw [Unpack.bytes, remaining, if_neg (by omega), SlurmBuf.load, SlurmBuf.size, if_pos room,
    map_some, SlurmBuf.advance, drop_left, take_left, offset]

theorem reads_word {length number : Nat} (fits : number < 256 ^ length) :
    Reads (word length) (bytesOf length number) number := by
  have reads : Reads (word (bytesOf length number).length) (bytesOf length number)
      (valueOf (bytesOf length number)) := (reads_bytes _).map
  rwa [length_bytesOf, valueOf_bytesOf_of_lt fits] at reads

theorem reads_unpack8 (val : UInt8) : Reads unpack8 (bytesOf 1 val.toNat) val := by
  have reads : Reads unpack8 (bytesOf 1 val.toNat) (UInt8.ofNat val.toNat) :=
    (reads_word val.toNat_lt).map
  rwa [UInt8.ofNat_toNat] at reads

theorem reads_unpack16 (val : UInt16) : Reads unpack16 (bytesOf 2 val.toNat) val := by
  have reads : Reads unpack16 (bytesOf 2 val.toNat) (UInt16.ofNat val.toNat) :=
    (reads_word val.toNat_lt).map
  rwa [UInt16.ofNat_toNat] at reads

theorem reads_unpack32 (val : UInt32) : Reads unpack32 (bytesOf 4 val.toNat) val := by
  have reads : Reads unpack32 (bytesOf 4 val.toNat) (UInt32.ofNat val.toNat) :=
    (reads_word val.toNat_lt).map
  rwa [UInt32.ofNat_toNat] at reads

theorem reads_unpack64 (val : UInt64) : Reads unpack64 (bytesOf 8 val.toNat) val := by
  have reads : Reads unpack64 (bytesOf 8 val.toNat) (UInt64.ofNat val.toNat) :=
    (reads_word val.toNat_lt).map
  rwa [UInt64.ofNat_toNat] at reads

theorem reads_unpackTime (val : Int64) :
    Reads unpackTime (bytesOf 8 val.toUInt64.toNat) val := by
  have reads : Reads unpackTime (bytesOf 8 val.toUInt64.toNat)
      (UInt64.ofNat val.toUInt64.toNat).toInt64 :=
    (reads_word val.toUInt64.toNat_lt).map
  rwa [UInt64.ofNat_toNat, Int64.toInt64_toUInt64] at reads

theorem reads_each {γ : Type} {unpack : Unpack β} (bytes : γ → List UInt8) (value : γ → β)
    (elements : List γ) (reads : ∀ element ∈ elements, Reads unpack (bytes element) (value element)) :
    Reads (unpackEach unpack elements.length) (elements.flatMap bytes) (elements.map value) := by
  induction elements with
  | nil => exact .succeed _
  | cons element elements ih =>
    exact (reads element mem_cons_self).andThen
      (ih fun other mem => reads other (mem_cons_of_mem _ mem)).map

/-- The number of elements comes back as it was, since the array fits into a buffer. -/
theorem reads_array {γ : Type} {unpack : Unpack γ} {length : Nat} (pos : 0 < length)
    (number : γ → Nat) (elements : List γ)
    (reads : ∀ element, Reads unpack (bytesOf length (number element)) element) :
    Reads (unpackArray unpack) (Item.arrayBytes length number elements) elements := by
  intro front rest errors small
  have count : elements.length ≤
      (elements.flatMap fun value => bytesOf length (number value)).length := by
    rw [length_flatMap]
    simp only [length_bytesOf, map_const', sum_replicate_nat]
    exact Nat.le_mul_of_pos_right _ pos
  have less : elements.length + 4 < 2 ^ 32 := by
    simp only [Item.arrayBytes, length_append, length_bytesOf] at small
    omega
  have size : (UInt32.ofNat elements.length).toNat = elements.length :=
    UInt32.toNat_ofNat_of_lt' (by unfold UInt32.size; omega)
  have modest : ¬Codec.noVal < UInt32.ofNat elements.length := by
    rw [UInt32.lt_iff_toNat_lt, size]
    exact not_lt.mpr (show elements.length ≤ 4294967294 by omega)
  have each : Reads (if Codec.noVal < UInt32.ofNat elements.length then fail
      else unpackEach unpack (UInt32.ofNat elements.length).toNat)
      (elements.flatMap fun value => bytesOf length (number value)) elements := by
    rw [if_neg modest, size]
    have all := reads_each _ id elements fun element _ => reads element
    rwa [map_id] at all
  exact ((reads_unpack32 _).andThen each) front rest errors small

theorem reads_sized {memory : List UInt8} (small : memory.length ≤ maxPackMemLen) :
    Reads unpackSized (bytesOf 4 memory.length ++ memory) memory := by
  have size : (UInt32.ofNat memory.length).toNat = memory.length := by
    unfold maxPackMemLen at small
    exact UInt32.toNat_ofNat_of_lt' (by unfold UInt32.size; omega)
  have header := reads_unpack32 (UInt32.ofNat memory.length)
  rw [size] at header
  refine header.andThen ?_
  rw [size, if_neg (not_lt.mpr small)]
  split_ifs with pos
  · exact reads_bytes memory
  · rw [length_eq_zero_iff.mp (Nat.eq_zero_of_not_pos pos)]
    exact .succeed _

/-- What arrives of a string. -/
def strDelivered (str : Option CString) : List UInt8 :=
  (strBytes str).take (strSize str).toNat

theorem length_strDelivered (str : Option CString) :
    (strDelivered str).length = (strSize str).toNat := by
  rw [strDelivered, length_take, Nat.min_eq_left (strSize_le str)]

theorem reads_str {str : Option CString} (small : (strSize str).toNat ≤ maxPackMemLen) :
    Reads unpackSized (strPacked str) (strDelivered str) := by
  rw [← length_strDelivered] at small
  have reads := reads_sized small
  rwa [length_strDelivered] at reads

theorem reads_strArray {strings : List (Option CString)} (few : strings.length ≤ maxPackArrayLen)
    (small : ∀ str ∈ strings, (strSize str).toNat ≤ maxPackMemLen) :
    Reads unpackstrArray
      (bytesOf 4 (UInt32.ofNat strings.length).toNat ++ strings.flatMap strPacked)
      (if strings = [] then none
        else some (strings.map fun str => pointerTo (strDelivered str))) := by
  have size : (UInt32.ofNat strings.length).toNat = strings.length := by
    unfold maxPackArrayLen at few
    exact UInt32.toNat_ofNat_of_lt' (by unfold UInt32.size; omega)
  refine (reads_unpack32 _).andThen ?_
  rw [size, if_neg (not_lt.mpr few)]
  by_cases empty : strings = []
  · rw [if_pos empty, empty]
    exact .succeed _
  · rw [if_neg empty, if_pos (length_pos_iff.mpr empty)]
    exact (reads_each strPacked (fun str => pointerTo (strDelivered str)) strings
      fun str mem => (reads_str (small str mem)).map).map

end Reads

/-! ## Values and their calls -/

namespace Item

/-- The call that takes a value out of the buffer. -/
def call (how : MemCall) : Item → Call
  | word8 _ => .word8
  | word16 _ => .word16
  | word32 _ => .word32
  | word64 _ => .word64
  | time _ => .time
  | mem _ => .mem how
  | string _ => .mem how
  | array16 _ => .array16
  | array32 _ => .array32
  | array64 _ => .array64
  | strArray _ => .strArray

/-- Memory, or a pointer to it. -/
def handed (how : MemCall) (memory : List UInt8) : Value :=
  match how with
  | .copy => .copied memory
  | _ => .pointer (pointerTo memory)

/-- The value as it was packed. -/
def value (how : MemCall) : Item → Value
  | word8 val => .word8 val
  | word16 val => .word16 val
  | word32 val => .word32 val
  | word64 val => .word64 val
  | time val => .time val
  | mem valp => handed how valp
  | string str => handed how (strBytes str)
  | array16 valp => .array16 valp
  | array32 valp => .array32 valp
  | array64 valp => .array64 valp
  | strArray valp =>
    .strings (if valp = [] then none else some (valp.map fun str => str.map CString.memory))

/-- The value as it arrives: of a string as many bytes as its size says. -/
def delivered (how : MemCall) : Item → Value
  | string str => handed how (strDelivered str)
  | strArray valp =>
    .strings (if valp = [] then none
      else some (valp.map fun str => pointerTo (strDelivered str)))
  | item => item.value how

/-- The size of a string is a number of 32 bits. -/
def ShortString (str : Option CString) : Prop :=
  (strBytes str).length < 2 ^ 32

/-- So are the sizes of all strings of the value. -/
def Short : Item → Prop
  | string str => ShortString str
  | strArray valp => ∀ str ∈ valp, ShortString str
  | _ => True

/-- No memory of the value is larger than `MAX_PACK_MEM_LEN`. -/
def Accepted : Item → Prop
  | mem valp => valp.length ≤ maxPackMemLen
  | string str => (strSize str).toNat ≤ maxPackMemLen
  | strArray valp => ∀ str ∈ valp, (strSize str).toNat ≤ maxPackMemLen
  | _ => True

theorem reads_handed {memory bytes : List UInt8} (how : MemCall)
    (reads : Reads unpackSized bytes memory) :
    Reads (Call.mem how).unpack bytes (handed how memory) := by
  cases how with
  | copy => exact reads.map
  | ptr => exact reads.map.map
  | xmalloc => exact reads.map.map
  | malloc => exact reads.map.map

theorem reads_call (how : MemCall) {item : Item} (sized : item.Sized maxPackArrayLen)
    (accepted : item.Accepted) :
    Reads (item.call how).unpack item.bytes (item.delivered how) := by
  cases item with
  | word8 val => exact (reads_unpack8 val).map
  | word16 val => exact (reads_unpack16 val).map
  | word32 val => exact (reads_unpack32 val).map
  | word64 val => exact (reads_unpack64 val).map
  | time val => exact (reads_unpackTime val).map
  | mem valp => exact reads_handed how (reads_sized accepted)
  | string str => exact reads_handed how (reads_str accepted)
  | array16 valp => exact (reads_array (by omega) UInt16.toNat valp reads_unpack16).map
  | array32 valp => exact (reads_array (by omega) UInt32.toNat valp reads_unpack32).map
  | array64 valp => exact (reads_array (by omega) UInt64.toNat valp reads_unpack64).map
  | strArray valp => exact (reads_strArray sized accepted).map

theorem pointerTo_inj {memory other : List UInt8} :
    pointerTo memory = pointerTo other ↔ memory = other := by
  unfold pointerTo
  split_ifs with empty otherEmpty otherEmpty
  · simp [empty, otherEmpty]
  · simp [empty, Ne.symm otherEmpty]
  · simp [empty, otherEmpty]
  · simp

theorem handed_inj {how : MemCall} {memory other : List UInt8} :
    handed how memory = handed how other ↔ memory = other := by
  cases how with
  | copy => simp only [handed, Value.copied.injEq]
  | ptr => simp only [handed, Value.pointer.injEq, pointerTo_inj]
  | xmalloc => simp only [handed, Value.pointer.injEq, pointerTo_inj]
  | malloc => simp only [handed, Value.pointer.injEq, pointerTo_inj]

theorem pointerTo_strBytes (str : Option CString) :
    str.map CString.memory = pointerTo (strBytes str) := by
  cases str with
  | none => rfl
  | some str => exact (if_neg (by simp [strBytes, CString.memory])).symm

theorem strDelivered_eq_iff (str : Option CString) :
    strDelivered str = strBytes str ↔ ShortString str := by
  rw [strDelivered, take_eq_self_iff, ShortString]
  cases str with
  | none => simp [strBytes]
  | some str =>
    have size : (strSize (some str)).toNat = (str.bytes.length + 1) % 2 ^ 32 := by
      rw [strSize, UInt32.toNat_add]
      simp
    rw [size, strBytes, CString.memory, length_append, length_singleton]
    omega

theorem delivered_eq_value_iff (how : MemCall) (item : Item) :
    item.delivered how = item.value how ↔ item.Short := by
  cases item with
  | string str => exact handed_inj.trans (strDelivered_eq_iff str)
  | strArray valp =>
    by_cases empty : valp = []
    · simp [delivered, value, Short, empty]
    · simp only [delivered, value, Short, if_neg empty, Value.strings.injEq, Option.some.injEq,
        map_inj_left, pointerTo_strBytes, pointerTo_inj, strDelivered_eq_iff]
  | _ => exact iff_of_true rfl trivial

variable {fresh : Nat → UInt8} {buffer after : SlurmBuf}

theorem accepted_of_packmem {valp : List UInt8} {sizeVal : UInt32}
    (packed : packmem fresh valp sizeVal buffer = some after)
    (errors : after.errors = buffer.errors) : sizeVal.toNat ≤ maxPackMemLen := by
  by_contra large
  rw [packmem, if_pos (not_le.mp large)] at packed
  cases packed
  exact absurd errors (Nat.succ_ne_self _)

theorem accepted_of_packStrings {strings : List (Option CString)} (sound : Sound buffer)
    (packed : packEach (packstr fresh) strings buffer = some after)
    (errors : after.errors = buffer.errors) :
    ∀ str ∈ strings, (strSize str).toNat ≤ maxPackMemLen := by
  induction strings generalizing buffer with
  | nil => exact fun _ mem => absurd mem not_mem_nil
  | cons str strings ih =>
    have roomy : buffer.extent.MemsRoomy (strSizes (str :: strings)) := by
      by_contra lacks
      rw [packStrings_of_not_roomy _ sound lacks] at packed
      cases packed
    obtain ⟨next, first, nextPacked⟩ :=
      packmem_of_roomy fresh sound (strSize_le str) roomy.1
    rw [packEach, packstr, first, bind_some] at packed
    have others : next.extent.MemsRoomy (strSizes strings) := by
      rw [nextPacked.extent]
      exact roomy.2
    obtain ⟨final, last, finalPacked⟩ :=
      packStrings_of_roomy fresh strings nextPacked.sound others
    rw [last] at packed
    cases packed
    have before := nextPacked.errors
    have behind := finalPacked.errors
    refine forall_mem_cons.mpr ⟨accepted_of_packmem first (by omega), ?_⟩
    exact ih nextPacked.sound last (by omega)

theorem accepted_of_pack {item : Item} {limit : Nat} (sized : item.Sized limit)
    (sound : Sound buffer) (packed : item.pack fresh buffer = some after)
    (errors : after.errors = buffer.errors) : item.Accepted := by
  cases item with
  | mem valp =>
    have size : (UInt32.ofNat valp.length).toNat = valp.length :=
      UInt32.toNat_ofNat_of_lt' sized
    rw [Accepted, ← size]
    exact accepted_of_packmem packed errors
  | string str => exact accepted_of_packmem packed errors
  | strArray valp =>
    rcases reserve_strings fresh (UInt32.ofNat valp.length).toNat sound with
      ⟨-, refused⟩ | ⟨-, next, counted, reserved, stored, counts⟩
    · rw [pack, packstrArray, refused, Option.elim_none] at packed
      cases packed
      exact absurd errors (Nat.succ_ne_self _)
    · rw [pack, packstrArray, reserved, Option.elim_some, stored, bind_some] at packed
      have roomy : counted.extent.MemsRoomy (strSizes valp) := by
        by_contra lacks
        rw [packStrings_of_not_roomy _ counts.sound lacks] at packed
        cases packed
      obtain ⟨final, last, finalPacked⟩ := packStrings_of_roomy fresh valp counts.sound roomy
      have same := packed.symm.trans last
      cases same
      have before := counts.errors
      have behind := finalPacked.errors
      exact accepted_of_packStrings counts.sound packed (by omega)
  | _ => exact trivial

end Item

/-! ## Sequences of values -/

/-- A value and the function that takes it out again if it is memory. -/
abbrev Field := Item × MemCall

variable {fresh : Nat → UInt8} {buffer after : SlurmBuf}

/-- No sum of sizes wraps around while the values are packed. -/
def RoomyAll : List Field → Extent → Prop
  | [], _ => True
  | field :: fields, extent =>
    field.1.Roomy extent ∧ RoomyAll fields (field.1.extent extent)

/-- The values packed one behind the other. -/
def packAll (fresh : Nat → UInt8) : List Field → SlurmBuf → Option SlurmBuf :=
  packEach fun field => field.1.pack fresh

/-- No call takes an error exit. -/
def NoErrorExit (fresh : Nat → UInt8) (fields : List Field) (buffer : SlurmBuf) : Prop :=
  ∀ front after, front <+: fields → packAll fresh front buffer = some after →
    after.errors = buffer.errors

/-- The calls in the order of the values deliver them and end at the offset where the
packing ended. -/
def RoundTrips (fresh : Nat → UInt8) (fields : List Field) (buffer : SlurmBuf) : Prop :=
  ∃ after final, packAll fresh fields buffer = some after ∧
    unpackAll (fields.map fun field => field.1.call field.2) after.rewind =
      some (fields.map fun field => some (field.1.value field.2), final) ∧
    final.processed = after.processed

variable {fields : List Field}

theorem packAll_of_roomy (fresh : Nat → UInt8)
    (sized : ∀ field ∈ fields, field.1.Sized maxPackArrayLen) (sound : Sound buffer)
    (roomy : RoomyAll fields buffer.extent) :
    ∃ after extent, packAll fresh fields buffer = some after ∧
      Packed (fields.flatMap fun field => field.1.bytes) extent buffer after ∧
      (after.errors = buffer.errors → ∀ field ∈ fields, field.1.Accepted) := by
  induction fields generalizing buffer with
  | nil =>
    exact ⟨buffer, buffer.extent, rfl, .refl sound, fun _ _ mem => absurd mem not_mem_nil⟩
  | cons field fields ih =>
    obtain ⟨fieldSized, others⟩ := forall_mem_cons.mp sized
    obtain ⟨next, first, nextPacked⟩ := Item.pack_of_roomy fresh fieldSized sound roomy.1
    obtain ⟨after, extent, last, afterPacked, accepted⟩ :=
      ih others nextPacked.sound (by rw [nextPacked.extent]; exact roomy.2)
    refine ⟨after, extent, ?_, nextPacked.trans afterPacked, fun errors => ?_⟩
    · rw [packAll, packEach, first, bind_some]
      exact last
    · have before := nextPacked.errors
      have behind := afterPacked.errors
      exact forall_mem_cons.mpr
        ⟨Item.accepted_of_pack fieldSized sound first (by omega), accepted (by omega)⟩

theorem packAll_of_not_roomy (sized : ∀ field ∈ fields, field.1.Sized maxPackArrayLen)
    (sound : Sound buffer) (lacks : ¬RoomyAll fields buffer.extent) :
    packAll fresh fields buffer = none := by
  induction fields generalizing buffer with
  | nil => exact absurd trivial lacks
  | cons field fields ih =>
    obtain ⟨fieldSized, others⟩ := forall_mem_cons.mp sized
    by_cases roomy : field.1.Roomy buffer.extent
    · obtain ⟨next, first, nextPacked⟩ := Item.pack_of_roomy fresh fieldSized sound roomy
      have rest : ¬RoomyAll fields next.extent := by
        rw [nextPacked.extent]
        exact fun rest => lacks ⟨roomy, rest⟩
      rw [packAll, packEach, first, bind_some]
      exact ih others nextPacked.sound rest
    · rw [packAll, packEach, Item.pack_of_not_roomy fieldSized sound roomy, Option.bind_none]

/-- The calls deliver what was written. -/
theorem unpackAll_written (sized : ∀ field ∈ fields, field.1.Sized maxPackArrayLen)
    (accepted : ∀ field ∈ fields, field.1.Accepted) (front rest : List UInt8) (errors : Nat)
    (small : (front ++ (fields.flatMap (fun field => field.1.bytes) ++ rest)).length < 2 ^ 32) :
    unpackAll (fields.map fun field => field.1.call field.2)
        ⟨front ++ (fields.flatMap (fun field => field.1.bytes) ++ rest), front.length, errors⟩ =
      some (fields.map fun field => some (field.1.delivered field.2),
        ⟨front ++ (fields.flatMap (fun field => field.1.bytes) ++ rest),
          (front ++ fields.flatMap fun field => field.1.bytes).length, errors⟩) := by
  induction fields generalizing front with
  | nil => simp [unpackAll]
  | cons field fields ih =>
    obtain ⟨fieldSized, othersSized⟩ := forall_mem_cons.mp sized
    obtain ⟨fieldAccepted, othersAccepted⟩ := forall_mem_cons.mp accepted
    have shift : front ++ ((field :: fields).flatMap (fun field => field.1.bytes) ++ rest) =
        front ++ (field.1.bytes ++ (fields.flatMap (fun field => field.1.bytes) ++ rest)) := by
      rw [flatMap_cons, append_assoc field.1.bytes]
    have move : front ++ (field.1.bytes ++ (fields.flatMap (fun field => field.1.bytes) ++ rest)) =
        front ++ field.1.bytes ++ (fields.flatMap (fun field => field.1.bytes) ++ rest) := by
      rw [append_assoc front]
    rw [shift] at small ⊢
    have first := Item.reads_call field.2 fieldSized fieldAccepted front _ errors small
    rw [move] at small first ⊢
    rw [map_cons, unpackAll, first, bind_some]
    simp only
    rw [ih othersSized othersAccepted _ small, map_some, map_cons,
      flatMap_cons, append_assoc front field.1.bytes (fields.flatMap _)]

theorem sound_initBuf {size : Nat} (init : initBuf size = some buffer) :
    Sound buffer ∧ buffer.processed = 0 := by
  unfold initBuf at init
  split_ifs at init with large
  · cases init
    refine ⟨⟨Nat.zero_le _, ?_⟩, rfl⟩
    rw [SlurmBuf.size, length_replicate]
    decide
  · cases init
    refine ⟨⟨Nat.zero_le _, ?_⟩, rfl⟩
    rw [SlurmBuf.size, length_replicate]
    omega

/-- What arrives when nothing wraps around. -/
theorem unpackAll_packAll (sized : ∀ field ∈ fields, field.1.Sized maxPackArrayLen)
    (sound : Sound buffer) (start : buffer.processed = 0) (roomy : RoomyAll fields buffer.extent)
    (noError : NoErrorExit fresh fields buffer) :
    ∃ after final, packAll fresh fields buffer = some after ∧
      unpackAll (fields.map fun field => field.1.call field.2) after.rewind =
        some (fields.map fun field => some (field.1.delivered field.2), final) ∧
      final.processed = after.processed := by
  obtain ⟨after, extent, packs, packed, accepted⟩ := packAll_of_roomy fresh sized sound roomy
  have errors : after.errors = buffer.errors :=
    noError fields after prefix_rfl packs
  have empty : buffer.data = [] := by
    rw [SlurmBuf.data, start, take_zero]
  have data := packed.data errors
  rw [empty, nil_append] at data
  have head : after.head =
      [] ++ (fields.flatMap (fun field => field.1.bytes) ++ after.head.drop after.processed) := by
    rw [nil_append, ← data]
    exact (take_append_drop _ _).symm
  have limit := packed.sound.limit
  have small : after.head.length < 2 ^ 32 :=
    limit.trans_lt (by decide)
  rw [head] at small
  have unpacks := unpackAll_written sized (accepted errors) [] (after.head.drop after.processed)
    after.errors small
  rw [← head] at unpacks
  refine ⟨after, _, packs, unpacks, ?_⟩
  rw [nil_append, ← data, length_data packed.sound]

/-- In a run without an error exit the values come back just if no sum of sizes wraps
around and no string has `2 ^ 32 - 1` bytes or more. -/
theorem roundTrips_iff {size : Nat} {fields : List Field} (init : initBuf size = some buffer)
    (sized : ∀ field ∈ fields, field.1.Sized maxPackArrayLen)
    (noError : NoErrorExit fresh fields buffer) :
    RoundTrips fresh fields buffer ↔
      RoomyAll fields buffer.extent ∧ ∀ field ∈ fields, field.1.Short := by
  obtain ⟨sound, start⟩ := sound_initBuf init
  by_cases roomy : RoomyAll fields buffer.extent
  · obtain ⟨after, final, packs, unpacks, offset⟩ :=
      unpackAll_packAll sized sound start roomy noError
    refine ⟨fun ⟨other, last, packed, unpacked, _⟩ => ⟨roomy, fun field mem => ?_⟩,
      fun ⟨_, short⟩ => ⟨after, final, packs, ?_, offset⟩⟩
    · rw [packs] at packed
      cases packed
      rw [unpacks] at unpacked
      have values := congrArg Prod.fst (some.inj unpacked)
      exact (Item.delivered_eq_value_iff field.2 field.1).mp
        (some.inj (map_inj_left.mp values field mem))
    · rw [unpacks]
      refine congrArg (fun values => some (values, final)) (map_congr_left fun field mem => ?_)
      rw [(Item.delivered_eq_value_iff field.2 field.1).mpr (short field mem)]
  · refine ⟨fun ⟨after, final, packed, _⟩ => ?_, fun both => absurd both.1 roomy⟩
    rw [packAll_of_not_roomy sized sound roomy] at packed
    cases packed

/-- The codec: what is packed comes back just if nothing wraps around, and every sequence
of calls stays inside every buffer. -/
theorem codec_spec (fresh : Nat → UInt8) :
    (∀ (size : Nat) (buffer : SlurmBuf) (fields : List Field), initBuf size = some buffer →
      (∀ field ∈ fields, field.1.Sized maxPackArrayLen) → NoErrorExit fresh fields buffer →
      (RoundTrips fresh fields buffer ↔
        RoomyAll fields buffer.extent ∧ ∀ field ∈ fields, field.1.Short)) ∧
    ∀ (calls : List Call) (buffer : SlurmBuf), buffer.processed ≤ buffer.size →
      buffer.size < 2 ^ 32 →
      ∃ values after, unpackAll calls buffer = some (values, after) ∧
        values.length = calls.length ∧ after.head = buffer.head ∧
        buffer.processed ≤ after.processed ∧ after.processed ≤ after.size :=
  ⟨fun _ _ _ init sized noError => roundTrips_iff init sized noError,
    fun calls _ inside small => unpackAll_inside calls inside small⟩

theorem codec_spec_word : RoundTrips (fun _ => 0) [(.word8 7, .copy)] ⟨[0], 0, 0⟩ := by
  have packs : packAll (fun _ => 0) [(.word8 7, .copy)] ⟨[0], 0, 0⟩ = some ⟨[7], 1, 0⟩ := rfl
  refine ((codec_spec _).1 1 ⟨[0], 0, 0⟩ _ rfl ?_ ?_).mpr ⟨⟨trivial, trivial⟩, ?_⟩
  · exact forall_mem_singleton.mpr trivial
  · intro front after isPrefix packed
    rcases prefix_cons_iff.mp isPrefix with empty | ⟨rest, cons, isPrefix⟩
    · rw [empty] at packed
      cases packed
      rfl
    · rw [cons, prefix_nil.mp isPrefix, packs] at packed
      cases packed
      rfl
  · exact forall_mem_singleton.mpr trivial

theorem packmem_of_room {valp : List UInt8} (sound : Sound buffer)
    (small : valp.length ≤ maxPackMemLen)
    (room : buffer.processed + (4 + valp.length) ≤ buffer.size) :
    ∃ after, (Item.mem valp).pack fresh buffer = some after ∧ Sound after ∧
      after.errors = buffer.errors ∧
      after.extent = ⟨buffer.size, buffer.processed + (4 + valp.length)⟩ := by
  have size : (UInt32.ofNat valp.length).toNat = valp.length := by
    unfold maxPackMemLen at small
    exact UInt32.toNat_ofNat_of_lt' (by unfold UInt32.size; omega)
  have length : [bytesOf 4 valp.length, valp].flatten.length = 4 + valp.length := by
    simp
  obtain ⟨after, stored, afterSound, afterSize, errors, data⟩ :=
    storeAll_spec [bytesOf 4 valp.length, valp] sound (by rw [length]; exact room)
  refine ⟨after, ?_, afterSound, errors, extent_eq afterSize ?_⟩
  · rw [Item.pack, packmem, size, if_neg (not_lt.mpr small), take_length, packPieces,
      reserve_of_room fresh _ sound room, Option.elim_some, stored]
  · rw [← length_data afterSound, data, length_append, length_data sound, length]

theorem packAll_replicate (fresh : Nat → UInt8) {valp : List UInt8} (how : MemCall) (count : Nat)
    (sound : Sound buffer) (small : valp.length ≤ maxPackMemLen)
    (room : buffer.processed + count * (4 + valp.length) ≤ buffer.size) :
    ∃ after, packAll fresh (List.replicate count (.mem valp, how)) buffer = some after ∧
      after.errors = buffer.errors := by
  induction count generalizing buffer with
  | zero => exact ⟨buffer, rfl, rfl⟩
  | succ count ih =>
    rw [Nat.succ_mul] at room
    obtain ⟨next, first, nextSound, errors, extent⟩ :=
      packmem_of_room sound small (show _ ≤ buffer.size by omega)
    have size : next.size = buffer.size := congrArg Extent.size extent
    have offset : next.processed = buffer.processed + (4 + valp.length) :=
      congrArg Extent.processed extent
    obtain ⟨after, others, same⟩ := ih nextSound (by omega)
    refine ⟨after, ?_, same.trans errors⟩
    rw [replicate_succ, packAll, packEach, first, bind_some]
    exact others

/-- Four times 1 GiB into a buffer of the largest size: the fourth time the sum of sizes
wraps around. -/
theorem codec_fails : ¬∀ (fresh : Nat → UInt8) (size : Nat) (buffer : SlurmBuf)
    (fields : List Field), initBuf size = some buffer →
      (∀ field ∈ fields, field.1.Sized maxPackArrayLen) → NoErrorExit fresh fields buffer →
      RoundTrips fresh fields buffer := by
  intro roundTrips
  obtain ⟨valp, length⟩ : ∃ valp : List UInt8, valp.length = 2 ^ 30 :=
    ⟨List.replicate (2 ^ 30) 0, length_replicate⟩
  obtain ⟨buffer, init, size⟩ : ∃ buffer, initBuf maxBufSize = some buffer ∧
      buffer.size = maxBufSize := by
    refine ⟨_, if_neg (lt_irrefl _), ?_⟩
    rw [SlurmBuf.size, length_replicate, if_neg (by decide)]
  obtain ⟨sound, start⟩ := sound_initBuf init
  have small : valp.length ≤ maxPackMemLen := length.le
  have sized : ∀ field ∈ List.replicate 4 (Item.mem valp, MemCall.copy),
      field.1.Sized maxPackArrayLen := by
    intro field mem
    rw [eq_of_mem_replicate mem, Item.Sized, length]
    decide
  have lacks : ¬RoomyAll (List.replicate 4 (Item.mem valp, MemCall.copy)) buffer.extent := by
    rw [extent_eq size start]
    simp only [replicate_succ, replicate_zero, RoomyAll, Item.Roomy, Item.extent,
      Extent.MemRoomy, Extent.mem, Extent.Roomy, Extent.extend, length]
    decide
  have outside : packAll (fun _ => 0) (List.replicate 4 (Item.mem valp, MemCall.copy)) buffer =
      none := packAll_of_not_roomy sized sound lacks
  have noError : NoErrorExit (fun _ => 0) (List.replicate 4 (Item.mem valp, MemCall.copy))
      buffer := by
    intro front after isPrefix packed
    have front_eq := prefix_iff_eq_take.mp isPrefix
    rw [take_replicate] at front_eq
    by_cases all : 4 ≤ front.length
    · rw [Nat.min_eq_right all] at front_eq
      rw [front_eq, outside] at packed
      cases packed
    · rw [Nat.min_eq_left (by omega)] at front_eq
      obtain ⟨final, packs, errors⟩ := packAll_replicate (fun _ => 0) MemCall.copy
        front.length sound small
        (by rw [length, start, size]; simp only [maxBufSize]; omega)
      rw [front_eq, packs] at packed
      cases packed
      exact errors
  obtain ⟨after, final, packed, -⟩ := roundTrips (fun _ => 0) _ buffer _ init sized noError
  rw [outside] at packed
  cases packed

end SlurmSim.Common.Buffer
