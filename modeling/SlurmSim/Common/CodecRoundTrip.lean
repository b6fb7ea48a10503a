import SlurmSim.Common.ResourcesCodec

/-!
# The round trip of job resources

What is packed is one encoding, and unpacking it restores every field that is
described by the counts of the structure.
-/

namespace SlurmSim.Common.Codec

open SlurmSim.Lib.BigEndian List

/-! ## Reading what was encoded -/

/-- The step takes the bytes off the buffer, returns the value and changes the structure. -/
def Decodes {α : Type} (step : UnpackM α) (bytes : List UInt8) (value : α)
    (effect : JobResources → JobResources) : Prop :=
  ∀ rest r live, ∃ after, step ⟨bytes ++ rest, some r, live⟩ =
    (.ok value, ⟨rest, some (effect r), after⟩)

variable {α β : Type} {step : UnpackM α} {s t : Unpacking}

theorem bind_run (step : UnpackM α) (next : α → UnpackM β) (s : Unpacking) :
    (step >>= next) s = match step s with
      | (.ok value, s) => next value s
      | (.error stop, s) => (.error stop, s) :=
  rfl

theorem bind_ok {next : α → UnpackM β} {value : α} (ok : step s = (.ok value, t)) :
    (step >>= next) s = next value t := by
  rw [bind_run, ok]

theorem bind_error {next : α → UnpackM β} {how : Stop} (stopped : step s = (.error how, t)) :
    (step >>= next) s = (.error how, t) := by
  rw [bind_run, stopped]

theorem map_ok {f : α → β} {value : α} (ok : step s = (.ok value, t)) :
    (f <$> step) s = (.ok (f value), t) := by
  have unfolded : (f <$> step) s = (step >>= fun value => pure (f value)) s := rfl
  rw [unfolded, bind_ok ok]
  rfl

theorem setField_run (update : JobResources → JobResources) (input : List UInt8) (r : JobResources)
    (live : Finset Block) :
    setField update ⟨input, some r, live⟩ = (.ok (), ⟨input, some (update r), live⟩) :=
  rfl

theorem newJobResources_run (nhosts : UInt32) (input : List UInt8) (r : Option JobResources)
    (live : Finset Block) : newJobResources nhosts ⟨input, r, live⟩ =
      (.ok (), ⟨input, some (JobResources.blank nhosts), insert .jobResrcs live⟩) :=
  rfl

theorem unpackWord_run {width number : Nat} (fits : number < 256 ^ width) (rest : List UInt8)
    (resources : Option JobResources) (live : Finset Block) :
    unpackWord width ⟨bytesOf width number ++ rest, resources, live⟩ =
      (.ok number, ⟨rest, resources, live⟩) := by
  have enough : ¬(bytesOf width number ++ rest).length < width := by simp
  unfold unpackWord
  rw [if_neg enough, take_left' (length_bytesOf _ _), drop_left' (length_bytesOf _ _),
    valueOf_bytesOf_of_lt fits]

theorem unpack32_run (value : UInt32) (rest : List UInt8) (resources : Option JobResources)
    (live : Finset Block) : unpack32 ⟨bytesOf 4 value.toNat ++ rest, resources, live⟩ =
      (.ok value, ⟨rest, resources, live⟩) := by
  have read : unpack32 ⟨bytesOf 4 value.toNat ++ rest, resources, live⟩ =
      (.ok (UInt32.ofNat value.toNat), ⟨rest, resources, live⟩) :=
    map_ok (unpackWord_run value.toNat_lt rest resources live)
  rwa [UInt32.ofNat_toNat] at read

namespace Decodes

variable {α β : Type} {step : UnpackM α} {bytes more : List UInt8} {value : α}
  {effect : JobResources → JobResources}

theorem bind (next : α → UnpackM β) {result : β} {later : JobResources → JobResources}
    (first : Decodes step bytes value effect) (second : Decodes (next value) more result later) :
    Decodes (step >>= next) (bytes ++ more) result (later ∘ effect) := by
  intro rest r live
  obtain ⟨between, taken⟩ := first (more ++ rest) r live
  obtain ⟨after, done⟩ := second rest (effect r) between
  refine ⟨after, ?_⟩
  rw [append_assoc, bind_ok taken]
  exact done

theorem fill (update : α → JobResources → JobResources) (next : α → UnpackM β) {result : β}
    {later : JobResources → JobResources} (first : Decodes step bytes value effect)
    (second : Decodes (next value) more result later) :
    Decodes (do let value ← step; Codec.setField (update value); next value) (bytes ++ more) result
      (later ∘ update value ∘ effect) := by
  intro rest r live
  obtain ⟨between, taken⟩ := first (more ++ rest) r live
  obtain ⟨after, done⟩ := second rest (update value (effect r)) between
  refine ⟨after, ?_⟩
  rw [append_assoc, bind_ok taken, bind_ok (setField_run _ _ _ _)]
  exact done

theorem done (value : α) : Decodes (pure value) [] value id :=
  fun _ _ live => ⟨live, rfl⟩

theorem word {width number : Nat} (fits : number < 256 ^ width) :
    Decodes (unpackWord width) (bytesOf width number) number id :=
  fun rest r live => ⟨live, unpackWord_run fits rest (some r) live⟩

theorem andThen {f : α → β} (first : Decodes step bytes value effect) :
    Decodes (step >>= fun value => pure (f value)) bytes (f value) effect := by
  intro rest r live
  obtain ⟨after, taken⟩ := first rest r live
  exact ⟨after, bind_ok taken⟩

theorem map {f : α → β} (first : Decodes step bytes value effect) :
    Decodes (f <$> step) bytes (f value) effect :=
  first.andThen

theorem u8 (value : UInt8) : Decodes unpack8 (bytesOf 1 value.toNat) value id := by
  have read : Decodes unpack8 _ (UInt8.ofNat value.toNat) id := (word value.toNat_lt).map
  rwa [UInt8.ofNat_toNat] at read

theorem u16 (value : UInt16) : Decodes unpack16 (bytesOf 2 value.toNat) value id := by
  have read : Decodes unpack16 _ (UInt16.ofNat value.toNat) id := (word value.toNat_lt).map
  rwa [UInt16.ofNat_toNat] at read

theorem u32 (value : UInt32) : Decodes unpack32 (bytesOf 4 value.toNat) value id :=
  fun rest r live => ⟨live, unpack32_run value rest (some r) live⟩

theorem u64 (value : UInt64) : Decodes unpack64 (bytesOf 8 value.toNat) value id := by
  have read : Decodes unpack64 _ (UInt64.ofNat value.toNat) id := (word value.toNat_lt).map
  rwa [UInt64.ofNat_toNat] at read

theorem values {unpack : UnpackM β} {encode : α → List UInt8} {read : α → β}
    (each : ∀ value, Decodes unpack (encode value) (read value) id) (list : List α) :
    Decodes (unpackValues unpack list.length) (list.flatMap encode) (list.map read) id := by
  induction list with
  | nil => exact done []
  | cons value list ih =>
    let next (value : β) : UnpackM (List β) := do
      let values ← unpackValues unpack list.length
      pure (value :: values)
    have tail : Decodes (next (read value)) (list.flatMap encode) (read value :: list.map read)
        id := ih.andThen
    exact (each value).bind next tail

end Decodes

/-! ## Arrays -/

/-- The bytes of an array that may be missing. -/
def encodeArray {α : Type} (encode : α → List UInt8) (array : Option (List α)) (n : UInt32) :
    List UInt8 :=
  match array with
  | some array => bytesOf 4 n.toNat ++ (array.take n.toNat).flatMap encode
  | none => bytesOf 4 0

theorem Packs.ifSet {α : Type} {pack : α → Buf → Buf} {encode : α → List UInt8}
    (each : ∀ value, Packs (pack value) (encode value)) (array : Option (List α)) (n : UInt32) :
    Packs (packIfSet (packArray pack) array n) (encodeArray encode array n) := by
  cases array with
  | some array => exact Packs.array each array n
  | none =>
    have empty := Packs.array each [] 0
    exact empty

theorem Decodes.field {α β : Type} {unpack : UnpackM β} {encode : α → List UInt8} {read : α → β}
    (each : ∀ value, Decodes unpack (encode value) (read value) id) (slot : Slot (List β))
    {array : Option (List α)} {n : UInt32}
    (fits : ∀ list ∈ array, 0 < n ∧ n ≤ noVal ∧ n.toNat ≤ list.length) :
    Decodes (unpackField unpack slot) (encodeArray encode array n) (if array.isSome then n else 0)
      (slot.store (array.map fun list => (list.take n.toNat).map read)) := by
  cases array with
  | some list =>
    obtain ⟨pos, bounded, mem⟩ := fits list rfl
    have taken : (list.take n.toNat).length = n.toNat := by
      rw [length_take, Nat.min_eq_left mem]
    have readAll := Decodes.values each (list.take n.toNat)
    rw [taken] at readAll
    have notZero : n ≠ 0 := (UInt32.ne_of_lt pos).symm
    have notLarge : ¬noVal < n := UInt32.not_lt.mpr bounded
    intro rest r live
    obtain ⟨one, sizeRead⟩ := Decodes.u32 n ((list.take n.toNat).flatMap encode ++ rest) r live
    obtain ⟨two, valuesRead⟩ := readAll rest (slot.store (some []) r) (insert slot.block one)
    refine ⟨two, ?_⟩
    have arrayRead : unpackArray unpack slot
        ⟨bytesOf 4 n.toNat ++ ((list.take n.toNat).flatMap encode ++ rest), some r, live⟩ =
        (.ok n, ⟨rest, some (slot.store (some ((list.take n.toNat).map read)) r), two⟩) := by
      unfold unpackArray
      rw [bind_ok sizeRead, if_neg notLarge, if_neg notZero]
      refine (bind_ok rfl).trans ((bind_ok (setField_run _ _ _ _)).trans
        ((bind_ok valuesRead).trans ?_))
      have storedAll : Codec.setField (slot.store (some ((list.take n.toNat).map read)))
          ⟨rest, some (id (slot.store (some []) r)), two⟩ =
          (.ok (), ⟨rest, some (slot.store (some ((list.take n.toNat).map read)) r), two⟩) := by
        rw [setField_run, id_eq, slot.store_store]
      rw [bind_ok storedAll]
      rfl
    unfold unpackField
    rw [encodeArray, append_assoc, bind_ok arrayRead, if_neg notZero]
    rfl
  | none =>
    intro rest r live
    obtain ⟨one, sizeRead⟩ := Decodes.u32 0 rest r live
    rw [UInt32.toNat_zero] at sizeRead
    refine ⟨one, ?_⟩
    have arrayRead : unpackArray unpack slot ⟨bytesOf 4 0 ++ rest, some r, live⟩ =
        (.ok 0, ⟨rest, some (slot.store none r), one⟩) := by
      unfold unpackArray
      rw [bind_ok sizeRead]
      rfl
    have notSet : (slot.store none r).isSet slot.block = false := by
      rw [slot.isSet_store, if_pos rfl]
      rfl
    have freed : xfreeField slot ⟨rest, some (slot.store none r), one⟩ =
        (.ok (), ⟨rest, some (slot.store none r), one⟩) := by
      unfold xfreeField
      simp only [notSet]
      have stored : Codec.setField (slot.store none) ⟨rest, some (slot.store none r), one⟩ =
          (.ok (), ⟨rest, some (slot.store none r), one⟩) := by
        rw [setField_run, slot.store_store]
      exact (bind_ok rfl).trans stored
    unfold unpackField
    rw [encodeArray, bind_ok arrayRead, if_pos rfl, bind_ok freed]
    rfl

theorem Decodes.plainField {α : Type} {unpack : UnpackM α} {encode : α → List UInt8}
    (each : ∀ value, Decodes unpack (encode value) value id) (slot : Slot (List α))
    {array : Option (List α)} {n : UInt32}
    (fits : ∀ list ∈ array, 0 < n ∧ n ≤ noVal ∧ n.toNat ≤ list.length) :
    Decodes (unpackField unpack slot) (encodeArray encode array n)
      (if array.isSome then n else 0) (slot.store (array.map (·.take n.toNat))) := by
  have read : ∀ value, Decodes unpack (encode value) (id value) id := each
  have field := Decodes.field read slot fits
  simp only [map_id] at field
  exact field

/-! ## Strings and bitmaps -/

theorem unpackmemXmalloc_encoded {data : List UInt8} (pos : data ≠ [])
    (short : data.length ≤ maxPackMemLen) (block : Block) (rest : List UInt8) (r : JobResources)
    (live : Finset Block) : ∃ after,
      unpackmemXmalloc block ⟨bytesOf 4 data.length ++ (data ++ rest), some r, live⟩ =
        (.ok (some data), ⟨rest, some r, insert block after⟩) := by
  have sizeVal : (UInt32.ofNat data.length).toNat = data.length := by
    unfold maxPackMemLen at short
    rw [UInt32.toNat_ofNat', Nat.mod_eq_of_lt (by omega)]
  obtain ⟨one, sizeRead⟩ := Decodes.u32 (UInt32.ofNat data.length) (data ++ rest) r live
  rw [sizeVal] at sizeRead
  have notLong : ¬maxPackMemLen < (UInt32.ofNat data.length).toNat := by
    rw [sizeVal]
    exact Nat.not_lt.mpr short
  have someData : 0 < UInt32.ofNat data.length := by
    rw [UInt32.lt_iff_toNat_lt, sizeVal]
    exact length_pos_of_ne_nil pos
  refine ⟨one, ?_⟩
  unfold unpackmemXmalloc
  rw [bind_ok sizeRead, if_neg notLong, if_pos someData, sizeVal]
  unfold copyBytes
  simp

theorem takeWhile_string {str : List UInt8} (noZero : 0 ∉ str) :
    (str ++ [0]).takeWhile (· ≠ 0) = str := by
  have all : ∀ char ∈ str, decide (char ≠ 0) = true := by
    intro char mem
    refine decide_eq_true ?_
    rintro rfl
    exact noZero mem
  rw [takeWhile_append_of_pos all]
  simp

theorem Decodes.nodes {str : Option (List UInt8)}
    (fits : ∀ s ∈ str, 0 ∉ s ∧ s.length < maxPackMemLen) :
    Decodes unpackNodes (encodeStr str) () (Slot.nodes.store str) := by
  intro rest r live
  cases str with
  | none =>
    obtain ⟨one, sizeRead⟩ := Decodes.u32 0 rest r live
    rw [UInt32.toNat_zero] at sizeRead
    refine ⟨one, ?_⟩
    have read : unpackmemXmalloc .nodes ⟨bytesOf 4 0 ++ rest, some r, live⟩ =
        (.ok none, ⟨rest, some r, one⟩) := by
      unfold unpackmemXmalloc
      rw [bind_ok sizeRead]
      rfl
    unfold unpackNodes
    rw [encodeStr, bind_ok read]
    rfl
  | some str =>
    obtain ⟨noZero, short⟩ := fits str rfl
    obtain ⟨one, read⟩ := @unpackmemXmalloc_encoded (str ++ [0]) (by simp)
      (by simpa using Nat.succ_le_of_lt short) .nodes rest r live
    rw [length_append, length_singleton] at read
    refine ⟨insert .nodes one, ?_⟩
    unfold unpackNodes
    rw [encodeStr, append_assoc, bind_ok read, Option.map_some, takeWhile_string noZero]
    rfl

/-- The bytes of a bitmap. -/
def encodeBitmap (bitmap : List Bool) : List UInt8 :=
  bytesOf 4 bitmap.length ++ encodeStr (some (bitFmtHexmask bitmap))

theorem length_bitFmtHexmask {bitmap : List Bool} (bounded : bitmap.length ≤ maxBits) :
    (bitFmtHexmask bitmap).length < 2 ^ 29 := by
  unfold maxBits at bounded
  rw [bitFmtHexmask, length_cons, length_cons, length_reverse, length_hexDigits]
  omega

theorem toNat_bitmap_length {bitmap : List Bool} (bounded : bitmap.length ≤ maxBits) :
    (UInt32.ofNat bitmap.length).toNat = bitmap.length := by
  unfold maxBits at bounded
  rw [UInt32.toNat_ofNat', Nat.mod_eq_of_lt (by omega)]

theorem Packs.bitmap {bitmap : List Bool} (bounded : bitmap.length ≤ maxBits) :
    Packs (packBitStrHex (some bitmap)) (encodeBitmap bitmap) := by
  have size := Packs.u32 (UInt32.ofNat bitmap.length)
  rw [toNat_bitmap_length bounded] at size
  refine size.comp (Packs.str ?_)
  rintro str ⟨⟩
  exact (length_bitFmtHexmask bounded).trans_le (by decide)

theorem unfmtHexmask_encoded {asserts : Bool} {bitmap : List Bool} (pos : 0 < bitmap.length)
    (bounded : bitmap.length ≤ maxBits) :
    unfmtHexmask asserts bitmap.length (some (bitFmtHexmask bitmap ++ [0])) = .ok bitmap := by
  have ends : ¬(0 ∉ bitFmtHexmask bitmap ++ [0]) := by simp
  have notEmpty : ¬(asserts = true ∧ bitmap.length = 0) := fun both => pos.ne' both.2
  have body : (hexBody (bitFmtHexmask bitmap)).length ≤ (bitFmtHexmask bitmap).length := by
    simp only [bitFmtHexmask, hexBody, length_cons]
    omega
  have notLong : ¬2 ^ 29 ≤ (hexBody (bitFmtHexmask bitmap)).length :=
    Nat.not_le.mpr (body.trans_lt (length_bitFmtHexmask bounded))
  simp only [unfmtHexmask]
  rw [takeWhile_string (zero_not_mem_bitFmtHexmask bitmap), if_neg ends, if_neg notEmpty,
    if_neg notLong, bitUnfmtHexmask_bitFmtHexmask]

theorem Decodes.bitmap {asserts : Bool} {slot : Slot (List Bool)} {bitmap : List Bool}
    (pos : 0 < bitmap.length) (bounded : bitmap.length ≤ maxBits) :
    Decodes (unpackBitStrHex asserts slot) (encodeBitmap bitmap) () (slot.store (some bitmap)) := by
  intro rest r live
  have sizeVal := toNat_bitmap_length bounded
  have short : (bitFmtHexmask bitmap ++ [0]).length ≤ maxPackMemLen := by
    have bound := length_bitFmtHexmask bounded
    rw [length_append]
    exact (Nat.succ_le_of_lt bound).trans (by decide)
  obtain ⟨one, sizeRead⟩ := Decodes.u32 (UInt32.ofNat bitmap.length)
    (encodeStr (some (bitFmtHexmask bitmap)) ++ rest) r live
  obtain ⟨two, strRead⟩ := unpackmemXmalloc_encoded (by simp) short .tmpStr rest r one
  rw [sizeVal] at sizeRead
  have asStr : encodeStr (some (bitFmtHexmask bitmap)) ++ rest =
      bytesOf 4 (bitFmtHexmask bitmap ++ [0]).length ++ ((bitFmtHexmask bitmap ++ [0]) ++ rest) := by
    rw [encodeStr, append_assoc, length_append, length_singleton]
  have notNone : UInt32.ofNat bitmap.length ≠ noVal := by
    intro same
    have asNat := congrArg UInt32.toNat same
    rw [sizeVal] at asNat
    rw [asNat] at bounded
    exact absurd bounded (by decide)
  have notLarge : ¬(asserts = true ∧ maxBits < (UInt32.ofNat bitmap.length).toNat) := by
    rw [sizeVal]
    exact fun both => Nat.not_lt.mpr bounded both.2
  refine ⟨(insert slot.block (insert .tmpStr two)).erase .tmpStr, ?_⟩
  have freed : xfree .tmpStr
      ⟨rest, some (slot.store (some bitmap) r), insert slot.block (insert .tmpStr two)⟩ =
      (.ok (), ⟨rest, some (slot.store (some bitmap) r),
        (insert slot.block (insert .tmpStr two)).erase .tmpStr⟩) := by
    unfold xfree
    rw [if_pos (Finset.mem_insert_of_mem (Finset.mem_insert_self _ _))]
  unfold unpackBitStrHex
  rw [encodeBitmap, append_assoc, bind_ok sizeRead, if_neg notNone, asStr, id_eq,
    bind_ok strRead, if_neg notLarge, sizeVal]
  rw [unfmtHexmask_encoded pos bounded]
  exact (bind_ok rfl).trans freed

/-! ## Structures -/

/-- The structures that are packed.  Each array has at least the elements that
its count says, and the socket records describe all hosts. -/
structure JobResources.WellFormed (r : JobResources) : Prop where
  nhosts : 0 < r.nhosts ∧ r.nhosts < noVal
  nodes : ∀ s ∈ r.nodes, 0 ∉ s ∧ s.length < maxPackMemLen
  cpuArrayReps : ∀ list ∈ r.cpuArrayReps,
    0 < r.cpuArrayCnt ∧ r.cpuArrayCnt ≤ noVal ∧ r.cpuArrayCnt.toNat ≤ list.length
  cpuArrayValue : ∀ list ∈ r.cpuArrayValue,
    0 < r.cpuArrayCnt ∧ r.cpuArrayCnt ≤ noVal ∧ r.cpuArrayCnt.toNat ≤ list.length
  cpuArrayCnt : (r.cpuArrayReps.isSome ↔ r.cpuArrayCnt ≠ 0) ∧
    (r.cpuArrayValue.isSome ↔ r.cpuArrayCnt ≠ 0)
  cpus : r.cpus.isSome ∧ ∀ list ∈ r.cpus, r.nhosts.toNat ≤ list.length
  cpusUsed : ∀ list ∈ r.cpusUsed, r.nhosts.toNat ≤ list.length
  memoryAllocated : ∀ list ∈ r.memoryAllocated, r.nhosts.toNat ≤ list.length
  memoryUsed : ∀ list ∈ r.memoryUsed, r.nhosts.toNat ≤ list.length
  sockets : ∃ sockets cores reps, r.socketsPerNode = some sockets ∧ r.coresPerSocket = some cores ∧
    r.sockCoreRepCount = some reps ∧ ∃ n ≤ r.nhosts.toNat, n ≤ sockets.length ∧ n ≤ cores.length ∧
      n ≤ reps.length ∧ ((reps.take n).map UInt32.toNat).sum = r.nhosts.toNat
  coreBitmap : ∃ bitmap, r.coreBitmap = some bitmap ∧ 0 < bitmap.length ∧ bitmap.length ≤ maxBits
  coreBitmapUsed : ∃ bitmap, r.coreBitmapUsed = some bitmap ∧ 0 < bitmap.length ∧
    bitmap.length ≤ maxBits

/-- What the counts of the structure describe, with memory in the width of the protocol. -/
def JobResources.described (memory : UInt64 → UInt64) (r : JobResources) : JobResources :=
  { r with
    cpuArrayReps := r.cpuArrayReps.map (·.take r.cpuArrayCnt.toNat)
    cpuArrayValue := r.cpuArrayValue.map (·.take r.cpuArrayCnt.toNat)
    cpus := r.cpus.map (·.take r.nhosts.toNat)
    cpusUsed := r.cpusUsed.map (·.take r.nhosts.toNat)
    memoryAllocated := r.memoryAllocated.map fun list => (list.take r.nhosts.toNat).map memory
    memoryUsed := r.memoryUsed.map fun list => (list.take r.nhosts.toNat).map memory
    socketsPerNode := r.socketsPerNode.map (·.take r.sockRecCount.toNat)
    coresPerSocket := r.coresPerSocket.map (·.take r.sockRecCount.toNat)
    sockCoreRepCount := r.sockCoreRepCount.map (·.take r.sockRecCount.toNat) }

/-- The search for the socket records ends within the records that describe the hosts. -/
theorem searchSockRecs_lt {nhosts : UInt32} (list : List UInt32) (n : Nat) (i sockRecs : UInt32)
    (before : sockRecs < nhosts) (index : i.toNat + n < 2 ^ 32)
    (sum : sockRecs.toNat + ((list.take n).map UInt32.toNat).sum = nhosts.toNat) :
    (searchSockRecs nhosts list i sockRecs).toNat < i.toNat + n := by
  induction list generalizing n i sockRecs with
  | nil =>
    rw [take_nil, map_nil, sum_nil] at sum
    exact absurd (UInt32.lt_iff_toNat_lt.mp before) (by omega)
  | cons reps rest ih =>
    cases n with
    | zero =>
      rw [take_zero, map_nil, sum_nil] at sum
      exact absurd (UInt32.lt_iff_toNat_lt.mp before) (by omega)
    | succ n =>
      rw [take_succ_cons, map_cons, sum_cons] at sum
      have small := nhosts.toNat_lt
      have added : (sockRecs + reps).toNat = sockRecs.toNat + reps.toNat := by
        rw [UInt32.toNat_add, Nat.mod_eq_of_lt (by omega)]
      have next : (i + 1).toNat = i.toNat + 1 := by
        rw [UInt32.toNat_add, UInt32.toNat_one, Nat.mod_eq_of_lt (by omega)]
      rw [searchSockRecs]
      split_ifs with reached
      · omega
      · have later := ih n (i + 1) (sockRecs + reps) (UInt32.not_le.mp reached)
          (by omega) (by omega)
        omega

variable {r : JobResources}

theorem JobResources.WellFormed.sockRecCount (wf : r.WellFormed) :
    0 < r.sockRecCount ∧ r.sockRecCount ≤ noVal ∧
    (∀ list ∈ r.socketsPerNode, r.sockRecCount.toNat ≤ list.length) ∧
    (∀ list ∈ r.coresPerSocket, r.sockRecCount.toNat ≤ list.length) ∧
    ∀ list ∈ r.sockCoreRepCount, r.sockRecCount.toNat ≤ list.length := by
  obtain ⟨sockets, cores, reps, socketsEq, coresEq, repsEq, n, few, inSockets, inCores, inReps, sum⟩ :=
    wf.sockets
  have bound : r.nhosts.toNat < 2 ^ 32 - 2 := UInt32.lt_iff_toNat_lt.mp wf.nhosts.2
  have found := searchSockRecs_lt (reps.take r.nhosts.toNat) n 0 0 wf.nhosts.1
    (by rw [UInt32.toNat_zero]; omega) (by
      rw [take_take, Nat.min_eq_left few, UInt32.toNat_zero, Nat.zero_add, sum])
  have count : r.sockRecCount.toNat =
      (searchSockRecs r.nhosts (reps.take r.nhosts.toNat) 0 0).toNat + 1 := by
    rw [UInt32.toNat_zero, Nat.zero_add] at found
    rw [JobResources.sockRecCount, repsEq, Option.getD_some, UInt32.toNat_add, UInt32.toNat_one,
      Nat.mod_eq_of_lt (by omega)]
  have within : r.sockRecCount.toNat ≤ n := by
    rw [UInt32.toNat_zero, Nat.zero_add] at found
    omega
  refine ⟨?_, ?_, ?_, ?_, ?_⟩
  · rw [UInt32.lt_iff_toNat_lt, count]
    exact Nat.succ_pos _
  · rw [UInt32.le_iff_toNat_le]
    exact (within.trans few).trans (UInt32.le_iff_toNat_le.mp (UInt32.le_of_lt wf.nhosts.2))
  · rw [socketsEq]
    rintro list ⟨⟩
    exact within.trans inSockets
  · rw [coresEq]
    rintro list ⟨⟩
    exact within.trans inCores
  · rw [repsEq]
    rintro list ⟨⟩
    exact within.trans inReps

def encode16 (value : UInt16) : List UInt8 := bytesOf 2 value.toNat

def encode32 (value : UInt32) : List UInt8 := bytesOf 4 value.toNat

/-- The bytes of the fields between the first and the bitmaps. -/
def JobResources.encodeArrays (encodeMemory : UInt64 → List UInt8) (r : JobResources) : List UInt8 :=
  encode32 r.ncpus ++ (encode32 r.nodeReq ++ (encodeStr r.nodes ++ (bytesOf 1 r.wholeNode.toNat ++
  (encodeArray encode32 r.cpuArrayReps r.cpuArrayCnt ++
  (encodeArray encode16 r.cpuArrayValue r.cpuArrayCnt ++ (encodeArray encode16 r.cpus r.nhosts ++
  (encodeArray encode16 r.cpusUsed r.nhosts ++ (encodeArray encodeMemory r.memoryAllocated r.nhosts ++
  (encodeArray encodeMemory r.memoryUsed r.nhosts ++
  (encodeArray encode16 r.socketsPerNode r.sockRecCount ++
  (encodeArray encode16 r.coresPerSocket r.sockRecCount ++
  encodeArray encode32 r.sockCoreRepCount r.sockRecCount)))))))))))

/-- The bytes of all fields after the first. -/
def JobResources.encodeFields (encodeMemory : UInt64 → List UInt8) (r : JobResources) : List UInt8 :=
  r.encodeArrays encodeMemory ++
    (encodeBitmap (r.coreBitmap.getD []) ++ encodeBitmap (r.coreBitmapUsed.getD []))

theorem JobResources.WellFormed.packs (wf : r.WellFormed) {packMemory : UInt64 → Buf → Buf}
    {encodeMemory : UInt64 → List UInt8}
    (each : ∀ value, Packs (packMemory value) (encodeMemory value)) :
    Packs (packFields (packArray packMemory) r) (encode32 r.nhosts ++ r.encodeFields encodeMemory) := by
  obtain ⟨sockets, cores, reps, socketsEq, coresEq, repsEq, -⟩ := wf.sockets
  obtain ⟨bitmap, bitmapEq, -, bounded⟩ := wf.coreBitmap
  obtain ⟨used, usedEq, -, usedBounded⟩ := wf.coreBitmapUsed
  unfold packFields JobResources.encodeFields JobResources.encodeArrays
  rw [socketsEq, coresEq, repsEq, bitmapEq, usedEq]
  simp only [← append_assoc]
  refine Packs.comp ?_ (Packs.bitmap usedBounded)
  refine Packs.comp ?_ (Packs.bitmap bounded)
  refine Packs.comp ?_ (Packs.array Packs.u32 reps r.sockRecCount)
  refine Packs.comp ?_ (Packs.array Packs.u16 cores r.sockRecCount)
  refine Packs.comp ?_ (Packs.array Packs.u16 sockets r.sockRecCount)
  refine Packs.comp ?_ (Packs.ifSet each r.memoryUsed r.nhosts)
  refine Packs.comp ?_ (Packs.ifSet each r.memoryAllocated r.nhosts)
  refine Packs.comp ?_ (Packs.ifSet Packs.u16 r.cpusUsed r.nhosts)
  refine Packs.comp ?_ (Packs.ifSet Packs.u16 r.cpus r.nhosts)
  refine Packs.comp ?_ (Packs.ifSet Packs.u16 r.cpuArrayValue r.cpuArrayCnt)
  refine Packs.comp ?_ (Packs.ifSet Packs.u32 r.cpuArrayReps r.cpuArrayCnt)
  refine Packs.comp ?_ (Packs.u8 r.wholeNode)
  refine Packs.comp ?_ (Packs.str fun s mem => (wf.nodes s mem).2)
  refine Packs.comp ?_ (Packs.u32 r.nodeReq)
  exact Packs.comp (Packs.u32 r.nhosts) (Packs.u32 r.ncpus)

/-- The fields that unpacking adds to a new structure before the bitmaps. -/
theorem JobResources.WellFormed.decodesArrays (wf : r.WellFormed) {unpackMemory : UnpackM UInt64}
    {encodeMemory : UInt64 → List UInt8} {memory : UInt64 → UInt64}
    (each : ∀ value, Decodes unpackMemory (encodeMemory value) (memory value) id) :
    ∃ effect, Decodes (unpackArrays unpackMemory r.nhosts) (r.encodeArrays encodeMemory) () effect ∧
      effect (JobResources.blank r.nhosts) =
        { r.described memory with coreBitmap := none, coreBitmapUsed := none } := by
  obtain ⟨recs, recsBounded, inSockets, inCores, inReps⟩ := wf.sockRecCount
  have hosts : ∀ {α : Type} {array : Option (List α)},
      (∀ list ∈ array, r.nhosts.toNat ≤ list.length) →
      ∀ list ∈ array, 0 < r.nhosts ∧ r.nhosts ≤ noVal ∧ r.nhosts.toNat ≤ list.length :=
    fun mem list present => ⟨wf.nhosts.1, UInt32.le_of_lt wf.nhosts.2, mem list present⟩
  have records : ∀ {α : Type} {array : Option (List α)},
      (∀ list ∈ array, r.sockRecCount.toNat ≤ list.length) →
      ∀ list ∈ array, 0 < r.sockRecCount ∧ r.sockRecCount ≤ noVal ∧
        r.sockRecCount.toNat ≤ list.length :=
    fun mem list present => ⟨recs, recsBounded, mem list present⟩
  have count : ∀ {α : Type} {array : Option (List α)}, (array.isSome ↔ r.cpuArrayCnt ≠ 0) →
      (if array.isSome then r.cpuArrayCnt else 0) = r.cpuArrayCnt := by
    intro α array present
    split_ifs with isSome
    · rfl
    · exact (not_not.mp fun notZero => isSome (present.mpr notZero)).symm
  have reps := Decodes.plainField Decodes.u32 .cpuArrayReps wf.cpuArrayReps
  rw [count wf.cpuArrayCnt.1] at reps
  have values := Decodes.plainField Decodes.u16 .cpuArrayValue wf.cpuArrayValue
  rw [count wf.cpuArrayCnt.2] at values
  have cpus := Decodes.plainField Decodes.u16 .cpus (hosts wf.cpus.2)
  rw [if_pos wf.cpus.1] at cpus
  have cpusUsed := Decodes.plainField Decodes.u16 .cpusUsed (hosts wf.cpusUsed)
  have allocated := Decodes.field each .memoryAllocated (hosts wf.memoryAllocated)
  have memoryUsed := Decodes.field each .memoryUsed (hosts wf.memoryUsed)
  have sockets := Decodes.plainField Decodes.u16 .socketsPerNode (records inSockets)
  have cores := Decodes.plainField Decodes.u16 .coresPerSocket (records inCores)
  have repCount := Decodes.plainField Decodes.u32 .sockCoreRepCount (records inReps)
  have sameCnt : ¬r.cpuArrayCnt ≠ r.cpuArrayCnt := not_not.mpr rfl
  have sameHosts : ¬r.nhosts ≠ r.nhosts := not_not.mpr rfl
  apply Exists.intro
  apply And.intro
  · apply Decodes.fill (fun ncpus r => { r with ncpus := ncpus }) _ (Decodes.u32 r.ncpus)
    apply Decodes.fill (fun nodeReq r => { r with nodeReq := nodeReq }) _ (Decodes.u32 r.nodeReq)
    apply Decodes.bind _ (Decodes.nodes wf.nodes)
    apply Decodes.fill (fun wholeNode r => { r with wholeNode := wholeNode }) _
      (Decodes.u8 r.wholeNode)
    apply Decodes.fill (fun cnt r => { r with cpuArrayCnt := cnt }) _ reps
    apply Decodes.bind _ values
    rw [if_neg sameCnt]
    apply Decodes.bind _ cpus
    rw [if_neg sameHosts]
    apply Decodes.bind _ cpusUsed
    apply Decodes.bind _ allocated
    apply Decodes.bind _ memoryUsed
    apply Decodes.bind _ sockets
    apply Decodes.bind _ cores
    exact repCount.andThen
  · rfl

theorem JobResources.WellFormed.decodes (wf : r.WellFormed) (asserts : Bool)
    {unpackMemory : UnpackM UInt64} {encodeMemory : UInt64 → List UInt8}
    {memory : UInt64 → UInt64}
    (each : ∀ value, Decodes unpackMemory (encodeMemory value) (memory value) id) :
    ∃ effect, Decodes (unpackFields asserts unpackMemory r.nhosts) (r.encodeFields encodeMemory) ()
      effect ∧ effect (JobResources.blank r.nhosts) = r.described memory := by
  obtain ⟨bitmap, bitmapEq, pos, bounded⟩ := wf.coreBitmap
  obtain ⟨used, usedEq, usedPositive, usedBounded⟩ := wf.coreBitmapUsed
  obtain ⟨effect, arrays, result⟩ := wf.decodesArrays each
  refine ⟨(Slot.coreBitmapUsed.store (some used) ∘ Slot.coreBitmap.store (some bitmap)) ∘ effect,
    ?_, ?_⟩
  · unfold unpackFields JobResources.encodeFields
    rw [bitmapEq, usedEq]
    exact Decodes.bind _ arrays (Decodes.bind _ (Decodes.bitmap pos bounded)
      (Decodes.bitmap usedPositive usedBounded))
  · rw [Function.comp_apply, result]
    unfold JobResources.described
    rw [bitmapEq, usedEq]
    rfl

/-! ## Both protocol versions -/

/-- The bytes of a memory size: four in the older version. -/
def encodeMemory (protocolVersion : UInt16) (memory : UInt64) : List UInt8 :=
  if slurm1702ProtocolVersion ≤ protocolVersion then bytesOf 8 memory.toNat
  else encode32 memory.toUInt32

/-- What the protocol version keeps of a memory size. -/
def memoryWidth (protocolVersion : UInt16) (memory : UInt64) : UInt64 :=
  if slurm1702ProtocolVersion ≤ protocolVersion then memory else memory.toUInt32.toUInt64

/-- The encoding of job resources, or of none. -/
def encodeJobResources (protocolVersion : UInt16) (r : Option JobResources) : List UInt8 :=
  match r with
  | none => encode32 noVal
  | some r => encode32 r.nhosts ++ r.encodeFields (encodeMemory protocolVersion)

section Versions

variable {protocolVersion : UInt16} (supported : slurmMinProtocolVersion ≤ protocolVersion)
  {r : Option JobResources} (wf : ∀ resources ∈ r, resources.WellFormed)

include supported wf

theorem packJobResources_packs :
    Packs (packJobResources protocolVersion r) (encodeJobResources protocolVersion r) := by
  unfold packJobResources
  cases r with
  | none =>
    split_ifs
    · exact Packs.u32 noVal
    · exact Packs.u32 noVal
  | some resources =>
    split_ifs with newer
    · refine (wf resources rfl).packs fun value => ?_
      rw [encodeMemory, if_pos newer]
      exact Packs.u64 value
    · refine (wf resources rfl).packs fun value => ?_
      rw [encodeMemory, if_neg newer]
      exact Packs.u32 value.toUInt32

omit supported in
/-- One version of unpacking restores what was encoded for it. -/
theorem unpackVersion_encoded (asserts : Bool) {unpackMemory : UnpackM UInt64}
    (each : ∀ value, Decodes unpackMemory (encodeMemory protocolVersion value)
      (memoryWidth protocolVersion value) id) (rest : List UInt8) :
    ∃ resources live, unpackVersion asserts unpackMemory
      ⟨encodeJobResources protocolVersion r ++ rest, none, ∅⟩ =
        (.ok r.isSome, ⟨rest, resources, live⟩) ∧
      (r.isSome → resources = r.map (·.described (memoryWidth protocolVersion))) := by
  cases r with
  | none =>
    refine ⟨none, ∅, ?_, fun absent => nomatch absent⟩
    rfl
  | some resources =>
    have resourcesWf := wf resources rfl
    obtain ⟨effect, fields, result⟩ := resourcesWf.decodes asserts each
    obtain ⟨live, done⟩ := fields rest (JobResources.blank resources.nhosts)
      (insert .jobResrcs ∅)
    have notNone : resources.nhosts ≠ noVal := UInt32.ne_of_lt resourcesWf.nhosts.2
    refine ⟨some (resources.described (memoryWidth protocolVersion)), live, ?_, fun _ => rfl⟩
    rw [result] at done
    unfold unpackVersion
    rw [encodeJobResources, encode32, append_assoc, bind_ok (unpack32_run _ _ _ _),
      if_neg notNone]
    rw [bind_ok (newJobResources_run _ _ _ _), bind_ok done]
    rfl

theorem unpackJobResources_encoded (asserts : Bool) (rest : List UInt8) :
    unpackJobResources asserts protocolVersion (encodeJobResources protocolVersion r ++ rest) =
      .success (r.map (·.described (memoryWidth protocolVersion))) rest := by
  have finish : ∀ (unpackMemory : UnpackM UInt64), (∀ value, Decodes unpackMemory
      (encodeMemory protocolVersion value) (memoryWidth protocolVersion value) id) →
      leave (unpackVersion asserts unpackMemory
        ⟨encodeJobResources protocolVersion r ++ rest, none, ∅⟩) =
        .success (r.map (·.described (memoryWidth protocolVersion))) rest := by
    intro unpackMemory each
    obtain ⟨resources, live, done, result⟩ := unpackVersion_encoded wf asserts each rest
    rw [done]
    cases r with
    | none => rfl
    | some known =>
      rw [result rfl]
      rfl
  unfold unpackJobResources
  by_cases newer : slurm1702ProtocolVersion ≤ protocolVersion
  · have each : ∀ value, Decodes unpack64 (encodeMemory protocolVersion value)
        (memoryWidth protocolVersion value) id := by
      intro value
      rw [encodeMemory, memoryWidth, if_pos newer, if_pos newer]
      exact Decodes.u64 value
    rw [if_pos newer]
    exact finish unpack64 each
  · have each : ∀ value, Decodes (UInt32.toUInt64 <$> unpack32) (encodeMemory protocolVersion value)
        (memoryWidth protocolVersion value) id := by
      intro value
      rw [encodeMemory, memoryWidth, if_neg newer, if_neg newer]
      exact (Decodes.u32 value.toUInt32).map
    rw [if_neg newer, if_pos supported]
    exact finish _ each

end Versions

end SlurmSim.Common.Codec
