import SlurmSim.Common.CodecRoundTrip

/-!
# Unpacking any buffer

The layout of an encoding says where its fields lie.  Whatever the bytes are,
unpacking follows the layout; it stops with an error where the layout does, and
frees what it has allocated.  It goes wrong before the first field and at bitmaps
whose record is not sound.
-/

namespace SlurmSim.Common.Codec

open SlurmSim.Lib.BigEndian List

/-! ## The layout of an encoding -/

/-- A part of a buffer, which may be cut off. -/
def Layout (α : Type) : Type :=
  List UInt8 → Option (α × List UInt8)

instance : Monad Layout where
  pure value := fun input => some (value, input)
  bind part next := fun input =>
    match part input with
    | some (value, rest) => next value rest
    | none => none

namespace Layout

def cut {α : Type} : Layout α :=
  fun _ => none

theorem bind_some {α β : Type} {part : Layout α} {next : α → Layout β} {input rest : List UInt8}
    {value : α} (taken : part input = some (value, rest)) :
    (part >>= next) input = next value rest := by
  have unfolded : (part >>= next) input = match part input with
      | some (value, rest) => next value rest
      | none => none := rfl
  rw [unfolded, taken]

theorem bind_none {α β : Type} {part : Layout α} {next : α → Layout β} {input : List UInt8}
    (cut : part input = none) : (part >>= next) input = none := by
  have unfolded : (part >>= next) input = match part input with
      | some (value, rest) => next value rest
      | none => none := rfl
  rw [unfolded, cut]

/-- So many bytes. -/
def bytes (n : Nat) : Layout (List UInt8) :=
  fun input => if input.length < n then none else some (input.take n, input.drop n)

/-- Bytes whose values do not matter. -/
def skip (n : Nat) : Layout Unit :=
  fun input => if input.length < n then none else some ((), input.drop n)

def count : Layout UInt32 := do
  let value ← bytes 4
  pure (UInt32.ofNat (valueOf value))

/-- An array of elements of the given width; its count. -/
def array (width : Nat) : Layout UInt32 := do
  let n ← count
  if noVal < n then cut
  else do
    skip (n.toNat * width)
    pure n

theorem array_eq {width : Nat} {input rest : List UInt8} {n : UInt32}
    (counted : count input = some (n, rest)) : array width input =
      if noVal < n then none
      else if rest.length < n.toNat * width then none
      else some (n, rest.drop (n.toNat * width)) := by
  unfold array
  rw [bind_some counted]
  split_ifs with large cut
  · rfl
  · exact bind_none (if_pos cut)
  · rw [bind_some (if_neg cut)]
    rfl

/-- A string as it lies in memory. -/
def string : Layout (List UInt8) := do
  let n ← count
  if maxPackMemLen < n.toNat then cut else bytes n.toNat

def skipString : Layout Unit := do
  let _ ← string
  pure ()

/-- The fields between the first and the bitmaps. -/
def arrays (memoryWidth : Nat) (nhosts : UInt32) : Layout Unit := do
  skip 4
  skip 4
  skipString
  skip 1
  let reps ← array 4
  let values ← array 2
  if values ≠ reps then cut
  else do
    let cpus ← array 2
    if cpus ≠ nhosts then cut
    else do
      let _ ← array 2
      let _ ← array memoryWidth
      let _ ← array memoryWidth
      let _ ← array 2
      let _ ← array 2
      let _ ← array 4
      pure ()

/-- The record of a bitmap: its size and its string, if there is a bitmap. -/
def bitmap : Layout (Option (UInt32 × List UInt8)) := do
  let size ← count
  if size = noVal then pure none
  else do
    let str ← string
    pure (some (size, str))

end Layout

/-! ## Following the layout -/

/-- The blocks that are allocated are the structure and what it points to; some
pointers are not set yet. -/
def Owned (unset : List Block) (s : Unpacking) : Prop :=
  ∃ r, s.jobResrcs = some r ∧
    (∀ block, block ∈ s.live ↔ block = .jobResrcs ∨ r.isSet block = true) ∧
    ∀ block ∈ unset, r.isSet block = false

/-- The step takes the part off the buffer, or stops with an error where it is
cut off; it may set pointers that were not set before. -/
def Follows {α β : Type} (unset later : List Block) (step : UnpackM α) (part : Layout β)
    (seen : α → β) : Prop :=
  ∀ s, Owned unset s →
    match part s.input with
    | none => ∃ t, step s = (.error .unpackError, t) ∧ Owned [] t
    | some (value, rest) => ∃ result t, step s = (.ok result, t) ∧ seen result = value ∧
        t.input = rest ∧ Owned later t

theorem Owned.forget {unset : List Block} {s : Unpacking} (owned : Owned unset s) : Owned [] s := by
  obtain ⟨r, here, live, -⟩ := owned
  exact ⟨r, here, live, fun block mem => absurd mem not_mem_nil⟩

namespace Follows

variable {α β γ δ : Type} {unset between later : List Block} {step : UnpackM α} {part : Layout β}
  {seen : α → β}

theorem bind (next : α → UnpackM γ) (laterPart : β → Layout δ) {laterSeen : γ → δ}
    (first : Follows unset between step part seen)
    (second : ∀ value, Follows between later (next value) (laterPart (seen value)) laterSeen) :
    Follows unset later (step >>= next) (part >>= laterPart) laterSeen := by
  intro s owned
  have here := first s owned
  cases partEq : part s.input with
  | none =>
    rw [partEq] at here
    rw [Layout.bind_none partEq]
    obtain ⟨t, stopped, ownedAfter⟩ := here
    exact ⟨t, bind_error stopped, ownedAfter⟩
  | some taken =>
    obtain ⟨value, rest⟩ := taken
    rw [partEq] at here
    rw [Layout.bind_some partEq]
    obtain ⟨result, t, ok, rfl, rfl, ownedAfter⟩ := here
    rw [bind_ok ok]
    exact second result t ownedAfter

theorem done (value : α) (seen : α → β) :
    Follows unset unset (pure value) (pure (seen value)) seen :=
  fun s owned => ⟨value, s, rfl, rfl, rfl, owned⟩

theorem stopped : Follows unset later (stop .unpackError : UnpackM α) Layout.cut seen :=
  fun s owned => ⟨s, rfl, owned.forget⟩

theorem fill (update : α → JobResources → JobResources) (next : α → UnpackM γ)
    (laterPart : β → Layout δ) {laterSeen : γ → δ} (first : Follows unset between step part seen)
    (sameBlocks : ∀ value r block, (update value r).isSet block = r.isSet block)
    (second : ∀ value, Follows between later (next value) (laterPart (seen value)) laterSeen) :
    Follows unset later (do let value ← step; setField (update value); next value)
      (part >>= laterPart) laterSeen := by
  refine first.bind _ _ fun value => ?_
  rintro s ⟨r, here, live, notSet⟩
  obtain ⟨input, resources, blocks⟩ := s
  cases here
  refine second value ⟨input, some (update value r), blocks⟩ ⟨_, rfl, ?_, ?_⟩
  · intro block
    rw [sameBlocks]
    exact live block
  · intro block mem
    rw [sameBlocks]
    exact notSet block mem

end Follows

namespace Owned

variable {α : Type} {slot : Slot α} {later : List Block} {input : List UInt8} {r : JobResources}
  {live : Finset Block}

theorem allocate (owned : Owned (slot.block :: later) ⟨input, some r, live⟩)
    (outside : slot.block ∉ later) (value : α) (rest : List UInt8) :
    Owned later ⟨rest, some (slot.store (some value) r), insert slot.block live⟩ := by
  obtain ⟨r, ⟨⟩, liveIff, notSet⟩ := owned
  refine ⟨_, rfl, ?_, ?_⟩
  · intro block
    rw [Finset.mem_insert, liveIff, slot.isSet_store]
    split_ifs with same
    · simp [same]
    · simp [same]
  · intro block mem
    have ne : block ≠ slot.block := by
      rintro rfl
      exact outside mem
    rw [slot.isSet_store, if_neg ne]
    exact notSet block (mem_cons_of_mem _ mem)

theorem setNull (owned : Owned (slot.block :: later) ⟨input, some r, live⟩) (rest : List UInt8) :
    Owned (slot.block :: later) ⟨rest, some (slot.store none r), live⟩ := by
  obtain ⟨r, ⟨⟩, liveIff, notSet⟩ := owned
  have same : ∀ block, (slot.store none r).isSet block = r.isSet block := by
    intro block
    rw [slot.isSet_store]
    split_ifs with same
    · rw [same, notSet slot.block mem_cons_self]
      rfl
    · rfl
  refine ⟨_, rfl, ?_, ?_⟩
  · intro block
    rw [same]
    exact liveIff block
  · intro block mem
    rw [same]
    exact notSet block mem

theorem drop (owned : Owned (slot.block :: later) ⟨input, some r, live⟩) :
    Owned later ⟨input, some r, live⟩ := by
  obtain ⟨r, ⟨⟩, liveIff, notSet⟩ := owned
  exact ⟨_, rfl, liveIff, fun block mem => notSet block (mem_cons_of_mem _ mem)⟩

end Owned

theorem unpack32_cases (s : Unpacking) :
    (Layout.count s.input = none ∧ unpack32 s = (.error .unpackError, s)) ∨
    ∃ n rest, Layout.count s.input = some (n, rest) ∧
      unpack32 s = (.ok n, { s with input := rest }) := by
  by_cases cut : s.input.length < 4
  · have error : unpackWord 4 s = (.error .unpackError, s) := if_pos cut
    exact Or.inl ⟨Layout.bind_none (if_pos cut), bind_error error⟩
  · have ok : unpackWord 4 s =
        (.ok (valueOf (s.input.take 4)), { s with input := s.input.drop 4 }) := if_neg cut
    exact Or.inr ⟨_, _, Layout.bind_some (if_neg cut), map_ok ok⟩

/-! ## Arrays -/

/-- The step reads a word of the given width and changes nothing else. -/
def Words {α : Type} (unpack : UnpackM α) (width : Nat) : Prop :=
  ∀ s, (s.input.length < width → unpack s = (.error .unpackError, s)) ∧
    (¬s.input.length < width → ∃ value, unpack s = (.ok value, { s with input := s.input.drop width }))

variable {α : Type} {unpack : UnpackM α} {width : Nat} {size : UInt32}

theorem Words.word (width : Nat) (f : Nat → α) : Words (f <$> unpackWord width) width := by
  intro s
  refine ⟨fun cut => ?_, fun enough => ?_⟩
  · have error : unpackWord width s = (.error .unpackError, s) := if_pos cut
    exact bind_error error
  · have ok : unpackWord width s =
        (.ok (valueOf (s.input.take width)), { s with input := s.input.drop width }) := if_neg enough
    exact ⟨_, map_ok ok⟩

theorem Words.map {β : Type} (words : Words unpack width) (f : α → β) :
    Words (f <$> unpack) width := by
  intro s
  refine ⟨fun cut => bind_error ((words s).1 cut), fun enough => ?_⟩
  obtain ⟨value, ok⟩ := (words s).2 enough
  exact ⟨f value, map_ok ok⟩

theorem Words.follows (words : Words unpack width) (unset : List Block) :
    Follows unset unset unpack (Layout.skip width) fun _ => () := by
  intro s owned
  unfold Layout.skip
  by_cases cut : s.input.length < width
  · rw [if_pos cut]
    exact ⟨s, (words s).1 cut, owned.forget⟩
  · rw [if_neg cut]
    obtain ⟨value, ok⟩ := (words s).2 cut
    exact ⟨value, _, ok, rfl, rfl, owned⟩

theorem Words.values (words : Words unpack width) (n : Nat) (s : Unpacking) :
    (s.input.length < n * width → ∃ input,
      unpackValues unpack n s = (.error .unpackError, { s with input := input })) ∧
    (¬s.input.length < n * width → ∃ values,
      unpackValues unpack n s = (.ok values, { s with input := s.input.drop (n * width) })) := by
  induction n generalizing s with
  | zero =>
    rw [Nat.zero_mul]
    exact ⟨fun cut => absurd cut (Nat.not_lt_zero _), fun _ => ⟨[], rfl⟩⟩
  | succ n ih =>
    rw [unpackValues, Nat.succ_mul]
    by_cases cut : s.input.length < width
    · have error := (words s).1 cut
      refine ⟨fun _ => ⟨s.input, bind_error error⟩, fun enough => ?_⟩
      exact absurd (Nat.lt_add_left (n * width) cut) enough
    · obtain ⟨value, ok⟩ := (words s).2 cut
      obtain ⟨error, done⟩ := ih { s with input := s.input.drop width }
      simp only [length_drop, drop_drop] at error done
      rw [bind_ok ok]
      refine ⟨fun short => ?_, fun enough => ?_⟩
      · obtain ⟨input, stopped⟩ := error (by omega)
        exact ⟨input, bind_error stopped⟩
      · obtain ⟨values, read⟩ := done (by omega)
        refine ⟨value :: values, ?_⟩
        rw [bind_ok read, Nat.add_comm (n * width)]
        rfl

theorem unpackField_zero {slot : Slot (List α)} {s : Unpacking} {rest : List UInt8}
    {r : JobResources} {live : Finset Block}
    (counted : unpack32 s = (.ok 0, ⟨rest, some r, live⟩)) :
    unpackField unpack slot s = (.ok 0, ⟨rest, some (slot.store none r), live⟩) := by
  have arrayRead : unpackArray unpack slot s = (.ok 0, ⟨rest, some (slot.store none r), live⟩) := by
    unfold unpackArray
    rw [bind_ok counted]
    rfl
  have notSet : (slot.store none r).isSet slot.block = false := by
    rw [slot.isSet_store, if_pos rfl]
    rfl
  have freed : xfreeField slot ⟨rest, some (slot.store none r), live⟩ =
      (.ok (), ⟨rest, some (slot.store none r), live⟩) := by
    unfold xfreeField
    simp only [notSet]
    have stored : setField (slot.store none) ⟨rest, some (slot.store none r), live⟩ =
        (.ok (), ⟨rest, some (slot.store none r), live⟩) := by
      rw [setField_run, slot.store_store]
    exact (bind_ok rfl).trans stored
  unfold unpackField
  rw [bind_ok arrayRead, if_pos rfl, bind_ok freed]
  rfl

theorem Words.field {α : Type} {unpack : UnpackM α} {width : Nat} (words : Words unpack width)
    {slot : Slot (List α)} {later : List Block} (outside : slot.block ∉ later) :
    Follows (slot.block :: later) later (unpackField unpack slot) (Layout.array width) id := by
  intro s owned
  rcases unpack32_cases s with ⟨countEq, error⟩ | ⟨n, input, countEq, ok⟩
  · have cut : Layout.array width s.input = none := Layout.bind_none countEq
    rw [cut]
    exact ⟨s, bind_error (bind_error error), owned.forget⟩
  · obtain ⟨r, here, -⟩ := id owned
    obtain ⟨before, resources, live⟩ := s
    cases here
    rw [Layout.array_eq countEq]
    split_ifs with large cut
    · refine ⟨⟨input, some r, live⟩, bind_error ?_, owned.forget⟩
      unfold unpackArray
      rw [bind_ok ok, if_pos large]
      rfl
    · by_cases zero : n = 0
      · rw [zero, UInt32.toNat_zero, Nat.zero_mul] at cut
        exact absurd cut (Nat.not_lt_zero _)
      · obtain ⟨rest, error⟩ := (words.values n.toNat ⟨input, some (slot.store (some []) r),
          insert slot.block live⟩).1 cut
        refine ⟨_, bind_error ?_, (owned.allocate outside [] rest).forget⟩
        unfold unpackArray
        rw [bind_ok ok, if_neg large, if_neg zero]
        exact (bind_ok rfl).trans ((bind_ok (setField_run _ _ _ _)).trans (bind_error error))
    · by_cases zero : n = 0
      · rw [zero] at ok
        rw [zero, UInt32.toNat_zero, Nat.zero_mul]
        exact ⟨0, _, unpackField_zero ok, rfl, rfl, (owned.setNull input).drop⟩
      · obtain ⟨values, done⟩ := (words.values n.toNat ⟨input, some (slot.store (some []) r),
          insert slot.block live⟩).2 cut
        have arrayRead : unpackArray unpack slot ⟨before, some r, live⟩ = (.ok n,
            ⟨input.drop (n.toNat * width), some (slot.store (some values) r),
              insert slot.block live⟩) := by
          unfold unpackArray
          rw [bind_ok ok, if_neg large, if_neg zero]
          refine (bind_ok rfl).trans ((bind_ok (setField_run _ _ _ _)).trans
            ((bind_ok done).trans ?_))
          have stored : setField (slot.store (some values)) ⟨input.drop (n.toNat * width),
              some (slot.store (some []) r), insert slot.block live⟩ =
              (.ok (), ⟨input.drop (n.toNat * width), some (slot.store (some values) r),
                insert slot.block live⟩) := by
            rw [setField_run, slot.store_store]
          exact (bind_ok stored).trans rfl
        refine ⟨n, _, ?_, rfl, rfl, owned.allocate outside values _⟩
        unfold unpackField
        rw [bind_ok arrayRead, if_neg zero]
        rfl

/-! ## Strings -/

/-- Where a string ends up: nowhere if it is empty, else in a new block. -/
theorem unpackmemXmalloc_cases (block : Block) (s : Unpacking) :
    (Layout.string s.input = none ∧ ∃ input,
      unpackmemXmalloc block s = (.error .unpackError, { s with input := input })) ∨
    ∃ str rest, Layout.string s.input = some (str, rest) ∧
      ((str = [] ∧ unpackmemXmalloc block s = (.ok none, { s with input := rest })) ∨
      (str ≠ [] ∧ unpackmemXmalloc block s =
        (.ok (some str), { s with input := rest, live := insert block s.live }))) := by
  unfold unpackmemXmalloc Layout.string
  rcases unpack32_cases s with ⟨countEq, error⟩ | ⟨n, rest, countEq, ok⟩
  · exact Or.inl ⟨Layout.bind_none countEq, s.input, bind_error error⟩
  · rw [Layout.bind_some countEq, bind_ok ok]
    by_cases long : maxPackMemLen < n.toNat
    · rw [if_pos long, if_pos long]
      exact Or.inl ⟨rfl, rest, rfl⟩
    rw [if_neg long, if_neg long]
    by_cases pos : 0 < n
    · have notZero : 0 < n.toNat := UInt32.lt_iff_toNat_lt.mp pos
      rw [if_pos pos]
      unfold copyBytes Layout.bytes
      by_cases cut : rest.length < n.toNat
      · rw [if_pos cut, if_pos cut]
        exact Or.inl ⟨rfl, rest, rfl⟩
      · rw [if_neg cut, if_neg cut]
        refine Or.inr ⟨_, _, rfl, Or.inr ⟨?_, rfl⟩⟩
        intro empty
        have length := congrArg List.length empty
        rw [length_take, length_nil] at length
        omega
    · have zero : n.toNat = 0 := by
        exact Nat.eq_zero_of_not_pos pos
      rw [if_neg pos]
      refine Or.inr ⟨[], rest, ?_, Or.inl ⟨rfl, rfl⟩⟩
      unfold Layout.bytes
      rw [zero, if_neg (Nat.not_lt_zero _)]
      rfl

theorem unpackNodes_follows {later : List Block} (outside : .nodes ∉ later) :
    Follows (.nodes :: later) later unpackNodes Layout.skipString id := by
  intro s owned
  obtain ⟨r, here, -⟩ := id owned
  obtain ⟨before, resources, live⟩ := s
  cases here
  unfold unpackNodes Layout.skipString
  rcases unpackmemXmalloc_cases .nodes ⟨before, some r, live⟩ with
    ⟨cut, input, error⟩ | ⟨str, rest, part, read⟩
  · rw [Layout.bind_none cut]
    exact ⟨_, bind_error error, owned.forget⟩
  · rw [Layout.bind_some part]
    rcases read with ⟨-, ok⟩ | ⟨-, ok⟩
    · refine ⟨(), _, bind_ok ok, rfl, rfl, ?_⟩
      exact (@Owned.setNull _ Slot.nodes later before r live owned rest).drop
    · refine ⟨(), _, bind_ok ok, rfl, rfl, ?_⟩
      exact @Owned.allocate _ Slot.nodes later before r live owned outside _ rest

/-! ## Bitmaps -/

/-- A bitmap record that unpacking can take: the string ends, and is not so long
that the index overflows; with assertions, the size is in their bounds. -/
def SoundRecord (asserts : Bool) (size : UInt32) (str : List UInt8) : Prop :=
  0 ∈ str ∧ (hexBody (str.takeWhile (· ≠ 0))).length < 2 ^ 29 ∧
    (asserts = true → 0 < size.toNat ∧ size.toNat ≤ maxBits)

theorem unfmtHexmask_sound {asserts : Bool} {str : List UInt8}
    (sound : SoundRecord asserts size str) :
    ∃ bitmap, unfmtHexmask asserts size.toNat (some str) = .ok bitmap := by
  obtain ⟨ends, short, bounds⟩ := sound
  have notEmpty : ¬(asserts = true ∧ size.toNat = 0) := fun both => (bounds both.1).1.ne' both.2
  refine ⟨bitUnfmtHexmask size.toNat (str.takeWhile (· ≠ 0)), ?_⟩
  simp only [unfmtHexmask]
  rw [if_neg (not_not.mpr ends), if_neg notEmpty, if_neg (Nat.not_le.mpr short)]

theorem unfmtHexmask_unsound {asserts : Bool} {str : List UInt8}
    (bounded : ¬(asserts = true ∧ maxBits < size.toNat)) (unsound : ¬SoundRecord asserts size str) :
    ∃ how, how ≠ Stop.unpackError ∧ unfmtHexmask asserts size.toNat (some str) = .error how := by
  simp only [unfmtHexmask]
  by_cases ends : 0 ∈ str
  · rw [if_neg (not_not.mpr ends)]
    by_cases empty : asserts = true ∧ size.toNat = 0
    · rw [if_pos empty]
      exact ⟨.abort, Stop.noConfusion, rfl⟩
    rw [if_neg empty]
    by_cases long : 2 ^ 29 ≤ (hexBody (str.takeWhile (· ≠ 0))).length
    · rw [if_pos long]
      exact ⟨.badMemory, Stop.noConfusion, rfl⟩
    refine absurd ⟨ends, Nat.not_le.mp long, fun on => ⟨?_, ?_⟩⟩ unsound
    · exact Nat.pos_of_ne_zero fun zero => empty ⟨on, zero⟩
    · exact Nat.not_lt.mp fun large => bounded ⟨on, large⟩
  · rw [if_pos ends]
    exact ⟨.badMemory, Stop.noConfusion, rfl⟩

theorem Layout.bitmap_eq {input rest : List UInt8}
    (counted : Layout.count input = some (size, rest)) : Layout.bitmap input =
      if size = noVal then some (none, rest)
      else match Layout.string rest with
        | some (str, rest) => some (some (size, str), rest)
        | none => none := by
  unfold Layout.bitmap
  rw [bind_some counted]
  split_ifs
  · rfl
  · cases strEq : Layout.string rest with
    | none => exact bind_none strEq
    | some taken =>
      rw [bind_some strEq]
      rfl

section Bitmap

variable {asserts : Bool} {slot : Slot (List Bool)} {later : List Block} {s : Unpacking}
  (owned : Owned (slot.block :: later) s) (outside : slot.block ∉ later)
  (notTmp : slot.block ≠ .tmpStr)

include owned

theorem unpackBitStrHex_cut (cut : Layout.bitmap s.input = none) :
    ∃ t, unpackBitStrHex asserts slot s = (.error .unpackError, t) ∧ Owned [] t := by
  unfold unpackBitStrHex
  rcases unpack32_cases s with ⟨-, error⟩ | ⟨size, rest, countEq, ok⟩
  · exact ⟨s, bind_error error, owned.forget⟩
  · rw [Layout.bitmap_eq countEq] at cut
    by_cases isNone : size = noVal
    · rw [if_pos isNone] at cut
      cases cut
    · rw [if_neg isNone] at cut
      rw [bind_ok ok, if_neg isNone]
      rcases unpackmemXmalloc_cases .tmpStr { s with input := rest } with
        ⟨-, input, error⟩ | ⟨str, after, part, -⟩
      · exact ⟨_, bind_error error, owned.forget⟩
      · rw [part] at cut
        cases cut

include outside notTmp

theorem unpackBitStrHex_taken {record : Option (UInt32 × List UInt8)} {rest : List UInt8}
    (taken : Layout.bitmap s.input = some (record, rest))
    (sound : ∀ size str, record = some (size, str) → SoundRecord asserts size str) :
    ∃ t, unpackBitStrHex asserts slot s = (.ok (), t) ∧ t.input = rest ∧ Owned later t := by
  obtain ⟨r, here, liveIff, -⟩ := id owned
  obtain ⟨before, resources, live⟩ := s
  cases here
  unfold unpackBitStrHex
  rcases unpack32_cases ⟨before, some r, live⟩ with ⟨countEq, -⟩ | ⟨size, input, countEq, ok⟩
  · have cut : Layout.bitmap before = none := Layout.bind_none countEq
    rw [cut] at taken
    cases taken
  rw [Layout.bitmap_eq countEq] at taken
  rw [bind_ok ok]
  by_cases isNone : size = noVal
  · rw [if_pos isNone] at taken
    cases taken
    rw [if_pos isNone]
    exact ⟨_, rfl, rfl, (owned.setNull rest).drop⟩
  rw [if_neg isNone] at taken
  rw [if_neg isNone]
  rcases unpackmemXmalloc_cases .tmpStr ⟨input, some r, live⟩ with
    ⟨cut, -⟩ | ⟨str, after, part, read⟩
  · rw [cut] at taken
    cases taken
  rw [part] at taken
  cases taken
  have isSound := sound size str rfl
  obtain ⟨bitmap, formatted⟩ := unfmtHexmask_sound isSound
  have notLarge : ¬(asserts = true ∧ maxBits < size.toNat) := fun both =>
    Nat.not_lt.mpr (isSound.2.2 both.1).2 both.2
  rcases read with ⟨empty, -⟩ | ⟨-, read⟩
  · rw [empty] at isSound
    exact absurd isSound.1 not_mem_nil
  have noTmp : .tmpStr ∉ live := by
    intro mem
    rcases (liveIff .tmpStr).mp mem with isRecord | isSet
    · cases isRecord
    · cases isSet
  have left : (insert slot.block (insert .tmpStr live)).erase .tmpStr = insert slot.block live := by
    rw [Finset.erase_insert_of_ne notTmp, Finset.erase_insert noTmp]
  have freed : xfree .tmpStr
      ⟨rest, some (slot.store (some bitmap) r), insert slot.block (insert .tmpStr live)⟩ =
      (.ok (), ⟨rest, some (slot.store (some bitmap) r), insert slot.block live⟩) := by
    unfold xfree
    rw [if_pos (Finset.mem_insert_of_mem (Finset.mem_insert_self _ _)), left]
  refine ⟨⟨rest, some (slot.store (some bitmap) r), insert slot.block live⟩, ?_, rfl,
    owned.allocate outside bitmap rest⟩
  refine (bind_ok read).trans ?_
  rw [if_neg notLarge]
  rw [formatted]
  exact (bind_ok rfl).trans freed

omit outside notTmp owned in
/-- A text that is refused, or a size above the limit, stops the step in front of the bitmap. -/
theorem storeBits_stops {size : UInt32} {tmpStr : Option (List UInt8)} (t : Unpacking)
    (faulty : ∃ how, how ≠ Stop.unpackError ∧
      unfmtHexmask asserts size.toNat tmpStr = .error how ∨ asserts = true ∧ maxBits < size.toNat) :
    ∃ how t', how ≠ Stop.unpackError ∧
      (if asserts = true ∧ maxBits < size.toNat then stop .abort
        else do
          xmalloc slot.block
          match unfmtHexmask asserts size.toNat tmpStr with
          | .error how => stop how
          | .ok bitmap => do
              setField (slot.store (some bitmap))
              xfree .tmpStr : UnpackM Unit) t = (.error how, t') := by
  obtain ⟨how, faulty⟩ := faulty
  split_ifs with large
  · exact ⟨.abort, t, Stop.noConfusion, rfl⟩
  · rcases faulty with ⟨notError, faulty⟩ | large'
    · refine ⟨how, { t with live := insert slot.block t.live }, notError, (bind_ok rfl).trans ?_⟩
      rw [faulty]
      rfl
    · exact absurd large' large

omit outside notTmp owned in
theorem unpackBitStrHex_unsound {size : UInt32} {str rest : List UInt8}
    (taken : Layout.bitmap s.input = some (some (size, str), rest))
    (unsound : ¬SoundRecord asserts size str) :
    ∃ how t, how ≠ Stop.unpackError ∧ unpackBitStrHex asserts slot s = (.error how, t) := by
  unfold unpackBitStrHex
  rcases unpack32_cases s with ⟨countEq, -⟩ | ⟨found, input, countEq, ok⟩
  · have cut : Layout.bitmap s.input = none := Layout.bind_none countEq
    rw [cut] at taken
    cases taken
  rw [Layout.bitmap_eq countEq] at taken
  rw [bind_ok ok]
  by_cases isNone : found = noVal
  · rw [if_pos isNone] at taken
    cases taken
  rw [if_neg isNone] at taken
  rw [if_neg isNone]
  rcases unpackmemXmalloc_cases .tmpStr { s with input := input } with
    ⟨cut, -⟩ | ⟨found, after, part, read⟩
  · rw [cut] at taken
    cases taken
  rw [part] at taken
  cases taken
  have faulty : ∀ tmpStr, (tmpStr = none ∨ tmpStr = some str) → ∃ how, how ≠ Stop.unpackError ∧
      unfmtHexmask asserts size.toNat tmpStr = .error how ∨
      asserts = true ∧ maxBits < size.toNat := by
    intro tmpStr which
    by_cases large : asserts = true ∧ maxBits < size.toNat
    · exact ⟨.abort, Or.inr large⟩
    · rcases which with rfl | rfl
      · exact ⟨.badMemory, Or.inl ⟨Stop.noConfusion, rfl⟩⟩
      · obtain ⟨how, notError, error⟩ := unfmtHexmask_unsound large unsound
        exact ⟨how, Or.inl ⟨notError, error⟩⟩
  rcases read with ⟨-, read⟩ | ⟨-, read⟩
  · rw [bind_ok read]
    exact storeBits_stops _ (faulty none (Or.inl rfl))
  · rw [bind_ok read]
    exact storeBits_stops _ (faulty (some str) (Or.inr rfl))

end Bitmap

/-! ## All fields -/

variable {unpackMemory : UnpackM UInt64} {s : Unpacking}

theorem unpackArrays_follows {memoryWidth : Nat} (words : Words unpackMemory memoryWidth)
    (nhosts : UInt32) :
    Follows [.nodes, .cpuArrayReps, .cpuArrayValue, .cpus, .cpusUsed, .memoryAllocated, .memoryUsed,
        .socketsPerNode, .coresPerSocket, .sockCoreRepCount, .coreBitmap, .coreBitmapUsed]
      [.coreBitmap, .coreBitmapUsed] (unpackArrays unpackMemory nhosts)
      (Layout.arrays memoryWidth nhosts) id := by
  have words8 : Words unpack8 1 := Words.word 1 _
  have words16 : Words unpack16 2 := Words.word 2 _
  have words32 : Words unpack32 4 := Words.word 4 _
  refine Follows.fill (fun ncpus r => { r with ncpus := ncpus }) _ _ (words32.follows _)
    (fun _ _ block => by cases block <;> rfl) fun _ => ?_
  refine Follows.fill (fun nodeReq r => { r with nodeReq := nodeReq }) _ _ (words32.follows _)
    (fun _ _ block => by cases block <;> rfl) fun _ => ?_
  refine Follows.bind _ _ (unpackNodes_follows (by decide)) fun _ => ?_
  refine Follows.fill (fun wholeNode r => { r with wholeNode := wholeNode }) _ _ (words8.follows _)
    (fun _ _ block => by cases block <;> rfl) fun _ => ?_
  refine Follows.fill (fun cnt r => { r with cpuArrayCnt := cnt }) _ _
    (@Words.field _ _ _ words32 .cpuArrayReps _ (by decide))
    (fun _ _ block => by cases block <;> rfl) fun cnt => ?_
  refine Follows.bind _ _ (@Words.field _ _ _ words16 .cpuArrayValue _ (by decide)) fun tmp32 => ?_
  simp only [id_eq]
  by_cases sameCnt : tmp32 ≠ cnt
  · rw [if_pos sameCnt, if_pos sameCnt]
    exact Follows.stopped
  rw [if_neg sameCnt, if_neg sameCnt]
  refine Follows.bind _ _ (@Words.field _ _ _ words16 .cpus _ (by decide)) fun tmp32 => ?_
  simp only [id_eq]
  by_cases sameHosts : tmp32 ≠ nhosts
  · rw [if_pos sameHosts, if_pos sameHosts]
    exact Follows.stopped
  rw [if_neg sameHosts, if_neg sameHosts]
  refine Follows.bind _ _ (@Words.field _ _ _ words16 .cpusUsed _ (by decide)) fun _ => ?_
  refine Follows.bind _ _ (@Words.field _ _ _ words .memoryAllocated _ (by decide)) fun _ => ?_
  refine Follows.bind _ _ (@Words.field _ _ _ words .memoryUsed _ (by decide)) fun _ => ?_
  refine Follows.bind _ _ (@Words.field _ _ _ words16 .socketsPerNode _ (by decide)) fun _ => ?_
  refine Follows.bind _ _ (@Words.field _ _ _ words16 .coresPerSocket _ (by decide)) fun _ => ?_
  refine Follows.bind _ _ (@Words.field _ _ _ words32 .sockCoreRepCount _ (by decide)) fun _ => ?_
  exact Follows.done () id

/-! ## Freeing -/

theorem freeBlocks_run (r : JobResources) {blocks : List Block} (distinct : blocks.Nodup)
    (s : Unpacking) (allocated : ∀ block ∈ blocks, r.isSet block = true → block ∈ s.live) :
    ∃ t, freeBlocks r blocks s = (.ok (), t) ∧
      ∀ block, block ∈ t.live ↔ block ∈ s.live ∧ ¬(block ∈ blocks ∧ r.isSet block = true) := by
  induction blocks generalizing s with
  | nil => exact ⟨s, rfl, fun block => by simp⟩
  | cons head tail ih =>
    obtain ⟨notTail, tailDistinct⟩ := nodup_cons.mp distinct
    rw [freeBlocks]
    by_cases isSet : r.isSet head = true
    · have freed : xfree head s = (.ok (), { s with live := s.live.erase head }) :=
        if_pos (allocated head mem_cons_self isSet)
      obtain ⟨t, done, live⟩ := ih tailDistinct { s with live := s.live.erase head }
        fun block mem set => Finset.mem_erase.mpr ⟨fun same => notTail (same ▸ mem),
          allocated block (mem_cons_of_mem _ mem) set⟩
      refine ⟨t, ?_, ?_⟩
      · rw [if_pos isSet, bind_ok freed]
        exact done
      · intro block
        rw [live block, Finset.mem_erase, mem_cons]
        by_cases same : block = head
        · simp [same, isSet]
        · simp [same]
    · obtain ⟨t, done, live⟩ := ih tailDistinct s fun block mem set =>
        allocated block (mem_cons_of_mem _ mem) set
      refine ⟨t, ?_, ?_⟩
      · rw [if_neg isSet]
        exact (bind_ok rfl).trans done
      · intro block
        rw [live block, mem_cons]
        by_cases same : block = head
        · simp [same, isSet]
        · simp [same]

theorem freeJobResources_run (owned : Owned [] s) :
    ∃ t, freeJobResources s = (.ok (), t) ∧ t.live = ∅ := by
  obtain ⟨r, here, liveIff, -⟩ := owned
  obtain ⟨t, freed, live⟩ := freeBlocks_run r (by decide : freeOrder.Nodup) s
    fun block _ set => (liveIff block).mpr (Or.inr set)
  have all : ∀ block, r.isSet block = true → block ∈ freeOrder := by
    intro block set
    cases block with
    | jobResrcs => cases set
    | tmpStr => cases set
    | _ => decide
  have onlyRecord : ∀ block, block ∈ t.live ↔ block = .jobResrcs := by
    intro block
    rw [live block, liveIff block]
    constructor
    · rintro ⟨isRecord | set, kept⟩
      · exact isRecord
      · exact absurd ⟨all block set, set⟩ kept
    · rintro rfl
      exact ⟨Or.inl rfl, fun both => nomatch both.2⟩
  have last : xfree .jobResrcs t = (.ok (), { t with live := t.live.erase .jobResrcs }) :=
    if_pos ((onlyRecord .jobResrcs).mpr rfl)
  refine ⟨{ t with live := t.live.erase .jobResrcs }, ?_, ?_⟩
  · unfold freeJobResources
    rw [here]
    exact (bind_ok freed).trans last
  · refine Finset.eq_empty_of_forall_notMem fun block mem => ?_
    obtain ⟨ne, kept⟩ := Finset.mem_erase.mp mem
    exact ne ((onlyRecord block).mp kept)

/-! ## Any buffer -/

/-- The bitmap record at this place, if it is whole, is sound. -/
def SoundAt (asserts : Bool) (input : List UInt8) : Prop :=
  ∀ size str rest, Layout.bitmap input = some (some (size, str), rest) → SoundRecord asserts size str

/-- Both bitmap records from this place on are sound. -/
def SoundBitmaps (asserts : Bool) (input : List UInt8) : Prop :=
  SoundAt asserts input ∧
    ∀ record rest, Layout.bitmap input = some (record, rest) → SoundAt asserts rest

theorem exists_unsound {asserts : Bool} {input : List UInt8} (unsound : ¬SoundAt asserts input) :
    ∃ size str rest, Layout.bitmap input = some (some (size, str), rest) ∧
      ¬SoundRecord asserts size str := by
  by_contra none
  exact unsound fun size str rest taken => by_contra fun bad => none ⟨size, str, rest, taken, bad⟩

/-- How a step ends that may go wrong only if a condition fails. -/
def Ends {α : Type} (condition : Prop) (result : Except Stop α × Unpacking) : Prop :=
  (condition ∧ ((∃ value, result.1 = .ok value) ∨ result.1 = .error .unpackError ∧ Owned [] result.2)) ∨
    (¬condition ∧ ∃ how, how ≠ Stop.unpackError ∧ result.1 = .error how)

theorem unpackBitStrHex_ends (asserts : Bool) {slot : Slot (List Bool)}
    (owned : Owned [slot.block] s) (notTmp : slot.block ≠ .tmpStr) :
    Ends (SoundAt asserts s.input) (unpackBitStrHex asserts slot s) := by
  by_cases sound : SoundAt asserts s.input
  · refine Or.inl ⟨sound, ?_⟩
    cases taken : Layout.bitmap s.input with
    | none =>
      obtain ⟨t, error, ownedAfter⟩ := @unpackBitStrHex_cut asserts slot [] s owned taken
      rw [error]
      exact Or.inr ⟨rfl, ownedAfter⟩
    | some part =>
      obtain ⟨record, rest⟩ := part
      obtain ⟨t, ok, -⟩ := unpackBitStrHex_taken owned not_mem_nil notTmp taken
        fun size str isRecord => sound size str rest (isRecord ▸ taken)
      rw [ok]
      exact Or.inl ⟨(), rfl⟩
  · obtain ⟨size, str, rest, taken, unsound⟩ := exists_unsound sound
    obtain ⟨how, t, notError, error⟩ := @unpackBitStrHex_unsound asserts slot s size str rest taken
      unsound
    refine Or.inr ⟨sound, how, notError, ?_⟩
    rw [error]

theorem unpackBitmaps_ends (asserts : Bool) (owned : Owned [.coreBitmap, .coreBitmapUsed] s) :
    Ends (SoundBitmaps asserts s.input) ((do
      unpackBitStrHex asserts .coreBitmap
      unpackBitStrHex asserts .coreBitmapUsed : UnpackM Unit) s) := by
  by_cases sound : SoundAt asserts s.input
  · cases taken : Layout.bitmap s.input with
    | none =>
      obtain ⟨t, error, ownedAfter⟩ :=
        @unpackBitStrHex_cut asserts .coreBitmap [.coreBitmapUsed] s owned taken
      refine Or.inl ⟨⟨sound, fun record rest absent => ?_⟩, ?_⟩
      · rw [taken] at absent
        cases absent
      · rw [bind_error error]
        exact Or.inr ⟨rfl, ownedAfter⟩
    | some part =>
      obtain ⟨record, rest⟩ := part
      obtain ⟨t, ok, rfl, ownedAfter⟩ := @unpackBitStrHex_taken asserts .coreBitmap
        [.coreBitmapUsed] s owned (by decide) Block.noConfusion record rest taken
        fun size str isRecord => sound size str rest (isRecord ▸ taken)
      rw [bind_ok ok]
      have iff : SoundBitmaps asserts s.input ↔ SoundAt asserts t.input := by
        refine ⟨fun both => both.2 record t.input taken, fun last => ⟨sound, ?_⟩⟩
        intro other otherRest same
        rw [taken] at same
        cases same
        exact last
      rw [iff]
      exact unpackBitStrHex_ends asserts ownedAfter Block.noConfusion
  · obtain ⟨size, str, rest, taken, unsound⟩ := exists_unsound sound
    obtain ⟨how, t, notError, error⟩ := @unpackBitStrHex_unsound asserts .coreBitmap s size str rest
      taken unsound
    refine Or.inr ⟨fun both => sound both.1, how, notError, ?_⟩
    rw [bind_error error]

/-- The condition on the bytes after the first field. -/
def SoundFields (asserts : Bool) (memoryWidth : Nat) (nhosts : UInt32) (input : List UInt8) : Prop :=
  ∀ rest, Layout.arrays memoryWidth nhosts input = some ((), rest) → SoundBitmaps asserts rest

theorem unpackFields_ends (asserts : Bool) {memoryWidth : Nat}
    (words : Words unpackMemory memoryWidth) (nhosts : UInt32) (input : List UInt8) :
    Ends (SoundFields asserts memoryWidth nhosts input) (unpackFields asserts unpackMemory nhosts
      ⟨input, some (JobResources.blank nhosts), {.jobResrcs}⟩) := by
  have owned : Owned [.nodes, .cpuArrayReps, .cpuArrayValue, .cpus, .cpusUsed, .memoryAllocated,
      .memoryUsed, .socketsPerNode, .coresPerSocket, .sockCoreRepCount, .coreBitmap, .coreBitmapUsed]
      ⟨input, some (JobResources.blank nhosts), {.jobResrcs}⟩ := by
    refine ⟨_, rfl, ?_, ?_⟩
    · intro block
      cases block <;> simp [JobResources.blank, JobResources.isSet]
    · intro block _
      cases block <;> rfl
  have arrays := unpackArrays_follows words nhosts _ owned
  unfold unpackFields
  cases taken : Layout.arrays memoryWidth nhosts input with
  | none =>
    simp only [taken] at arrays
    obtain ⟨t, error, ownedAfter⟩ := arrays
    rw [bind_error error]
    refine Or.inl ⟨fun rest absent => ?_, Or.inr ⟨rfl, ownedAfter⟩⟩
    rw [taken] at absent
    cases absent
  | some part =>
    obtain ⟨⟨⟩, rest⟩ := part
    simp only [taken] at arrays
    obtain ⟨⟨⟩, t, ok, -, rfl, ownedAfter⟩ := arrays
    rw [bind_ok ok]
    have iff : SoundFields asserts memoryWidth nhosts input ↔ SoundBitmaps asserts t.input := by
      refine ⟨fun all => all t.input taken, fun sound other same => ?_⟩
      rw [taken] at same
      cases same
      exact sound
    rw [iff]
    exact unpackBitmaps_ends asserts ownedAfter

/-- Success, or `SLURM_ERROR` with no structure and nothing left allocated. -/
def Outcome.WellBehaved : Outcome → Prop
  | .success _ _ => True
  | .error jobResrcs live => jobResrcs = none ∧ live = ∅
  | .abort => False
  | .badMemory => False

/-- One version of unpacking is well behaved exactly where the first field is
whole and the bitmap records it reaches are sound. -/
theorem unpackVersion_wellBehaved_iff (asserts : Bool) {memoryWidth : Nat}
    (words : Words unpackMemory memoryWidth) (input : List UInt8) :
    (leave (unpackVersion asserts unpackMemory ⟨input, none, ∅⟩)).WellBehaved ↔
      ∃ nhosts rest, Layout.count input = some (nhosts, rest) ∧
        (nhosts ≠ noVal → SoundFields asserts memoryWidth nhosts rest) := by
  unfold unpackVersion
  rcases unpack32_cases ⟨input, none, ∅⟩ with ⟨cut, error⟩ | ⟨nhosts, rest, counted, ok⟩
  · rw [bind_error error]
    refine ⟨fun impossible => impossible.elim, ?_⟩
    rintro ⟨nhosts, rest, counted, -⟩
    rw [show Layout.count input = none from cut] at counted
    cases counted
  have iff : (∃ nhosts rest, Layout.count input = some (nhosts, rest) ∧
      (nhosts ≠ noVal → SoundFields asserts memoryWidth nhosts rest)) ↔
      (nhosts ≠ noVal → SoundFields asserts memoryWidth nhosts rest) := by
    constructor
    · rintro ⟨other, otherRest, same, sound⟩
      rw [show Layout.count input = some (nhosts, rest) from counted] at same
      cases same
      exact sound
    · exact fun sound => ⟨nhosts, rest, counted, sound⟩
  rw [bind_ok ok, iff]
  by_cases empty : nhosts = noVal
  · rw [if_pos empty]
    exact ⟨fun _ present => absurd empty present, fun _ => trivial⟩
  rw [if_neg empty]
  have created : newJobResources nhosts ⟨rest, none, ∅⟩ =
      (.ok (), ⟨rest, some (JobResources.blank nhosts), {.jobResrcs}⟩) := rfl
  rw [bind_ok created]
  have ends := unpackFields_ends asserts words nhosts rest
  cases result : unpackFields asserts unpackMemory nhosts
      ⟨rest, some (JobResources.blank nhosts), {.jobResrcs}⟩ with
  | mk returned t =>
    rw [result] at ends
    rcases ends with ⟨sound, ⟨value, ok⟩ | ⟨error, owned⟩⟩ | ⟨unsound, how, notError, error⟩
    · subst ok
      rw [bind_ok result]
      exact ⟨fun _ _ => sound, fun _ => trivial⟩
    · subst error
      obtain ⟨last, freed, live⟩ := freeJobResources_run owned
      rw [bind_error result]
      simp only [leave, freed]
      exact ⟨fun _ _ => sound, fun _ => ⟨rfl, live⟩⟩
    · subst error
      rw [bind_error result]
      refine ⟨fun behaved => ?_, fun sound => absurd (sound empty) unsound⟩
      cases how with
      | unpackError => exact absurd rfl notError
      | abort => exact behaved.elim
      | badMemory => exact behaved.elim

/-! ## The codec -/

/-- The bytes of a memory size in a protocol version. -/
def memoryBytes (protocolVersion : UInt16) : Nat :=
  if slurm1702ProtocolVersion ≤ protocolVersion then 8 else 4

/-- The version is supported, the first field is whole, and the bitmap records
that the layout leads to are sound. -/
def Sane (asserts : Bool) (protocolVersion : UInt16) (input : List UInt8) : Prop :=
  slurmMinProtocolVersion ≤ protocolVersion ∧ ∃ nhosts rest,
    Layout.count input = some (nhosts, rest) ∧
    (nhosts ≠ noVal → SoundFields asserts (memoryBytes protocolVersion) nhosts rest)

theorem unpackJobResources_wellBehaved_iff (asserts : Bool) (protocolVersion : UInt16)
    (input : List UInt8) : (unpackJobResources asserts protocolVersion input).WellBehaved ↔
      Sane asserts protocolVersion input := by
  have words32 : Words unpack32 4 := Words.word 4 _
  have words64 : Words unpack64 8 := Words.word 8 _
  unfold unpackJobResources Sane memoryBytes
  by_cases newer : slurm1702ProtocolVersion ≤ protocolVersion
  · have supported : slurmMinProtocolVersion ≤ protocolVersion :=
      UInt16.le_trans (by decide) newer
    rw [if_pos newer, if_pos newer, unpackVersion_wellBehaved_iff asserts words64 input]
    exact (and_iff_right supported).symm
  rw [if_neg newer, if_neg newer]
  by_cases supported : slurmMinProtocolVersion ≤ protocolVersion
  · rw [if_pos supported, unpackVersion_wellBehaved_iff asserts (words32.map _) input]
    exact (and_iff_right supported).symm
  · rw [if_neg supported]
    exact ⟨fun impossible => impossible.elim, fun sane => absurd sane.1 supported⟩

/-- Packing and unpacking return the structure wherever its encoding fits into the
buffer; unpacking is well behaved exactly on the buffers that are sane. -/
theorem jobResources_codec (asserts : Bool) (protocolVersion : UInt16) :
    (slurmMinProtocolVersion ≤ protocolVersion → ∀ r : Option JobResources,
      (∀ resources ∈ r, resources.WellFormed) → ∀ buffer : Buf,
      HasRoom (encodeJobResources protocolVersion r).length buffer → ∀ rest : List UInt8,
      ∃ bytes, (packJobResources protocolVersion r buffer).data = buffer.data ++ bytes ∧
        unpackJobResources asserts protocolVersion (bytes ++ rest) =
          .success (r.map (·.described (memoryWidth protocolVersion))) rest) ∧
    ∀ input : List UInt8, (unpackJobResources asserts protocolVersion input).WellBehaved ↔
      Sane asserts protocolVersion input := by
  refine ⟨?_, unpackJobResources_wellBehaved_iff asserts protocolVersion⟩
  intro supported r wf buffer room rest
  refine ⟨encodeJobResources protocolVersion r, ?_, ?_⟩
  · exact (packJobResources_packs supported wf 0 buffer room).1
  · exact unpackJobResources_encoded supported wf asserts rest

/-- Two hosts with five cores between them. -/
def twoHosts : JobResources :=
  ⟨some [true, false, true, true, false], some [false, false, false, false, true], 1, some [4], some [2],
    some [4, 4], none, some [2, 0], some [0x100000200, 512], none, 2, 1, some [110, 49], 8,
    some [2, 0], some [1, 0], 1⟩

theorem twoHosts_wellFormed : twoHosts.WellFormed where
  nhosts := by decide
  nodes := by decide
  cpuArrayReps := by decide
  cpuArrayValue := by decide
  cpuArrayCnt := by decide
  cpus := by decide
  cpusUsed := by decide
  memoryAllocated := by decide
  memoryUsed := by decide
  sockets := ⟨[1, 0], [2, 0], [2, 0], rfl, rfl, rfl, 1, by decide⟩
  coreBitmap := ⟨[true, false, true, true, false], rfl, by decide⟩
  coreBitmapUsed := ⟨[false, false, false, false, true], rfl, by decide⟩

/-- In the older version the memory of the first host loses its upper half. -/
theorem jobResources_codec_two_hosts :
    ∃ bytes, (packJobResources slurmMinProtocolVersion (some twoHosts) ⟨bufSize, []⟩).data = [] ++ bytes ∧
      unpackJobResources true slurmMinProtocolVersion (bytes ++ []) = .success (some { twoHosts with
          coresPerSocket := some [2]
          memoryAllocated := some [0x200, 512]
          sockCoreRepCount := some [2]
          socketsPerNode := some [1] }) [] := by
  refine (jobResources_codec true slurmMinProtocolVersion).1 (by decide) (some twoHosts) ?_
    ⟨bufSize, []⟩ ⟨by decide, by decide, by decide⟩ []
  rintro resources ⟨⟩
  exact twoHosts_wellFormed

/-- A buffer that ends before the first field. -/
theorem jobResources_codec_truncated :
    ¬∀ (asserts : Bool) (protocolVersion : UInt16), slurmMinProtocolVersion ≤ protocolVersion →
      ∀ input : List UInt8, (unpackJobResources asserts protocolVersion input).WellBehaved := by
  intro always
  exact always false slurm1702ProtocolVersion (by decide) []

end SlurmSim.Common.Codec
