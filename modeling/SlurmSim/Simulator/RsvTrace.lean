import SlurmSim.Common.BitFmt
import SlurmSim.Lib.CText

/-!
# The trace of reservations

The simulation manager reads a file of times and commands, a line for each reservation.  It
reads every time into one buffer and every command into one allocated storage, to which all
records point.
-/

namespace SlurmSim.Simulator

open SlurmSim.Lib.CText SlurmSim.Lib.Numerals SlurmSim.Common.Bitmap List

/-- `atoi`: the result of `strtol` as an `int`. -/
def atoi32 (text : List Char) : Int := toInt32 (strtol text).1

/-- `rsv_trace_t`; the command is the address of a storage. -/
structure RsvTrace where
  creationTime : Int
  rsvCommand : Nat

/-- `buff`, the allocated storages by address, and the list of records. -/
structure RsvReader where
  buff : List Char
  storages : List (List Char)
  records : List RsvTrace

/-- The loop that reads a time, to the `=` or the end of the file: the buffer, the number of
characters and the rest of the file; `none` for a write behind the buffer. -/
def readTime : List Char → List Char → Nat → Option (List Char × Nat × List Char)
  | [], buff, count => some (buff, count, [])
  | newChar :: file, buff, count =>
    if newChar = '=' then some (buff, count, file)
    else if count < buff.length then readTime file (buff.set count newChar) (count + 1)
    else none

/-- The loop that reads a command, to the end of the line or the file. -/
def readCommand : List Char → List Char → Nat → Option (List Char × List Char)
  | [], command, _ => some (command, [])
  | newChar :: file, command, count =>
    if count < command.length then
      let command := command.set count newChar
      if newChar = '\n' then some (command.set count nul, file)
      else readCommand file command (count + 1)
    else none

/-- `init_trace_info` with a reservation: a copy of the record is put at the end of the list. -/
def initTraceInfo (records : List RsvTrace) (newRsv : RsvTrace) : List RsvTrace :=
  records ++ [newRsv]

/-- The loop over the lines, as long as there are not more than 10 records. -/
def rsvLoop : Nat → List Char → RsvReader → Option RsvReader
  | 0, _, reader => some reader
  | more + 1, file, reader =>
    match readTime file reader.buff 0 with
    | none => none
    | some (buff, count, rest) =>
      if count = 0 then some { reader with buff := buff }
      else
        match readCommand rest (reader.storages.getD 0 []) 0 with
        | none => none
        | some (command, rest) =>
          rsvLoop more rest ⟨buff, reader.storages.set 0 command,
            initTraceInfo reader.records ⟨atoi32 (cString buff), 0⟩⟩

/-- `init_rsv_trace`: both buffers are cleared once. -/
def initRsvTrace (file : List Char) : Option RsvReader :=
  rsvLoop 11 file ⟨List.replicate 20 nul, [List.replicate 100 nul], []⟩

/-! ## The lines of a file -/

/-- A line: a time of digits, and a command. -/
structure RsvLine where
  time : List Char
  command : List Char
  nonempty : time ≠ []
  digits : ∀ c ∈ time, '0' ≤ c ∧ c ≤ '9'
  shortTime : time.length ≤ 19
  shortCommand : command.length ≤ 98
  plain : ∀ c ∈ command, c ≠ '\n' ∧ c ≠ nul

namespace RsvLine

def text (line : RsvLine) : List Char := line.time ++ '=' :: (line.command ++ ['\n'])

/-- The time that the line gives. -/
def number (line : RsvLine) : Nat := readOn 10 0 (line.time.map fun c => c.toNat - 48)

end RsvLine

def rsvFile (lines : List RsvLine) : List Char := lines.flatMap RsvLine.text

/-- A file of at most eleven lines. -/
structure RsvFile where
  lines : List RsvLine
  few : lines.length ≤ 11

/-- The time and the command of each record. -/
def RsvReader.contents (reader : RsvReader) : List (Int × List Char) :=
  reader.records.map fun record =>
    (record.creationTime, cString (reader.storages.getD record.rsvCommand []))

/-- The records have the times and the commands of the lines, in their order. -/
def RecordsRight (file : RsvFile) : Prop :=
  ∃ reader, initRsvTrace (rsvFile file.lines) = some reader ∧
    reader.contents = file.lines.map fun line => ((line.number : Int), line.command)

/-- A time over an earlier text: what the earlier text has behind it stays. -/
def laid (line : RsvLine) (text : List Char) : List Char :=
  line.time ++ text.drop line.time.length

/-- The text of the buffer behind the times of lines. -/
def bufferText (lines : List RsvLine) : List Char :=
  lines.foldl (fun text line => laid line text) []

/-- Every time is read as its own number, with what is left of longer times in front of it. -/
def TimesRight (lines : List RsvLine) : Prop :=
  ∀ front line back, lines = front ++ line :: back →
    atoi32 (laid line (bufferText front)) = line.number

/-- All lines have the command of the last one. -/
def OneCommand (lines : List RsvLine) : Prop :=
  ∀ line ∈ lines, ∀ last ∈ lines.getLast?, line.command = last.command

/-! ## One line -/

theorem readTime_line {time : List Char} (digits : ∀ c ∈ time, '0' ≤ c ∧ c ≤ '9')
    (front tail file : List Char) (fits : time.length ≤ tail.length) :
    readTime (time ++ '=' :: file) (front ++ tail) front.length =
      some (front ++ time ++ tail.drop time.length, front.length + time.length, file) := by
  induction time generalizing front tail with
  | nil => simp [readTime]
  | cons c time ih =>
    obtain ⟨⟨_, le⟩, digitsRest⟩ := forall_mem_cons.mp digits
    have notEnd : c ≠ '=' := by
      rintro rfl
      exact absurd le (by decide)
    cases tail with
    | nil => simp at fits
    | cons old tail =>
      have mem : front.length < (front ++ old :: tail).length := by simp
      have step := ih digitsRest (front ++ [c]) tail (Nat.succ_le_succ_iff.mp fits)
      rw [cons_append, readTime, if_neg notEnd, if_pos mem,
        set_append_right _ _ le_rfl, Nat.sub_self, set_cons_zero]
      rw [length_append, length_singleton, append_assoc] at step
      rw [show front ++ c :: tail = front ++ ([c] ++ tail) from rfl, step]
      simp [Nat.add_assoc, Nat.add_comm 1]

theorem readCommand_line {command : List Char} (plain : ∀ c ∈ command, c ≠ '\n')
    (front tail file : List Char) (fits : command.length < tail.length) :
    readCommand (command ++ '\n' :: file) (front ++ tail) front.length =
      some (front ++ command ++ nul :: tail.drop (command.length + 1), file) := by
  induction command generalizing front tail with
  | nil =>
    obtain ⟨old, tail, rfl⟩ := exists_cons_of_length_pos fits
    have mem : front.length < (front ++ old :: tail).length := by simp
    rw [nil_append, readCommand, if_pos mem]
    simp
  | cons c command ih =>
    obtain ⟨notEnd, plainRest⟩ := forall_mem_cons.mp plain
    cases tail with
    | nil => simp at fits
    | cons old tail =>
      have mem : front.length < (front ++ old :: tail).length := by simp
      have step := ih plainRest (front ++ [c]) tail (Nat.succ_lt_succ_iff.mp fits)
      rw [cons_append, readCommand, if_pos mem]
      rw [if_neg notEnd, set_append_right _ _ le_rfl, Nat.sub_self, set_cons_zero]
      rw [length_append, length_singleton, append_assoc] at step
      rw [show front ++ c :: tail = front ++ ([c] ++ tail) from rfl, step]
      simp

/-- The buffer holds a text, and nothing behind it. -/
def Holds (buff text : List Char) : Prop :=
  buff = text ++ List.replicate (20 - text.length) nul ∧ text.length ≤ 19 ∧ nul ∉ text

theorem Holds.cString {buff text : List Char} (holds : Holds buff text) : cString buff = text := by
  obtain ⟨isBuff, short, plain⟩ := holds
  have more : 20 - text.length = (19 - text.length) + 1 := by omega
  refine cString_of_prefix ⟨List.replicate (19 - text.length) nul, ?_⟩ plain
  rw [isBuff, more, replicate_succ, append_assoc, singleton_append]

theorem nul_not_mem_time (line : RsvLine) : nul ∉ line.time := fun mem =>
  absurd (line.digits nul mem).1 (by decide)

theorem Holds.laid {buff text : List Char} (holds : Holds buff text) (line : RsvLine) :
    Holds (line.time ++ buff.drop line.time.length) (laid line text) := by
  obtain ⟨rfl, short, plain⟩ := holds
  have shortTime := line.shortTime
  refine ⟨?_, ?_, fun mem => ?_⟩
  · rw [Simulator.laid, drop_append, append_assoc, length_append, length_drop, drop_replicate]
    congr 3
    omega
  · rw [Simulator.laid, length_append, length_drop]
    omega
  · rcases mem_append.mp mem with front | back
    · exact nul_not_mem_time line front
    · exact plain ((drop_sublist _ _).subset back)

/-- A storage of 100 characters that holds a command. -/
def Stores (storage command : List Char) : Prop :=
  storage.length = 100 ∧ cString storage = command

theorem stores_line (line : RsvLine) (storage : List Char) (length : storage.length = 100) :
    Stores (line.command ++ nul :: storage.drop (line.command.length + 1)) line.command := by
  have short := line.shortCommand
  refine ⟨?_, ?_⟩
  · rw [length_append, length_cons, length_drop]
    omega
  · refine cString_of_prefix ⟨storage.drop (line.command.length + 1), ?_⟩
      fun mem => (line.plain nul mem).2 rfl
    rw [append_assoc, singleton_append]

/-! ## All lines -/

/-- The times that are read from lines, behind a text in the buffer. -/
def timesRead : List Char → List RsvLine → List Int
  | _, [] => []
  | text, line :: rest => atoi32 (laid line text) :: timesRead (laid line text) rest

theorem rsvLoop_line {more : Nat} {line : RsvLine} {file text storage : List Char}
    {reader : RsvReader} (holds : Holds reader.buff text) (length : storage.length = 100)
    (isStorage : reader.storages = [storage]) :
    rsvLoop (more + 1) (line.text ++ file) reader =
      rsvLoop more file ⟨line.time ++ reader.buff.drop line.time.length,
        [line.command ++ nul :: storage.drop (line.command.length + 1)],
        reader.records ++ [⟨atoi32 (laid line text), 0⟩]⟩ := by
  have shortTime := line.shortTime
  have shortCommand := line.shortCommand
  have bufferLength : reader.buff.length = 20 := by
    obtain ⟨isBuff, short, _⟩ := holds
    rw [isBuff, length_append, length_replicate]
    omega
  have isText : line.text ++ file = line.time ++ '=' :: (line.command ++ '\n' :: file) := by
    rw [RsvLine.text, append_assoc, cons_append, append_assoc]
    rfl
  have time := readTime_line line.digits [] reader.buff (line.command ++ '\n' :: file) (by omega)
  have command :=
    readCommand_line (fun c mem => (line.plain c mem).1) [] storage file (by omega)
  rw [nil_append, length_nil] at time command
  have count : 0 + line.time.length ≠ 0 := by
    rw [Nat.zero_add]
    exact (length_pos_iff.mpr line.nonempty).ne'
  rw [isText, rsvLoop, time]
  dsimp only
  rw [if_neg count, isStorage, getD_cons_zero, command]
  dsimp only
  rw [set_cons_zero, nil_append, nil_append, (holds.laid line).cString, initTraceInfo]

theorem rsvLoop_nil (more : Nat) (reader : RsvReader) : rsvLoop more [] reader = some reader := by
  cases more with
  | zero => rfl
  | succ more => rfl

/-- The run: the records get the times that are read, and the storage has the last command. -/
theorem rsvLoop_lines (lines : List RsvLine) {more : Nat} (enough : lines.length ≤ more)
    (reader : RsvReader) {text storage : List Char} (holds : Holds reader.buff text)
    (length : storage.length = 100) (isStorage : reader.storages = [storage]) :
    ∃ after last, rsvLoop more (rsvFile lines) reader = some after ∧
      after.records = reader.records ++ (timesRead text lines).map (fun time => ⟨time, 0⟩) ∧
      after.storages = [last] ∧
      cString last = (lines.getLast?.map RsvLine.command).getD (cString storage) := by
  induction lines generalizing more text storage reader with
  | nil => exact ⟨reader, storage, rsvLoop_nil more reader, by simp [timesRead], isStorage, rfl⟩
  | cons line rest ih =>
    obtain ⟨more, rfl⟩ := Nat.exists_eq_succ_of_ne_zero (Nat.ne_of_gt (Nat.zero_lt_of_lt enough))
    obtain ⟨stored, isCommand⟩ := stores_line line storage length
    obtain ⟨after, last, ends, isRecords, isLast, command⟩ :=
      ih (Nat.le_of_succ_le_succ enough) ⟨_, _, _⟩ (holds.laid line) stored rfl
    refine ⟨after, last, ?_, ?_, isLast, ?_⟩
    · rw [rsvFile, flatMap_cons, ← rsvFile, rsvLoop_line holds length isStorage]
      exact ends
    · rw [isRecords]
      simp [timesRead]
    · rw [command, isCommand]
      cases rest with
      | nil => rfl
      | cons next rest =>
        rw [getLast?_cons_cons]
        cases isEnd : (next :: rest).getLast? with
        | none => simp at isEnd
        | some _ => rfl

theorem map_pair_eq_iff {α β γ : Type} (f : α → β) (g : α → γ) (shared : γ) (values : List β)
    (lines : List α) : values.map (fun value => (value, shared)) = lines.map (fun l => (f l, g l)) ↔
      values = lines.map f ∧ ∀ l ∈ lines, g l = shared := by
  induction lines generalizing values with
  | nil => simp
  | cons line lines ih =>
    cases values with
    | nil => simp
    | cons value values =>
      rw [map_cons, map_cons, map_cons, List.cons.injEq, List.cons.injEq, ih,
        Prod.mk.injEq, forall_mem_cons]
      constructor
      · rintro ⟨⟨first, same⟩, rest, others⟩
        exact ⟨⟨first, rest⟩, same.symm, others⟩
      · rintro ⟨⟨first, rest⟩, same, others⟩
        exact ⟨⟨first, same.symm⟩, rest, others⟩

/-- The times behind a text are right if each is, with what is left of the text and of the
times in front of it. -/
theorem timesRead_eq_iff (text : List Char) (lines : List RsvLine) :
    timesRead text lines = lines.map (fun line => (line.number : Int)) ↔
      ∀ front line back, lines = front ++ line :: back →
        atoi32 (laid line (front.foldl (fun text line => laid line text) text)) = line.number := by
  induction lines generalizing text with
  | nil => simp [timesRead]
  | cons line rest ih =>
    rw [timesRead, map_cons, List.cons.injEq, ih]
    constructor
    · rintro ⟨here, later⟩ front other back split
      cases front with
      | nil =>
        obtain ⟨rfl, _⟩ := List.cons.inj split
        exact here
      | cons first front =>
        obtain ⟨rfl, isRest⟩ := List.cons.inj split
        exact later front other back isRest
    · intro all
      refine ⟨all [] line rest rfl, fun front other back split => ?_⟩
      exact all (line :: front) other back (congrArg (line :: ·) split)

theorem oneCommand_iff (lines : List RsvLine) (other : List Char) : OneCommand lines ↔
    ∀ line ∈ lines, line.command = (lines.getLast?.map RsvLine.command).getD other := by
  refine forall₂_congr fun line mem => ?_
  cases isLast : lines.getLast? with
  | none =>
    rw [getLast?_eq_none_iff.mp isLast] at mem
    cases mem
  | some last => simp

theorem recordsRight_iff_read (file : RsvFile) :
    RecordsRight file ↔ OneCommand file.lines ∧
      timesRead [] file.lines = file.lines.map fun line => (line.number : Int) := by
  have start : Holds (List.replicate 20 nul) [] := ⟨rfl, Nat.zero_le _, not_mem_nil⟩
  obtain ⟨after, last, ends, isRecords, isLast, command⟩ :=
    rsvLoop_lines file.lines file.few ⟨List.replicate 20 nul, [List.replicate 100 nul], []⟩ start
      length_replicate rfl
  have contents : after.contents =
      (timesRead [] file.lines).map fun time => (time, cString last) := by
    rw [RsvReader.contents, isRecords, isLast, nil_append, map_map]
    rfl
  have right : RecordsRight file ↔
      after.contents = file.lines.map fun line => ((line.number : Int), line.command) := by
    rw [RecordsRight, initRsvTrace, ends]
    simp
  rw [right, contents, map_pair_eq_iff, command, oneCommand_iff, and_comm]

/-- The records are those of the lines exactly when all lines have one command, and every time
is read as its own number together with what is left of longer times in front of it. -/
theorem recordsRight_iff (file : RsvFile) :
    RecordsRight file ↔ OneCommand file.lines ∧ TimesRight file.lines := by
  rw [recordsRight_iff_read, timesRead_eq_iff]
  rfl

/-- A command `a` at 100, and a command `b` at 5. -/
def twoLines : RsvFile where
  lines :=
    [⟨['1', '0', '0'], ['a'], by simp, by simp, by simp, by simp, by simp [nul]⟩,
      ⟨['5'], ['b'], by simp, by simp, by simp, by simp, by simp [nul]⟩]
  few := by decide

/-- The first record gets the command of the second line, and the second one the time 500. -/
theorem twoLines_mixed : ¬ RecordsRight twoLines ∧ timesRead [] twoLines.lines = [100, 500] := by
  refine ⟨fun right => ?_, by decide⟩
  have one := ((recordsRight_iff_read twoLines).mp right).1 _ mem_cons_self _ rfl
  exact absurd one (by decide)

/-! ## Times that leave nothing -/

end SlurmSim.Simulator
