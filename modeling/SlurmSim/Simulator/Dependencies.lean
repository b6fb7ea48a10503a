import Mathlib.Data.List.Basic
import Mathlib.Data.Nat.Digits.Defs

/-!
# Dependencies of the trace jobs

A dependency of a trace names jobs by their trace ids. The simulation manager
keeps the ids that the controller gave to the submitted jobs and rewrites the
dependency text when it submits a job. Texts are lists of characters without the
terminating zero, `none` is a read through a null pointer or outside a buffer.
-/

namespace SlurmSim.Simulator

/-! ## The ids of the submitted jobs -/

/-- `job_id_pair_t`. -/
structure JobIdPair where
  traceJobId : Nat
  realJobId : Nat
  deriving DecidableEq

/-- `NO_VAL`. -/
def noVal : Nat := 0xfffffffe

/-- `_add_job_pair`: the list of pairs has the latest one first. -/
def addJobPair (traceJobId realJobId : Nat) (jobIdList : List JobIdPair) : List JobIdPair :=
  ⟨traceJobId, realJobId⟩ :: jobIdList

/-- `_get_real_job_id`. The walk stops at the first smaller trace id. -/
def getRealJobId (traceJobId : Nat) : List JobIdPair → Nat
  | [] => noVal
  | pair :: rest =>
    if pair.traceJobId = traceJobId then pair.realJobId
    else if pair.traceJobId < traceJobId then noVal
    else getRealJobId traceJobId rest

/-! ## Texts -/

/-- `strtok_r` with one delimiter: the token and the text behind it. -/
def strtokR (delimiter : Char) (text : List Char) : Option (List Char × List Char) :=
  match text.dropWhile (· == delimiter) with
  | [] => none
  | first :: rest =>
    some ((first :: rest).takeWhile (· != delimiter),
      ((first :: rest).dropWhile (· != delimiter)).drop 1)

/-- The digits at the head of a text as a number. -/
def readDigits (text : List Char) : Nat :=
  (text.takeWhile Char.isDigit).foldl (fun value digit => 10 * value + (digit.toNat - 48)) 0

/-- `isspace`. -/
def isSpace (char : Char) : Bool :=
  char == ' ' || (9 ≤ char.toNat && char.toNat ≤ 13)

/-- `atoi`. -/
def atoi (text : List Char) : Int :=
  match text.dropWhile isSpace with
  | '-' :: digits => -(readDigits digits : Int)
  | '+' :: digits => readDigits digits
  | digits => readDigits digits

/-- The conversion of an `int` to `uint32_t`. -/
def toUint32 (value : Int) : Nat :=
  (value % 2 ^ 32).toNat

/-- A `uint32_t` printed by `%d`. -/
def printD (value : Nat) : List Char :=
  if value < 2 ^ 31 then Nat.toDigits 10 value else '-' :: Nat.toDigits 10 (2 ^ 32 - value)

/-! ## The rewriting -/

/-- The fields of a trace job that `re_write_dependencies` reads. -/
structure JobTrace where
  dependency : List Char
  afterComplitionJobId : List Char
  dependencyType : List Char

/-- One more element behind a list that is separated by commas. -/
def appendItem (first : Bool) (newDep item : List Char) : List Char :=
  if first then newDep ++ item else newDep ++ ',' :: item

/-- The loop over `type:id` pairs. The two buffers take turns, so that each turn
extends what was printed before. -/
def rewriteLoop (jobIdList : List JobIdPair) :
    Nat → Bool → List Char → List Char → Option (List Char)
  | 0, _, newDep, _ => some newDep
  | fuel + 1, first, newDep, text =>
    match strtokR ':' text with
    | none => some newDep
    | some (depType, text) =>
      match strtokR ',' text with
      | none => none
      | some (token, text) =>
        let traceJobId := toUint32 (atoi token)
        let realJobId := getRealJobId traceJobId jobIdList
        let realJobId := if realJobId = noVal then traceJobId else realJobId
        rewriteLoop jobIdList fuel false
          (appendItem first newDep (depType ++ ':' :: printD realJobId)) text

/-- The tokens of a field of the modular format. The walk ends at a token that is
the whole field. -/
def fieldTokens (field : List Char) : Nat → List Char → List (List Char)
  | 0, _ => []
  | fuel + 1, text =>
    match strtokR ',' text with
    | none => []
    | some (token, text) =>
      if token = field then [token] else token :: fieldTokens field fuel text

/-- What is left of a text in place after its first token was cut off. -/
def cutFirst (text : List Char) : List Char :=
  match text.dropWhile (· == ',') with
  | [] => text
  | rest => text.takeWhile (· == ',') ++ rest.takeWhile (· != ',')

/-- The types are printed with the ids of the same positions. -/
def joinTypes (ids : List (List Char)) : Nat → Bool → List Char → List (List Char) →
    Option (List Char)
  | _, _, newDep, [] => some newDep
  | index, first, newDep, token :: rest =>
    match ids[index]? with
    | none => none
    | some id => joinTypes ids (index + 1) false (appendItem first newDep (token ++ ':' :: id)) rest

/-- The branch of the modular format. There is room for ten ids. -/
def rewriteModular (jobIdList : List JobIdPair) (job : JobTrace) : Option (List Char) :=
  let field := job.afterComplitionJobId
  if cutFirst field = "-1".toList then some []
  else
    let tokens := fieldTokens field field.length field
    if 10 < tokens.length then none
    else
      let ids := tokens.map fun token => printD (getRealJobId (toUint32 (atoi token)) jobIdList)
      joinTypes ids 0 true []
        (fieldTokens job.dependencyType job.dependencyType.length job.dependencyType)

/-- `re_write_dependencies`. -/
def reWriteDependencies (traceFormat : Nat) (jobIdList : List JobIdPair) (job : JobTrace) :
    Option (List Char) :=
  if 2 < traceFormat then rewriteModular jobIdList job
  else if job.dependency ≠ "singleton".toList ∨ job.dependency ≠ "plussingleton".toList then
    some job.dependency
  else rewriteLoop jobIdList job.dependency.length true [] job.dependency

/-! ## What a rewriting should give -/

/-- One element of a dependency list. -/
structure Depend where
  depType : List Char
  jobId : Nat

/-- The dependency fields of the traces. -/
inductive DependField where
  | singleton
  | plussingleton
  | list (depends : List Depend)

namespace Depend

def text (depend : Depend) : List Char :=
  depend.depType ++ ':' :: Nat.toDigits 10 depend.jobId

/-- The elements of a list, separated by commas. -/
def listText : List Depend → List Char
  | [] => []
  | [depend] => depend.text
  | depend :: next :: rest => depend.text ++ ',' :: listText (next :: rest)

end Depend

/-- The id that the controller returned for the latest submission of a trace id,
and the trace id itself when it was never submitted. -/
def submittedId (jobIdList : List JobIdPair) (traceJobId : Nat) : Nat :=
  match jobIdList.find? fun pair => pair.traceJobId = traceJobId with
  | none => traceJobId
  | some pair => pair.realJobId

namespace DependField

def text : DependField → List Char
  | singleton => "singleton".toList
  | plussingleton => "plussingleton".toList
  | list depends => Depend.listText depends

/-- The same types in the same order with the ids of the submitted jobs. -/
def rewritten (jobIdList : List JobIdPair) : DependField → DependField
  | singleton => singleton
  | plussingleton => plussingleton
  | list depends => list (depends.map fun depend =>
    { depend with jobId := submittedId jobIdList depend.jobId })

/-- No element names a job that was submitted under another id. -/
def Unmoved (jobIdList : List JobIdPair) : DependField → Prop
  | singleton => True
  | plussingleton => True
  | list depends => ∀ depend ∈ depends, submittedId jobIdList depend.jobId = depend.jobId

end DependField

/-! ## The test in front of the loop -/

theorem reWriteDependencies_literal {traceFormat : Nat} (old : traceFormat ≤ 2)
    (jobIdList : List JobIdPair) (job : JobTrace) :
    reWriteDependencies traceFormat jobIdList job = some job.dependency := by
  have words : "singleton".toList ≠ "plussingleton".toList := by decide
  have test : job.dependency ≠ "singleton".toList ∨ job.dependency ≠ "plussingleton".toList := by
    by_cases single : job.dependency = "singleton".toList
    · right
      rw [single]
      exact words
    · exact .inl single
  rw [reWriteDependencies, if_neg (Nat.not_lt.mpr old), if_pos test]

theorem comma_notMem_toDigits (value : Nat) : ',' ∉ Nat.toDigits 10 value := by
  intro mem
  have digit : (',').isDigit = true := Nat.isDigit_of_mem_toDigits (by decide) (by decide) mem
  exact absurd digit (by decide)

theorem toDigits_inj {first second : Nat} (same : Nat.toDigits 10 first = Nat.toDigits 10 second) :
    first = second := by
  rw [← @Nat.ofDigitChars_ten_toDigits first, same, Nat.ofDigitChars_ten_toDigits]

theorem append_comma_inj {first second rest others : List Char} (noComma : ',' ∉ first)
    (noComma' : ',' ∉ second) (same : first ++ ',' :: rest = second ++ ',' :: others) :
    first = second ∧ rest = others := by
  induction first generalizing second with
  | nil =>
    cases second with
    | nil => exact ⟨rfl, (List.cons.inj same).2⟩
    | cons char tail =>
      rw [(List.cons.inj same).1] at noComma'
      exact absurd List.mem_cons_self noComma'
  | cons char tail ih =>
    cases second with
    | nil =>
      rw [(List.cons.inj same).1] at noComma
      exact absurd List.mem_cons_self noComma
    | cons other tail' =>
      obtain ⟨rfl, behind⟩ := List.cons.inj same
      obtain ⟨rfl, others⟩ := ih (fun mem => noComma (List.mem_cons_of_mem _ mem))
        (fun mem => noComma' (List.mem_cons_of_mem _ mem)) behind
      exact ⟨rfl, others⟩

/-- A list and its rewriting have the same text only when they have the same ids. -/
theorem listText_map_eq_iff (rename : Nat → Nat) (depends : List Depend) :
    Depend.listText depends =
        Depend.listText (depends.map fun depend => { depend with jobId := rename depend.jobId }) ↔
      ∀ depend ∈ depends, rename depend.jobId = depend.jobId := by
  constructor
  · intro same
    induction depends with
    | nil => simp
    | cons depend rest ih =>
      cases rest with
      | nil =>
        have digits : Nat.toDigits 10 depend.jobId = Nat.toDigits 10 (rename depend.jobId) := by
          simpa [Depend.listText, Depend.text] using same
        simpa using (toDigits_inj digits).symm
      | cons next tail =>
        have behind : Nat.toDigits 10 depend.jobId ++ ',' :: Depend.listText (next :: tail) =
            Nat.toDigits 10 (rename depend.jobId) ++ ',' :: Depend.listText
              ((next :: tail).map fun depend =>
                { depend with jobId := rename depend.jobId }) := by
          simpa [Depend.listText, Depend.text] using same
        obtain ⟨digits, others⟩ := append_comma_inj (comma_notMem_toDigits _)
          (comma_notMem_toDigits _) behind
        intro other mem
        rcases List.mem_cons.mp mem with rfl | later
        · exact (toDigits_inj digits).symm
        · exact ih others other later
  · intro fixed
    have all : depends.map (fun depend => { depend with jobId := rename depend.jobId }) =
        depends := by
      refine (List.map_congr_left ?_).trans depends.map_id
      intro depend mem
      rw [fixed depend mem]
      rfl
    rw [all]

/-- For the formats up to the standard one the text of a job comes out with the
ids of the submitted jobs exactly when there was nothing to replace in it. -/
theorem reWriteDependencies_eq_rewritten_iff {traceFormat : Nat} (old : traceFormat ≤ 2)
    (jobIdList : List JobIdPair) (job : JobTrace) (field : DependField)
    (holds : job.dependency = field.text) :
    reWriteDependencies traceFormat jobIdList job = some (field.rewritten jobIdList).text ↔
      field.Unmoved jobIdList := by
  rw [reWriteDependencies_literal old, holds, Option.some.injEq]
  cases field with
  | singleton => exact ⟨fun _ => trivial, fun _ => rfl⟩
  | plussingleton => exact ⟨fun _ => trivial, fun _ => rfl⟩
  | list depends => exact listText_map_eq_iff (submittedId jobIdList) depends

/-- A dependency on a job that was never submitted. -/
theorem reWriteDependencies_unsubmitted :
    reWriteDependencies 2 [⟨1, 5⟩] ⟨"afterok:2".toList, [], []⟩ = some "afterok:2".toList :=
  (reWriteDependencies_eq_rewritten_iff (by decide) [⟨1, 5⟩] ⟨"afterok:2".toList, [], []⟩
    (.list [⟨"afterok".toList, 2⟩]) (by decide)).mpr (by simp [DependField.Unmoved, submittedId])

/-- The first job of the trace became job 5, and the dependency on it still names 1. -/
theorem reWriteDependencies_submitted :
    ¬ ∀ (traceFormat : Nat) (jobIdList : List JobIdPair) (job : JobTrace) (field : DependField),
      traceFormat ≤ 2 → job.dependency = field.text →
      reWriteDependencies traceFormat jobIdList job = some (field.rewritten jobIdList).text := by
  intro all
  have wrong := all 2 (addJobPair 1 5 []) ⟨"afterok:1".toList, [], []⟩
    (.list [⟨"afterok".toList, 1⟩]) (by decide) (by decide)
  exact absurd wrong (by decide)

end SlurmSim.Simulator
