import SlurmSim.Common.BitFmt
import SlurmSim.Controller.JobHash
import SlurmSim.Lib.BoundedSearch

/-!
# Job dependencies

`update_job_dependency` reads a dependency text into a list of `depend_spec`, looks
for a circle and replaces the list of the job.  Texts are lists of characters
without the terminating zero.  The copies of the gres fields that an `expand`
dependency makes are left out: nothing here reads them.
-/

namespace SlurmSim.Controller

open Common.Bitmap Lib List

/-! ## Records -/

/-- `SLURM_DEPEND_*` -/
inductive DependType where
  | after
  | afterAny
  | afterNotOk
  | afterOk
  | singleton
  | expand
  | afterCorrespond
  | plussingleton
  deriving DecidableEq

/-- `struct depend_spec`.  Only a singleton has no job id, and only a dependency
without a job id has no record. -/
structure DependSpec where
  arrayTaskId : UInt32
  dependType : DependType
  orFlag : Bool
  jobId : UInt32
  jobPtr : Option Nat
  points : jobId ≠ 0 → jobPtr.isSome = true
  deriving DecidableEq

/-- The fields of `job_details` that the dependencies use. -/
structure JobDetails where
  expandingJobid : UInt32
  dependency : Option (List Char)
  dependList : Option (List DependSpec)
  deriving DecidableEq

/-- The job table with the other fields of the records at their addresses. -/
structure JobQueue where
  table : JobTable
  details : Nat → Option JobDetails
  qosId : Nat → UInt32
  partPtr : Nat → Option Nat

/-- What is configured: `max_depend_depth`, `max_array_sz` and what
`select_g_job_expand_allow` answers. -/
structure DependConf where
  maxDependDepth : Nat
  maxArraySize : Nat
  jobExpandAllow : Bool

/-- The answers of `update_job_dependency`. -/
inductive DependRc where
  | success
  | einval
  | dependency
  | circularDependency
  deriving DecidableEq

/-- `IS_JOB_RUNNING` -/
def JobRecord.isRunning (job : JobRecord) : Bool := job.baseState == 1

/-! ## Job names in a text -/

/-- A `long` as an `uint32_t`. -/
def toUint32 (value : Int) : UInt32 := UInt32.ofNat (value % 2 ^ 32).toNat

/-- A job id with a task id: `NO_VAL` if there is none, `INFINITE` for `_*`. -/
def readJobName (text : List Char) : UInt32 × UInt32 × List Char :=
  let (jobId, rest) := strtol text
  match rest with
  | '_' :: '*' :: rest => (toUint32 jobId, infinite, rest)
  | '_' :: rest =>
    let (taskId, rest) := strtol rest
    (toUint32 jobId, toUint32 taskId, rest)
  | rest => (toUint32 jobId, noVal, rest)

/-- The text starts with a word, in upper or lower case. -/
def startsWith (word : String) (text : List Char) : Bool :=
  (text.take word.length).map Char.toLower = word.toList

namespace JobQueue

/-- The record that a name stands for.  The name of a whole array gets the task id
`INFINITE`. -/
def findNamed (q : JobQueue) (jobId taskId : UInt32) : UInt32 × Option Nat :=
  if taskId = noVal then
    let found := (q.table.findJobRecord jobId).or (q.table.findJobArrayRec jobId infinite)
    let isArray := found.any fun ptr =>
      (q.table.recs ptr).arrayJobId = jobId ∧
        ((q.table.recs ptr).arrayTaskId ≠ noVal ∨ (q.table.recs ptr).arrayRecs.isSome)
    (if isArray then infinite else noVal, found)
  else (taskId, q.table.findJobArrayRec jobId taskId)

/-- The dependency on a record: under its own id, or under the id of its array. -/
def newSpec (q : JobQueue) (dependType : DependType) (taskId : UInt32) (ptr : Nat) :
    DependSpec where
  arrayTaskId := taskId
  dependType := dependType
  orFlag := false
  jobId := if taskId = noVal then (q.table.recs ptr).jobId else (q.table.recs ptr).arrayJobId
  jobPtr := some ptr
  points := fun _ => rfl

end JobQueue

/-- A dependency straight from `xmalloc`, with its type. -/
def bareSpec (dependType : DependType) : DependSpec where
  arrayTaskId := 0
  dependType := dependType
  orFlag := false
  jobId := 0
  jobPtr := none
  points := fun named => absurd rfl named

/-! ## Job array expressions -/

/-- The tasks of an expression behind the id of their array. -/
def taskTexts (jobId : UInt32) : List Nat → List Char
  | [] => []
  | first :: others =>
    decimal first ++ others.flatMap fun task =>
      ':' :: decimal jobId.toNat ++ '_' :: decimal task

/-- The positions of the set bits. -/
def setBits (b : Bitstr) : List Nat := (List.range b.bits).filter fun bit => bitTest b bit

/-- The tasks in the brackets of an expression; `none` if it has no closing bracket, is
no bit format or names no task.  A text fits into a message, so that `bit_unfmt` can
read it. -/
def bracketTasks (conf : DependConf) (text : List Char) : Option (List Nat) :=
  if ']' ∉ text then none
  else
    match bitUnfmt (bitAlloc conf.maxArraySize) (some (text.takeWhile (· != ']'))) with
    | some (0, b) => if setBits b = [] then none else some (setBits b)
    | _ => none

/-- The loop of `_xlate_array_dep`, with `jobid_ptr` and the text written so far. -/
def xlateLoop (conf : DependConf) (jobidPtr : Option (List Char)) (out : List Char) :
    List Char → Option (List Char)
  | [] => some out
  | c :: rest =>
    if '0' ≤ c ∧ c ≤ '9' then
      xlateLoop conf (jobidPtr.or (some (c :: rest))) (out ++ [c]) rest
    else if c = '_' ∧ rest.head? = some '[' ∧ jobidPtr.isSome then
      match bracketTasks conf rest.tail with
      | none => none
      | some tasks =>
        xlateLoop conf none
          (out ++ c :: taskTexts (toUint32 (strtol (jobidPtr.getD [])).1) tasks)
          ((rest.tail.dropWhile (· != ']')).tail)
    else xlateLoop conf none (out ++ [c]) rest
termination_by text => text.length
decreasing_by
  · simp
  · have shorter := (dropWhile_sublist (l := rest.tail) (· != ']')).length_le
    simp only [length_tail, length_cons] at shorter ⊢
    omega
  · simp

/-- `strstr(text, "_[")` -/
def hasBracket : List Char → Bool
  | [] => false
  | c :: rest => (c == '_' && rest.head? == some '[') || hasBracket rest

/-- `_xlate_array_dep` -/
def xlateArrayDep (conf : DependConf) (text : List Char) : Option (List Char) :=
  if hasBracket text then xlateLoop conf none [] text else none

/-! ## The parser -/

/-- What the two loops of the parser keep. -/
structure DependParse where
  dependList : List DependSpec
  expandCnt : Nat
  expandingJobid : UInt32
  orFlag : Bool

def DependParse.append (parse : DependParse) (spec : DependSpec) : DependParse :=
  { parse with dependList := parse.dependList ++ [spec] }

theorem strtol_length (text : List Char) : (strtol text).2.length ≤ text.length := by
  have blanks := (dropWhile_sublist (l := text)
    fun c => decide (c = ' ' ∨ ('\t' ≤ c ∧ c ≤ '\r'))).length_le
  have behind : ∀ (value : Int) (digits body : List Char), body.length ≤ text.length →
      (if digits = [] then (0, text) else (value, body.drop digits.length)).2.length ≤
        text.length := by
    intro value digits body short
    split_ifs
    · exact le_rfl
    · rw [length_drop]
      omega
  simp only [strtol]
  split
  · next body isBody =>
      rw [isBody, length_cons] at blanks
      exact behind _ _ body (by omega)
  · next body isBody =>
      rw [isBody, length_cons] at blanks
      exact behind _ _ body (by omega)
  · exact behind _ _ _ blanks

theorem readJobName_length (text : List Char) : (readJobName text).2.2.length ≤ text.length := by
  have first := strtol_length text
  unfold readJobName
  split
  next jobId rest isRest =>
    rw [isRest] at first
    split
    · simp only [length_cons] at first ⊢
      omega
    · next rest _ =>
        have second := strtol_length rest
        simp only [length_cons] at first ⊢
        omega
    · exact first

namespace JobQueue

/-- An `expand` dependency is alone of its kind and on a running job with the same
QOS and partition. -/
def expandRefused (q : JobQueue) (job : Nat) (parse : DependParse) (found : Option Nat) : Bool :=
  0 < parse.expandCnt ||
    match found with
    | none => true
    | some ptr => !(q.table.recs ptr).isRunning || q.qosId ptr != q.qosId job ||
        (q.partPtr ptr).isNone || q.partPtr ptr != q.partPtr job

/-- One job name of the new format: `none` for `ESLURM_DEPENDENCY`, else what follows it. -/
def readName (q : JobQueue) (job : Nat) (dependType : DependType) (parse : DependParse)
    (text : List Char) : DependParse × Option (List Char) :=
  let (jobId, taskId, rest) := readJobName text
  if jobId = 0 ∨ jobId = (q.table.recs job).jobId ∨
      rest.head?.any (fun c => c != ',' && c != '?' && c != ':') then (parse, none)
  else
    let (taskId, found) := q.findNamed jobId taskId
    if dependType = .expand ∧ q.expandRefused job parse found then (parse, none)
    else
      let parse := if dependType = .expand then
          { parse with expandCnt := parse.expandCnt + 1, expandingJobid := jobId }
        else parse
      match found with
      | none => (parse, some rest)
      | some ptr => (parse.append (q.newSpec dependType taskId ptr), some rest)

theorem readName_length {q : JobQueue} {job : Nat} {dependType : DependType}
    {parse after : DependParse} {text rest : List Char}
    (read : q.readName job dependType parse text = (after, some rest)) :
    rest.length ≤ text.length := by
  have shorter := readJobName_length text
  unfold readName at read
  split at read
  next jobId taskId behind isName =>
    rw [isName] at shorter
    have same : behind = rest := by
      simp only at read
      split_ifs at read
      · cases (Prod.mk.inj read).2
      · cases (Prod.mk.inj read).2
      all_goals
        split at read <;> exact Option.some.inj (Prod.mk.inj read).2
    exact same ▸ shorter

/-- The inner loop: the names behind one type, separated by colons. -/
def readNames (q : JobQueue) (job : Nat) (dependType : DependType) (parse : DependParse)
    (text : List Char) : DependParse × Option (List Char) :=
  match _read : q.readName job dependType parse text with
  | (parse, some (':' :: rest)) => readNames q job dependType parse rest
  | (parse, rest) => (parse, rest)
termination_by text.length
decreasing_by
  have shorter := readName_length _read
  simp only [length_cons] at shorter
  omega

theorem readNames_length {q : JobQueue} {job : Nat} {dependType : DependType}
    {parse after : DependParse} {text rest : List Char}
    (read : q.readNames job dependType parse text = (after, some rest)) :
    rest.length ≤ text.length := by
  fun_induction readNames q job dependType parse text with
  | case1 parse text next others isName ih =>
    have shorter := readName_length isName
    rw [length_cons] at shorter
    have behind := ih read
    omega
  | case2 parse text next others _ isName =>
    obtain ⟨rfl, rfl⟩ := Prod.mk.inj read
    exact readName_length isName

end JobQueue

/-- The words of the new format. -/
def readType (conf : DependConf) (text : List Char) : Option DependType :=
  if startsWith "afternotok" text then some .afterNotOk
  else if startsWith "aftercorr" text then some .afterCorrespond
  else if startsWith "afterany" text then some .afterAny
  else if startsWith "afterok" text then some .afterOk
  else if startsWith "after" text then some .after
  else if startsWith "expand" text && conf.jobExpandAllow then some .expand
  else none

/-- A text that can follow an element which no `?` may follow. -/
def commaOrEnd (rest : List Char) : Option (List Char) :=
  if rest.head? = none ∨ rest.head? = some ',' then some rest else none

namespace JobQueue

/-- One turn of the outer loop: `none` for `ESLURM_DEPENDENCY`, else what follows. -/
def readElement (q : JobQueue) (conf : DependConf) (job : Nat) (parse : DependParse)
    (text : List Char) : DependParse × Option (List Char) :=
  if startsWith "singleton" text then
    (parse.append (bareSpec .singleton), commaOrEnd (text.drop 9))
  else if startsWith "plussingleton" text then
    (parse.append (bareSpec .plussingleton), commaOrEnd (text.drop 13))
  else if ':' ∉ text then
    if text.head?.any fun c => decide ('0' ≤ c) && decide (c ≤ '9') then
      let (jobId, taskId, rest) := readJobName text
      if jobId = 0 ∨ jobId = (q.table.recs job).jobId ∨ (commaOrEnd rest).isNone then (parse, none)
      else
        let (taskId, found) := q.findNamed jobId taskId
        match found with
        | none => (parse, some rest)
        | some ptr => (parse.append (q.newSpec .afterAny taskId ptr), some rest)
    else (parse, none)
  else
    match readType conf text with
    | none => (parse, none)
    | some dependType => q.readNames job dependType parse (text.dropWhile (· != ':')).tail

theorem readElement_length {q : JobQueue} {conf : DependConf} {job : Nat}
    {parse after : DependParse} {text rest : List Char}
    (read : q.readElement conf job parse text = (after, some rest)) :
    rest.length ≤ text.length := by
  have dropped : ∀ count, commaOrEnd (text.drop count) = some rest → rest.length ≤ text.length := by
    intro count follows
    unfold commaOrEnd at follows
    split_ifs at follows
    rw [← Option.some.inj follows, length_drop]
    omega
  unfold readElement at read
  split_ifs at read with single plus colon digit
  · exact dropped 9 (Prod.mk.inj read).2
  · exact dropped 13 (Prod.mk.inj read).2
  · split at read
    · simp at read
    · have shorter := readNames_length read
      have behind := (dropWhile_sublist (l := text) (· != ':')).length_le
      rw [length_tail] at shorter
      omega
  · have shorter := readJobName_length text
    split at read
    next jobId taskId behind isName =>
      rw [isName] at shorter
      have same : behind = rest := by
        simp only at read
        split_ifs at read
        · cases (Prod.mk.inj read).2
        · split at read <;> exact Option.some.inj (Prod.mk.inj read).2
      exact same ▸ shorter
  · cases (Prod.mk.inj read).2

/-- The outer loop: the elements of a text, and whether it was read to its end. -/
def readDepend (q : JobQueue) (conf : DependConf) (job : Nat) (parse : DependParse)
    (text : List Char) : DependParse × Bool :=
  match _read : q.readElement conf job parse text with
  | (parse, none) => (parse, false)
  | (parse, some (',' :: rest)) => readDepend q conf job parse rest
  | (parse, some ('?' :: rest)) => readDepend q conf job { parse with orFlag := true } rest
  | (parse, some _) => (parse, true)
termination_by text.length
decreasing_by
  all_goals
    have shorter := readElement_length _read
    simp only [length_cons] at shorter
    omega

/-! ## The search for a circle -/

/-- The dependency list of the record at an address. -/
def dependList (q : JobQueue) (ptr : Nat) : Option (List DependSpec) :=
  (q.details ptr).bind JobDetails.dependList

/-- The list that `_scan_depend` goes into for a dependency.  A record whose id is not
the id of the dependency counts as purged, like one without `JOB_MAGIC`. -/
def scanned (q : JobQueue) (spec : DependSpec) : Option (List DependSpec) :=
  if spec.jobId = 0 then none
  else
    match spec.jobPtr with
    | none => none
    | some ptr =>
      if spec.jobId ≠ (q.table.recs ptr).jobId ∨ ptr ∉ q.table.live then none
      else if (q.table.recs ptr).isFinished then none
      else q.dependList ptr

/-- `_scan_depend` with the depth of its recursion as fuel; `job_counter` goes in and
comes out, and no table has so many dependencies that it overflows. -/
def scanDepend (q : JobQueue) (conf : DependConf) (jobId : UInt32) (fuel : Nat)
    (list : List DependSpec) (jobCounter : Nat) : Option (Bool × Nat) :=
  BoundedSearch.search (fun spec => spec.jobId != 0 && spec.jobId == jobId) q.scanned
    conf.maxDependDepth fuel list jobCounter

/-! ## The update -/

/-- `new_depend_list` of a text; `none` if the text is refused. -/
def newDepend (q : JobQueue) (conf : DependConf) (job : Nat) (text : List Char) :
    DependParse × Bool :=
  q.readDepend conf job ⟨[], 0, 0, false⟩ ((xlateArrayDep conf text).getD text)

end JobQueue

def DependType.text : DependType → String
  | .after => "after"
  | .afterAny => "afterany"
  | .afterNotOk => "afternotok"
  | .afterOk => "afterok"
  | .afterCorrespond => "aftercorr"
  | .expand => "expand"
  | .singleton => "singleton"
  | .plussingleton => "plussingleton"

def DependSpec.isSingleton (spec : DependSpec) : Bool :=
  spec.dependType = .singleton ∨ spec.dependType = .plussingleton

/-- One element of the text of a list. -/
def DependSpec.text (spec : DependSpec) : List Char :=
  if spec.isSingleton then spec.dependType.text.toList
  else
    spec.dependType.text.toList ++ ':' :: decimal spec.jobId.toNat ++
      if spec.arrayTaskId = infinite then ['_', '*']
      else if spec.arrayTaskId = noVal then []
      else '_' :: decimal spec.arrayTaskId.toNat

/-- The loop of `_depend_list2str`, with the separator in front of the next element. -/
def listText (sep : List Char) : List DependSpec → List Char
  | [] => []
  | spec :: rest =>
    sep ++ spec.text ++
      listText (if spec.orFlag && !spec.isSingleton then ['?'] else [',']) rest

/-- `set_or_flag` of `_depend_list2str` leaves the singletons out. -/
def setOrFlag (spec : DependSpec) : DependSpec :=
  if spec.isSingleton then spec else { spec with orFlag := true }

/-- `_depend_list2str`: the flags of the list and its text. -/
def dependList2str (details : JobDetails) (list : List DependSpec) (orFlag : Bool) : JobDetails :=
  let list := if orFlag then list.map setOrFlag else list
  { details with
    dependency := if list = [] then none else some (listText [] list)
    dependList := some list }

namespace JobQueue

def setDetails (q : JobQueue) (job : Nat) (details : JobDetails) : JobQueue :=
  { q with details := Function.update q.details job (some details) }

/-- No text, an empty one, and `0`. -/
def clears : Option (List Char) → Bool
  | none => true
  | some text => text = [] ∨ text = ['0']

/-- `update_job_dependency`.  The outer `none` is a search that does not end. -/
def updateJobDependency (q : JobQueue) (conf : DependConf) (job : Nat)
    (newDepend : Option (List Char)) : Option (DependRc × JobQueue) :=
  match q.details job with
  | none => some (.einval, q)
  | some details =>
    if clears newDepend then some (.success, q.setDetails job ⟨0, none, none⟩)
    else
      match q.newDepend conf job (newDepend.getD []) with
      | (parse, false) =>
        some (.dependency, q.setDetails job { details with expandingJobid := parse.expandingJobid })
      | (parse, true) =>
        let details := { details with expandingJobid := parse.expandingJobid }
        match q.scanDepend conf (q.table.recs job).jobId (conf.maxDependDepth + 1)
            parse.dependList 0 with
        | none => none
        | some (true, _) => some (.circularDependency, q.setDetails job details)
        | some (false, _) => some (.success, q.setDetails job
            (dependList2str details parse.dependList parse.orFlag))

end JobQueue

end SlurmSim.Controller
