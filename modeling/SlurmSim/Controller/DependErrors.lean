import SlurmSim.Controller.JobDependency

/-!
# Refused dependencies

`update_job_dependency` keeps the new list aside until it is accepted, but clears the id of
the job to expand before it reads the text, and an accepted `expand` writes this id and
copies the gres of that job at once.
-/

namespace SlurmSim.Controller

open Common.Bitmap List

/-- The fields of a job record that an `expand` dependency writes. -/
structure ExpandFields (G T : Type) where
  gres : Option (List Char)
  gresList : G
  tresReqCnt : T
  tresReqStr : Option (List Char)
  deriving DecidableEq

/-- `gres_plugin_job_state_validate`, which may write to both of its arguments,
`gres_set_job_tres_cnt` and `assoc_mgr_make_tres_str_from_array`. -/
structure GresCalls (G T : Type) where
  jobStateValidate : Option (List Char) → Option (List Char) × G
  setJobTresCnt : G → UInt32 → T → T
  makeTresStr : T → Option (List Char)

/-- The job table with the fields that `expand` writes and the `min_nodes` of the details. -/
structure ExpandQueue (G T : Type) where
  q : JobQueue
  minNodes : Nat → UInt32
  fields : Nat → ExpandFields G T

/-- The `expand` dependency in the new list; no second one is accepted. -/
def DependParse.expandSpec (parse : DependParse) : Option DependSpec :=
  parse.dependList.find? fun spec => spec.dependType = .expand

namespace ExpandQueue

variable {G T : Type} (calls : GresCalls G T) (r : ExpandQueue G T)

/-- The gres of another record replace those of a job, which are freed before. -/
def copyGres (job ptr : Nat) : ExpandFields G T :=
  let (gres, gresList) := calls.jobStateValidate (if ptr = job then none else (r.fields ptr).gres)
  let tresReqCnt := calls.setJobTresCnt gresList (r.minNodes job) (r.fields job).tresReqCnt
  ⟨gres, gresList, tresReqCnt, calls.makeTresStr tresReqCnt⟩

/-- The fields after a text was read.  An `expand` dependency comes into the list in the turn
that copies the fields. -/
def fieldsRead (conf : DependConf) (job : Nat) (newDepend : Option (List Char)) :
    ExpandFields G T :=
  if (r.q.details job).isNone ∨ JobQueue.clears newDepend then r.fields job
  else
    match (r.q.newDepend conf job (newDepend.getD [])).1.expandSpec.bind DependSpec.jobPtr with
    | none => r.fields job
    | some ptr => r.copyGres calls job ptr

/-- `update_job_dependency` with the fields that `expand` writes. -/
def updateJobDependency (conf : DependConf) (job : Nat) (newDepend : Option (List Char)) :
    Option (DependRc × ExpandQueue G T) :=
  (r.q.updateJobDependency conf job newDepend).map fun (rc, q) =>
    (rc, { r with
      q := q, fields := Function.update r.fields job (r.fieldsRead calls conf job newDepend) })

/-- An update that fails leaves the record as it was. -/
def Atomic (conf : DependConf) (job : Nat) (newDepend : Option (List Char)) : Prop :=
  ∀ rc after, r.updateJobDependency calls conf job newDepend = some (rc, after) →
    rc ≠ .success → after.q.details job = r.q.details job ∧ after.fields job = r.fields job

end ExpandQueue

namespace JobQueue

/-- The name of a job that a record may expand, and the address of that job. -/
def expandName (q : JobQueue) (job : Nat) (text : List Char) : Option (UInt32 × Nat) :=
  let (jobId, taskId, rest) := readJobName text
  if jobId = 0 ∨ jobId = (q.table.recs job).jobId ∨
      rest.head?.any (fun c => c != ',' && c != '?' && c != ':') then none
  else
    (q.findNamed jobId taskId).2.bind fun ptr =>
      if (q.table.recs ptr).isRunning ∧ q.qosId ptr = q.qosId job ∧
          (q.partPtr ptr).isSome ∧ q.partPtr ptr = q.partPtr job then some (jobId, ptr)
      else none

/-- The first element of a text is an `expand`. -/
def startsExpand (conf : DependConf) (text : List Char) : Bool :=
  decide (':' ∈ text) && decide (readType conf text = some .expand)

/-- A text with a job that is expanded: its first `expand` has the name of such a job, and
no element in front of it is refused. -/
inductive Expands (q : JobQueue) (conf : DependConf) (job : Nat) :
    List Char → UInt32 × Nat → Prop
  | here {text : List Char} {found : UInt32 × Nat} (starts : startsExpand conf text = true)
      (named : q.expandName job (text.dropWhile (· != ':')).tail = some found) :
      Expands q conf job text found
  | later {text rest : List Char} {sep : Char} {found : UInt32 × Nat}
      (other : startsExpand conf text = false)
      (read : (q.readElement conf job ⟨[], 0, 0, false⟩ text).2 = some (sep :: rest))
      (follows : sep = ',' ∨ sep = '?') (expands : Expands q conf job rest found) :
      Expands q conf job text found

end JobQueue

/-! ## What the parser marks -/

/-- The fields of a parser that tell of an `expand`. -/
def DependParse.mark (parse : DependParse) : Nat × UInt32 × Option (Option Nat) :=
  (parse.expandCnt, parse.expandingJobid, parse.expandSpec.map DependSpec.jobPtr)

/-- No `expand` was accepted. -/
structure DependParse.Fresh (parse : DependParse) : Prop where
  count : parse.expandCnt = 0
  spec : parse.expandSpec = none

theorem DependParse.mark_append (parse : DependParse) {spec : DependSpec}
    (other : spec.dependType ≠ .expand) : (parse.append spec).mark = parse.mark := by
  have notFound : [spec].find? (fun spec => spec.dependType = .expand) = none := by simp [other]
  simp only [mark, expandSpec, append, find?_append, notFound, Option.or_none]

theorem DependParse.Fresh.of_mark {parse after : DependParse} (fresh : parse.Fresh)
    (same : after.mark = parse.mark) : after.Fresh := by
  obtain ⟨count, rest⟩ := Prod.mk.inj same
  have spec := (Prod.mk.inj rest).2
  rw [fresh.spec, Option.map_none, Option.map_eq_none_iff] at spec
  exact ⟨count.trans fresh.count, spec⟩

theorem startsWith_head {word : String} {text : List Char} (starts : startsWith word text = true)
    (nonempty : 0 < word.length) : text.head?.map Char.toLower = word.toList.head? := by
  have same := congrArg head? (of_decide_eq_true starts)
  rw [← same, head?_map, head?_take, if_neg (by omega)]

namespace JobQueue

variable {q : JobQueue} {conf : DependConf} {job : Nat} {dependType : DependType}
  {parse after : DependParse} {text : List Char} {rest : Option (List Char)}

theorem readName_other (notExpand : dependType ≠ .expand) (other : DependParse)
    (read : q.readName job dependType parse text = (after, rest)) :
    after.mark = parse.mark ∧ ∃ next, q.readName job dependType other text = (next, rest) := by
  unfold readName at read ⊢
  generalize readJobName text = name at read ⊢
  obtain ⟨jobId, taskId, behind⟩ := name
  simp only [notExpand, false_and, if_false] at read ⊢
  split_ifs at read ⊢
  · obtain ⟨rfl, rfl⟩ := Prod.mk.inj read
    exact ⟨rfl, _, rfl⟩
  · cases isFound : (q.findNamed jobId taskId).2 with
    | none =>
      obtain ⟨rfl, rfl⟩ := Prod.mk.inj (isFound ▸ read)
      exact ⟨rfl, _, rfl⟩
    | some ptr =>
      obtain ⟨rfl, rfl⟩ := Prod.mk.inj (isFound ▸ read)
      exact ⟨parse.mark_append notExpand, _, rfl⟩

/-- A second `expand` is refused. -/
theorem readName_late (late : 0 < parse.expandCnt) :
    q.readName job .expand parse text = (parse, none) := by
  have refused : ∀ found, q.expandRefused job parse found = true := by simp [expandRefused, late]
  unfold readName
  generalize readJobName text = name
  obtain ⟨jobId, taskId, rest⟩ := name
  simp only [refused, and_self, if_true, ite_self]

theorem readName_expand (q : JobQueue) (job : Nat) (text : List Char) (fresh : parse.Fresh) :
    (q.expandName job text = none ∧ q.readName job .expand parse text = (parse, none)) ∨
      ∃ found after rest, q.expandName job text = some found ∧
        q.readName job .expand parse text = (after, some rest) ∧
          after.mark = (1, found.1, some (some found.2)) := by
  unfold readName expandName
  generalize readJobName text = name
  obtain ⟨jobId, taskId, rest⟩ := name
  simp only [true_and, if_true]
  split_ifs with bad refused
  · exact Or.inl ⟨rfl, rfl⟩
  · refine Or.inl ⟨?_, rfl⟩
    cases isFound : (q.findNamed jobId taskId).2 with
    | none => rfl
    | some ptr =>
      rw [isFound, expandRefused] at refused
      simp only [fresh.count] at refused
      refine if_neg fun ⟨running, qos, part, same⟩ => ?_
      rw [← same] at refused
      simp [running, qos, Option.isSome_iff_ne_none.mp part] at refused
  · cases isFound : (q.findNamed jobId taskId).2 with
    | none => simp [isFound, expandRefused] at refused
    | some ptr =>
      simp only [isFound, expandRefused, fresh.count, Bool.or_eq_true, not_or, decide_eq_true_eq,
        Bool.not_eq_true', Bool.not_eq_true, bne_eq_false_iff_eq, Bool.not_eq_false] at refused
      obtain ⟨-, ⟨⟨running, qos⟩, part⟩, same⟩ := refused
      have isPart : (q.partPtr ptr).isSome = true := by simpa [Option.isSome_iff_ne_none] using part
      refine Or.inr ⟨(jobId, ptr), _, rest, if_pos ⟨running, qos, isPart, same⟩, rfl, ?_⟩
      have none := fresh.spec
      rw [DependParse.expandSpec] at none
      simp [DependParse.mark, DependParse.expandSpec, DependParse.append, find?_append, none,
        fresh.count, newSpec]

theorem readNames_colon {behind : List Char}
    (read : q.readName job dependType parse text = (after, some (':' :: behind))) :
    q.readNames job dependType parse text = q.readNames job dependType after behind := by
  rw [readNames]
  split
  · next own =>
      cases read.symm.trans own
      rfl
  · next last own =>
      cases read.symm.trans own
      exact (last _ rfl).elim

theorem readNames_end (read : q.readName job dependType parse text = (after, rest))
    (ends : ∀ behind, rest ≠ some (':' :: behind)) :
    q.readNames job dependType parse text = (after, rest) := by
  rw [readNames]
  split
  · next own =>
      cases read.symm.trans own
      exact absurd rfl (ends _)
  · next own => exact own.symm.trans read

theorem readNames_other (notExpand : dependType ≠ .expand) (other : DependParse)
    (read : q.readNames job dependType parse text = (after, rest)) :
    after.mark = parse.mark ∧ ∃ next, q.readNames job dependType other text = (next, rest) := by
  fun_induction readNames q job dependType parse text generalizing other with
  | case1 parse text next behind isName ih =>
    obtain ⟨same, first, otherName⟩ := readName_other notExpand other isName
    obtain ⟨sameBehind, otherRead⟩ := ih first read
    exact ⟨sameBehind.trans same, readNames_colon otherName ▸ otherRead⟩
  | case2 parse text next rest last isName =>
    obtain ⟨rfl, rfl⟩ := Prod.mk.inj read
    obtain ⟨same, first, otherName⟩ := readName_other notExpand other isName
    exact ⟨same, first, readNames_end otherName last⟩

theorem readNames_late (late : 0 < parse.expandCnt) :
    q.readNames job .expand parse text = (parse, none) :=
  readNames_end (readName_late late) fun _ => nofun

theorem readNames_expand (q : JobQueue) (job : Nat) (text : List Char) (fresh : parse.Fresh) :
    (q.expandName job text = none ∧ q.readNames job .expand parse text = (parse, none)) ∨
      ∃ found, q.expandName job text = some found ∧
        (q.readNames job .expand parse text).1.mark = (1, found.1, some (some found.2)) := by
  rcases readName_expand q job text fresh with
    ⟨refused, read⟩ | ⟨found, next, rest, named, read, mark⟩
  · exact Or.inl ⟨refused, readNames_end read fun _ => nofun⟩
  · refine Or.inr ⟨found, named, ?_⟩
    by_cases colon : ∃ behind, rest = ':' :: behind
    · obtain ⟨behind, rfl⟩ := colon
      have one : next.expandCnt = 1 := (Prod.mk.inj mark).1
      rw [readNames_colon read, readNames_late (one ▸ Nat.one_pos), mark]
    · have last := readNames_end read fun behind same => colon ⟨behind, Option.some.inj same⟩
      rw [last, mark]

/-! ## The elements -/

/-- An `expand` is no element of another kind. -/
theorem readElement_expand (starts : startsExpand conf text = true) :
    q.readElement conf job parse text =
      q.readNames job .expand parse (text.dropWhile (· != ':')).tail := by
  rw [startsExpand, Bool.and_eq_true, decide_eq_true_eq, decide_eq_true_eq] at starts
  obtain ⟨colon, isExpand⟩ := starts
  have word : startsWith "expand" text = true := by
    rw [readType] at isExpand
    split_ifs at isExpand with _ _ _ _ _ both <;> cases isExpand
    rw [Bool.and_eq_true] at both
    exact both.1
  have first := startsWith_head word (by decide)
  have single : startsWith "singleton" text = false := by
    refine Bool.eq_false_iff.mpr fun starts => ?_
    have other := first.symm.trans (startsWith_head starts (by decide))
    exact absurd other (by decide)
  have plus : startsWith "plussingleton" text = false := by
    refine Bool.eq_false_iff.mpr fun starts => ?_
    have other := first.symm.trans (startsWith_head starts (by decide))
    exact absurd other (by decide)
  simp only [readElement, single, plus, colon, isExpand, not_true_eq_false, if_false,
    Bool.false_eq_true]

theorem readElement_other (isOther : startsExpand conf text = false) (other : DependParse)
    (read : q.readElement conf job parse text = (after, rest)) :
    after.mark = parse.mark ∧ ∃ next, q.readElement conf job other text = (next, rest) := by
  unfold readElement at read ⊢
  split_ifs at read ⊢ with single plus colon digit
  · obtain ⟨rfl, rfl⟩ := Prod.mk.inj read
    exact ⟨parse.mark_append (by decide), _, rfl⟩
  · obtain ⟨rfl, rfl⟩ := Prod.mk.inj read
    exact ⟨parse.mark_append (by decide), _, rfl⟩
  · cases isType : readType conf text with
    | none =>
      obtain ⟨rfl, rfl⟩ := Prod.mk.inj (isType ▸ read)
      exact ⟨rfl, _, rfl⟩
    | some dependType =>
      rw [isType] at read
      refine readNames_other (fun isExpand => ?_) other read
      rw [startsExpand, isType, isExpand] at isOther
      simp_all
  · generalize readJobName text = name at read ⊢
    obtain ⟨jobId, taskId, behind⟩ := name
    dsimp only at read ⊢
    split_ifs at read ⊢
    · obtain ⟨rfl, rfl⟩ := Prod.mk.inj read
      exact ⟨rfl, _, rfl⟩
    · cases isFound : (q.findNamed jobId taskId).2 with
      | none =>
        obtain ⟨rfl, rfl⟩ := Prod.mk.inj (isFound ▸ read)
        exact ⟨rfl, _, rfl⟩
      | some ptr =>
        obtain ⟨rfl, rfl⟩ := Prod.mk.inj (isFound ▸ read)
        exact ⟨parse.mark_append (by simp [newSpec]), _, rfl⟩
  · obtain ⟨rfl, rfl⟩ := Prod.mk.inj read
    exact ⟨rfl, _, rfl⟩

theorem readElement_late (late : 0 < parse.expandCnt)
    (read : q.readElement conf job parse text = (after, rest)) : after.mark = parse.mark := by
  cases starts : startsExpand conf text with
  | true =>
    rw [readElement_expand starts, readNames_late late] at read
    rw [← (Prod.mk.inj read).1]
  | false => exact (readElement_other starts parse read).1

/-- What the first element of a text does. -/
theorem readElement_mark (fresh : parse.Fresh)
    (read : q.readElement conf job parse text = (after, rest)) :
    (∃ found, (∀ other, Expands q conf job text other ↔ other = found) ∧
      after.mark = (1, found.1, some (some found.2))) ∨
    after.mark = parse.mark ∧ ∀ found, Expands q conf job text found ↔
      ∃ sep behind, rest = some (sep :: behind) ∧ (sep = ',' ∨ sep = '?') ∧
        Expands q conf job behind found := by
  cases starts : startsExpand conf text with
  | true =>
    have named : ∀ found, Expands q conf job text found ↔
        q.expandName job (text.dropWhile (· != ':')).tail = some found := by
      refine fun found => ⟨fun expands => ?_, .here starts⟩
      cases expands with
      | here _ named => exact named
      | later other => exact absurd (starts.symm.trans other) (by decide)
    rw [readElement_expand starts] at read
    rcases readNames_expand q job (text.dropWhile (· != ':')).tail fresh with
      ⟨refused, same⟩ | ⟨found, isFound, mark⟩
    · obtain ⟨rfl, rfl⟩ := Prod.mk.inj (same.symm.trans read)
      refine Or.inr ⟨rfl, fun found => ?_⟩
      rw [named, refused]
      simp
    · rw [read] at mark
      refine Or.inl ⟨found, fun other => ?_, mark⟩
      rw [named, isFound, Option.some_inj, eq_comm]
  | false =>
    obtain ⟨mark, first, ends⟩ := readElement_other starts ⟨[], 0, 0, false⟩ read
    refine Or.inr ⟨mark, fun found => ⟨fun expands => ?_, ?_⟩⟩
    · cases expands with
      | here other => exact absurd (starts.symm.trans other) (by decide)
      | later _ own follows expands =>
        rw [ends] at own
        exact ⟨_, _, own, follows, expands⟩
    · rintro ⟨sep, behind, rfl, follows, expands⟩
      exact .later starts (by rw [ends]) follows expands

theorem readDepend_late (late : 0 < parse.expandCnt) :
    (q.readDepend conf job parse text).1.mark = parse.mark := by
  fun_induction readDepend q conf job parse text with
  | case1 parse text next read => exact readElement_late late read
  | case2 parse text next behind read ih =>
    have mark := readElement_late late read
    exact (ih ((Prod.mk.inj mark).1 ▸ late)).trans mark
  | case3 parse text next behind read ih =>
    have mark := readElement_late late read
    exact (ih ((Prod.mk.inj mark).1 ▸ late)).trans mark
  | case4 parse text next rest _ _ read => exact readElement_late late read

/-- What the reading of a whole text marks. -/
theorem readDepend_mark (q : JobQueue) (conf : DependConf) (job : Nat) (text : List Char)
    (fresh : parse.Fresh) :
    (∃ found, (∀ other, Expands q conf job text other ↔ other = found) ∧
      (q.readDepend conf job parse text).1.mark = (1, found.1, some (some found.2))) ∨
    (∀ found, ¬Expands q conf job text found) ∧
      (q.readDepend conf job parse text).1.mark = parse.mark := by
  fun_induction readDepend q conf job parse text with
  | case1 parse text next read =>
    rcases readElement_mark fresh read with found | ⟨mark, expands⟩
    · exact Or.inl found
    · exact Or.inr ⟨fun found => by simp [expands], mark⟩
  | case2 parse text next behind read ih =>
    rcases readElement_mark fresh read with ⟨found, only, mark⟩ | ⟨mark, expands⟩
    · exact Or.inl ⟨found, only, (readDepend_late ((Prod.mk.inj mark).1 ▸ Nat.one_pos)).trans mark⟩
    · simpa [expands, mark] using ih (fresh.of_mark mark)
  | case3 parse text next behind read ih =>
    rcases readElement_mark fresh read with ⟨found, only, mark⟩ | ⟨mark, expands⟩
    · exact Or.inl ⟨found, only, (readDepend_late ((Prod.mk.inj mark).1 ▸ Nat.one_pos)).trans mark⟩
    · have sameMark : ({ next with orFlag := true } : DependParse).mark = next.mark := rfl
      simpa [expands, sameMark, mark] using ih (fresh.of_mark mark)
  | case4 parse text next rest notComma notMark read =>
    rcases readElement_mark fresh read with found | ⟨mark, expands⟩
    · exact Or.inl found
    · refine Or.inr ⟨fun found isIn => ?_, mark⟩
      obtain ⟨sep, behind, same, rfl | rfl, _⟩ := (expands found).mp isIn
      · exact notComma behind (Option.some.inj same)
      · exact notMark behind (Option.some.inj same)

end JobQueue

/-! ## The whole update -/

namespace ExpandQueue

variable {G T : Type} {calls : GresCalls G T} {r : ExpandQueue G T} {conf : DependConf} {job : Nat}

/-- The condition under which a text that is refused leaves a record as it was. -/
def Keeps (calls : GresCalls G T) (r : ExpandQueue G T) (conf : DependConf) (job : Nat)
    (details : JobDetails) (text : List Char) : Prop :=
  (details.expandingJobid = 0 ∧ ∀ found, ¬r.q.Expands conf job text found) ∨
    ∃ ptr, r.q.Expands conf job text (details.expandingJobid, ptr) ∧
      r.copyGres calls job ptr = r.fields job

theorem keeps_iff {details : JobDetails} {text : List Char} (parse : DependParse)
    (marks : (∃ found, (∀ other, r.q.Expands conf job text other ↔ other = found) ∧
        parse.mark = (1, found.1, some (some found.2))) ∨
      (∀ found, ¬r.q.Expands conf job text found) ∧ parse.mark = (0, 0, none)) :
    r.Keeps calls conf job details text ↔ parse.expandingJobid = details.expandingJobid ∧
      (match parse.expandSpec.bind DependSpec.jobPtr with
        | none => r.fields job
        | some ptr => r.copyGres calls job ptr) = r.fields job := by
  rcases marks with ⟨found, only, mark⟩ | ⟨none, mark⟩
  · simp only [DependParse.mark, Prod.mk.injEq, Option.map_eq_some_iff] at mark
    obtain ⟨-, id, spec, isSpec, isPtr⟩ := mark
    simp only [Keeps, only, isSpec, isPtr, id, Option.bind_some]
    grind
  · simp only [DependParse.mark, Prod.mk.injEq, Option.map_eq_none_iff] at mark
    obtain ⟨-, id, isSpec⟩ := mark
    simp [Keeps, none, isSpec, id, eq_comm]

/-- An update that fails changes the id of the job to expand and nothing else. -/
theorem details_of_failed {q after : JobQueue} {rc : DependRc} {details : JobDetails}
    {newDepend : Option (List Char)} (isDetails : q.details job = some details)
    (updated : q.updateJobDependency conf job newDepend = some (rc, after))
    (failed : rc ≠ .success) : JobQueue.clears newDepend = false ∧
      after.details job = some { details with
        expandingJobid := (q.newDepend conf job (newDepend.getD [])).1.expandingJobid } := by
  simp only [JobQueue.updateJobDependency, isDetails] at updated
  split_ifs at updated with cleared
  · exact absurd (Prod.mk.inj (Option.some.inj updated)).1.symm failed
  · refine ⟨Bool.eq_false_iff.mpr cleared, ?_⟩
    split at updated
    · next parse isParse =>
        obtain ⟨rfl, rfl⟩ := Prod.mk.inj (Option.some.inj updated)
        simp [JobQueue.setDetails, isParse]
    · next parse isParse =>
        split at updated
        · cases updated
        · obtain ⟨rfl, rfl⟩ := Prod.mk.inj (Option.some.inj updated)
          simp [JobQueue.setDetails, isParse]
        · exact absurd (Prod.mk.inj (Option.some.inj updated)).1.symm failed

/-- A failed update leaves the record as it was exactly when the text has no job to expand and
the record had none before, or it has the same one and its gres are there already. -/
theorem atomic_iff (calls : GresCalls G T) (r : ExpandQueue G T) (conf : DependConf) (job : Nat)
    (newDepend : Option (List Char)) :
    r.Atomic calls conf job newDepend ↔
      ∀ rc after, r.updateJobDependency calls conf job newDepend = some (rc, after) →
        rc ≠ .success → ∀ details, r.q.details job = some details →
          r.Keeps calls conf job details
            ((xlateArrayDep conf (newDepend.getD [])).getD (newDepend.getD [])) := by
  refine forall_congr' fun rc => forall_congr' fun after => imp_congr_right fun updated =>
    imp_congr_right fun failed => ?_
  obtain ⟨⟨rc, q⟩, isQueue, same⟩ := Option.map_eq_some_iff.mp updated
  obtain ⟨rfl, rfl⟩ := Prod.mk.inj same
  simp only [Function.update_self]
  cases isDetails : r.q.details job with
  | none =>
    simp only [JobQueue.updateJobDependency, isDetails, Option.some.injEq, Prod.mk.injEq] at isQueue
    simp [← isQueue.2, isDetails, fieldsRead]
  | some details =>
    obtain ⟨notCleared, isAfter⟩ := details_of_failed isDetails isQueue failed
    have fresh : DependParse.Fresh ⟨[], 0, 0, false⟩ := ⟨rfl, rfl⟩
    have marks := JobQueue.readDepend_mark r.q conf job
      ((xlateArrayDep conf (newDepend.getD [])).getD (newDepend.getD [])) fresh
    rw [isAfter, fieldsRead, isDetails, notCleared]
    simp only [Option.some.injEq, forall_eq', keeps_iff _ marks]
    simp only [JobQueue.newDepend, Option.isNone_some, Bool.false_eq_true, or_self, if_false]
    refine and_congr_left fun _ => ⟨fun same => ?_, fun same => ?_⟩
    · exact congrArg JobDetails.expandingJobid same
    · rw [same]

/-- Job 100, which is to expand job 7. -/
def expandsSeven : ExpandQueue Unit Unit where
  q :=
    { table := (JobTable.init 10).apply (.create 0 ⟨100, 0, noVal, none, 0⟩)
      details := fun _ => some ⟨7, none, none⟩
      qosId := fun _ => 1
      partPtr := fun _ => some 0 }
  minNodes := fun _ => 1
  fields := fun _ => ⟨none, (), (), none⟩

theorem bad_text_clears_expand : ¬∀ (calls : GresCalls Unit Unit) (r : ExpandQueue Unit Unit)
    (conf : DependConf) (job : Nat) (newDepend : Option (List Char)),
    r.Atomic calls conf job newDepend := by
  intro atomic
  have refused : expandsSeven.q.newDepend ⟨10, 10, true⟩ 0 ['x'] = (⟨[], 0, 0, false⟩, false) := by
    have read : expandsSeven.q.readElement ⟨10, 10, true⟩ 0 ⟨[], 0, 0, false⟩ ['x'] =
        (⟨[], 0, 0, false⟩, none) := rfl
    have text : (xlateArrayDep ⟨10, 10, true⟩ ['x']).getD ['x'] = ['x'] := rfl
    rw [JobQueue.newDepend, text, JobQueue.readDepend, read]
  let calls : GresCalls Unit Unit := ⟨fun gres => (gres, ()), fun _ _ _ => (), fun _ => none⟩
  have failed : ∃ after, expandsSeven.updateJobDependency calls ⟨10, 10, true⟩ 0 (some ['x']) =
      some (.dependency, after) ∧ after.q.details 0 = some ⟨0, none, none⟩ := by
    have same : JobQueue.clears (some ['x']) = false := rfl
    have details : expandsSeven.q.details 0 = some ⟨7, none, none⟩ := rfl
    simp [updateJobDependency, JobQueue.updateJobDependency, details, same, refused,
      JobQueue.setDetails]
  obtain ⟨after, updated, details⟩ := failed
  have kept := (atomic calls expandsSeven ⟨10, 10, true⟩ 0 (some ['x']) .dependency after updated
    (by decide)).1
  exact absurd (details.symm.trans kept) (by decide)

end ExpandQueue

end SlurmSim.Controller
