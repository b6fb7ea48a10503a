import Mathlib.Data.List.TakeWhile

/-!
# The module list of a record

A record may name a preferred and an alternative module.  The loop over the names has its call of
`strtok` commented out, so that its token stays the first name.
-/

namespace SlurmSim.Simulator

open List

/-! ## The parser -/

/-- The first call of `strtok(.., ",")`. -/
def strtok (str : List Char) : Option (List Char) :=
  let body := str.dropWhile (· = ',')
  if body = [] then none else some (body.takeWhile (· ≠ ','))

/-- How the loop over the names goes on: it ends with what is written to the slots, or a name is
copied to where there is no slot for it. -/
inductive Copied where
  | ended (module : List (Option (List Char)))
  | outside
  deriving DecidableEq

/-- The bytes of a slot. -/
def moduleSize : Nat := 10

/-- The loop over the names.  `strcpy` also copies the zero character. -/
def copyTokens (token : Option (List Char)) (module : List (Option (List Char))) (j : Nat) :
    Copied :=
  match token with
  | none => .ended module
  | some name =>
    if j < module.length ∧ name.length < moduleSize then
      copyTokens token (module.set j token) (j + 1)
    else .outside
termination_by module.length - j
decreasing_by
  rw [length_set]
  omega

/-- `generateJob`'s parsing of a module list, with two slots. -/
def parseModules (moduleList : List Char) : Copied :=
  copyTokens (strtok moduleList) [none, none] 0

/-! ## What is copied -/

/-- The name of a module, of at most 9 characters. -/
structure ModuleName where
  name : List Char
  nonempty : name ≠ []
  short : name.length ≤ 9
  plain : ∀ c ∈ name, c ≠ ',' ∧ c ≠ '\x00'

theorem strtok_name (first : ModuleName) (rest : List Char) :
    strtok (first.name ++ ',' :: rest) = some first.name := by
  obtain ⟨name, nonempty, short, plain⟩ := first
  obtain ⟨c, others, rfl⟩ := exists_cons_of_ne_nil nonempty
  have start : decide (c = ',') = false := decide_eq_false (plain c mem_cons_self).1
  have taken : (c :: (others ++ ',' :: rest)).takeWhile (fun d => decide (d ≠ ',')) =
      c :: others := by
    rw [← cons_append, takeWhile_append_of_pos]
    · simp
    · exact fun d mem => decide_eq_true (plain d mem).1
  rw [strtok, cons_append, dropWhile_cons, start, if_neg Bool.false_ne_true]
  simp only [taken, cons_ne_nil, if_false]

theorem copyTokens_some (name : List Char) (module : List (Option (List Char))) (j : Nat) :
    copyTokens (some name) module j = .outside := by
  induction slots : module.length - j generalizing module j with
  | zero =>
    rw [copyTokens, if_neg]
    omega
  | succ slots ih =>
    rw [copyTokens]
    split_ifs with fits
    · apply ih
      rw [length_set]
      omega
    · rfl

/-- The parsing of two names ends with both in order in the two slots. -/
def ParsesModules (preferred alternative : ModuleName) : Prop :=
  parseModules (preferred.name ++ ',' :: alternative.name) =
    .ended [some preferred.name, some alternative.name]

/-- No two names are parsed. -/
theorem modules_never_parsed (preferred alternative : ModuleName) :
    ¬ParsesModules preferred alternative := by
  intro parsed
  rw [ParsesModules, parseModules, strtok_name, copyTokens_some] at parsed
  cases parsed

/-- The modules `cm` and `dam`. -/
theorem modules_parsed_fails : ¬∀ preferred alternative : ModuleName,
    ParsesModules preferred alternative := by
  intro parses
  have parsed := parses ⟨['c', 'm'], by simp, by simp, by simp⟩
    ⟨['d', 'a', 'm'], by simp, by simp, by simp⟩
  rw [ParsesModules, parseModules, strtok_name, copyTokens_some] at parsed
  cases parsed

end SlurmSim.Simulator
