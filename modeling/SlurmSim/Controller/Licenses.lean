import SlurmSim.Hostlist.Hostname

/-!
# Licenses

The configured licenses and those of a job are lists of records that are built from
text. A job's use is added to the configured license of the same name and is taken away
with the totals that its list has at that time. Totals and uses are numbers of 32 bits.
-/

namespace SlurmSim.Controller.Licenses

open SlurmSim.Common.Bitmap SlurmSim.Hostlist List
open Option (map_eq_some_iff some.inj)

/-- `licenses_t`, without the mark of remote licenses. -/
structure License where
  name : List Char
  total : Nat
  used : Nat
  deriving DecidableEq, Repr

/-- The fields of a job record that hold its licenses. -/
structure Job where
  licenses : Option (List Char)
  licenseList : Option (List License)
  deriving DecidableEq, Repr

/-- `total += num` -/
def License.addTotal (num : Nat) (license : License) : License :=
  { license with total := (license.total + num) % 2 ^ 32 }

/-- `used += num` -/
def License.addUsed (num : Nat) (license : License) : License :=
  { license with used := (license.used + num) % 2 ^ 32 }

/-- `used -= num`, of a use that is not smaller. -/
def License.subUsed (num : Nat) (license : License) : License :=
  { license with used := license.used - num }

/-- `list_find_first` with `_license_find_rec`. -/
def findLicense (table : List License) (name : List Char) : Option License :=
  table.find? fun entry => entry.name = name

/-- A change of the first record of a name. -/
def adjust (name : List Char) (change : License → License) : List License → List License
  | [] => []
  | entry :: rest =>
    if entry.name = name then change entry :: rest else entry :: adjust name change rest

/-! ## License text -/

/-- The tokens that `strtok_r` cuts at commas and semicolons. -/
def tokens (text : List Char) : List (List Char) :=
  (text.splitOnP fun c => c = ',' ∨ c = ';').filter fun token => token ≠ []

/-- The name of a token and the text of its number, if it has one; `none` when a blank
comes first. -/
def splitToken : List Char → Option (List Char × Option (List Char))
  | [] => some ([], none)
  | c :: rest =>
    if isSpace c then none
    else if c = ':' ∨ c = '*' then some ([], some rest)
    else (splitToken rest).map fun (name, number) => (c :: name, number)

/-- The number of a token; `none` when it is not valid. -/
def tokenNum : Option (List Char) → Option Nat
  | none => some 1
  | some text =>
    let (value, endNum) := strtol text
    if endNum ≠ [] ∨ toInt32 value < 0 then none else some (toInt32 value).toNat

/-- One token: a name and a number. -/
def parseToken (token : List Char) : Option (List Char × Nat) :=
  match splitToken token with
  | none => none
  | some (name, number) => (tokenNum number).map fun num => (name, num)

/-- A token's number is added to the record of its name, or a new record is pushed. -/
def addLicense (list : List License) (token : List Char × Nat) : List License :=
  match findLicense list token.1 with
  | some _ => adjust token.1 (License.addTotal token.2) list
  | none => ⟨token.1, token.2, 0⟩ :: list

/-- The loop of `_build_license_list`; `none` when a token is not valid. -/
def buildLoop : List (List Char) → List License → Option (List License)
  | [], list => some list
  | token :: rest, list =>
    match parseToken token with
    | none => none
    | some token => buildLoop rest (addLicense list token)

/-- `_build_license_list`, with the value of `valid`. -/
def buildLicenseList : Option (List Char) → Option (List License) × Bool
  | none => (none, true)
  | some [] => (none, true)
  | some text =>
    match buildLoop (tokens text) [] with
    | none => (none, false)
    | some list => (some list, true)

/-- `snprintf` of one record into a buffer of 128 bytes. -/
def licenseText (sep : List Char) (entry : License) : List Char :=
  (sep ++ entry.name ++ '*' :: decimal entry.total).take 127

/-- `_build_license_string` -/
def buildLicenseString : Option (List License) → Option (List Char)
  | none => none
  | some [] => none
  | some (first :: rest) => some (licenseText [] first ++ rest.flatMap (licenseText [',']))

/-! ## Licenses of a job -/

/-- `license_job_merge` -/
def licenseJobMerge (job : Job) : Job :=
  let list := (buildLicenseList job.licenses).1
  ⟨buildLicenseString list, list⟩

/-- `_merge_job_licenses`: the two jobs after the licenses of the first went to the second. -/
def mergeJobLicenses (shrink expand : Job) : Job × Job :=
  match shrink.licenses with
  | none => (shrink, expand)
  | some text =>
    match expand.licenses with
    | none => (⟨none, none⟩, ⟨some text, shrink.licenseList⟩)
    | some own => (⟨none, none⟩, licenseJobMerge ⟨some (own ++ ',' :: text), none⟩)

/-- The values that `license_job_test` returns. -/
inductive TestResult where
  | success
  | again
  | error
  deriving DecidableEq, Repr

/-- The loop of `license_job_test`; `resv` is `job_test_lic_resv`. -/
def testLoop (table : List License) (resv : List Char → Nat) : List License → TestResult
  | [] => .success
  | entry :: rest =>
    match findLicense table entry.name with
    | none => .error
    | some license =>
      if license.total < entry.total then .error
      else if license.total < (entry.total + license.used) % 2 ^ 32 then .again
      else if license.total < (entry.total + license.used + resv entry.name) % 2 ^ 32 then
        .again
      else testLoop table resv rest

/-- `license_job_test` -/
def licenseJobTest (table : List License) (resv : List Char → Nat) (job : Job) : TestResult :=
  match job.licenseList with
  | none => .success
  | some list => testLoop table resv list

/-- The loop of `license_job_get`: the configured licenses, the job's, and whether all
were found. -/
def getLoop (table : List License) : List License → List License × List License × Bool
  | [] => (table, [], true)
  | entry :: rest =>
    match findLicense table entry.name with
    | some _ =>
      let (after, list, ok) := getLoop (adjust entry.name (.addUsed entry.total) table) rest
      (after, entry.addUsed entry.total :: list, ok)
    | none =>
      let (after, list, _) := getLoop table rest
      (after, entry :: list, false)

/-- `license_job_get` -/
def licenseJobGet (table : List License) (job : Job) : List License × Job × Bool :=
  match job.licenseList with
  | none => (table, job, true)
  | some list =>
    let (after, list, ok) := getLoop table list
    (after, { job with licenseList := some list }, ok)

/-- The loop of `license_job_return`: the configured licenses, the job's, and whether no
use count went below zero. -/
def returnLoop (table : List License) : List License → List License × List License × Bool
  | [] => (table, [], true)
  | entry :: rest =>
    match findLicense table entry.name with
    | some license =>
      if entry.total ≤ license.used then
        let (after, list, ok) :=
          returnLoop (adjust entry.name (.subUsed entry.total) table) rest
        (after, { entry with used := 0 } :: list, ok)
      else
        let (after, list, _) := returnLoop (adjust entry.name (fun license =>
          { license with used := 0 }) table) rest
        (after, { entry with used := 0 } :: list, false)
    | none =>
      let (after, list, ok) := returnLoop table rest
      (after, entry :: list, ok)

/-- `license_job_return` -/
def licenseJobReturn (table : List License) (job : Job) : List License × Job × Bool :=
  match job.licenseList with
  | none => (table, job, true)
  | some list =>
    let (after, list, ok) := returnLoop table list
    (after, { job with licenseList := some list }, ok)

/-! ## Records by name -/

@[simp] theorem License.addTotal_name (num : Nat) (license : License) :
    (license.addTotal num).name = license.name := rfl

@[simp] theorem License.addUsed_name (num : Nat) (license : License) :
    (license.addUsed num).name = license.name := rfl

@[simp] theorem License.subUsed_name (num : Nat) (license : License) :
    (license.subUsed num).name = license.name := rfl

variable {table list rest : List License} {name other : List Char} {entry license : License}
  {change : License → License}

theorem findLicense_cons : findLicense (entry :: rest) name =
    if entry.name = name then some entry else findLicense rest name := by
  simp only [findLicense, find?_cons]
  by_cases same : entry.name = name <;> simp [same]

theorem findLicense_eq_none : findLicense table name = none ↔ name ∉ table.map License.name := by
  simp [findLicense]

theorem findLicense_adjust (keeps : ∀ license, (change license).name = license.name) :
    findLicense (adjust name change table) other =
      if other = name then (findLicense table other).map change else findLicense table other := by
  induction table with
  | nil => simp [adjust, findLicense]
  | cons entry rest ih =>
    rw [adjust]
    by_cases own : entry.name = name
    · rw [if_pos own, findLicense_cons, findLicense_cons, keeps]
      by_cases same : other = name
      · simp [own, same]
      · have ne : entry.name ≠ other := fun eq => same (eq.symm.trans own)
        simp [ne, same]
    · rw [if_neg own, findLicense_cons, findLicense_cons, ih]
      by_cases here : entry.name = other
      · have ne : other ≠ name := fun eq => own (here.trans eq)
        simp [here, ne]
      · simp [here]

theorem names_adjust (keeps : ∀ license, (change license).name = license.name) :
    (adjust name change table).map License.name = table.map License.name := by
  induction table with
  | nil => rfl
  | cons entry rest ih =>
    rw [adjust]
    split_ifs
    · simp [keeps]
    · simp [ih]

/-- What a list asks of a license. -/
def held (list : List License) (name : List Char) : Nat :=
  ((findLicense list name).map License.total).getD 0

theorem held_cons : held (entry :: rest) name =
    if entry.name = name then entry.total else held rest name := by
  rw [held, findLicense_cons]
  split_ifs <;> rfl

theorem held_eq_zero (absent : name ∉ list.map License.name) : held list name = 0 := by
  rw [held, findLicense_eq_none.mpr absent]
  rfl

theorem held_of_mem (distinct : (list.map License.name).Nodup) (mem : entry ∈ list) :
    held list entry.name = entry.total := by
  induction list with
  | nil => cases mem
  | cons first rest ih =>
    rw [map_cons, nodup_cons] at distinct
    rw [held_cons]
    rcases mem_cons.mp mem with rfl | inRest
    · rw [if_pos rfl]
    · have ne : first.name ≠ entry.name := fun eq =>
        distinct.1 (eq ▸ mem_map_of_mem inRest)
      rw [if_neg ne, ih distinct.2 inRest]

/-- The names and totals of a list, without the uses. -/
def stock (list : List License) : List (List Char × Nat) :=
  list.map fun entry => (entry.name, entry.total)

variable {others : List License} {pairs : List (List Char × Nat)} {pair : List Char × Nat}
  {token text : List Char} {texts : List (List Char)}

theorem names_of_stock (same : stock list = stock others) :
    list.map License.name = others.map License.name := by
  have firsts := congrArg (List.map Prod.fst) same
  rw [stock, stock, map_map, map_map] at firsts
  exact firsts

theorem held_of_stock (same : stock list = stock others) : held list name = held others name := by
  induction list generalizing others with
  | nil =>
    cases others with
    | nil => rfl
    | cons first others => cases same
  | cons entry rest ih =>
    cases others with
    | nil => cases same
    | cons first others =>
      simp only [stock, map_cons, List.cons.injEq, Prod.mk.injEq] at same
      rw [held_cons, held_cons, ih same.2, same.1.1, same.1.2]

/-! ## The loops -/

/-- A license with more or less in use. -/
def License.use (license : License) (used : Nat) : License := { license with used := used }

theorem testLoop_success {resv : List Char → Nat} (success : testLoop table resv list = .success)
    (mem : entry ∈ list) : ∃ license, findLicense table entry.name = some license ∧
      entry.total ≤ license.total ∧ (entry.total + license.used) % 2 ^ 32 ≤ license.total := by
  induction list with
  | nil => cases mem
  | cons first rest ih =>
    rw [testLoop] at success
    split at success
    · cases success
    · rename_i license found
      split_ifs at success with large full reserved
      rcases mem_cons.mp mem with rfl | inRest
      · exact ⟨license, found, Nat.le_of_not_lt large, Nat.le_of_not_lt full⟩
      · exact ih success inRest

theorem stock_getLoop : stock (getLoop table list).2.1 = stock list := by
  induction list generalizing table with
  | nil => rfl
  | cons entry rest ih =>
    rw [getLoop]
    split
    · exact congrArg (List.cons (entry.name, entry.total)) ih
    · exact congrArg (List.cons (entry.name, entry.total)) ih

theorem stock_returnLoop : stock (returnLoop table list).2.1 = stock list := by
  induction list generalizing table with
  | nil => rfl
  | cons entry rest ih =>
    rw [returnLoop]
    split
    · split_ifs
      · exact congrArg (List.cons (entry.name, entry.total)) ih
      · exact congrArg (List.cons (entry.name, entry.total)) ih
    · exact congrArg (List.cons (entry.name, entry.total)) ih

theorem names_getLoop : (getLoop table list).1.map License.name = table.map License.name := by
  induction list generalizing table with
  | nil => rfl
  | cons entry rest ih =>
    rw [getLoop]
    split
    · exact ih.trans (names_adjust (License.addUsed_name _))
    · exact ih

theorem findLicense_getLoop (distinct : (list.map License.name).Nodup)
    (fits : ∀ entry ∈ list, ∀ license, findLicense table entry.name = some license →
      license.used + entry.total < 2 ^ 32) :
    findLicense (getLoop table list).1 name = (findLicense table name).map fun license =>
        license.use (license.used + held list name) := by
  induction list generalizing table with
  | nil =>
    rw [getLoop]
    cases findLicense table name <;> rfl
  | cons entry rest ih =>
    rw [map_cons, nodup_cons] at distinct
    have later : ∀ {other : License}, other ∈ rest → other.name ≠ entry.name :=
      fun inRest eq => distinct.1 (eq ▸ mem_map_of_mem inRest)
    rw [getLoop]
    split
    · rename_i license found
      have next := @ih (adjust entry.name (.addUsed entry.total) table) distinct.2 <| by
        intro other inRest license foundOther
        rw [findLicense_adjust (License.addUsed_name _), if_neg (later inRest)] at foundOther
        exact fits other (mem_cons_of_mem _ inRest) license foundOther
      refine next.trans ?_
      rw [findLicense_adjust (License.addUsed_name _), held_cons]
      by_cases own : name = entry.name
      · subst own
        have room := fits entry mem_cons_self license found
        simpa [found, held_eq_zero distinct.1, License.use, License.addUsed] using room
      · rw [if_neg own, if_neg (Ne.symm own)]
    · rename_i found
      have next := @ih table distinct.2 fun other inRest =>
        fits other (mem_cons_of_mem _ inRest)
      refine next.trans ?_
      rw [held_cons]
      by_cases own : name = entry.name
      · subst own
        simp [found]
      · rw [if_neg (Ne.symm own)]

theorem names_returnLoop : (returnLoop table list).1.map License.name = table.map License.name := by
  induction list generalizing table with
  | nil => rfl
  | cons entry rest ih =>
    rw [returnLoop]
    split
    · split_ifs
      · exact ih.trans (names_adjust (License.subUsed_name _))
      · exact ih.trans (names_adjust fun _ => rfl)
    · exact ih

theorem findLicense_returnLoop (name : List Char) (distinct : (list.map License.name).Nodup)
    (enough : ∀ entry ∈ list, ∀ license, findLicense table entry.name = some license →
      entry.total ≤ license.used) :
    (returnLoop table list).2.2 = true ∧ findLicense (returnLoop table list).1 name =
        (findLicense table name).map fun license =>
          license.use (license.used - held list name) := by
  induction list generalizing table with
  | nil =>
    rw [returnLoop]
    refine ⟨rfl, ?_⟩
    cases findLicense table name <;> rfl
  | cons entry rest ih =>
    rw [map_cons, nodup_cons] at distinct
    have later : ∀ {other : License}, other ∈ rest → other.name ≠ entry.name :=
      fun inRest eq => distinct.1 (eq ▸ mem_map_of_mem inRest)
    rw [returnLoop]
    split
    · rename_i license found
      rw [if_pos (enough entry mem_cons_self license found)]
      obtain ⟨ok, next⟩ := @ih (adjust entry.name (.subUsed entry.total) table) distinct.2 <| by
        intro other inRest license foundOther
        rw [findLicense_adjust (License.subUsed_name _), if_neg (later inRest)] at foundOther
        exact enough other (mem_cons_of_mem _ inRest) license foundOther
      refine ⟨ok, next.trans ?_⟩
      rw [findLicense_adjust (License.subUsed_name _), held_cons]
      by_cases own : name = entry.name
      · subst own
        simp [found, held_eq_zero distinct.1, License.use, License.subUsed]
      · rw [if_neg own, if_neg (Ne.symm own)]
    · rename_i found
      obtain ⟨ok, next⟩ := @ih table distinct.2 fun other inRest =>
        enough other (mem_cons_of_mem _ inRest)
      refine ⟨ok, next.trans ?_⟩
      rw [held_cons]
      by_cases own : name = entry.name
      · subst own
        simp [found]
      · rw [if_neg (Ne.symm own)]

/-! ## Lists and their text -/

/-- What the tokens ask of a license. -/
def asked (pairs : List (List Char × Nat)) (name : List Char) : Nat :=
  ((pairs.filter fun pair => pair.1 = name).map Prod.snd).sum

theorem asked_append (pairs others : List (List Char × Nat)) :
    asked (pairs ++ others) name = asked pairs name + asked others name := by
  simp [asked]

theorem asked_eq_zero (absent : name ∉ pairs.map Prod.fst) : asked pairs name = 0 := by
  have none : (pairs.filter fun pair => pair.1 = name) = [] := by
    refine filter_eq_nil_iff.mpr fun pair mem same => absent ?_
    exact mem_map.mpr ⟨pair, mem, of_decide_eq_true same⟩
  rw [asked, none]
  rfl

/-- The list has one record for every name among the tokens, with their sum. -/
structure Lists (list : List License) (pairs : List (List Char × Nat)) : Prop where
  distinct : (list.map License.name).Nodup
  names : ∀ name, name ∈ list.map License.name ↔ name ∈ pairs.map Prod.fst
  total : ∀ name, held list name = asked pairs name % 2 ^ 32

theorem Lists.nil : Lists [] [] := ⟨nodup_nil, fun _ => Iff.rfl, fun _ => rfl⟩

theorem Lists.of_stock (lists : Lists list pairs) (same : stock others = stock list) :
    Lists others pairs := by
  refine ⟨?_, ?_, ?_⟩
  · rw [names_of_stock same]
    exact lists.distinct
  · rw [names_of_stock same]
    exact lists.names
  · intro name
    rw [held_of_stock same]
    exact lists.total name

theorem held_addTotal {num : Nat} : held (adjust name (.addTotal num) list) other =
    if other = name ∧ name ∈ list.map License.name then (held list name + num) % 2 ^ 32
    else held list other := by
  rw [held, findLicense_adjust (License.addTotal_name num)]
  by_cases own : other = name
  · subst own
    by_cases mem : other ∈ list.map License.name
    · obtain ⟨license, found⟩ := Option.ne_none_iff_exists'.mp
        fun none => findLicense_eq_none.mp none mem
      simp [held, found, mem, License.addTotal]
    · simp [held, findLicense_eq_none.mpr mem, mem]
  · simp [own, held]

theorem Lists.add (lists : Lists list pairs) (small : pair.2 < 2 ^ 32) :
    Lists (addLicense list pair) (pairs ++ [pair]) := by
  have last : ∀ name, asked [pair] name = if pair.1 = name then pair.2 else 0 := by
    intro name
    by_cases same : pair.1 = name <;> simp [asked, same]
  rw [addLicense]
  split
  · rename_i license found
    have mem : pair.1 ∈ list.map License.name := by
      by_contra absent
      rw [findLicense_eq_none.mpr absent] at found
      cases found
    refine ⟨?_, ?_, ?_⟩
    · rw [names_adjust (License.addTotal_name _)]
      exact lists.distinct
    · intro name
      rw [names_adjust (License.addTotal_name _), lists.names, map_append, mem_append]
      refine ⟨.inl, ?_⟩
      rintro (before | same)
      · exact before
      · rw [map_singleton, mem_singleton] at same
        subst same
        exact (lists.names _).mp mem
    · intro name
      rw [held_addTotal, asked_append, last]
      by_cases own : name = pair.1
      · subst own
        rw [if_pos ⟨rfl, mem⟩, if_pos rfl, lists.total, Nat.mod_add_mod]
      · rw [if_neg fun both => own both.1, if_neg (Ne.symm own), lists.total, Nat.add_zero]
  · rename_i found
    have absent := findLicense_eq_none.mp found
    refine ⟨?_, ?_, ?_⟩
    · rw [map_cons, nodup_cons]
      exact ⟨absent, lists.distinct⟩
    · intro name
      rw [map_cons, mem_cons, lists.names, map_append, mem_append,
        map_singleton, mem_singleton, or_comm]
    · intro name
      rw [held_cons, asked_append, last]
      by_cases own : pair.1 = name
      · subst own
        have before : asked pairs pair.1 = 0 :=
          asked_eq_zero fun mem => absent ((lists.names _).mpr mem)
        rw [if_pos rfl, if_pos rfl, before, Nat.zero_add, Nat.mod_eq_of_lt small]
      · rw [if_neg own, if_neg own, lists.total, Nat.add_zero]

/-- The names and numbers of a text; `none` when a token is not valid. -/
def textPairs (licenses : Option (List Char)) : Option (List (List Char × Nat)) :=
  match licenses with
  | none => some []
  | some text => (tokens text).mapM parseToken

theorem tokenNum_lt {number : Option (List Char)} {num : Nat} (valid : tokenNum number = some num) :
    num < 2 ^ 32 := by
  cases number with
  | none =>
    obtain rfl := some.inj valid
    decide
  | some text =>
    simp only [tokenNum] at valid
    split_ifs at valid
    obtain rfl := some.inj valid
    rw [toInt32]
    omega

theorem parseToken_lt (valid : parseToken token = some pair) : pair.2 < 2 ^ 32 := by
  rw [parseToken] at valid
  split at valid
  · cases valid
  · obtain ⟨num, numEq, rfl⟩ := map_eq_some_iff.mp valid
    exact tokenNum_lt numEq

theorem buildLoop_lists {before : List (List Char × Nat)} (lists : Lists list before)
    (valid : texts.mapM parseToken = some pairs) :
    ∃ after, buildLoop texts list = some after ∧ Lists after (before ++ pairs) := by
  induction texts generalizing list before pairs with
  | nil =>
    obtain rfl : [] = pairs := by simpa using valid
    exact ⟨list, rfl, by rwa [append_nil]⟩
  | cons token rest ih =>
    simp only [mapM_cons, Option.bind_eq_bind, Option.bind_eq_some_iff] at valid
    obtain ⟨pair, parsed, others, validRest, same⟩ := valid
    obtain rfl := some.inj same
    obtain ⟨after, built, listsAfter⟩ := ih (lists.add (parseToken_lt parsed)) validRest
    refine ⟨after, ?_, ?_⟩
    · rw [buildLoop, parsed]
      exact built
    · rwa [append_assoc] at listsAfter

theorem buildLoop_valid {after : List License} (built : buildLoop texts list = some after) :
    ∃ pairs, texts.mapM parseToken = some pairs := by
  induction texts generalizing list with
  | nil => exact ⟨[], rfl⟩
  | cons token rest ih =>
    rw [buildLoop] at built
    split at built
    · cases built
    · rename_i pair parsed
      obtain ⟨pairs, valid⟩ := ih built
      exact ⟨pair :: pairs, by simp [parsed, valid]⟩

theorem textPairs_of_valid {licenses : Option (List Char)}
    (valid : (buildLicenseList licenses).2 = true) : ∃ pairs, textPairs licenses = some pairs := by
  rcases licenses with - | ⟨- | ⟨c, text⟩⟩
  · exact ⟨[], rfl⟩
  · exact ⟨[], rfl⟩
  · simp only [buildLicenseList] at valid
    split at valid
    · cases valid
    · rename_i list built
      exact buildLoop_valid built

/-- The records of a job. -/
def entries (list : Option (List License)) : List License := list.getD []

theorem buildLicenseList_lists {licenses : Option (List Char)}
    (valid : textPairs licenses = some pairs) :
    Lists (entries (buildLicenseList licenses).1) pairs := by
  rcases licenses with - | ⟨- | ⟨c, text⟩⟩
  · obtain rfl := some.inj valid
    exact Lists.nil
  · have none : tokens [] = [] := rfl
    obtain rfl : [] = pairs := by simpa [textPairs, none] using valid
    exact Lists.nil
  · obtain ⟨after, built, lists⟩ := buildLoop_lists Lists.nil valid
    simp only [buildLicenseList, built]
    exact lists

/-! ## Reading printed records -/

/-- A name as `_build_license_list` finds it in a token. -/
def Clean (name : List Char) : Prop :=
  ∀ c ∈ name, isSpace c = false ∧ c ≠ ',' ∧ c ≠ ';' ∧ c ≠ ':' ∧ c ≠ '*'

/-- The record can be printed and read back. -/
def Printable (name : List Char) (total : Nat) : Prop :=
  total < 2 ^ 31 ∧ name.length + (decimal total).length + 2 ≤ 127

theorem splitToken_clean {number : Option (List Char)} (plain : ∀ c ∈ token, c ≠ ',' ∧ c ≠ ';')
    (parsed : splitToken token = some (text, number)) : Clean text := by
  induction token generalizing text number with
  | nil =>
    obtain ⟨rfl, -⟩ := Prod.mk.inj (some.inj parsed)
    exact fun c mem => nomatch mem
  | cons c rest ih =>
    rw [splitToken] at parsed
    split_ifs at parsed with space mark
    · obtain ⟨rfl, -⟩ := Prod.mk.inj (some.inj parsed)
      exact fun c mem => nomatch mem
    · obtain ⟨⟨tail, tailNumber⟩, tailParsed, same⟩ := map_eq_some_iff.mp parsed
      obtain ⟨rfl, -⟩ := Prod.mk.inj same
      have tailClean := ih (fun d mem => plain d (mem_cons_of_mem c mem)) tailParsed
      intro d mem
      rcases mem_cons.mp mem with rfl | inTail
      · have here := plain d mem_cons_self
        exact ⟨Bool.eq_false_iff.mpr space, here.1, here.2, fun eq => mark (.inl eq),
          fun eq => mark (.inr eq)⟩
      · exact tailClean d inTail

theorem splitOnP_plain {p : Char → Bool} {piece : List Char} (mem : piece ∈ text.splitOnP p) :
    ∀ c ∈ piece, p c = false := by
  induction text generalizing piece with
  | nil =>
    rw [splitOnP_nil, mem_singleton] at mem
    subst mem
    exact fun c none => nomatch none
  | cons c text ih =>
    rw [splitOnP_cons_eq_if_modifyHead] at mem
    split_ifs at mem with sep
    · rcases mem_cons.mp mem with rfl | later
      · exact fun c none => nomatch none
      · exact ih later
    · cases split : text.splitOnP p with
      | nil => exact absurd split (splitOnP_ne_nil p text)
      | cons first others =>
        rw [split] at mem ih
        rcases mem_cons.mp mem with rfl | later
        · intro d member
          rcases mem_cons.mp member with rfl | inFirst
          · exact Bool.eq_false_iff.mpr sep
          · exact ih mem_cons_self d inFirst
        · exact ih (mem_cons_of_mem first later)

theorem tokens_plain (mem : token ∈ tokens text) : ∀ c ∈ token, c ≠ ',' ∧ c ≠ ';' := by
  intro c member
  have plain := splitOnP_plain (mem_of_mem_filter mem) c member
  exact not_or.mp (of_decide_eq_false plain)

theorem parseToken_clean (plain : ∀ c ∈ token, c ≠ ',' ∧ c ≠ ';')
    (parsed : parseToken token = some pair) : Clean pair.1 := by
  rw [parseToken] at parsed
  split at parsed
  · cases parsed
  · rename_i text number split
    obtain ⟨num, -, rfl⟩ := map_eq_some_iff.mp parsed
    exact splitToken_clean plain split

theorem mapM_clean (plain : ∀ token ∈ texts, ∀ c ∈ token, c ≠ ',' ∧ c ≠ ';')
    (valid : texts.mapM parseToken = some pairs) : ∀ pair ∈ pairs, Clean pair.1 := by
  induction texts generalizing pairs with
  | nil =>
    obtain rfl : [] = pairs := by simpa using valid
    exact fun pair none => nomatch none
  | cons token rest ih =>
    simp only [mapM_cons, Option.bind_eq_bind, Option.bind_eq_some_iff] at valid
    obtain ⟨first, parsed, others, validRest, same⟩ := valid
    obtain rfl := some.inj same
    intro pair mem
    rcases mem_cons.mp mem with rfl | later
    · exact parseToken_clean (plain token mem_cons_self) parsed
    · exact ih (fun other member => plain other (mem_cons_of_mem token member)) validRest pair later

theorem textPairs_clean {licenses : Option (List Char)} (valid : textPairs licenses = some pairs) :
    ∀ pair ∈ pairs, Clean pair.1 := by
  cases licenses with
  | none =>
    obtain rfl := some.inj valid
    exact fun pair none => nomatch none
  | some text => exact mapM_clean (fun token => tokens_plain) valid

theorem splitToken_printed {number : List Char} (clean : Clean name) :
    splitToken (name ++ '*' :: number) = some (name, some number) := by
  induction name with
  | nil => rfl
  | cons c rest ih =>
    obtain ⟨space, -, -, colon, star⟩ := clean c mem_cons_self
    have tail := ih fun d mem => clean d (mem_cons_of_mem c mem)
    simp [splitToken, space, colon, star, tail]

theorem decimal_eq (n : Nat) : decimal n = numText 0 n := by
  simp [decimal, numText, Lib.Numerals.padded]

theorem digits_decimal (n : Nat) : ∀ c ∈ decimal n, '0' ≤ c ∧ c ≤ '9' := by
  intro c mem
  rw [decimal_eq] at mem
  have isDigit := digits_numText 0 n c mem
  rw [Char.isDigit, Bool.and_eq_true] at isDigit
  exact ⟨of_decide_eq_true isDigit.1, of_decide_eq_true isDigit.2⟩

theorem strtol_decimal {n : Nat} (small : n < 2 ^ 63) :
    strtol (decimal n) = ((n : Int), []) := by
  have digits := digits_decimal n
  have value : Lib.Numerals.readOn 10 0 ((numText 0 n).map fun c => c.toNat - 48) = n := textValue_numText 0 n
  rw [decimal_eq] at digits ⊢
  rw [strtol_digits (numText_ne_nil 0 n) digits, value, min_eq_left (by omega)]

theorem parseToken_printed {total : Nat} (clean : Clean name) (small : total < 2 ^ 31) :
    parseToken (name ++ '*' :: decimal total) = some (name, total) := by
  rw [parseToken, splitToken_printed clean]
  have read : strtol (decimal total) = ((total : Int), []) := strtol_decimal (by omega)
  have same : toInt32 total = total := by
    rw [toInt32]
    omega
  simp [tokenNum, read, same]

theorem tokens_append (text others : List Char) :
    tokens (text ++ ',' :: others) = tokens text ++ tokens others := by
  rw [tokens, splitOnP_append_cons _ _ (by decide), filter_append]
  rfl

theorem record_plain (clean : Clean name) (total : Nat) :
    ∀ c ∈ name ++ '*' :: decimal total, decide (c = ',' ∨ c = ';') = false := by
  intro c mem
  rcases mem_append.mp mem with inName | inRest
  · obtain ⟨-, comma, semicolon, -⟩ := clean c inName
    simp [comma, semicolon]
  · rcases mem_cons.mp inRest with rfl | inDigits
    · decide
    · have digit := digits_decimal _ c inDigits
      refine decide_eq_false (not_or.mpr ⟨?_, ?_⟩) <;> rintro rfl <;> revert digit <;> decide

theorem tokens_printed {total : Nat} (clean : Clean name) :
    tokens (name ++ '*' :: decimal total) = [name ++ '*' :: decimal total] := by
  rw [tokens, splitOnP_eq_singleton (record_plain clean total)]
  simp

/-- The text that is printed for a list reads as the list. -/
theorem textPairs_printed (clean : ∀ entry ∈ list, Clean entry.name)
    (printable : ∀ entry ∈ list, Printable entry.name entry.total) :
    textPairs (buildLicenseString (some list)) = some (stock list) := by
  have whole : ∀ entry ∈ list, licenseText [] entry = entry.name ++ '*' :: decimal entry.total ∧
      licenseText [','] entry = ',' :: (entry.name ++ '*' :: decimal entry.total) := by
    intro entry mem
    have room := (printable entry mem).2
    refine ⟨take_of_length_le ?_, take_of_length_le ?_⟩
    · simp only [nil_append, length_append, length_cons]
      omega
    · simp only [cons_append, nil_append, length_append, length_cons]
      omega
  have parse : ∀ entry ∈ list,
      parseToken (entry.name ++ '*' :: decimal entry.total) = some (entry.name, entry.total) :=
    fun entry mem => parseToken_printed (clean entry mem) (printable entry mem).1
  cases list with
  | nil => rfl
  | cons first rest =>
    have texts : ∀ before : List Char, ∀ others : List License, (∀ entry ∈ others, entry ∈ rest) →
        tokens (before ++ others.flatMap (licenseText [','])) =
          tokens before ++ others.map fun entry => entry.name ++ '*' :: decimal entry.total := by
      intro before others
      induction others generalizing before with
      | nil => simp
      | cons entry others ih =>
        intro mem
        have member := mem_cons_of_mem first (mem entry mem_cons_self)
        rw [flatMap_cons, (whole entry member).2, ← append_assoc,
          ih _ fun other later => mem other (mem_cons_of_mem entry later),
          tokens_append, tokens_printed (clean entry member), append_assoc]
        rfl
    rw [buildLicenseString, (whole first mem_cons_self).1, textPairs,
      texts _ _ fun _ => id, tokens_printed (clean first mem_cons_self)]
    have map : ∀ others : List License, (∀ entry ∈ others, entry ∈ first :: rest) →
        (others.map fun entry => entry.name ++ '*' :: decimal entry.total).mapM parseToken =
          some (stock others) := by
      intro others
      induction others with
      | nil => exact fun _ => rfl
      | cons entry others ih =>
        intro mem
        simp [parse entry (mem entry mem_cons_self), stock,
          ih fun other later => mem other (mem_cons_of_mem entry later)]
    exact map (first :: rest) fun _ => id

end SlurmSim.Controller.Licenses
