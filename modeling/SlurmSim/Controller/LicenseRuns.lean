import Mathlib.Algebra.Order.BigOperators.Group.Finset
import SlurmSim.Controller.Licenses
import SlurmSim.Lib.Sums

/-!
# Runs of the license accounting

Jobs are tested, take their licenses, give them back and are merged in any order. The
use counts stay the sums of what the jobs hold as long as no test adds up to more than 32
bits and no merge writes a text that does not read back.
-/

namespace SlurmSim.Controller.Licenses

open List
open Function (update update_of_ne update_self)
open Option (map_eq_some_iff some.inj)

variable {J : Type} [DecidableEq J]

/-- The configured licenses and the jobs, with those that hold their licenses and those
that were tested with success since the last one took its own. -/
structure State (J : Type) where
  table : List License
  job : J → Job
  holders : Finset J
  tested : Finset J

/-- A call of one of the functions. The reservations of a test are what
`job_test_lic_resv` counts. -/
inductive Event (J : Type) where
  | test (job : J) (resv : List Char → Nat)
  | get (job : J)
  | giveBack (job : J)
  | merge (job : J)
  | expand (shrink expand : J)

/-- One call, in the order the controller makes them. -/
def step (s : State J) : Event J → Option (State J)
  | .test job resv => some { s with
      tested := if licenseJobTest s.table resv (s.job job) = .success then insert job s.tested
        else s.tested }
  | .get job =>
    if job ∈ s.tested ∧ job ∉ s.holders then
      let (table, after, _) := licenseJobGet s.table (s.job job)
      some ⟨table, update s.job job after, insert job s.holders, ∅⟩
    else none
  | .giveBack job =>
    if job ∈ s.holders then
      let (table, after, _) := licenseJobReturn s.table (s.job job)
      some ⟨table, update s.job job after, s.holders.erase job, s.tested⟩
    else none
  | .merge job => some { s with
      job := update s.job job (licenseJobMerge (s.job job)) }
  | .expand shrink expand =>
    if shrink ≠ expand ∧ shrink ∈ s.holders ∧ expand ∈ s.holders then
      let (shrunk, expanded) := mergeJobLicenses (s.job shrink) (s.job expand)
      some { s with
        job := update (update s.job shrink shrunk) expand expanded }
    else none

/-- The names a job's list has. -/
def Job.names (job : Job) : List (List Char) := (entries job.licenseList).map License.name

/-- What a job's list asks of a license. -/
def Job.need (job : Job) (name : List Char) : Nat := held (entries job.licenseList) name

/-- The job's text says what its list has. -/
def Job.Reads (job : Job) : Prop :=
  ∃ pairs, textPairs job.licenses = some pairs ∧ Lists (entries job.licenseList) pairs

/-- The configured licenses before any job runs, and jobs with lists built from their text. -/
structure Initial (s : State J) : Prop where
  distinct : (s.table.map License.name).Nodup
  unused : ∀ license ∈ s.table, license.used = 0 ∧ license.total < 2 ^ 32
  valid : ∀ job, (buildLicenseList (s.job job).licenses).2 = true
  built : ∀ job, (s.job job).licenseList = (buildLicenseList (s.job job).licenses).1
  noHolder : s.holders = ∅
  noTested : s.tested = ∅

/-- The states of the runs whose steps meet a condition. -/
inductive Reachable (condition : State J → Event J → Prop) (start : State J) : State J → Prop where
  | start : Reachable condition start start
  | step {s after : State J} {event : Event J} (reached : Reachable condition start s)
      (meets : condition s event) (taken : step s event = some after) :
      Reachable condition start after

/-- Every use count is the sum of what the holders' lists ask and within its total, and
no holder that gives back takes a count below zero. -/
def Accounted (s : State J) : Prop :=
  (∀ license ∈ s.table,
    license.used = ∑ job ∈ s.holders, (s.job job).need license.name ∧
      license.used ≤ license.total) ∧
  ∀ job ∈ s.holders, (licenseJobReturn s.table (s.job job)).2.2 = true

/-- The sums of a test stay within 32 bits, and a merge writes numbers below `2 ^ 31` in
texts that fit into the buffer. -/
def Safe (s : State J) : Event J → Prop
  | .test job _ => ∀ name ∈ (s.job job).names, ∀ license ∈ findLicense s.table name,
      (s.job job).need name + license.used < 2 ^ 32
  | .merge job => ∀ name ∈ (s.job job).names, Printable name ((s.job job).need name)
  | .expand shrink expand =>
    (s.job shrink).licenses ≠ none → (s.job expand).licenses ≠ none →
      ∀ name ∈ (s.job expand).names ++ (s.job shrink).names,
        Printable name ((s.job expand).need name + (s.job shrink).need name)
  | _ => True

/-! ## Lists that are built again -/

variable {list : List License}

theorem asked_stock (distinct : (list.map License.name).Nodup) (name : List Char) :
    asked (stock list) name = held list name := by
  induction list with
  | nil => rfl
  | cons entry rest ih =>
    rw [map_cons, nodup_cons] at distinct
    have first : asked (stock (entry :: rest)) name =
        (if entry.name = name then entry.total else 0) + asked (stock rest) name := by
      by_cases same : entry.name = name <;> simp [asked, stock, same]
    rw [first, held_cons, ih distinct.2]
    by_cases same : entry.name = name
    · subst same
      rw [if_pos rfl, if_pos rfl, held_eq_zero distinct.1, Nat.add_zero]
    · rw [if_neg same, if_neg same, Nat.zero_add]

theorem Lists.self {pairs : List (List Char × Nat)} (lists : Lists list pairs) :
    Lists list (stock list) := by
  refine ⟨lists.distinct, fun name => ?_, fun name => ?_⟩
  · rw [stock, map_map]
    exact Iff.rfl
  · rw [asked_stock lists.distinct, Nat.mod_eq_of_lt]
    rw [lists.total]
    exact Nat.mod_lt _ (by decide)

theorem licenseJobMerge_spec {job : Job} {pairs : List (List Char × Nat)}
    (valid : textPairs job.licenses = some pairs)
    (printable : ∀ name ∈ pairs.map Prod.fst, Printable name (asked pairs name % 2 ^ 32)) :
    (licenseJobMerge job).Reads ∧ Lists (entries (licenseJobMerge job).licenseList) pairs := by
  have lists := buildLicenseList_lists valid
  refine ⟨?_, lists⟩
  simp only [licenseJobMerge]
  cases built : (buildLicenseList job.licenses).1 with
  | none => exact ⟨[], rfl, Lists.nil⟩
  | some list =>
    rw [built] at lists
    have named : ∀ entry ∈ list, entry.name ∈ pairs.map Prod.fst := fun entry mem =>
      (lists.names _).mp (mem_map_of_mem mem)
    refine ⟨stock list, textPairs_printed ?_ ?_, ?_⟩
    · intro entry mem
      obtain ⟨pair, isPair, same⟩ := mem_map.mp (named entry mem)
      exact same ▸ textPairs_clean valid pair isPair
    · intro entry mem
      have total := lists.total entry.name
      rw [held_of_mem lists.distinct mem] at total
      rw [total]
      exact printable entry.name (named entry mem)
    · exact lists.self

theorem licenseJobMerge_same {job : Job} (reads : job.Reads)
    (printable : ∀ name ∈ job.names, Printable name (job.need name)) :
    (licenseJobMerge job).Reads ∧ (∀ name, name ∈ (licenseJobMerge job).names ↔ name ∈ job.names) ∧
      ∀ name, (licenseJobMerge job).need name = job.need name := by
  obtain ⟨pairs, valid, lists⟩ := reads
  obtain ⟨again, listsAfter⟩ := licenseJobMerge_spec valid fun name mem => by
    rw [← lists.total]
    exact printable name ((lists.names name).mpr mem)
  refine ⟨again, fun name => ?_, fun name => ?_⟩
  · exact (listsAfter.names name).trans (lists.names name).symm
  · exact (listsAfter.total name).trans (lists.total name).symm

theorem mergeJobLicenses_spec {shrink expand : Job} (shrinkReads : shrink.Reads)
    (expandReads : expand.Reads)
    (small : ∀ name, expand.need name + shrink.need name < 2 ^ 32)
    (printable : shrink.licenses ≠ none → expand.licenses ≠ none →
      ∀ name ∈ expand.names ++ shrink.names, Printable name (expand.need name + shrink.need name)) :
    ((mergeJobLicenses shrink expand).1.Reads ∧ (mergeJobLicenses shrink expand).2.Reads) ∧
    (∀ name ∈ (mergeJobLicenses shrink expand).1.names, name ∈ shrink.names) ∧
    (∀ name ∈ (mergeJobLicenses shrink expand).2.names, name ∈ expand.names ++ shrink.names) ∧
    ∀ name, (mergeJobLicenses shrink expand).1.need name +
      (mergeJobLicenses shrink expand).2.need name = expand.need name + shrink.need name := by
  obtain ⟨shrinkPairs, shrinkValid, shrinkLists⟩ := shrinkReads
  obtain ⟨expandPairs, expandValid, expandLists⟩ := expandReads
  have nothing : (⟨none, none⟩ : Job).Reads := ⟨[], rfl, Lists.nil⟩
  rcases shrinkText : shrink.licenses with - | text
  · simp only [mergeJobLicenses, shrinkText]
    exact ⟨⟨⟨shrinkPairs, shrinkValid, shrinkLists⟩, ⟨expandPairs, expandValid, expandLists⟩⟩,
      fun name => id, fun name mem => mem_append_left _ mem,
      fun name => Nat.add_comm _ _⟩
  · rcases expandText : expand.licenses with - | own
    · simp only [mergeJobLicenses, shrinkText, expandText]
      rw [shrinkText] at shrinkValid
      rw [expandText] at expandValid
      obtain rfl := some.inj expandValid
      refine ⟨⟨nothing, ⟨shrinkPairs, shrinkValid, shrinkLists⟩⟩,
        fun name mem => absurd mem not_mem_nil,
        fun name mem => mem_append_right _ mem, fun name => ?_⟩
      have none : expand.need name = 0 := expandLists.total name
      rw [none]
      rfl
    · simp only [mergeJobLicenses, shrinkText, expandText]
      rw [shrinkText] at shrinkValid
      rw [expandText] at expandValid
      have valid : textPairs (some (own ++ ',' :: text)) = some (expandPairs ++ shrinkPairs) := by
        simp only [textPairs] at shrinkValid expandValid ⊢
        rw [tokens_append, mapM_append, expandValid, shrinkValid]
        rfl
      have sums : ∀ name, asked (expandPairs ++ shrinkPairs) name % 2 ^ 32 =
          expand.need name + shrink.need name := by
        intro name
        rw [asked_append, Nat.add_mod, ← expandLists.total, ← shrinkLists.total]
        exact Nat.mod_eq_of_lt (small name)
      have members : ∀ name, name ∈ (expandPairs ++ shrinkPairs).map Prod.fst ↔
          name ∈ expand.names ++ shrink.names := by
        intro name
        rw [map_append, mem_append, mem_append, ← expandLists.names, ← shrinkLists.names]
        exact Iff.rfl
      obtain ⟨reads, lists⟩ := @licenseJobMerge_spec ⟨some (own ++ ',' :: text), none⟩ _ valid
        fun name mem => by
          rw [sums]
          refine printable ?_ ?_ name ((members name).mp mem)
          · rw [shrinkText]
            exact Option.some_ne_none text
          · rw [expandText]
            exact Option.some_ne_none own
      refine ⟨⟨nothing, reads⟩, fun name mem => absurd mem not_mem_nil,
        fun name mem => (members name).mp ((lists.names name).mp mem), fun name => ?_⟩
      rw [← sums name, ← lists.total name]
      exact Nat.zero_add _

/-! ## The invariant -/

/-- The table and the jobs fit together. -/
structure Sound (s : State J) : Prop where
  distinct : (s.table.map License.name).Nodup
  small : ∀ name license, findLicense s.table name = some license → license.total < 2 ^ 32
  reads : ∀ job, (s.job job).Reads
  known : ∀ job ∈ s.holders, ∀ name ∈ (s.job job).names,
    ∃ license, findLicense s.table name = some license
  exact : ∀ name license, findLicense s.table name = some license →
    license.used = ∑ job ∈ s.holders, (s.job job).need name
  within : ∀ name license, findLicense s.table name = some license →
    license.used ≤ license.total
  room : ∀ job ∈ s.tested, job ∉ s.holders → ∀ name ∈ (s.job job).names,
    ∃ license, findLicense s.table name = some license ∧
      (s.job job).need name + license.used ≤ license.total

theorem findLicense_of_mem {table : List License} {license : License}
    (distinct : (table.map License.name).Nodup) (mem : license ∈ table) :
    findLicense table license.name = some license := by
  induction table with
  | nil => cases mem
  | cons first rest ih =>
    rw [map_cons, nodup_cons] at distinct
    rw [findLicense_cons]
    rcases mem_cons.mp mem with rfl | later
    · rw [if_pos rfl]
    · have ne : first.name ≠ license.name := fun same =>
        distinct.1 (same ▸ mem_map_of_mem later)
      rw [if_neg ne, ih distinct.2 later]

theorem mem_of_findLicense {table : List License} {license : License} {name : List Char}
    (found : findLicense table name = some license) : license ∈ table :=
  mem_of_find?_eq_some found

theorem need_eq_zero {job : Job} {name : List Char} (absent : name ∉ job.names) :
    job.need name = 0 :=
  held_eq_zero absent

/-- A job whose records have changed their uses only. -/
structure Job.Same (job after : Job) : Prop where
  reads : after.Reads
  names : ∀ name, name ∈ after.names ↔ name ∈ job.names
  need : ∀ name, after.need name = job.need name

theorem Job.Same.refl {job : Job} (reads : job.Reads) : job.Same job :=
  ⟨reads, fun _ => Iff.rfl, fun _ => rfl⟩

theorem Job.Same.of_stock {job : Job} {own : List License} (reads : job.Reads)
    (had : job.licenseList = some own) (same : stock list = stock own) :
    job.Same { job with licenseList := some list } := by
  obtain ⟨pairs, valid, lists⟩ := reads
  rw [had] at lists
  refine ⟨⟨pairs, valid, lists.of_stock same⟩, fun name => ?_, fun name => ?_⟩
  · rw [Job.names, Job.names, had]
    exact iff_of_eq (congrArg (name ∈ ·) (names_of_stock same))
  · rw [Job.need, Job.need, had]
    exact held_of_stock same

theorem licenseJobGet_spec {table : List License} {job : Job} (reads : job.Reads)
    (fits : ∀ name ∈ job.names, ∀ license, findLicense table name = some license →
      license.used + job.need name < 2 ^ 32) :
    (licenseJobGet table job).1.map License.name = table.map License.name ∧
    (∀ name, findLicense (licenseJobGet table job).1 name =
      (findLicense table name).map fun license => license.use (license.used + job.need name)) ∧
    job.Same (licenseJobGet table job).2.1 := by
  obtain ⟨pairs, valid, lists⟩ := reads
  cases had : job.licenseList with
  | none =>
    have nothing : ∀ name, job.need name = 0 := by
      intro name
      rw [Job.need, had]
      rfl
    simp only [licenseJobGet, had, nothing]
    refine ⟨trivial, fun name => ?_, .refl ⟨pairs, valid, lists⟩⟩
    cases findLicense table name <;> rfl
  | some own =>
    have need : ∀ name, job.need name = held own name := by
      intro name
      rw [Job.need, had]
      rfl
    have distinct : (own.map License.name).Nodup := by
      rw [had] at lists
      exact lists.distinct
    simp only [licenseJobGet, had]
    refine ⟨names_getLoop, fun name => ?_, .of_stock ⟨pairs, valid, lists⟩ had stock_getLoop⟩
    rw [need]
    refine findLicense_getLoop distinct fun entry mem license found => ?_
    rw [← held_of_mem distinct mem, ← need]
    refine fits entry.name ?_ license found
    rw [Job.names, had]
    exact mem_map_of_mem mem

theorem licenseJobReturn_spec {table : List License} {job : Job} (reads : job.Reads)
    (enough : ∀ name ∈ job.names, ∀ license, findLicense table name = some license →
      job.need name ≤ license.used) :
    (licenseJobReturn table job).1.map License.name = table.map License.name ∧
    (∀ name, findLicense (licenseJobReturn table job).1 name =
      (findLicense table name).map fun license => license.use (license.used - job.need name)) ∧
    job.Same (licenseJobReturn table job).2.1 ∧ (licenseJobReturn table job).2.2 = true := by
  obtain ⟨pairs, valid, lists⟩ := reads
  cases had : job.licenseList with
  | none =>
    have nothing : ∀ name, job.need name = 0 := by
      intro name
      rw [Job.need, had]
      rfl
    simp only [licenseJobReturn, had, nothing]
    refine ⟨trivial, fun name => ?_, .refl ⟨pairs, valid, lists⟩, trivial⟩
    cases findLicense table name <;> rfl
  | some own =>
    have need : ∀ name, job.need name = held own name := by
      intro name
      rw [Job.need, had]
      rfl
    have distinct : (own.map License.name).Nodup := by
      rw [had] at lists
      exact lists.distinct
    have below : ∀ entry ∈ own, ∀ license, findLicense table entry.name = some license →
        entry.total ≤ license.used := by
      intro entry mem license found
      rw [← held_of_mem distinct mem, ← need]
      refine enough entry.name ?_ license found
      rw [Job.names, had]
      exact mem_map_of_mem mem
    simp only [licenseJobReturn, had]
    refine ⟨names_returnLoop, fun name => ?_, .of_stock ⟨pairs, valid, lists⟩ had stock_returnLoop,
      (findLicense_returnLoop [] distinct below).1⟩
    rw [need]
    exact (findLicense_returnLoop name distinct below).2

namespace Sound

section

omit [DecidableEq J]
variable {s : State J}

theorem initial (start : Initial s) : Sound s := by
  have used : ∀ name license, findLicense s.table name = some license →
      license.used = 0 ∧ license.total < 2 ^ 32 :=
    fun name license found => start.unused license (mem_of_findLicense found)
  refine ⟨start.distinct, fun name license found => (used name license found).2, ?_, ?_, ?_, ?_, ?_⟩
  · intro job
    obtain ⟨pairs, valid⟩ := textPairs_of_valid (start.valid job)
    refine ⟨pairs, valid, ?_⟩
    rw [start.built]
    exact buildLicenseList_lists valid
  · rw [start.noHolder]
    exact fun job none => absurd none (Finset.notMem_empty job)
  · intro name license found
    rw [start.noHolder, Finset.sum_empty]
    exact (used name license found).1
  · intro name license found
    rw [(used name license found).1]
    exact Nat.zero_le _
  · rw [start.noTested]
    exact fun job none => absurd none (Finset.notMem_empty job)

theorem need_le_used (sound : Sound s) {job : J} (holder : job ∈ s.holders) {name : List Char}
    {license : License} (found : findLicense s.table name = some license) :
    (s.job job).need name ≤ license.used := by
  rw [sound.exact name license found]
  exact Finset.single_le_sum (fun other _ => Nat.zero_le ((s.job other).need name)) holder

theorem giveBack_ok (sound : Sound s) {job : J} (holder : job ∈ s.holders) :
    (licenseJobReturn s.table (s.job job)).2.2 = true :=
  (licenseJobReturn_spec (sound.reads job) fun _ _ _ found => sound.need_le_used holder found).2.2.2

theorem accounted (sound : Sound s) : Accounted s := by
  refine ⟨fun license mem => ?_, fun job => sound.giveBack_ok⟩
  have found := findLicense_of_mem sound.distinct mem
  exact ⟨sound.exact _ license found, sound.within _ license found⟩

end

variable {s after : State J} {job : J}

theorem test (sound : Sound s) {resv : List Char → Nat} (safe : Safe s (.test job resv))
    (taken : step s (.test job resv) = some after) : Sound after := by
  obtain rfl := some.inj taken
  refine ⟨sound.distinct, sound.small, sound.reads, sound.known, sound.exact, sound.within, ?_⟩
  intro other isTested notHolder name mem
  by_cases before : other ∈ s.tested
  · exact sound.room other before notHolder name mem
  · split_ifs at isTested with success
    · obtain rfl : other = job := (Finset.mem_insert.mp isTested).resolve_right before
      obtain ⟨pairs, -, lists⟩ := sound.reads other
      cases had : (s.job other).licenseList with
      | none =>
        rw [Job.names, had] at mem
        exact absurd mem not_mem_nil
      | some own =>
        rw [had] at lists
        simp only [licenseJobTest, had] at success
        have member := mem
        rw [Job.names, had] at member
        obtain ⟨entry, isEntry, rfl⟩ := mem_map.mp member
        obtain ⟨license, found, -, full⟩ := testLoop_success success isEntry
        have need : (s.job other).need entry.name = entry.total := by
          rw [Job.need, had]
          exact held_of_mem lists.distinct isEntry
        have small := safe entry.name mem license found
        refine ⟨license, found, ?_⟩
        rw [need] at small ⊢
        rwa [Nat.mod_eq_of_lt small] at full
    · exact absurd isTested before

omit [DecidableEq J] in
theorem of_same (sound : Sound s) (used : List Char → License → Nat)
    (names : after.table.map License.name = s.table.map License.name)
    (found : ∀ name, findLicense after.table name =
      (findLicense s.table name).map fun license => license.use (used name license))
    (same : ∀ other, (s.job other).Same (after.job other))
    (known : ∀ other ∈ after.holders, ∀ name ∈ (s.job other).names,
      ∃ license, findLicense s.table name = some license)
    (exact : ∀ name license, findLicense s.table name = some license →
      used name license = ∑ other ∈ after.holders, (s.job other).need name ∧
        used name license ≤ license.total)
    (room : ∀ other ∈ after.tested, other ∉ after.holders → ∀ name ∈ (s.job other).names,
      ∃ license, findLicense s.table name = some license ∧
        (s.job other).need name + used name license ≤ license.total) : Sound after := by
  have back : ∀ name license, findLicense after.table name = some license →
      ∃ before, findLicense s.table name = some before ∧
        license = before.use (used name before) := by
    intro name license isFound
    rw [found] at isFound
    obtain ⟨before, foundBefore, rfl⟩ := map_eq_some_iff.mp isFound
    exact ⟨before, foundBefore, rfl⟩
  refine ⟨?_, ?_, fun other => (same other).reads, ?_, ?_, ?_, ?_⟩
  · rw [names]
    exact sound.distinct
  · intro name license isFound
    obtain ⟨before, foundBefore, rfl⟩ := back name license isFound
    exact sound.small name before foundBefore
  · intro other holder name inside
    obtain ⟨license, isFound⟩ := known other holder name (((same other).names name).mp inside)
    exact ⟨_, by rw [found, isFound]; rfl⟩
  · intro name license isFound
    obtain ⟨before, foundBefore, rfl⟩ := back name license isFound
    refine (exact name before foundBefore).1.trans (Finset.sum_congr rfl fun other _ => ?_)
    exact ((same other).need name).symm
  · intro name license isFound
    obtain ⟨before, foundBefore, rfl⟩ := back name license isFound
    exact (exact name before foundBefore).2
  · intro other isTested notHolder name inside
    obtain ⟨license, isFound, enough⟩ :=
      room other isTested notHolder name (((same other).names name).mp inside)
    refine ⟨_, by rw [found, isFound]; rfl, ?_⟩
    rw [(same other).need]
    exact enough

theorem same_update (sound : Sound s) {record : Job} (same : (s.job job).Same record) (other : J) :
    (s.job other).Same (update s.job job record other) := by
  by_cases own : other = job
  · subst own
    rwa [update_self]
  · rw [update_of_ne own]
    exact .refl (sound.reads other)

theorem get (sound : Sound s) (taken : step s (.get job) = some after) : Sound after := by
  simp only [step] at taken
  split_ifs at taken with may
  obtain rfl := some.inj taken
  obtain ⟨isTested, notHolder⟩ := may
  have room := sound.room job isTested notHolder
  have fits : ∀ name license, findLicense s.table name = some license →
      license.used + (s.job job).need name ≤ license.total := by
    intro name license isFound
    by_cases mem : name ∈ (s.job job).names
    · obtain ⟨found, foundEq, enough⟩ := room name mem
      obtain rfl := some.inj (foundEq.symm.trans isFound)
      omega
    · rw [need_eq_zero mem]
      exact sound.within name license isFound
  obtain ⟨names, found, same⟩ := licenseJobGet_spec (sound.reads job) fun name _ license isFound =>
      lt_of_le_of_lt (fits name license isFound) (sound.small name license isFound)
  refine sound.of_same _ names found (sound.same_update same) ?_ ?_ ?_
  · intro other holder name mem
    rcases Finset.mem_insert.mp holder with rfl | before
    · obtain ⟨license, isFound, -⟩ := room name mem
      exact ⟨license, isFound⟩
    · exact sound.known other before name mem
  · intro name license isFound
    refine ⟨?_, fits name license isFound⟩
    rw [Finset.sum_insert notHolder, sound.exact name license isFound, Nat.add_comm]
  · exact fun other none => absurd none (Finset.notMem_empty other)

theorem giveBack (sound : Sound s) (taken : step s (.giveBack job) = some after) :
    Sound after := by
  simp only [step] at taken
  split_ifs at taken with holder
  obtain rfl := some.inj taken
  obtain ⟨names, found, same, -⟩ := licenseJobReturn_spec (sound.reads job)
    fun _ _ _ isFound => sound.need_le_used holder isFound
  refine sound.of_same _ names found (sound.same_update same) ?_ ?_ ?_
  · exact fun other mem => sound.known other (Finset.mem_of_mem_erase mem)
  · intro name license isFound
    have sum := Finset.sum_erase_add s.holders (fun other => (s.job other).need name) holder
    have within := sound.within name license isFound
    rw [sound.exact name license isFound] at within ⊢
    rw [← sum] at within ⊢
    refine ⟨Nat.add_sub_cancel _ _, ?_⟩
    omega
  · intro other isTested notHolder name mem
    by_cases own : other = job
    · subst own
      obtain ⟨license, isFound⟩ := sound.known other holder name mem
      refine ⟨license, isFound, ?_⟩
      rw [Nat.add_sub_cancel' (sound.need_le_used holder isFound)]
      exact sound.within name license isFound
    · have before : other ∉ s.holders := fun was => notHolder (Finset.mem_erase.mpr ⟨own, was⟩)
      obtain ⟨license, isFound, enough⟩ := sound.room other isTested before name mem
      refine ⟨license, isFound, ?_⟩
      omega

theorem merge (sound : Sound s) (safe : Safe s (.merge job))
    (taken : step s (.merge job) = some after) : Sound after := by
  obtain rfl := some.inj taken
  obtain ⟨reads, names, need⟩ := licenseJobMerge_same (sound.reads job) safe
  refine sound.of_same (fun _ license => license.used) rfl ?_
    (sound.same_update ⟨reads, names, need⟩) sound.known ?_ sound.room
  · intro name
    cases findLicense s.table name <;> rfl
  · exact fun name license isFound =>
      ⟨sound.exact name license isFound, sound.within name license isFound⟩

theorem two_needs_le (sound : Sound s) {shrink expand : J} (ne : shrink ≠ expand)
    (inShrink : shrink ∈ s.holders) (inExpand : expand ∈ s.holders) {name : List Char}
    {license : License} (found : findLicense s.table name = some license) :
    (s.job expand).need name + (s.job shrink).need name ≤ license.used := by
  have pair : ∑ job ∈ {expand, shrink}, (s.job job).need name =
      (s.job expand).need name + (s.job shrink).need name := Finset.sum_pair ne.symm
  rw [sound.exact name license found, ← pair]
  refine Finset.sum_le_sum_of_subset fun other mem => ?_
  rcases Finset.mem_insert.mp mem with rfl | isShrink
  · exact inExpand
  · rw [Finset.mem_singleton.mp isShrink]
    exact inShrink

theorem of_transfer (sound : Sound s) {shrink expand : J} (ne : shrink ≠ expand)
    (inShrink : shrink ∈ s.holders) (inExpand : expand ∈ s.holders) {jobs : J → Job}
    (others : ∀ other, other ≠ shrink → other ≠ expand → jobs other = s.job other)
    (shrunkReads : (jobs shrink).Reads) (expandedReads : (jobs expand).Reads)
    (shrunkNames : ∀ name ∈ (jobs shrink).names, name ∈ (s.job shrink).names)
    (expandedNames : ∀ name ∈ (jobs expand).names,
      name ∈ (s.job expand).names ++ (s.job shrink).names)
    (needs : ∀ name, (jobs shrink).need name + (jobs expand).need name =
      (s.job expand).need name + (s.job shrink).need name) :
    Sound { s with job := jobs } := by
  refine ⟨sound.distinct, sound.small, ?_, ?_, ?_, sound.within, ?_⟩
  · intro other
    by_cases isExpand : other = expand
    · exact isExpand ▸ expandedReads
    · by_cases isShrink : other = shrink
      · exact isShrink ▸ shrunkReads
      · simp only [others other isShrink isExpand]
        exact sound.reads other
  · intro other holder name mem
    by_cases isExpand : other = expand
    · subst isExpand
      exact (mem_append.mp (expandedNames name mem)).elim
        (sound.known other inExpand name) (sound.known shrink inShrink name)
    · by_cases isShrink : other = shrink
      · subst isShrink
        exact sound.known other inShrink name (shrunkNames name mem)
      · simp only [others other isShrink isExpand] at mem
        exact sound.known other holder name mem
  · intro name license found
    have first := Lib.sum_change (fun other => (s.job other).need name)
      (fun other => (update s.job shrink (jobs shrink) other).need name) inShrink
      fun other _ notShrink => by rw [update_of_ne notShrink]
    have second := Lib.sum_change (fun other => (update s.job shrink (jobs shrink) other).need name)
      (fun other => (jobs other).need name) inExpand fun other _ notExpand => by
        by_cases isShrink : other = shrink
        · rw [isShrink, update_self]
        · rw [update_of_ne isShrink, others other isShrink notExpand]
    simp only [update_self, update_of_ne ne.symm] at first second
    have moved := needs name
    rw [sound.exact name license found]
    simp only
    omega
  · intro other isTested notHolder name mem
    have notShrink : other ≠ shrink := fun eq => notHolder (eq ▸ inShrink)
    have notExpand : other ≠ expand := fun eq => notHolder (eq ▸ inExpand)
    simp only [others other notShrink notExpand] at mem ⊢
    exact sound.room other isTested notHolder name mem

theorem expand (sound : Sound s) {shrink expand : J} (safe : Safe s (.expand shrink expand))
    (taken : step s (.expand shrink expand) = some after) : Sound after := by
  simp only [step] at taken
  split_ifs at taken with may
  obtain rfl := some.inj taken
  obtain ⟨ne, inShrink, inExpand⟩ := may
  have small : ∀ name, (s.job expand).need name + (s.job shrink).need name < 2 ^ 32 := by
    intro name
    by_cases mem : name ∈ (s.job expand).names ∨ name ∈ (s.job shrink).names
    · obtain ⟨license, found⟩ : ∃ license, findLicense s.table name = some license :=
        mem.elim (sound.known expand inExpand name) (sound.known shrink inShrink name)
      have both := sound.two_needs_le ne inShrink inExpand found
      have within := sound.within name license found
      have total := sound.small name license found
      omega
    · rw [need_eq_zero fun inE => mem (.inl inE), need_eq_zero fun inS => mem (.inr inS)]
      decide
  obtain ⟨⟨shrunkReads, expandedReads⟩, shrunkNames, expandedNames, needs⟩ :=
    mergeJobLicenses_spec (sound.reads shrink) (sound.reads expand) small safe
  refine sound.of_transfer ne inShrink inExpand ?_ ?_ ?_ ?_ ?_ ?_
  · intro other notShrink notExpand
    rw [update_of_ne notExpand, update_of_ne notShrink]
  · rwa [update_of_ne ne, update_self]
  · rwa [update_self]
  · rwa [update_of_ne ne, update_self]
  · rwa [update_self]
  · rwa [update_of_ne ne, update_self, update_self]

theorem step {event : Event J} (sound : Sound s) (safe : Safe s event)
    (taken : Licenses.step s event = some after) : Sound after := by
  cases event with
  | test job resv => exact sound.test safe taken
  | get job => exact sound.get taken
  | giveBack job => exact sound.giveBack taken
  | merge job => exact sound.merge safe taken
  | expand shrink expand => exact sound.expand safe taken

end Sound

theorem Reachable.sound {start s : State J} (initial : Initial start)
    (reached : Reachable Safe start s) : Sound s := by
  induction reached with
  | start => exact Sound.initial initial
  | step _ meets taken ih => exact ih.step meets taken

/-! ## The accounting -/

/-- In every run of safe steps the accounting is exact. -/
theorem license_accounting {start s : State J} (initial : Initial start)
    (reached : Reachable Safe start s) : Accounted s :=
  (reached.sound initial).accounted

instance (name : List Char) (total : Nat) : Decidable (Printable name total) :=
  inferInstanceAs (Decidable (_ ∧ _))

instance (s : State J) : DecidablePred (Safe s)
  | .test job _ => inferInstanceAs (Decidable (∀ name ∈ (s.job job).names,
      ∀ license ∈ findLicense s.table name, (s.job job).need name + license.used < 2 ^ 32))
  | .merge job => inferInstanceAs (Decidable (∀ name ∈ (s.job job).names,
      Printable name ((s.job job).need name)))
  | .expand shrink expand => inferInstanceAs (Decidable ((s.job shrink).licenses ≠ none →
      (s.job expand).licenses ≠ none → ∀ name ∈ (s.job expand).names ++ (s.job shrink).names,
        Printable name ((s.job expand).need name + (s.job shrink).need name)))
  | .get _ => inferInstanceAs (Decidable True)
  | .giveBack _ => inferInstanceAs (Decidable True)

/-- A list of calls that meet a condition. -/
def run (condition : State J → Event J → Prop) [∀ s, DecidablePred (condition s)] (s : State J) :
    List (Event J) → Option (State J)
  | [] => some s
  | event :: rest =>
    if condition s event then (step s event).bind fun after => run condition after rest
    else none

theorem Reachable.run {condition : State J → Event J → Prop} [∀ s, DecidablePred (condition s)]
    {start s after : State J} {events : List (Event J)} (reached : Reachable condition start s)
    (ran : run condition s events = some after) : Reachable condition start after := by
  induction events generalizing s with
  | nil => exact some.inj ran ▸ reached
  | cons event rest ih =>
    rw [Licenses.run] at ran
    split_ifs at ran with meets
    obtain ⟨next, taken, ranRest⟩ := Option.bind_eq_some_iff.mp ran
    exact ih (reached.step meets taken) ranRest

/-- A job as it is submitted. -/
def submitted (text : String) : Job :=
  ⟨some text.toList, (buildLicenseList (some text.toList)).1⟩

/-- The configured licenses of a text and two jobs. -/
def twoJobs (config first second : String) : State Bool :=
  ⟨entries (buildLicenseList (some config.toList)).1,
    fun job => if job then submitted first else submitted second, ∅, ∅⟩

/-- Both jobs are tested and take their licenses. -/
def bothGet : List (Event Bool) :=
  [.test true fun _ => 0, .get true, .test false fun _ => 0, .get false]

/-- One job takes three of ten licenses, the other takes two, and their lists are merged. -/
theorem license_accounting_merged :
    ∃ s : State Bool, Reachable Safe (twoJobs "matlab:10" "matlab:3" "matlab,matlab") s ∧
      true ∈ s.holders ∧ (s.job true).need "matlab".toList = 5 ∧ Accounted s := by
  have checked : (run Safe (twoJobs "matlab:10" "matlab:3" "matlab,matlab")
      (bothGet ++ [.expand false true, .merge true])).map
        (fun s => decide (true ∈ s.holders ∧ (s.job true).need "matlab".toList = 5)) =
      some true := by
    decide +kernel
  obtain ⟨s, ran, holds⟩ := map_eq_some_iff.mp checked
  have facts := of_decide_eq_true holds
  have initial : Initial (twoJobs "matlab:10" "matlab:3" "matlab,matlab") := by
    refine ⟨by decide +kernel, by decide +kernel, by decide +kernel, ?_, rfl, rfl⟩
    rintro (_ | _) <;> rfl
  have reached := Reachable.start.run ran
  exact ⟨s, reached, facts.1, facts.2, license_accounting initial reached⟩

/-- Two jobs that ask for three thousand million licenses each pass the test of four
thousand million, and the first that gives back takes the count below zero. -/
theorem license_accounting_wraps :
    ¬ ∀ start s : State Bool, Initial start → Reachable (fun _ _ => True) start s →
      Accounted s := by
  intro always
  have checked : (run (fun _ _ => True) (twoJobs "foo:2147483647,foo:2147483647"
      "foo:2147483647,foo:852516353" "foo:2147483647,foo:852516353") bothGet).map
        (fun s => decide (true ∈ s.holders ∧
          (licenseJobReturn s.table (s.job true)).2.2 = false)) = some true := by
    decide +kernel
  obtain ⟨s, ran, holds⟩ := map_eq_some_iff.mp checked
  obtain ⟨holder, underflow⟩ := of_decide_eq_true holds
  have initial : Initial (twoJobs "foo:2147483647,foo:2147483647"
      "foo:2147483647,foo:852516353" "foo:2147483647,foo:852516353") := by
    refine ⟨by decide +kernel, by decide +kernel, by decide +kernel, ?_, rfl, rfl⟩
    rintro (_ | _) <;> rfl
  have accounted := always _ s initial (Reachable.start.run ran)
  exact Bool.false_ne_true (underflow.symm.trans (accounted.2 true holder))

end SlurmSim.Controller.Licenses
