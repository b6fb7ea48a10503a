import SlurmSim.Hostlist.Hostname
import SlurmSim.Lib.BinarySearch
import SlurmSim.Priority.Energy

/-!
# The table of applications

`init_apps` reads the energy models of the applications from a file and sorts them by
application, `_get_priority_internal` looks for the application that the comment of a job
names.  An access outside an array or through a null pointer has no result.
-/

namespace SlurmSim.Priority

open SlurmSim.Lib SlurmSim.Hostlist List
open Option (bind_some some.inj)

variable {D : Type}

/-- A line of the apps file, with one parameter at least. -/
structure AppLine (D : Type) where
  appId : UInt32
  model : AppModel D

/-- The number in the first line, and the lines behind it. -/
structure AppsFile (D : Type) where
  numApps : Nat
  lines : List (AppLine D)

/-- `(int) A->app_id - B->app_id`: the difference is taken of unsigned numbers. -/
def cmpAppId (a b : UInt32) : Int := (a - b).toInt32.toInt

/-- `_cmp_app_info` -/
def cmpAppInfo (a b : AppInfo D) : Int :=
  cmpAppId (UInt32.ofNat a.appId) (UInt32.ofNat b.appId)

/-! ## Reading the file -/

/-- The filled entries of `apps_info`, the last one in front, and `prec_app_id`. -/
structure AppsRead (D : Type) where
  filled : List (AppInfo D)
  precAppId : UInt32

/-- A line of another application than the line before starts an entry. -/
def AppsRead.entry (numApps : Nat) (s : AppsRead D) (appId : UInt32) : Option (AppsRead D) :=
  if appId = s.precAppId then some s
  else if numApps ≤ s.filled.length then none
  else some ⟨⟨appId.toNat, []⟩ :: s.filled, appId⟩

/-- The model is added to the last entry, which has space for `n_modules` models. -/
def AppsRead.addModel (nModules : Nat) (s : AppsRead D) (model : AppModel D) :
    Option (AppsRead D) :=
  match s.filled with
  | [] => none
  | app :: rest =>
    if nModules ≤ app.models.length then none
    else some ⟨{ app with models := app.models ++ [model] } :: rest, s.precAppId⟩

def AppsRead.readLine (nModules numApps : Nat) (s : AppsRead D) (line : AppLine D) :
    Option (AppsRead D) :=
  (s.entry numApps line.appId).bind fun s => s.addModel nModules line.model

def AppsRead.readLines (nModules numApps : Nat) (s : AppsRead D) :
    List (AppLine D) → Option (AppsRead D)
  | [] => some s
  | line :: rest => (s.readLine nModules numApps line).bind fun s => s.readLines nModules numApps rest

/-- `init_apps`.  An entry that no line has filled is a null pointer, which the sort reads
through, or the first search when it is the only entry. -/
def initApps (nModules : Nat) (file : AppsFile D) : Option (List (AppInfo D)) :=
  (AppsRead.readLines nModules file.numApps ⟨[], 0xffffffff⟩ file.lines).bind fun s =>
    if s.filled.length < file.numApps then none else some (qsort cmpAppInfo s.filled.reverse)

/-! ## The lookup -/

/-- The application that a comment names. -/
def appIdOf (comment : List Char) : UInt32 := UInt32.ofNat (strtoul comment).1

/-- `app = *app_ptr` comes in front of the test of `app_ptr`; a found application, or the
path of an invalid one. -/
def lookupApp (appsInfo : List (AppInfo D)) (comment : List Char) :
    Option (Option (AppInfo D)) :=
  let appToSearch : AppInfo D := ⟨(appIdOf comment).toNat, []⟩
  match bsearch (cmpAppInfo appToSearch) appsInfo with
  | none => none
  | some app =>
    if (bsearch (cmpAppInfo appToSearch) appsInfo).isNone then some none else some (some app)

/-- The application of a job with its base priority, which the path of an invalid application
leaves as it is. -/
def energyLookup (appsInfo : List (AppInfo D)) (comment : List Char) (priority : Nat) :
    Option (Option (AppInfo D) × Nat) :=
  (lookupApp appsInfo comment).map fun app => (app, priority)

/-! ## What the file declares -/

/-- An entry takes in the next one of the same application. -/
def joinApp (app : AppInfo D) : List (AppInfo D) → List (AppInfo D)
  | [] => [app]
  | next :: rest =>
    if next.appId = app.appId then { app with models := app.models ++ next.models } :: rest
    else app :: next :: rest

/-- The runs of lines with one application. -/
def appGroups : List (AppLine D) → List (AppInfo D)
  | [] => []
  | line :: rest => joinApp ⟨line.appId.toNat, [line.model]⟩ (appGroups rest)

def AppsFile.Declares (file : AppsFile D) (appId : UInt32) : Prop :=
  ∃ line ∈ file.lines, line.appId = appId

/-- The number in the first line counts the runs, no run has more models than there are
modules, and the first line is not of the application that `prec_app_id` starts with. -/
structure AppsFile.WellFormed (file : AppsFile D) (nModules : Nat) : Prop where
  counted : file.numApps = (appGroups file.lines).length
  small : ∀ app ∈ appGroups file.lines, app.models.length ≤ nModules
  start : ∀ line rest, file.lines = line :: rest → line.appId ≠ 0xffffffff

/-- The comparator orders the applications of the file. -/
structure AppsFile.Ordered (file : AppsFile D) : Prop where
  opposite : ∀ a b, file.Declares a → file.Declares b → cmpAppId a b < 0 → 0 < cmpAppId b a
  trans : ∀ a b c, file.Declares a → file.Declares b → file.Declares c →
    cmpAppId a b < 0 → cmpAppId b c < 0 → cmpAppId a c < 0

/-- The lookup of a job finds the record of a declared application, and otherwise leaves the
base priority. -/
structure LooksUp (nModules : Nat) (file : AppsFile D) (comment : List Char) (priority : Nat)
    (appsInfo : List (AppInfo D)) : Prop where
  read : initApps nModules file = some appsInfo
  found : file.Declares (appIdOf comment) → ∃ app ∈ appGroups file.lines,
    app.appId = (appIdOf comment).toNat ∧
      energyLookup appsInfo comment priority = some (some app, priority)
  invalid : ¬file.Declares (appIdOf comment) →
    energyLookup appsInfo comment priority = some (none, priority)

/-! ## Runs of lines -/

theorem joinApp_eq (app : AppInfo D) (groups : List (AppInfo D)) : ∃ models rest,
    joinApp app groups = { app with models := app.models ++ models } :: rest := by
  cases groups with
  | nil => exact ⟨[], [], by rw [joinApp, append_nil]⟩
  | cons next rest =>
    rw [joinApp]
    split_ifs with same
    · exact ⟨next.models, rest, rfl⟩
    · exact ⟨[], next :: rest, by rw [append_nil]⟩

variable {app : AppInfo D}

theorem joinApp_same {appId : Nat} (same : appId = app.appId) (model : AppModel D)
    (groups : List (AppInfo D)) :
    joinApp app (joinApp ⟨appId, [model]⟩ groups) =
      joinApp { app with models := app.models ++ [model] } groups := by
  subst same
  cases groups with
  | nil => rw [joinApp, joinApp, joinApp, if_pos rfl]
  | cons next rest =>
    rw [joinApp, joinApp]
    split_ifs with joins
    · rw [joinApp, if_pos rfl, append_assoc]
    · rw [joinApp, if_pos rfl]

theorem joinApp_ne {appId : Nat} (ne : appId ≠ app.appId) (models : List (AppModel D))
    (groups : List (AppInfo D)) :
    joinApp app (joinApp ⟨appId, models⟩ groups) = app :: joinApp ⟨appId, models⟩ groups := by
  obtain ⟨more, rest, eq⟩ := joinApp_eq ⟨appId, models⟩ groups
  rw [eq, joinApp, if_neg ne]

theorem exists_mem_joinApp {groups : List (AppInfo D)} {appId : Nat} :
    (∃ group ∈ joinApp app groups, group.appId = appId) ↔
      app.appId = appId ∨ ∃ group ∈ groups, group.appId = appId := by
  cases groups with
  | nil => simp [joinApp]
  | cons next rest =>
    rw [joinApp]
    split_ifs with same
    · simp only [exists_mem_cons_iff, same, ← or_assoc, or_self]
    · simp only [exists_mem_cons_iff]

theorem exists_mem_appGroups {lines : List (AppLine D)} {appId : UInt32} :
    (∃ group ∈ appGroups lines, group.appId = appId.toNat) ↔ ∃ line ∈ lines, line.appId = appId := by
  induction lines with
  | nil => simp [appGroups]
  | cons line rest ih =>
    rw [appGroups, exists_mem_joinApp, ih, exists_mem_cons_iff]
    exact or_congr_left UInt32.toNat_inj

theorem exists_declared {file : AppsFile D} (mem : app ∈ appGroups file.lines) :
    ∃ appId : UInt32, app.appId = appId.toNat ∧ file.Declares appId := by
  have bounded : ∀ lines : List (AppLine D), ∀ group ∈ appGroups lines,
      ∃ appId : UInt32, group.appId = appId.toNat := by
    intro lines
    induction lines with
    | nil => exact fun _ mem => absurd mem not_mem_nil
    | cons line rest ih =>
      intro group mem
      have known := exists_mem_joinApp.mp ⟨group, mem, rfl⟩
      rcases known with own | ⟨other, inRest, same⟩
      · exact ⟨line.appId, own.symm⟩
      · exact same ▸ ih other inRest
  obtain ⟨appId, eq⟩ := bounded file.lines app mem
  exact ⟨appId, eq, exists_mem_appGroups.mp ⟨app, mem, eq⟩⟩

/-! ## What is read -/

section ReadLines

variable {nModules numApps : Nat}

variable {prec : UInt32} {line : AppLine D}

theorem readLine_same {app : AppInfo D} {rest : List (AppInfo D)} (same : line.appId = prec) :
    AppsRead.readLine nModules numApps ⟨app :: rest, prec⟩ line =
      if nModules ≤ app.models.length then none
      else some ⟨{ app with models := app.models ++ [line.model] } :: rest, prec⟩ := by
  rw [AppsRead.readLine, AppsRead.entry, if_pos same, bind_some, AppsRead.addModel]

theorem readLine_new {filled : List (AppInfo D)} (ne : line.appId ≠ prec) :
    AppsRead.readLine nModules numApps ⟨filled, prec⟩ line =
      if numApps ≤ filled.length ∨ nModules = 0 then none
      else some ⟨⟨line.appId.toNat, [line.model]⟩ :: filled, line.appId⟩ := by
  rw [AppsRead.readLine, AppsRead.entry, if_neg ne]
  by_cases full : numApps ≤ filled.length
  · rw [if_pos full, if_pos (.inl full), Option.bind_none]
  · rw [if_neg full, bind_some, AppsRead.addModel]
    by_cases noModules : nModules = 0
    · simp [noModules]
    · simp [full, noModules]

/-- The lines behind one that has an entry: what is read are the runs. -/
theorem readLines_sound {lines : List (AppLine D)} {app : AppInfo D} {rest : List (AppInfo D)}
    {prec : UInt32} {s : AppsRead D} (known : app.appId = prec.toNat)
    (small : app.models.length ≤ nModules) (room : rest.length < numApps)
    (read : AppsRead.readLines nModules numApps ⟨app :: rest, prec⟩ lines = some s) :
    s.filled.reverse = rest.reverse ++ joinApp app (appGroups lines) ∧ s.filled.length ≤ numApps ∧
      ∀ group ∈ joinApp app (appGroups lines), group.models.length ≤ nModules := by
  induction lines generalizing app rest prec with
  | nil =>
    obtain rfl := some.inj read
    refine ⟨by simp [appGroups, joinApp], room, ?_⟩
    simpa [appGroups, joinApp] using small
  | cons line lines ih =>
    rw [AppsRead.readLines] at read
    rw [appGroups]
    by_cases same : line.appId = prec
    · rw [readLine_same same] at read
      split_ifs at read with full
      · cases read
      · rw [joinApp_same (by rw [same, known])]
        refine ih known ?_ room read
        rw [length_append, length_singleton]
        omega
    · rw [readLine_new same] at read
      split_ifs at read with full
      · cases read
      · obtain ⟨room', hasModules⟩ := not_or.mp full
        have ne : line.appId.toNat ≠ app.appId := fun eq =>
          same (UInt32.toNat_inj.mp (eq.trans known))
        rw [joinApp_ne ne]
        have one : [line.model].length ≤ nModules := Nat.pos_of_ne_zero hasModules
        obtain ⟨eq, fits, all⟩ := @ih ⟨line.appId.toNat, [line.model]⟩ (app :: rest) line.appId rfl
          one (Nat.lt_of_not_le room') read
        refine ⟨?_, fits, fun group mem => ?_⟩
        · rw [eq, reverse_cons, append_assoc, singleton_append]
        · rcases mem_cons.mp mem with rfl | later
          · exact small
          · exact all group later

theorem readLines_complete {lines : List (AppLine D)} {app : AppInfo D} {rest : List (AppInfo D)}
    (known : app.appId = prec.toNat)
    (room : rest.length + (joinApp app (appGroups lines)).length ≤ numApps)
    (small : ∀ group ∈ joinApp app (appGroups lines), group.models.length ≤ nModules) :
    ∃ s, AppsRead.readLines nModules numApps ⟨app :: rest, prec⟩ lines = some s := by
  induction lines generalizing app rest prec with
  | nil => exact ⟨_, rfl⟩
  | cons line lines ih =>
    rw [AppsRead.readLines]
    rw [appGroups] at room small
    by_cases same : line.appId = prec
    · rw [joinApp_same (by rw [same, known])] at room small
      obtain ⟨more, later, eq⟩ := joinApp_eq { app with models := app.models ++ [line.model] }
        (appGroups lines)
      have fits := small _ (eq ▸ mem_cons_self)
      simp only [length_append, length_singleton] at fits
      rw [readLine_same same, if_neg (by omega), bind_some]
      exact ih known room small
    · have ne : line.appId.toNat ≠ app.appId := fun eq =>
        same (UInt32.toNat_inj.mp (eq.trans known))
      rw [joinApp_ne ne] at room small
      obtain ⟨more, later, eq⟩ := joinApp_eq ⟨line.appId.toNat, [line.model]⟩ (appGroups lines)
      have fits := small _ (mem_cons_of_mem _ (eq ▸ mem_cons_self))
      have long : 1 ≤ (joinApp ⟨line.appId.toNat, [line.model]⟩ (appGroups lines)).length := by
        rw [eq]
        exact Nat.succ_le_succ (Nat.zero_le _)
      simp only [length_append, length_singleton] at fits
      rw [length_cons] at room
      rw [readLine_new same, if_neg (not_or.mpr ⟨by simp only [length_cons]; omega, by omega⟩),
        bind_some]
      refine ih rfl ?_ fun group mem => small group (mem_cons_of_mem _ mem)
      rw [length_cons]
      omega

theorem readLine_start (isStart : line.appId = 0xffffffff) :
    AppsRead.readLine nModules numApps ⟨[], 0xffffffff⟩ line = none := by
  rw [AppsRead.readLine, AppsRead.entry, if_pos isStart]
  simp [AppsRead.addModel]

/-- The whole file: what is read are the runs. -/
theorem readLines_runs {lines : List (AppLine D)} {s : AppsRead D}
    (read : AppsRead.readLines nModules numApps ⟨[], 0xffffffff⟩ lines = some s) :
    (∀ line rest, lines = line :: rest → line.appId ≠ 0xffffffff) ∧
      s.filled.reverse = appGroups lines ∧ s.filled.length ≤ numApps ∧
      ∀ group ∈ appGroups lines, group.models.length ≤ nModules := by
  cases lines with
  | nil =>
    obtain rfl := some.inj read
    exact ⟨fun line rest eq => absurd eq (cons_ne_nil line rest).symm, rfl, Nat.zero_le _,
      fun group mem => absurd mem not_mem_nil⟩
  | cons line rest =>
    obtain ⟨first, readFirst, readRest⟩ := Option.bind_eq_some_iff.mp read
    have notStart : line.appId ≠ 0xffffffff := by
      intro isStart
      rw [readLine_start isStart] at readFirst
      cases readFirst
    rw [readLine_new notStart] at readFirst
    split_ifs at readFirst with full
    obtain ⟨room, hasModules⟩ := not_or.mp full
    obtain rfl := some.inj readFirst
    have one : [line.model].length ≤ nModules := Nat.pos_of_ne_zero hasModules
    obtain ⟨eq, fits, all⟩ := @readLines_sound D nModules numApps rest
      ⟨line.appId.toNat, [line.model]⟩ [] line.appId s rfl one (Nat.lt_of_not_le room) readRest
    refine ⟨fun other _ same isStart => ?_, eq, fits, all⟩
    obtain ⟨rfl, -⟩ := List.cons.inj same
    exact notStart isStart

theorem readLines_exists {lines : List (AppLine D)}
    (start : ∀ line rest, lines = line :: rest → line.appId ≠ 0xffffffff)
    (room : (appGroups lines).length ≤ numApps)
    (small : ∀ group ∈ appGroups lines, group.models.length ≤ nModules) :
    ∃ s, AppsRead.readLines nModules numApps ⟨[], 0xffffffff⟩ lines = some s := by
  cases lines with
  | nil => exact ⟨_, rfl⟩
  | cons line rest =>
    rw [appGroups] at room small
    obtain ⟨more, later, joined⟩ := joinApp_eq ⟨line.appId.toNat, [line.model]⟩ (appGroups rest)
    have one := small _ (joined ▸ mem_cons_self)
    rw [length_append, length_singleton] at one
    have long : 1 ≤ (joinApp ⟨line.appId.toNat, [line.model]⟩ (appGroups rest)).length := by
      rw [joined]
      exact Nat.succ_le_succ (Nat.zero_le _)
    have notFull : ¬(numApps ≤ ([] : List (AppInfo D)).length ∨ nModules = 0) := by
      rw [length_nil]
      omega
    rw [AppsRead.readLines, readLine_new (start line rest rfl), if_neg notFull, bind_some]
    refine readLines_complete rfl ?_ small
    rw [length_nil, Nat.zero_add]
    exact room

end ReadLines

variable {file : AppsFile D} {a b : UInt32}

theorem initApps_eq_some {nModules : Nat} {appsInfo : List (AppInfo D)} :
    initApps nModules file = some appsInfo ↔
      file.WellFormed nModules ∧ appsInfo = qsort cmpAppInfo (appGroups file.lines) := by
  constructor
  · intro exists_
    obtain ⟨s, read, sorted⟩ := Option.bind_eq_some_iff.mp exists_
    split_ifs at sorted with missing
    obtain ⟨start, eq, fits, small⟩ := readLines_runs read
    have length := congrArg List.length eq
    rw [length_reverse] at length
    refine ⟨⟨?_, small, start⟩, ?_⟩
    · exact (Nat.le_antisymm (Nat.le_of_not_lt missing) fits).trans length
    · rw [← some.inj sorted, eq]
  · rintro ⟨wellFormed, rfl⟩
    obtain ⟨s, read⟩ :=
      readLines_exists wellFormed.start (Nat.le_of_eq wellFormed.counted.symm) wellFormed.small
    obtain ⟨-, eq, -, -⟩ := readLines_runs read
    have length := congrArg List.length eq
    rw [length_reverse, ← wellFormed.counted] at length
    rw [initApps, read, bind_some, if_neg (by rw [length]; exact Nat.lt_irrefl _), eq]

/-! ## The comparator -/

theorem cmpAppId_eq (a b : UInt32) : cmpAppId a b = ((a.toNat : Int) - b.toNat).bmod (2 ^ 32) := by
  have diff : ((a - b).toNat : Int) = ((a.toNat : Int) - b.toNat) % 2 ^ 32 := by
    have := b.toNat_lt
    rw [UInt32.toNat_sub]
    omega
  have read : cmpAppId a b = ((a - b).toNat : Int).bmod (2 ^ 32) := BitVec.toInt_eq_toNat_bmod _
  rw [read, diff]
  exact Int.emod_bmod _ _

theorem cmpAppId_eq_zero : cmpAppId a b = 0 ↔ a = b := by
  have := a.toNat_lt
  have := b.toNat_lt
  rw [cmpAppId_eq, ← UInt32.toNat_inj, Int.bmod_def]
  omega

theorem cmpAppId_not_both (pos : 0 < cmpAppId a b) : cmpAppId b a ≤ 0 := by
  rw [cmpAppId_eq, Int.bmod_def] at *
  omega

/-! ## The search -/

/-- The key that the search looks for. -/
def searchKey (appId : UInt32) : AppInfo D := ⟨appId.toNat, []⟩

theorem cmpAppInfo_of_toNat {a b : AppInfo D} {appId other : UInt32} (isA : a.appId = appId.toNat)
    (isB : b.appId = other.toNat) : cmpAppInfo a b = cmpAppId appId other := by
  rw [cmpAppInfo, isA, isB, UInt32.ofNat_toNat, UInt32.ofNat_toNat]

theorem AppsFile.Ordered.le_trans (ordered : file.Ordered) {c : UInt32} (inA : file.Declares a)
    (inB : file.Declares b) (inC : file.Declares c) (first : cmpAppId a b ≤ 0)
    (second : cmpAppId b c ≤ 0) : cmpAppId a c ≤ 0 := by
  rcases first.lt_or_eq with less | same
  · rcases second.lt_or_eq with less' | same'
    · exact (ordered.trans a b c inA inB inC less less').le
    · exact cmpAppId_eq_zero.mp same' ▸ less.le
  · exact (cmpAppId_eq_zero.mp same).symm ▸ second

theorem AppsFile.Ordered.sorts (ordered : file.Ordered) :
    (qsort cmpAppInfo (appGroups file.lines)).Pairwise fun a b => cmpAppInfo a b ≤ 0 := by
  have orders : Orders cmpAppInfo (· ∈ appGroups file.lines) := by
    refine ⟨fun a b inA inB pos => ?_, fun a b c inA inB inC first second => ?_⟩
    · exact cmpAppId_not_both pos
    · obtain ⟨idA, isA, declaredA⟩ := exists_declared inA
      obtain ⟨idB, isB, declaredB⟩ := exists_declared inB
      obtain ⟨idC, isC, declaredC⟩ := exists_declared inC
      rw [cmpAppInfo_of_toNat isA isB] at first
      rw [cmpAppInfo_of_toNat isB isC] at second
      rw [cmpAppInfo_of_toNat isA isC]
      exact ordered.le_trans declaredA declaredB declaredC first second
  exact orders.qsort_pairwise fun _ mem => mem

theorem AppsFile.Ordered.parted (ordered : file.Ordered) {appId : UInt32}
    (declared : file.Declares appId) :
    Parted (cmpAppInfo (searchKey appId)) (qsort cmpAppInfo (appGroups file.lines)) := by
  refine List.Pairwise.imp_of_mem ?_ ordered.sorts
  intro x y inX inY le
  obtain ⟨idX, isX, declaredX⟩ := exists_declared (mem_qsort.mp inX)
  obtain ⟨idY, isY, declaredY⟩ := exists_declared (mem_qsort.mp inY)
  rw [cmpAppInfo_of_toNat isX isY] at le
  rw [cmpAppInfo_of_toNat (a := searchKey appId) rfl isX,
    cmpAppInfo_of_toNat (a := searchKey appId) rfl isY]
  constructor
  · intro less
    rcases le.lt_or_eq with before | same
    · exact ordered.trans _ _ _ declared declaredX declaredY less before
    · exact cmpAppId_eq_zero.mp same ▸ less
  · intro greater
    by_contra notGreater
    have le' := ordered.le_trans declared declaredX declaredY (not_lt.mp notGreater) le
    exact absurd greater (not_lt.mpr le')

theorem bsearch_declared (ordered : file.Ordered) {appId : UInt32}
    (declared : file.Declares appId) :
    ∃ app ∈ appGroups file.lines, app.appId = appId.toNat ∧
      bsearch (cmpAppInfo (searchKey appId)) (qsort cmpAppInfo (appGroups file.lines)) = some app := by
  obtain ⟨app, mem, isApp⟩ := exists_mem_appGroups.mpr declared
  have equal : cmpAppInfo (searchKey appId) app = 0 := by
    rw [cmpAppInfo_of_toNat (a := searchKey appId) rfl isApp, cmpAppId_eq_zero]
  obtain ⟨found, isFound⟩ := bsearch_complete (ordered.parted declared) (mem_qsort.mpr mem) equal
  obtain ⟨member, zero⟩ := bsearch_sound isFound
  obtain ⟨idFound, isId, _⟩ := exists_declared (mem_qsort.mp member)
  rw [cmpAppInfo_of_toNat (a := searchKey appId) rfl isId, cmpAppId_eq_zero] at zero
  exact ⟨found, mem_qsort.mp member, zero ▸ isId, isFound⟩

theorem energyLookup_of_none {appsInfo : List (AppInfo D)} {comment : List Char} {priority : Nat}
    (missing : bsearch (cmpAppInfo (searchKey (appIdOf comment))) appsInfo = none) :
    energyLookup appsInfo comment priority = none := by
  rw [energyLookup, lookupApp]
  rw [searchKey] at missing
  rw [missing]
  rfl

theorem energyLookup_of_some {appsInfo : List (AppInfo D)} {comment : List Char} {priority : Nat}
    {app : AppInfo D}
    (found : bsearch (cmpAppInfo (searchKey (appIdOf comment))) appsInfo = some app) :
    energyLookup appsInfo comment priority = some (some app, priority) := by
  rw [energyLookup, lookupApp]
  rw [searchKey] at found
  rw [found]
  rfl

theorem bsearch_undeclared {appId : UInt32} (undeclared : ¬file.Declares appId) :
    bsearch (cmpAppInfo (searchKey appId)) (qsort cmpAppInfo (appGroups file.lines)) = none := by
  cases isFound : bsearch (cmpAppInfo (searchKey appId))
      (qsort cmpAppInfo (appGroups file.lines)) with
  | none => rfl
  | some app =>
    obtain ⟨mem, zero⟩ := bsearch_sound isFound
    obtain ⟨idFound, isId, declared⟩ := exists_declared (mem_qsort.mp mem)
    rw [cmpAppInfo_of_toNat (a := searchKey appId) rfl isId, cmpAppId_eq_zero] at zero
    exact absurd (zero ▸ declared) undeclared

/-- The lookup is right for no job whose application the file does not declare, and for every
other one if the file is well formed and the comparator orders its applications. -/
theorem appLookup_right (nModules : Nat) (file : AppsFile D) (comment : List Char)
    (priority : Nat) :
    ((∃ appsInfo, LooksUp nModules file comment priority appsInfo) →
      file.WellFormed nModules ∧ file.Declares (appIdOf comment)) ∧
    (file.WellFormed nModules ∧ file.Declares (appIdOf comment) ∧ file.Ordered →
      ∃ appsInfo, LooksUp nModules file comment priority appsInfo) := by
  constructor
  · rintro ⟨appsInfo, looksUp⟩
    obtain ⟨wellFormed, rfl⟩ := initApps_eq_some.mp looksUp.read
    refine ⟨wellFormed, by_contra fun undeclared => ?_⟩
    have stops := @energyLookup_of_none D _ comment priority (bsearch_undeclared undeclared)
    rw [looksUp.invalid undeclared] at stops
    cases stops
  · rintro ⟨wellFormed, declared, ordered⟩
    refine ⟨_, initApps_eq_some.mpr ⟨wellFormed, rfl⟩, fun _ => ?_, absurd declared⟩
    obtain ⟨app, inside, isId, found⟩ := bsearch_declared ordered declared
    exact ⟨app, inside, isId, energyLookup_of_some found⟩

/-- Two applications with one model each. -/
def twoApps : AppsFile ℚ := ⟨2, [⟨7, ⟨0, 1, []⟩⟩, ⟨3, ⟨0, 2, []⟩⟩]⟩

/-- A comment that names no application stops the controller. -/
theorem twoApps_invalid_read :
    initApps 1 twoApps = some [⟨3, [⟨0, 2, []⟩]⟩, ⟨7, [⟨0, 1, []⟩]⟩] ∧
      (energyLookup [⟨3, [⟨0, 2, []⟩]⟩, ⟨7, [⟨0, 1, []⟩]⟩] " 7".toList 100).isSome = true ∧
      energyLookup [⟨3, [⟨0, 2, []⟩]⟩, (⟨7, [⟨0, 1, []⟩]⟩ : AppInfo ℚ)] "5".toList 100 = none ∧
      ¬∃ appsInfo, LooksUp 1 twoApps "5".toList 100 appsInfo := by
  refine ⟨rfl, by decide +kernel, rfl, ?_⟩
  rintro ⟨appsInfo, looksUp⟩
  obtain ⟨line, inside, isId⟩ := ((appLookup_right 1 twoApps "5".toList 100).1 ⟨_, looksUp⟩).2
  have undeclared : ∀ line ∈ twoApps.lines, line.appId ≠ appIdOf "5".toList := by decide +kernel
  exact undeclared line inside isId

end SlurmSim.Priority
