import Mathlib.Algebra.GroupWithZero.Nat
import Mathlib.Data.List.Nodup
import Mathlib.Data.List.Perm.Basic

/-!
# Remote licenses

`license_sync_remote` brings the remote licenses of the controller in line with those of
the database: it marks the entries that the list of the database has, pushes those that are
missing, and deletes the remote entries without a mark.  The iterator is reset behind every
record, so that each search and the sweep start at the head of the list.
-/

namespace SlurmSim.Controller.LicenseSync

open List

/-- `licenses_t`; `remote` is 0 for a local license, 1 for a remote one and 2 for one that
is marked. -/
structure License where
  name : String
  total : Nat
  used : Nat
  remote : Nat
  deriving DecidableEq

/-- What is read of a `slurmdb_res_rec_t`; `isLicense` tells its type. -/
structure ResRec where
  name : String
  server : String
  count : Nat
  percentAllowed : Nat
  isLicense : Bool

namespace ResRec

variable (r : ResRec)

/-- `name@server` -/
def key : String := r.name ++ "@" ++ r.server

/-- The product has 32 bits. -/
def total : Nat := r.count * r.percentAllowed % 2 ^ 32 / 100

end ResRec

/-- `_add_res_rec_2_lic_list` for a sync. -/
def addResRec2LicList (r : ResRec) (list : List License) : List License :=
  ⟨r.key, r.total, 0, 2⟩ :: list

/-- A remote license with a name. -/
def isRemote (name : String) (entry : License) : Bool := entry.remote ≠ 0 ∧ entry.name = name

/-- The search for a record; `none` when it comes to the end of the list. -/
def mark (r : ResRec) : List License → Option (List License)
  | [] => none
  | entry :: rest =>
    if isRemote r.key entry then some ({ entry with remote := 2, total := r.total } :: rest)
    else (mark r rest).map (entry :: ·)

/-- One record of the list of the database. -/
def syncRec (list : List License) (r : ResRec) : List License :=
  if r.isLicense then (mark r list).getD (addResRec2LicList r list) else list

/-- The mark of an entry is taken away. -/
def License.unmark (entry : License) : License :=
  if entry.remote = 2 then { entry with remote := 1 } else entry

/-- The sweep: unmarked remote entries are deleted and the marks taken away. -/
def sweep (list : List License) : List License :=
  (list.filter fun entry => entry.remote ≠ 1).map License.unmark

/-- `license_sync_remote`; without a list of the database all remote licenses go. -/
def licenseSyncRemote (resList : Option (List ResRec)) (list : List License) : List License :=
  sweep ((resList.getD []).foldl syncRec list)

/-- A license table between two calls. -/
structure Table where
  list : List License
  unmarked : ∀ entry ∈ list, entry.remote ≤ 1

/-- License records, each with its own `name@server`. -/
structure ResList where
  recs : List ResRec
  licenses : ∀ r ∈ recs, r.isLicense = true
  distinct : (recs.map ResRec.key).Nodup

/-- The use of a remote license; 0 if there is none. -/
def usedOf (list : List License) (name : String) : Nat :=
  ((list.find? (isRemote name)).map License.used).getD 0

def locals (list : List License) : List License := list.filter fun entry => entry.remote = 0

def remotes (list : List License) : List License := list.filter fun entry => entry.remote ≠ 0

def marked (list : List License) : List License := list.filter fun entry => entry.remote = 2

/-- The remote entries are those of the database, the use of the entries that were there is
kept, local entries are untouched, and a second call changes nothing. -/
structure Synced (table : Table) (res : ResList) (after : List License) : Prop where
  remote : (remotes after).Perm
    (res.recs.map fun r =>
      ⟨r.key, r.count * r.percentAllowed / 100, usedOf table.list r.key, 1⟩)
  kept : locals after = locals table.list
  again : licenseSyncRemote (some res.recs) after = after

/-! ## One record -/

variable {r : ResRec} {list next : List License} {name : String} {recs : List ResRec}

/-- The entry that a record leads to. -/
def entryOf (list : List License) (r : ResRec) : License :=
  ⟨r.key, r.total, usedOf list r.key, 2⟩

theorem mark_eq_some (found : mark r list = some next) : ∃ before entry behind,
    list = before ++ entry :: behind ∧ (∀ other ∈ before, isRemote r.key other = false) ∧
      isRemote r.key entry = true ∧
      next = before ++ { entry with remote := 2, total := r.total } :: behind := by
  induction list generalizing next with
  | nil => cases found
  | cons entry rest ih =>
    rw [mark] at found
    split_ifs at found with here
    · exact ⟨[], entry, rest, rfl, by simp, here, (Option.some.inj found).symm⟩
    · obtain ⟨tail, isTail, rfl⟩ := Option.map_eq_some_iff.mp found
      obtain ⟨before, other, behind, rfl, none, remote, rfl⟩ := ih isTail
      refine ⟨entry :: before, other, behind, rfl, ?_, remote, rfl⟩
      exact forall_mem_cons.mpr ⟨Bool.not_eq_true _ ▸ here, none⟩

theorem mark_eq_none (absent : mark r list = none) :
    ∀ entry ∈ list, isRemote r.key entry = false := by
  induction list with
  | nil => simp
  | cons entry rest ih =>
    rw [mark] at absent
    split_ifs at absent with here
    exact forall_mem_cons.mpr ⟨Bool.not_eq_true _ ▸ here, ih (Option.map_eq_none_iff.mp absent)⟩

/-- A record either replaces the first remote entry of its name or is pushed. -/
theorem syncRec_cases (r : ResRec) (list : List License) (isLicense : r.isLicense = true) :
    (∃ before entry behind, list = before ++ entry :: behind ∧
      (∀ other ∈ before, isRemote r.key other = false) ∧
      entry.remote ≠ 0 ∧ entry.name = r.key ∧ usedOf list r.key = entry.used ∧
      syncRec list r = before ++ entryOf list r :: behind) ∨
    ((∀ entry ∈ list, isRemote r.key entry = false) ∧ syncRec list r = entryOf list r :: list) := by
  rw [syncRec, if_pos isLicense]
  cases found : mark r list with
  | none =>
    have absent := mark_eq_none found
    refine Or.inr ⟨absent, ?_⟩
    have none : list.find? (isRemote r.key) = none :=
      find?_eq_none.mpr fun entry mem => by simp [absent entry mem]
    simp [addResRec2LicList, entryOf, usedOf, none]
  | some next =>
    obtain ⟨before, entry, behind, rfl, none, remote, rfl⟩ := mark_eq_some found
    obtain ⟨isRemote, named⟩ := of_decide_eq_true remote
    have first : (before ++ entry :: behind).find? (LicenseSync.isRemote r.key) = some entry := by
      rw [find?_append, find?_eq_none.mpr fun other mem => by simp [none other mem],
        find?_cons_of_pos remote]
      rfl
    have used : usedOf (before ++ entry :: behind) r.key = entry.used := by
      rw [usedOf, first]
      rfl
    refine Or.inl ⟨before, entry, behind, rfl, none, isRemote, named, used, ?_⟩
    rw [entryOf, used, ← named]
    rfl

theorem locals_syncRec (isLicense : r.isLicense = true) :
    locals (syncRec list r) = locals list := by
  obtain ⟨before, entry, behind, rfl, _, remote, _, _, synced⟩ | ⟨_, synced⟩ :=
    syncRec_cases r list isLicense
  · rw [synced]
    simp [locals, entryOf, remote]
  · rw [synced]
    simp [locals, entryOf]

theorem usedOf_syncRec (isLicense : r.isLicense = true) (other : name ≠ r.key) :
    usedOf (syncRec list r) name = usedOf list name := by
  have own : isRemote name (entryOf list r) = false := by simp [isRemote, entryOf, Ne.symm other]
  obtain ⟨before, entry, behind, split, _, _, named, _, synced⟩ | ⟨_, synced⟩ :=
    syncRec_cases r list isLicense
  · have old : isRemote name entry = false := by simp [isRemote, named, Ne.symm other]
    subst split
    rw [synced, usedOf, usedOf]
    simp [find?_append, own, old]
  · rw [synced, usedOf, find?_cons_of_neg (by simp [own]), usedOf]

theorem marked_syncRec (isLicense : r.isLicense = true)
    (unmarked : ∀ entry ∈ marked list, entry.name ≠ r.key) :
    (marked (syncRec list r)).Perm (entryOf list r :: marked list) := by
  obtain ⟨before, entry, behind, split, _, _, named, _, synced⟩ | ⟨_, synced⟩ :=
    syncRec_cases r list isLicense
  · have old : entry.remote ≠ 2 := fun isMarked => unmarked entry
      (mem_filter.mpr ⟨by simp [split], decide_eq_true isMarked⟩) named
    rw [synced]
    simp only [marked, filter_append, split, filter_cons, old, decide_false]
    simp [entryOf]
  · rw [synced]
    simp [marked, entryOf]

theorem remote_syncRec (isLicense : r.isLicense = true)
    (bounded : ∀ entry ∈ list, entry.remote ≤ 2) : ∀ entry ∈ syncRec list r, entry.remote ≤ 2 := by
  obtain ⟨before, entry, behind, split, _, _, _, _, synced⟩ | ⟨_, synced⟩ :=
    syncRec_cases r list isLicense
  · rw [synced]
    intro other mem
    rcases mem_append.mp mem with front | back
    · exact bounded other (by simp [split, front])
    · rcases mem_cons.mp back with rfl | back
      · exact Nat.le_refl 2
      · exact bounded other (by simp [split, back])
  · rw [synced]
    exact forall_mem_cons.mpr ⟨Nat.le_refl 2, bounded⟩

/-! ## All records -/

theorem locals_foldl (licenses : ∀ r ∈ recs, r.isLicense = true) :
    locals (recs.foldl syncRec list) = locals list := by
  induction recs generalizing list with
  | nil => rfl
  | cons r rest ih =>
    obtain ⟨own, others⟩ := forall_mem_cons.mp licenses
    exact (ih others).trans (locals_syncRec own)

theorem remote_foldl (licenses : ∀ r ∈ recs, r.isLicense = true)
    (bounded : ∀ entry ∈ list, entry.remote ≤ 2) :
    ∀ entry ∈ recs.foldl syncRec list, entry.remote ≤ 2 := by
  induction recs generalizing list with
  | nil => exact bounded
  | cons r rest ih =>
    obtain ⟨own, others⟩ := forall_mem_cons.mp licenses
    exact ih others (remote_syncRec own bounded)

theorem marked_foldl (licenses : ∀ r ∈ recs, r.isLicense = true)
    (distinct : (recs.map ResRec.key).Nodup)
    (unmarked : ∀ entry ∈ marked list, entry.name ∉ recs.map ResRec.key) :
    (marked (recs.foldl syncRec list)).Perm (recs.map (entryOf list) ++ marked list) := by
  induction recs generalizing list with
  | nil => exact List.Perm.refl _
  | cons r rest ih =>
    obtain ⟨own, others⟩ := forall_mem_cons.mp licenses
    obtain ⟨absent, distinct⟩ := nodup_cons.mp distinct
    have step : (marked (syncRec list r)).Perm (entryOf list r :: marked list) :=
      marked_syncRec own fun entry inside same => unmarked entry inside (same ▸ mem_cons_self)
    have later : ∀ entry ∈ marked (syncRec list r), entry.name ∉ rest.map ResRec.key := by
      intro entry inside
      rcases mem_cons.mp (step.mem_iff.mp inside) with rfl | inside
      · exact absent
      · exact fun named => unmarked entry inside (mem_cons_of_mem _ named)
    have sameEntries : rest.map (entryOf (syncRec list r)) = rest.map (entryOf list) := by
      refine map_congr_left fun other inside => ?_
      have ne : other.key ≠ r.key := fun same => absent (same ▸ mem_map_of_mem inside)
      rw [entryOf, usedOf_syncRec own ne, entryOf]
    have tail := ih others distinct later
    rw [sameEntries] at tail
    exact (tail.trans (step.append_left _)).trans perm_middle

theorem marked_nil (unmarked : ∀ entry ∈ list, entry.remote ≤ 1) : marked list = [] :=
  filter_eq_nil_iff.mpr fun entry mem isMarked =>
    absurd (of_decide_eq_true isMarked) (by have := unmarked entry mem; omega)

theorem remotes_sweep (bounded : ∀ entry ∈ list, entry.remote ≤ 2) :
    remotes (sweep list) = (marked list).map License.unmark := by
  induction list with
  | nil => rfl
  | cons entry rest ih =>
    obtain ⟨small, others⟩ := forall_mem_cons.mp bounded
    have tail := ih others
    simp only [remotes, sweep, marked] at tail ⊢
    have cases : entry.remote = 0 ∨ entry.remote = 1 ∨ entry.remote = 2 := by omega
    rcases cases with zero | one | two
    · simpa [zero, License.unmark] using tail
    · simpa [one] using tail
    · simpa [two, License.unmark] using tail

theorem locals_sweep : locals (sweep list) = locals list := by
  induction list with
  | nil => rfl
  | cons entry rest ih =>
    simp only [locals, sweep] at ih ⊢
    by_cases one : entry.remote = 1
    · simpa [one] using ih
    · by_cases two : entry.remote = 2
      · simpa [two, License.unmark] using ih
      · simp only [ne_eq, one, not_false_eq_true, decide_true, filter_cons_of_pos,
          map_cons, License.unmark, two, if_false]
        rw [filter_cons, filter_cons, ih]

theorem remotes_sync (table : Table) (res : ResList) :
    (remotes (licenseSyncRemote (some res.recs) table.list)).Perm
      (res.recs.map fun r => ⟨r.key, r.total, usedOf table.list r.key, 1⟩) := by
  have none := marked_nil table.unmarked
  have bounded : ∀ entry ∈ res.recs.foldl syncRec table.list, entry.remote ≤ 2 :=
    remote_foldl res.licenses fun entry mem => Nat.le_succ_of_le (table.unmarked entry mem)
  have absent : ∀ entry ∈ marked table.list, entry.name ∉ res.recs.map ResRec.key := by
    simp [none]
  have perm := marked_foldl res.licenses res.distinct absent
  rw [none, append_nil] at perm
  rw [licenseSyncRemote, Option.getD_some, remotes_sweep bounded]
  have unmarked := perm.map License.unmark
  rwa [map_map] at unmarked

/-! ## A second call -/

theorem isRemote_unmark {entry : License} :
    isRemote name entry.unmark = isRemote name entry := by
  rw [License.unmark]
  split_ifs with two
  · simp [isRemote, two]
  · rfl

theorem unmark_syncRec {synced : List License} (isLicense : r.isLicense = true)
    (bounded : ∀ entry ∈ list, entry.remote ≤ 2) (same : list.map License.unmark = synced)
    (present : ∃ entry ∈ synced, isRemote r.key entry = true)
    (totals : ∀ entry ∈ synced, isRemote r.key entry = true → entry.total = r.total) :
    (syncRec list r).map License.unmark = synced := by
  obtain ⟨before, entry, behind, split, _, remote, named, used, next⟩ | ⟨absent, _⟩ :=
    syncRec_cases r list isLicense
  · have mem : entry ∈ list := by simp [split]
    have small := bounded entry mem
    have total := totals entry.unmark (same ▸ mem_map_of_mem mem)
      (by rw [isRemote_unmark]; simp [isRemote, remote, named])
    have plain : entry.unmark = ⟨r.key, r.total, entry.used, 1⟩ := by
      rw [← total, ← named, License.unmark]
      split_ifs with two
      · rfl
      · have one : entry.remote = 1 := by omega
        rw [← one]
    have marked : (entryOf list r).unmark = entry.unmark := by
      rw [plain, entryOf, used, License.unmark, if_pos rfl]
    rw [next, map_append, map_cons, marked, ← map_cons, ← map_append, ← split, same]
  · obtain ⟨entry, mem, remote⟩ := present
    rw [← same] at mem
    obtain ⟨old, oldInside, rfl⟩ := mem_map.mp mem
    rw [isRemote_unmark, absent old oldInside] at remote
    cases remote

theorem unmark_foldl {synced : List License} (licenses : ∀ r ∈ recs, r.isLicense = true)
    (bounded : ∀ entry ∈ list, entry.remote ≤ 2) (same : list.map License.unmark = synced)
    (present : ∀ r ∈ recs, ∃ entry ∈ synced, isRemote r.key entry = true)
    (totals : ∀ r ∈ recs, ∀ entry ∈ synced, isRemote r.key entry = true → entry.total = r.total) :
    (recs.foldl syncRec list).map License.unmark = synced := by
  induction recs generalizing list with
  | nil => exact same
  | cons r rest ih =>
    obtain ⟨own, others⟩ := forall_mem_cons.mp licenses
    obtain ⟨ownEntry, otherEntries⟩ := forall_mem_cons.mp present
    obtain ⟨ownTotal, otherTotals⟩ := forall_mem_cons.mp totals
    exact ih others (remote_syncRec own bounded)
      (unmark_syncRec own bounded same ownEntry ownTotal) otherEntries otherTotals

theorem sweep_eq_map (allMarked : marked list = remotes list) :
    sweep list = list.map License.unmark := by
  rw [sweep, filter_eq_self.mpr]
  intro entry mem
  by_contra one
  have isOne : entry.remote = 1 := by simpa using one
  have remote : entry ∈ remotes list := mem_filter.mpr ⟨mem, by simp [isOne]⟩
  rw [← allMarked] at remote
  exact absurd (of_decide_eq_true (mem_filter.mp remote).2) (by omega)

theorem length_remotes_unmark :
    (remotes (list.map License.unmark)).length = (remotes list).length := by
  induction list with
  | nil => rfl
  | cons entry rest ih =>
    simp only [remotes] at ih ⊢
    by_cases two : entry.remote = 2
    · simpa [License.unmark, two] using ih
    · rw [map_cons, License.unmark, if_neg two, filter_cons, filter_cons]
      split_ifs <;> simp only [length_cons, ih]

/-- A call with the list of the last call changes nothing. -/
theorem sync_again (table : Table) (res : ResList) :
    licenseSyncRemote (some res.recs) (licenseSyncRemote (some res.recs) table.list) =
      licenseSyncRemote (some res.recs) table.list := by
  have perm := remotes_sync table res
  generalize licenseSyncRemote (some res.recs) table.list = synced at perm
  have unmarked : ∀ entry ∈ synced, entry.remote ≤ 1 := by
    intro entry mem
    by_cases zero : entry.remote = 0
    · omega
    · obtain ⟨r, _, rfl⟩ := mem_map.mp
        (perm.mem_iff.mp (mem_filter.mpr ⟨mem, decide_eq_true zero⟩))
      exact Nat.le_refl 1
  have bounded : ∀ entry ∈ synced, entry.remote ≤ 2 := fun entry mem =>
    Nat.le_succ_of_le (unmarked entry mem)
  have none := marked_nil unmarked
  have same : (res.recs.foldl syncRec synced).map License.unmark = synced := by
    refine unmark_foldl res.licenses bounded ?_ (fun r mem => ?_)
      fun r mem entry here own => ?_
    · conv_rhs => rw [← map_id synced]
      refine map_congr_left fun entry mem => ?_
      have small := unmarked entry mem
      rw [License.unmark, if_neg (by omega), id]
    · have entry := perm.mem_iff.mpr (mem_map_of_mem mem)
      exact ⟨_, (mem_filter.mp entry).1, by simp [isRemote]⟩
    · obtain ⟨remote, named⟩ := of_decide_eq_true own
      obtain ⟨other, otherInside, rfl⟩ := mem_map.mp
        (perm.mem_iff.mp (mem_filter.mpr ⟨here, decide_eq_true remote⟩))
      rw [inj_on_of_nodup_map res.distinct otherInside mem named]
  have length : (marked (res.recs.foldl syncRec synced)).length =
      (remotes (res.recs.foldl syncRec synced)).length := by
    rw [← length_remotes_unmark, same, perm.length_eq,
      (marked_foldl res.licenses res.distinct (by simp [none])).length_eq, none]
    simp
  have sub : (marked (res.recs.foldl syncRec synced)).Sublist
      (remotes (res.recs.foldl syncRec synced)) := by
    refine monotone_filter_right _ fun entry two => ?_
    simp only [decide_eq_true_eq] at two ⊢
    omega
  rw [licenseSyncRemote, Option.getD_some, sweep_eq_map (sub.eq_of_length length), same]

/-- A call syncs the table exactly when no product of a count and a percentage needs more
than 32 bits. -/
theorem synced_iff (table : Table) (res : ResList) :
    Synced table res (licenseSyncRemote (some res.recs) table.list) ↔
      ∀ r ∈ res.recs, r.count * r.percentAllowed < 2 ^ 32 := by
  have perm := remotes_sync table res
  constructor
  · intro synced r inside
    have moved := (perm.symm.trans synced.remote).mem_iff.mp (mem_map_of_mem inside)
    obtain ⟨other, otherInside, same⟩ := mem_map.mp moved
    simp only [License.mk.injEq] at same
    rw [inj_on_of_nodup_map res.distinct otherInside inside same.1, ResRec.total] at same
    omega
  · intro fits
    have totals : ∀ r ∈ res.recs, r.total = r.count * r.percentAllowed / 100 := fun r inside => by
      rw [ResRec.total, Nat.mod_eq_of_lt (fits r inside)]
    refine ⟨?_, ?_, sync_again table res⟩
    · rwa [map_congr_left fun r inside => by rw [totals r inside]] at perm
    · exact locals_sweep.trans (locals_foldl res.licenses)

/-- 43 million licenses, all of them allowed. -/
theorem large_count_wraps : ¬∀ table res,
    Synced table res (licenseSyncRemote (some res.recs) table.list) := by
  intro synced
  have remote := (synced ⟨[], by simp⟩
    ⟨[⟨"lic", "db", 43000000, 100, true⟩], by simp, by simp⟩).remote.map License.total
  exact absurd remote (by decide)

end SlurmSim.Controller.LicenseSync
