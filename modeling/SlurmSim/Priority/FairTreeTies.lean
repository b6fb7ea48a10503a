import Mathlib.Data.List.Flatten
import SlurmSim.Priority.FairTreeVisits

/-!
# Tied accounts

Sibling accounts of the same value are to be ranked as one account with the
children of all of them. The count of tied accounts is always zero, so the walk
does this only where there is nothing to merge.
-/

namespace SlurmSim.Priority.FairTree

open SlurmSim.Lib List

/-- A sibling account with the value of the account at hand. -/
def tiedWith (account sibling : Assoc) : Bool :=
  !sibling.isUser && decide (levelFs sibling = levelFs account)

/-- Every recursive call of the walk ranks the children of all accounts that tie
with the account it is made for. -/
def MergesTies (userAssocCount : UInt32) (tree : AssocTree) : Prop :=
  ∀ merge ∈ (applyPriorityFs userAssocCount tree).merges,
    merge.merged.Perm (mergeAccounts (merge.siblings.filter (tiedWith merge.account)))

/-- Accounts of the same value among the siblings have no children. -/
def TiesEmpty (siblings : List Assoc) : Prop :=
  siblings.Pairwise fun a b => a.isUser = false → b.isUser = false → levelFs a = levelFs b →
    a.children = [] ∧ b.children = []

/-! ## The recursive calls of a walk -/

/-- The recursive calls that are made for one of the siblings. -/
def mergesAt (down : List Assoc → List Merge) (siblings : List Assoc) : Assoc → List Merge
  | .user _ => []
  | .account usage children => ⟨siblings, .account usage children, children⟩ :: down children

def mergesOf : Nat → List Assoc → List Merge
  | 0, _ => []
  | depth + 1, siblings =>
    (qsort cmpLevelFs siblings).flatMap (mergesAt (mergesOf depth) (qsort cmpLevelFs siblings))

theorem siblingLoop_merges {descend : List Assoc → Bool → RankState → RankState}
    {down : List Assoc → List Merge}
    (logs : ∀ children tied state,
      (descend children tied state).merges = state.merges ++ down children)
    {siblings rest : List Assoc} {accountTied first : Bool} {prevLevelFs : LevelFs}
    (state : RankState) (sorted : Sorted rest) :
    (siblingLoop descend siblings accountTied first 0 prevLevelFs rest state).merges =
      state.merges ++ rest.flatMap (mergesAt down siblings) := by
  induction rest generalizing first prevLevelFs state with
  | nil => exact (append_nil _).symm
  | cons assoc rest ih =>
    cases assoc with
    | user usage =>
      simp only [siblingLoop]
      rw [ih _ sorted.tail]
      rfl
    | account usage children =>
      have none := sorted.countTiedAccounts_eq_zero rfl
      have merged : mergeAccounts [Assoc.account usage children] = children := by
        simp [mergeAccounts, Assoc.children]
      simp only [siblingLoop, none, take_zero]
      rw [ih _ sorted.tail, logs, merged, flatMap_cons, mergesAt]
      simp only [append_assoc, cons_append, nil_append]

theorem calcTreeFs_merges (depth : Nat) (siblings : List Assoc) (accountTied : Bool)
    (state : RankState) :
    (calcTreeFs depth siblings accountTied state).merges =
      state.merges ++ mergesOf depth siblings := by
  induction depth generalizing siblings accountTied state with
  | zero => exact (append_nil _).symm
  | succ depth ih => exact siblingLoop_merges ih state (sorted_qsort siblings)

theorem mem_mergesOf {depth : Nat} {roots : List Assoc} (enough : heightOf roots ≤ depth)
    {merge : Merge} :
    merge ∈ mergesOf depth roots ↔ ∃ siblings usage children, SiblingsIn roots siblings ∧
        Assoc.account usage children ∈ siblings ∧
        merge = ⟨qsort cmpLevelFs siblings, .account usage children, children⟩ := by
  induction depth generalizing roots with
  | zero =>
    constructor
    · intro mem
      cases mem
    · rintro ⟨siblings, usage, children, inTree, mem, -⟩
      cases inTree with
      | roots => exact absurd (heightOf_children_lt mem) (by omega)
      | under account _ => exact absurd (heightOf_children_lt account) (by omega)
  | succ depth ih =>
    rw [mergesOf, mem_flatMap]
    constructor
    · rintro ⟨assoc, sorted, mem⟩
      have inRoots := mem_qsort.mp sorted
      cases assoc with
      | user usage => cases mem
      | account usage children =>
        rcases mem_cons.mp mem with rfl | later
        · exact ⟨roots, usage, children, .roots roots, inRoots, rfl⟩
        · have below := heightOf_children_lt inRoots
          obtain ⟨siblings, usage', children', inTree, account, rfl⟩ :=
            (ih (by omega)).mp later
          exact ⟨siblings, usage', children', .under inRoots inTree, account, rfl⟩
    · rintro ⟨siblings, usage, children, inTree, account, rfl⟩
      cases inTree with
      | roots =>
        exact ⟨.account usage children, mem_qsort.mpr account, mem_cons_self⟩
      | @under _ _ usage' children' inRoots mem =>
        have below := heightOf_children_lt inRoots
        refine ⟨.account usage' children', mem_qsort.mpr inRoots, mem_cons_of_mem _ ?_⟩
        exact (ih (by omega)).mpr ⟨siblings, usage, children, mem, account, rfl⟩

theorem mem_applyPriorityFs_merges {userAssocCount : UInt32} {tree : AssocTree} {merge : Merge} :
    merge ∈ (applyPriorityFs userAssocCount tree).merges ↔
      ∃ siblings usage children, SiblingsIn tree.children siblings ∧
        Assoc.account usage children ∈ siblings ∧
        merge = ⟨qsort cmpLevelFs siblings, .account usage children, children⟩ := by
  rw [applyPriorityFs, calcTreeFs_merges, nil_append]
  exact mem_mergesOf le_rfl

/-! ## One list of siblings -/

theorem mergeAccounts_perm {siblings others : List Assoc} (same : siblings.Perm others) :
    (mergeAccounts siblings).Perm (mergeAccounts others) :=
  same.flatMap_right _

/-- The children of all accounts that tie are those of one of them exactly when
the others have none, for each of them. -/
theorem tiesEmpty_iff (siblings : List Assoc) :
    TiesEmpty siblings ↔ ∀ usage children, Assoc.account usage children ∈ siblings →
        children.Perm (mergeAccounts
          ((qsort cmpLevelFs siblings).filter (tiedWith (.account usage children)))) := by
  constructor
  · intro empty usage children mem
    refine List.Perm.trans ?_ (mergeAccounts_perm ((qsort_perm siblings).filter _)).symm
    obtain ⟨before, after, rfl⟩ := append_of_mem mem
    obtain ⟨-, tail, across⟩ := pairwise_append.mp empty
    have noneBefore : mergeAccounts (before.filter (tiedWith (.account usage children))) = [] := by
      refine flatMap_eq_nil_iff.mpr ?_
      intro b kept
      obtain ⟨inBefore, tied⟩ := mem_filter.mp kept
      simp only [tiedWith, Bool.and_eq_true, Bool.not_eq_true', decide_eq_true_eq] at tied
      exact (across b inBefore _ mem_cons_self tied.1 rfl tied.2).1
    have noneAfter : mergeAccounts (after.filter (tiedWith (.account usage children))) = [] := by
      refine flatMap_eq_nil_iff.mpr ?_
      intro b kept
      obtain ⟨inAfter, tied⟩ := mem_filter.mp kept
      simp only [tiedWith, Bool.and_eq_true, Bool.not_eq_true', decide_eq_true_eq] at tied
      exact ((pairwise_cons.mp tail).1 b inAfter rfl tied.1 tied.2.symm).2
    have self : tiedWith (.account usage children) (.account usage children) = true := by
      simp [tiedWith, Assoc.isUser]
    have whole : mergeAccounts ((before ++ .account usage children :: after).filter
          (tiedWith (.account usage children))) = children := by
      rw [filter_append, filter_cons_of_pos self, mergeAccounts, flatMap_append, flatMap_cons]
      rw [mergeAccounts] at noneBefore noneAfter
      rw [noneBefore, noneAfter, nil_append, append_nil, Assoc.children]
    rw [whole]
  · intro merged
    refine pairwise_iff_forall_sublist.mpr ?_
    intro a b pair accountA accountB same
    have bound : ∀ account ∈ siblings, account.isUser = false → levelFs account = levelFs a →
        a.children.length + b.children.length ≤ account.children.length := by
      intro account mem isAccount tie
      cases account with
      | user usage => cases isAccount
      | account usage children =>
        have lengths := ((merged usage children mem).trans
          (mergeAccounts_perm ((qsort_perm siblings).filter _))).length_eq
        have tiedA : tiedWith (.account usage children) a = true := by
          simp [tiedWith, accountA, tie]
        have tiedB : tiedWith (.account usage children) b = true := by
          simp [tiedWith, accountB, tie, same]
        have kept : [a, b].Sublist (siblings.filter (tiedWith (.account usage children))) := by
          have filtered := pair.filter (tiedWith (.account usage children))
          rwa [filter_cons_of_pos tiedA, filter_cons_of_pos tiedB, filter_nil] at filtered
        have children_le := (kept.flatMap Assoc.children).length_le
        rw [flatMap_cons, flatMap_cons, flatMap_nil, append_nil, length_append] at children_le
        change a.children.length + b.children.length ≤ children.length
        rw [lengths]
        exact children_le
    have boundA := bound a (pair.subset mem_cons_self) accountA rfl
    have boundB := bound b (pair.subset (mem_cons_of_mem _ mem_cons_self)) accountB same.symm
    exact ⟨length_eq_zero_iff.mp (by omega), length_eq_zero_iff.mp (by omega)⟩

/-- An account with half of the usage of the root and two users, one with a fifth
of the usage of the account. -/
def halfAccount (id lightUser heavyUser : Nat) : Assoc :=
  .account ⟨id, 1, 1 / 2, 50, some 100⟩
    [.user ⟨lightUser, 1, 1 / 2, 10, some 50⟩, .user ⟨heavyUser, 1, 1 / 2, 40, some 50⟩]

def tiedAccounts : AssocTree where
  children := [halfAccount 10 1 2, halfAccount 20 3 4]
  distinct := by decide

def tiedAccountsSwapped : AssocTree where
  children := [halfAccount 20 3 4, halfAccount 10 1 2]
  distinct := by decide

end SlurmSim.Priority.FairTree
