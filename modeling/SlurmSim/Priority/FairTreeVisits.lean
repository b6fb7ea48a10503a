import Mathlib.Algebra.Order.Field.Basic
import Mathlib.Tactic.NormNum
import SlurmSim.Priority.FairTree

/-!
# The walk of the Fair Tree algorithm

The users that the walk meets, and whether it takes each for tied with the user
before, do not depend on the two counters. The walk is a fold over this list of
visits, from which the ranks are read off.
-/

namespace SlurmSim.Priority.FairTree

open SlurmSim.Lib List

/-! ## Sorted siblings -/

theorem cmpLevelFs_le_zero {a b : Assoc} :
    cmpLevelFs a b ≤ 0 ↔
      levelFs b < levelFs a ∨ levelFs a = levelFs b ∧ (a.isUser = true ∨ b.isUser = false) := by
  unfold cmpLevelFs
  by_cases same : levelFs a = levelFs b
  · cases a.isUser <;> cases b.isUser <;> simp [same]
  · rw [if_pos same]
    rcases lt_or_gt_of_ne same with below | above
    · simp [below, same, not_lt_of_gt below]
    · simp [above, not_lt_of_gt above]

theorem cmpLevelFs_orders : Orders cmpLevelFs fun _ => True := by
  constructor
  · intro a b _ _ behind
    have notBefore := mt cmpLevelFs_le_zero.mpr (Int.not_le.mpr behind)
    rw [cmpLevelFs_le_zero]
    obtain ⟨notAbove, tie⟩ := not_or.mp notBefore
    rcases lt_or_eq_of_le (not_lt.mp notAbove) with below | same
    · exact Or.inl below
    · refine Or.inr ⟨same.symm, ?_⟩
      rcases Bool.eq_false_or_eq_true b.isUser with user | account
      · exact Or.inl user
      · exact absurd ⟨same, Or.inr account⟩ tie
  · intro a b c _ _ _ first second
    rw [cmpLevelFs_le_zero] at first second ⊢
    rcases first with below | ⟨same, users⟩
    · rcases second with below' | ⟨same', -⟩
      · exact Or.inl (below'.trans below)
      · exact Or.inl (same' ▸ below)
    · rcases second with below' | ⟨same', users'⟩
      · exact Or.inl (same ▸ below')
      · refine Or.inr ⟨same.trans same', ?_⟩
        rcases users with user | account
        · exact Or.inl user
        · rcases users' with user' | account'
          · rw [user'] at account
            cases account
          · exact Or.inr account'

/-- The siblings as the loop of `_calc_tree_fs` meets them. -/
def Sorted (siblings : List Assoc) : Prop :=
  siblings.Pairwise fun a b => cmpLevelFs a b ≤ 0

theorem sorted_qsort (siblings : List Assoc) : Sorted (qsort cmpLevelFs siblings) :=
  cmpLevelFs_orders.qsort_pairwise fun _ _ => trivial

theorem Sorted.tail {assoc : Assoc} {rest : List Assoc} (sorted : Sorted (assoc :: rest)) :
    Sorted rest :=
  (pairwise_cons.mp sorted).2

variable {assoc : Assoc} {rest siblings : List Assoc} {accountTied : Bool}

theorem Sorted.levelFs_le {other : Assoc} (sorted : Sorted (assoc :: rest)) (later : other ∈ rest) :
    levelFs other ≤ levelFs assoc := by
  rcases cmpLevelFs_le_zero.mp ((pairwise_cons.mp sorted).1 other later) with below | same
  · exact below.le
  · exact same.1.ge

theorem Sorted.countTiedAccounts_eq_zero (sorted : Sorted (assoc :: rest))
    (account : assoc.isUser = false) : countTiedAccounts assoc rest = 0 := by
  cases rest with
  | nil => rfl
  | cons next rest =>
    unfold countTiedAccounts
    rcases Bool.eq_false_or_eq_true next.isUser with user | other
    · have inOrder := (pairwise_cons.mp sorted).1 next mem_cons_self
      rcases cmpLevelFs_le_zero.mp inOrder with below | ⟨-, users⟩
      · simp [below.ne']
      · simp [account, user] at users
    · simp [other]

/-! ## Visits -/

/-- A user that the walk meets. -/
structure Visit where
  id : Nat
  tied : Bool
  deriving DecidableEq

/-- The visits at one sibling, with the recursive call as a parameter. -/
def visitOne (down : List Assoc → Bool → List Visit) (tied : Bool) : Assoc → List Visit
  | .user usage => [⟨usage.id, tied⟩]
  | .account _ children => down children tied

def visitLoop (down : List Assoc → Bool → List Visit) (accountTied : Bool) :
    Bool → LevelFs → List Assoc → List Visit
  | _, _, [] => []
  | first, prevLevelFs, assoc :: rest =>
    visitOne down (tiedAt first accountTied prevLevelFs assoc) assoc ++
      visitLoop down accountTied false (levelFs assoc) rest

/-- The visits of the walk over a list of siblings. -/
def visits : Nat → List Assoc → Bool → List Visit
  | 0, _, _ => []
  | depth + 1, siblings, accountTied =>
    visitLoop (visits depth) accountTied true noVal (qsort cmpLevelFs siblings)

/-- What a visit does to the counters and the assigned factors. -/
def Visit.assign (state : RankState) (visit : Visit) : RankState :=
  assignUser visit.id visit.tied state

/-- Two states that differ in the log of merges only. -/
def SameRanks (state other : RankState) : Prop :=
  state.rank = other.rank ∧ state.rnt = other.rnt ∧ state.assigned = other.assigned

theorem SameRanks.refl (state : RankState) : SameRanks state state :=
  ⟨rfl, rfl, rfl⟩

theorem SameRanks.trans {first second third : RankState} (left : SameRanks first second)
    (right : SameRanks second third) : SameRanks first third :=
  ⟨left.1.trans right.1, left.2.1.trans right.2.1, left.2.2.trans right.2.2⟩

theorem SameRanks.assign {state other : RankState} (same : SameRanks state other)
    (visit : Visit) : SameRanks (visit.assign state) (visit.assign other) := by
  obtain ⟨rank, rnt, assigned⟩ := same
  refine ⟨?_, ?_, ?_⟩ <;> simp [Visit.assign, assignUser, rank, rnt, assigned]

theorem SameRanks.foldl {state other : RankState} (same : SameRanks state other)
    (run : List Visit) : SameRanks (run.foldl Visit.assign state) (run.foldl Visit.assign other) := by
  induction run generalizing state other with
  | nil => exact same
  | cons visit run ih => exact ih (same.assign visit)

theorem siblingLoop_eq_visits {descend : List Assoc → Bool → RankState → RankState}
    {down : List Assoc → Bool → List Visit}
    (same : ∀ children tied state, SameRanks (descend children tied state)
      ((down children tied).foldl Visit.assign state))
    {first : Bool} {prevLevelFs : LevelFs} (state : RankState) (sorted : Sorted rest) :
    SameRanks (siblingLoop descend siblings accountTied first 0 prevLevelFs rest state)
      ((visitLoop down accountTied first prevLevelFs rest).foldl Visit.assign state) := by
  induction rest generalizing first prevLevelFs state with
  | nil => exact SameRanks.refl _
  | cons assoc rest ih =>
    cases assoc with
    | user usage =>
      exact ih _ sorted.tail
    | account usage children =>
      have none := sorted.countTiedAccounts_eq_zero rfl
      simp only [siblingLoop, visitLoop, visitOne, foldl_append, none, take_zero]
      refine (ih _ sorted.tail).trans (SameRanks.foldl ?_ _)
      have merged : mergeAccounts [Assoc.account usage children] = children := by
        simp [mergeAccounts, Assoc.children]
      rw [merged]
      refine (same children _ _).trans (SameRanks.foldl ?_ _)
      exact ⟨rfl, rfl, rfl⟩

theorem calcTreeFs_eq_visits (depth : Nat) (siblings : List Assoc) (accountTied : Bool)
    (state : RankState) :
    SameRanks (calcTreeFs depth siblings accountTied state)
      ((visits depth siblings accountTied).foldl Visit.assign state) := by
  induction depth generalizing siblings accountTied state with
  | zero => exact SameRanks.refl _
  | succ depth ih => exact siblingLoop_eq_visits ih state (sorted_qsort siblings)

/-! ## Every user is visited once -/

theorem usersOf_eq_flatMap (siblings : List Assoc) : usersOf siblings = siblings.flatMap Assoc.users := by
  induction siblings with
  | nil => rfl
  | cons assoc rest ih => rw [usersOf, flatMap_cons, ih]

theorem usersOf_perm {others : List Assoc} (same : siblings.Perm others) :
    (usersOf siblings).Perm (usersOf others) := by
  rw [usersOf_eq_flatMap, usersOf_eq_flatMap]
  exact same.flatMap_right _

theorem height_le_heightOf (mem : assoc ∈ siblings) : assoc.height ≤ heightOf siblings := by
  induction siblings with
  | nil => cases mem
  | cons other rest ih =>
    rcases mem_cons.mp mem with rfl | later
    · exact Nat.le_max_left _ _
    · exact (ih later).trans (Nat.le_max_right _ _)

theorem heightOf_children_lt {usage : AssocUsage} {children : List Assoc}
    (mem : Assoc.account usage children ∈ siblings) : heightOf children < heightOf siblings := by
  have below := height_le_heightOf mem
  exact below

theorem visitLoop_ids {down : List Assoc → Bool → List Visit} {first : Bool} {prevLevelFs : LevelFs}
    (all : ∀ usage children tied, Assoc.account usage children ∈ rest →
      ((down children tied).map Visit.id).Perm (usersOf children)) :
    ((visitLoop down accountTied first prevLevelFs rest).map Visit.id).Perm (usersOf rest) := by
  induction rest generalizing first prevLevelFs with
  | nil => exact List.Perm.refl _
  | cons assoc rest ih =>
    rw [visitLoop, usersOf, map_append]
    refine List.Perm.append ?_
      (ih fun usage children tied later => all usage children tied (mem_cons_of_mem _ later))
    cases assoc with
    | user usage => exact List.Perm.refl _
    | account usage children => exact all usage children _ mem_cons_self

theorem visits_ids {depth : Nat} (enough : heightOf siblings ≤ depth) :
    ((visits depth siblings accountTied).map Visit.id).Perm (usersOf siblings) := by
  induction depth generalizing siblings accountTied with
  | zero =>
    cases siblings with
    | nil => exact List.Perm.refl _
    | cons assoc rest =>
      have pos : 0 < assoc.height := by cases assoc <;> simp [Assoc.height]
      have bound := height_le_heightOf (mem_cons_self (a := assoc) (l := rest))
      omega
  | succ depth ih =>
    refine List.Perm.trans ?_ (usersOf_perm
      (qsort_perm siblings : (qsort cmpLevelFs siblings).Perm siblings))
    refine visitLoop_ids ?_
    intro usage children tied mem
    have below := heightOf_children_lt (mem_qsort.mp mem)
    exact ih (by omega)

/-! ## The ranks of a list of visits -/

/-- The assignments of a list of visits when the counters do not wrap. -/
def ranksFrom (rank rnt : Nat) : List Visit → List Assignment
  | [] => []
  | visit :: run =>
    ⟨visit.id, if visit.tied then rank else rnt, rnt⟩ ::
      ranksFrom (if visit.tied then rank else rnt) (rnt - 1) run

/-- The rank that a list of visits leaves. -/
def rankAfter (rank rnt : Nat) : List Visit → Nat
  | [] => rank
  | visit :: run => rankAfter (if visit.tied then rank else rnt) (rnt - 1) run

theorem foldl_assign {run : List Visit} {state : RankState} (room : run.length ≤ state.rnt)
    (bound : state.rnt < 2 ^ 32) :
    (run.foldl Visit.assign state).assigned = state.assigned ++ ranksFrom state.rank state.rnt run ∧
      (run.foldl Visit.assign state).rnt = state.rnt - run.length := by
  induction run generalizing state with
  | nil => exact ⟨(append_nil _).symm, rfl⟩
  | cons visit run ih =>
    have counted : (visit.assign state).rnt = state.rnt - 1 := by
      simp only [length_cons] at room
      simp only [Visit.assign, assignUser]
      omega
    rw [length_cons] at room
    obtain ⟨assigned, rnt⟩ := @ih (visit.assign state) (by omega) (by omega)
    refine ⟨?_, ?_⟩
    · rw [foldl_cons, assigned, counted]
      simp [Visit.assign, assignUser, ranksFrom]
    · rw [foldl_cons, rnt, counted, length_cons]
      omega

theorem ranksFrom_ids (rank rnt : Nat) (run : List Visit) :
    (ranksFrom rank rnt run).map Assignment.id = run.map Visit.id := by
  induction run generalizing rank rnt with
  | nil => rfl
  | cons visit run ih => rw [ranksFrom, map_cons, map_cons, ih]

theorem ranksFrom_append (rank rnt : Nat) (first second : List Visit) :
    ranksFrom rank rnt (first ++ second) = ranksFrom rank rnt first ++
        ranksFrom (rankAfter rank rnt first) (rnt - first.length) second := by
  induction first generalizing rank rnt with
  | nil => rfl
  | cons visit first ih =>
    rw [cons_append, ranksFrom, ih, ranksFrom, rankAfter, length_cons,
      cons_append, Nat.sub_sub, Nat.add_comm 1]

theorem ranksFrom_rnts {rank rnt : Nat} {run : List Visit} (room : run.length ≤ rnt) :
    (ranksFrom rank rnt run).map Assignment.rnt = (List.range run.length).map fun i => rnt - i := by
  induction run generalizing rank rnt with
  | nil => rfl
  | cons visit run ih =>
    rw [length_cons] at room
    rw [ranksFrom, map_cons, ih (by omega), length_cons, range_succ_eq_map, map_cons, map_map]
    refine congrArg₂ List.cons rfl (map_congr_left ?_)
    simp only [Function.comp_apply]
    omega

theorem ranksFrom_bounds {rank rnt : Nat} {run : List Visit} (room : run.length ≤ rnt)
    (below : rnt ≤ rank) :
    ∀ a ∈ ranksFrom rank rnt run, rnt + 1 ≤ a.rank + run.length ∧ a.rank ≤ rank := by
  induction run generalizing rank rnt with
  | nil =>
    intro a mem
    cases mem
  | cons visit run ih =>
    intro a mem
    rw [length_cons] at room
    have atMost : (if visit.tied then rank else rnt) ≤ rank := by split <;> omega
    have atLeast : rnt ≤ (if visit.tied then rank else rnt) := by split <;> omega
    rw [ranksFrom, mem_cons] at mem
    rw [length_cons]
    rcases mem with rfl | later
    · exact ⟨by dsimp only; omega, atMost⟩
    · obtain ⟨lower, upper⟩ := ih (by omega) (by omega) a later
      omega

/-- The visits of one run from the root. -/
def rootVisits (tree : AssocTree) : List Visit :=
  visits (heightOf tree.children) tree.children false

theorem rootVisits_ids (tree : AssocTree) :
    ((rootVisits tree).map Visit.id).Perm (usersOf tree.children) :=
  visits_ids le_rfl

theorem length_rootVisits (tree : AssocTree) :
    (rootVisits tree).length = (usersOf tree.children).length := by
  rw [← (rootVisits_ids tree).length_eq, length_map]

theorem applyPriorityFs_assigned {userAssocCount : UInt32} {tree : AssocTree}
    (counted : (usersOf tree.children).length = userAssocCount.toNat) :
    (applyPriorityFs userAssocCount tree).assigned =
        ranksFrom userAssocCount.toNat userAssocCount.toNat (rootVisits tree) ∧
      (applyPriorityFs userAssocCount tree).rnt = 0 := by
  have room : (rootVisits tree).length ≤ userAssocCount.toNat := by
    rw [length_rootVisits, counted]
  obtain ⟨-, rnt, assigned⟩ := calcTreeFs_eq_visits (heightOf tree.children) tree.children false
    ⟨userAssocCount.toNat, userAssocCount.toNat, [], []⟩
  obtain ⟨folded, counter⟩ := @foldl_assign (rootVisits tree)
    ⟨userAssocCount.toNat, userAssocCount.toNat, [], []⟩ room userAssocCount.toNat_lt
  constructor
  · exact assigned.trans folded
  · refine (rnt.trans counter).trans ?_
    rw [length_rootVisits, counted, Nat.sub_self]

/-- One run ranks every user once, counts from the number of users down to zero
and gives ranks between 1 and the number of users. -/
theorem applyPriorityFs_ranks (userAssocCount : UInt32) (tree : AssocTree)
    (counted : (usersOf tree.children).length = userAssocCount.toNat) :
    ((applyPriorityFs userAssocCount tree).assigned.map Assignment.id).Perm
        (usersOf tree.children) ∧
      (applyPriorityFs userAssocCount tree).rnt = 0 ∧
      (applyPriorityFs userAssocCount tree).assigned.map Assignment.rnt =
        (List.range userAssocCount.toNat).map (fun i => userAssocCount.toNat - i) ∧
      ∀ a ∈ (applyPriorityFs userAssocCount tree).assigned,
        1 ≤ a.rank ∧ a.rank ≤ userAssocCount.toNat ∧
          0 < a.fsFactor userAssocCount ∧ a.fsFactor userAssocCount ≤ 1 := by
  obtain ⟨assigned, rnt⟩ := applyPriorityFs_assigned counted
  have length : (rootVisits tree).length = userAssocCount.toNat :=
    (length_rootVisits tree).trans counted
  rw [assigned]
  refine ⟨?_, rnt, ?_, ?_⟩
  · rw [ranksFrom_ids]
    exact rootVisits_ids tree
  · rw [ranksFrom_rnts length.le, length]
  · intro a inside
    obtain ⟨lower, upper⟩ := ranksFrom_bounds length.le le_rfl a inside
    have positive : 1 ≤ a.rank := by omega
    have total : (0 : ℚ) < userAssocCount.toNat := by
      exact_mod_cast (by omega : 0 < userAssocCount.toNat)
    refine ⟨positive, upper, ?_, ?_⟩
    · exact div_pos (by exact_mod_cast positive) total
    · exact (div_le_one total).mpr (by exact_mod_cast upper)

/-- The record of one of `siblings` associations with equal shares. -/
def AssocUsage.equalShare (id siblings usageRaw fsAssocUsage : Nat) : AssocUsage :=
  ⟨id, 1, 1 / siblings, usageRaw, some fsAssocUsage⟩

/-- Two accounts below the root. The one with more usage holds an account that
has neither users nor usage, next to another one without usage. -/
def emptySibling : AssocTree where
  children :=
    [.account (.equalShare 10 2 25 100) [.user (.equalShare 1 1 25 25)],
      .account (.equalShare 20 2 75 100)
        [.account (.equalShare 21 3 0 75) [],
          .account (.equalShare 22 3 0 75) [.user (.equalShare 2 1 0 0)],
          .user (.equalShare 3 3 75 75)]]
  distinct := by decide

theorem emptySibling_ranks :
    (usersOf emptySibling.children).length = (3 : UInt32).toNat ∧
      ((applyPriorityFs 3 emptySibling).assigned.map Assignment.id).Perm
        (usersOf emptySibling.children) ∧
      (applyPriorityFs 3 emptySibling).rnt = 0 := by
  obtain ⟨ids, rnt, -⟩ := applyPriorityFs_ranks 3 emptySibling (by decide)
  exact ⟨by decide, ids, rnt⟩

end SlurmSim.Priority.FairTree
