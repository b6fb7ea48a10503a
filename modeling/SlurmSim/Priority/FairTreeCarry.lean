import Mathlib.Data.Finset.Max
import SlurmSim.Priority.FairTreeOrder

/-!
# Users tied with accounts

A user is to have the rank of the highest ranked user below a sibling account of the same
value.  The walk hands the tie down to the first child of each level only, and in front of
the account it may have ranked the users of other accounts of that value.
-/

namespace SlurmSim.Priority.FairTree

open SlurmSim.Lib List

/-- The assignment of the highest rank among some users. -/
structure IsHighest (assigned : List Assignment) (users : List Nat) (top : Assignment) : Prop where
  mem : top ∈ assigned
  inside : top.id ∈ users
  highest : ∀ other ∈ assigned, other.id ∈ users → other.rank ≤ top.rank

/-- A user has the rank of the highest ranked user below each sibling account of the same
value. -/
def SharesRank (userAssocCount : UInt32) (tree : AssocTree) : Prop :=
  ∀ siblings, SiblingsIn tree.children siblings →
    ∀ usage, Assoc.user usage ∈ siblings → ∀ account ∈ siblings, account.isUser = false →
      levelFs (.user usage) = levelFs account →
        ∀ a ∈ (applyPriorityFs userAssocCount tree).assigned, a.id = usage.id →
          ∀ top, IsHighest (applyPriorityFs userAssocCount tree).assigned account.users top →
            a.rank = top.rank

/-- The tie of a user with an account reaches the first user below it, and all users below
the accounts between them are tied as well. -/
def TieCarried (siblings : List Assoc) : Prop :=
  ∀ before usage between account after,
    qsort cmpLevelFs siblings = before ++ Assoc.user usage :: (between ++ account :: after) →
    account.isUser = false → account.hasUsers = true →
    levelFs (.user usage) = levelFs account →
    (∀ e ∈ between, ∀ visit ∈ visitOne fullVisits true e, visit.tied = true) ∧
      entryTied (fun children => leadTied (heightOf children) children) true account = true

/-! ## Ranks along the visits -/

theorem rankAfter_append (rank rnt : Nat) (first second : List Visit) :
    rankAfter rank rnt (first ++ second) =
      rankAfter (rankAfter rank rnt first) (rnt - first.length) second := by
  induction first generalizing rank rnt with
  | nil => rfl
  | cons visit first ih =>
    rw [cons_append, rankAfter, ih, rankAfter, length_cons, Nat.sub_sub, Nat.add_comm 1]

variable {rank rnt : Nat} {front back : List Visit} {a : Assignment} {between siblings : List Assoc}

theorem rankAfter_le (below : rnt ≤ rank) (run : List Visit) : rankAfter rank rnt run ≤ rank := by
  induction run generalizing rank rnt with
  | nil => exact le_rfl
  | cons visit run ih =>
    rw [rankAfter]
    cases visit.tied with
    | true =>
      rw [if_pos rfl]
      exact ih (by omega)
    | false =>
      exact (ih (Nat.sub_le rnt 1)).trans below

theorem le_rankAfter {rank rnt : Nat} (below : rnt ≤ rank) (run : List Visit) :
    rnt - run.length ≤ rankAfter rank rnt run := by
  induction run generalizing rank rnt with
  | nil => exact below
  | cons visit run ih =>
    rw [rankAfter, length_cons]
    cases visit.tied with
    | true =>
      have bound := @ih rank (rnt - 1) (by omega)
      rw [if_pos rfl]
      omega
    | false =>
      have bound := @ih rnt (rnt - 1) (Nat.sub_le rnt 1)
      rw [if_neg Bool.false_ne_true]
      omega

theorem rankAfter_eq_iff (less : rnt < rank) (run : List Visit) :
    rankAfter rank rnt run = rank ↔ ∀ visit ∈ run, visit.tied = true := by
  induction run generalizing rnt with
  | nil => exact iff_of_true rfl fun _ mem => absurd mem not_mem_nil
  | cons visit run ih =>
    rw [rankAfter, forall_mem_cons]
    cases visit.tied with
    | true =>
      rw [if_pos rfl, ih (by omega)]
      exact (and_iff_right rfl).symm
    | false =>
      have lower := rankAfter_le (Nat.sub_le rnt 1) run
      rw [if_neg Bool.false_ne_true]
      exact iff_of_false (by omega) fun tied => Bool.false_ne_true tied.1

theorem ranksFrom_at {visit : Visit} (distinct : ((front ++ visit :: back).map Visit.id).Nodup)
    (mem : a ∈ ranksFrom rank rnt (front ++ visit :: back)) (same : a.id = visit.id) :
    a.rank = if visit.tied then rankAfter rank rnt front else rnt - front.length := by
  rw [map_append, map_cons, nodup_append, nodup_cons] at distinct
  obtain ⟨-, ⟨not_back, -⟩, apart⟩ := distinct
  rw [ranksFrom_append, mem_append, ranksFrom, mem_cons] at mem
  rcases mem with inFront | rfl | inBack
  · exact absurd same (apart a.id (mem_ranksFrom_id inFront) visit.id mem_cons_self)
  · rfl
  · exact absurd (same ▸ mem_ranksFrom_id inBack) not_back

/-- Two visits have the same rank exactly when the later one and all between are tied. -/
theorem ranksFrom_same_iff {between : List Visit} {one other : Visit} (below : rnt ≤ rank)
    (room : (front ++ one :: (between ++ other :: back)).length ≤ rnt)
    (distinct : ((front ++ one :: (between ++ other :: back)).map Visit.id).Nodup)
    {b : Assignment} (inA : a ∈ ranksFrom rank rnt (front ++ one :: (between ++ other :: back)))
    (inB : b ∈ ranksFrom rank rnt (front ++ one :: (between ++ other :: back)))
    (aOne : a.id = one.id) (bOther : b.id = other.id) :
    a.rank = b.rank ↔ (∀ visit ∈ between, visit.tied = true) ∧ other.tied = true := by
  have aRank := ranksFrom_at distinct inA aOne
  have regroup : front ++ one :: (between ++ other :: back) =
      (front ++ one :: between) ++ other :: back := by
    rw [append_assoc, cons_append]
  rw [regroup] at distinct inB
  have bRank := ranksFrom_at distinct inB bOther
  have kept := le_rankAfter below front
  rw [rankAfter_append, rankAfter, ← aRank, length_append, length_cons] at bRank
  rw [length_append, length_cons] at room
  have less : rnt - front.length - 1 < a.rank := by
    rw [aRank]
    split <;> omega
  cases tied : other.tied with
  | true =>
    rw [tied, if_pos rfl] at bRank
    rw [bRank, eq_comm, rankAfter_eq_iff less]
    exact (and_iff_left rfl).symm
  | false =>
    rw [tied, if_neg Bool.false_ne_true] at bRank
    exact iff_of_false (by omega) fun all => Bool.false_ne_true all.2

theorem ranksFrom_le_head {visit : Visit} (below : rnt ≤ rank)
    (room : (front ++ visit :: back).length ≤ rnt)
    (distinct : ((front ++ visit :: back).map Visit.id).Nodup) {b : Assignment}
    (inA : a ∈ ranksFrom rank rnt (front ++ visit :: back)) (aVisit : a.id = visit.id)
    (inB : b ∈ ranksFrom rank rnt (front ++ visit :: back))
    (bBack : b.id ∈ (visit :: back).map Visit.id) : b.rank ≤ a.rank := by
  have aRank := ranksFrom_at distinct inA aVisit
  have kept := le_rankAfter below front
  rw [map_append, nodup_append] at distinct
  rw [ranksFrom_append, mem_append] at inB
  have right := inB.resolve_left fun left => distinct.2.2 b.id (mem_ranksFrom_id left) b.id bBack rfl
  rw [length_append, length_cons] at room
  rw [ranksFrom, mem_cons, ← aRank] at right
  rcases right with rfl | later
  · exact le_rfl
  · refine (ranksFrom_bounds (by omega) ?_ b later).2
    rw [aRank]
    split <;> omega

/-! ## A user in front of an account -/

theorem Sorted.user_first {sorted : List Assoc} (inOrder : Sorted sorted) {usage : AssocUsage}
    {account : Assoc} (inUser : Assoc.user usage ∈ sorted) (inAccount : account ∈ sorted)
    (isAccount : account.isUser = false) (same : levelFs (.user usage) = levelFs account) :
    ∃ before between after, sorted = before ++ Assoc.user usage :: (between ++ account :: after) := by
  obtain ⟨front, after, rfl⟩ := append_of_mem inAccount
  rcases mem_append.mp inUser with inFront | inRest
  · obtain ⟨before, between, rfl⟩ := append_of_mem inFront
    exact ⟨before, between, after, by rw [append_assoc, cons_append]⟩
  · rcases mem_cons.mp inRest with rfl | behind
    · exact absurd isAccount nofun
    · have order := (pairwise_cons.mp (pairwise_append.mp inOrder).2.1).1 _ behind
      rcases cmpLevelFs_le_zero.mp order with less | ⟨-, first | last⟩
      · exact absurd less (same ▸ lt_irrefl _)
      · exact absurd (isAccount.symm.trans first) Bool.false_ne_true
      · exact absurd last nofun

theorem Sorted.between_same {before after : List Assoc} {x y : Assoc}
    (inOrder : Sorted (before ++ x :: (between ++ y :: after))) (same : levelFs x = levelFs y) :
    ∀ e ∈ between, levelFs e = levelFs x := by
  intro e mem
  have behind := (pairwise_append.mp inOrder).2.1
  have lower : levelFs e ≤ levelFs x := Sorted.levelFs_le behind (mem_append_left _ mem)
  have middle := (pairwise_append.mp (Sorted.tail behind)).2.2 e mem y mem_cons_self
  refine le_antisymm lower ?_
  rw [same]
  rcases cmpLevelFs_le_zero.mp middle with less | ⟨equal, -⟩
  · exact less.le
  · exact equal.ge

theorem visitLoop_same {down : List Assoc → Bool → List Visit} {accountTied : Bool}
    {level : LevelFs} (same : ∀ e ∈ siblings, levelFs e = level) :
    visitLoop down accountTied false level siblings = siblings.flatMap (visitOne down true) := by
  induction siblings with
  | nil => rfl
  | cons assoc rest ih =>
    obtain ⟨first, others⟩ := forall_mem_cons.mp same
    have mark : tiedAt false accountTied level assoc = true := by
      simp [tiedAt, first]
    rw [visitLoop, mark, first, ih others, flatMap_cons]

theorem loopMark_same {accountTied : Bool} {level : LevelFs} {y : Assoc}
    (same : ∀ e ∈ between, levelFs e = level) (last : levelFs y = level) :
    loopMark false accountTied level between y = true := by
  rw [loopMark, markBehind]
  cases found : between.getLast? with
  | none => simp [tiedAt, last]
  | some e => simp [same e (mem_of_getLast? found), last]

/-- The visits of siblings from a user to an account of its value. -/
theorem fullVisits_from_user {before after : List Assoc} {usage : AssocUsage} {account : Assoc}
    (shape : qsort cmpLevelFs siblings = before ++ Assoc.user usage :: (between ++ account :: after))
    (same : levelFs (.user usage) = levelFs account) (accountTied : Bool) :
    ∃ tied, fullVisits siblings accountTied =
      visitLoop fullVisits accountTied true noVal before ++ ⟨usage.id, tied⟩ ::
        (between.flatMap (visitOne fullVisits true) ++ (visitOne fullVisits true account ++
          visitLoop fullVisits accountTied false (levelFs account) after)) := by
  have sorted := sorted_qsort siblings
  rw [shape] at sorted
  have level := sorted.between_same same
  refine ⟨loopMark true accountTied noVal before (.user usage), ?_⟩
  rw [fullVisits, visits_eq_loop le_rfl, shape, visitLoop_append, visitOne,
    visitLoop_append, visitLoop_same level, loopMark_same level same.symm]
  rfl

theorem mem_usersOf_of_siblingsIn {roots : List Assoc} (inside : SiblingsIn roots siblings)
    {assoc : Assoc} (mem : assoc ∈ siblings) {id : Nat} (user : id ∈ assoc.users) :
    id ∈ usersOf roots := by
  induction inside with
  | roots siblings =>
    rw [usersOf_eq_flatMap]
    exact mem_flatMap.mpr ⟨assoc, mem, user⟩
  | under account _ ih =>
    rw [usersOf_eq_flatMap]
    exact mem_flatMap.mpr ⟨_, account, ih mem⟩

section Carried

variable {userAssocCount : UInt32} {tree : AssocTree}

variable {siblings : List Assoc}

/-- For one user and one account, the ranks are the same exactly when the tie is carried. -/
theorem sameRank_iff (counted : (usersOf tree.children).length = userAssocCount.toNat)
    {before between after : List Assoc} (inTree : SiblingsIn tree.children siblings)
    {usage : AssocUsage} {account : Assoc}
    (shape : qsort cmpLevelFs siblings = before ++ Assoc.user usage :: (between ++ account :: after))
    (same : levelFs (.user usage) = levelFs account) (someUsers : account.hasUsers = true)
    {a top : Assignment} (inA : a ∈ (applyPriorityFs userAssocCount tree).assigned)
    (aUser : a.id = usage.id)
    (isTop : IsHighest (applyPriorityFs userAssocCount tree).assigned account.users top) :
    a.rank = top.rank ↔ (∀ e ∈ between, ∀ visit ∈ visitOne fullVisits true e, visit.tied = true) ∧
        entryTied (fun children => leadTied (heightOf children) children) true account = true := by
  obtain ⟨first, run, head, mark⟩ := visitOne_head someUsers true
  obtain ⟨front, accountTied, back, whole⟩ := visits_of_siblingsIn inTree false
  obtain ⟨tied, cut⟩ := fullVisits_from_user shape same accountTied
  rw [cut, head] at whole
  have walk : rootVisits tree =
      (front ++ visitLoop fullVisits accountTied true noVal before) ++ ⟨usage.id, tied⟩ ::
        (between.flatMap (visitOne fullVisits true) ++ first ::
          (run ++ visitLoop fullVisits accountTied false (levelFs account) after ++ back)) := by
    change fullVisits tree.children false = _
    rw [whole]
    simp only [append_assoc, cons_append]
  have distinct : ((rootVisits tree).map Visit.id).Nodup :=
    (rootVisits_ids tree).nodup_iff.mpr tree.distinct
  have room : (rootVisits tree).length ≤ userAssocCount.toNat := by
    rw [length_rootVisits, counted]
  have accountIds := visitOne_full_ids true account
  rw [head] at accountIds
  have firstUser : first.id ∈ account.users := accountIds.mem_iff.mp mem_cons_self
  have topVisit := accountIds.mem_iff.mpr isTop.inside
  have ranked : ∃ b ∈ (applyPriorityFs userAssocCount tree).assigned, b.id = first.id := by
    have visited : first.id ∈ (rootVisits tree).map Visit.id := by
      rw [walk]
      simp
    rw [(applyPriorityFs_assigned counted).1]
    rw [← ranksFrom_ids userAssocCount.toNat userAssocCount.toNat] at visited
    obtain ⟨b, inB, bId⟩ := mem_map.mp visited
    exact ⟨b, inB, bId⟩
  obtain ⟨b, inB, bFirst⟩ := ranked
  have notHigher := isTop.highest b inB (bFirst ▸ firstUser)
  have inTop := isTop.mem
  rw [(applyPriorityFs_assigned counted).1, walk] at inA inB inTop
  rw [walk] at distinct room
  have highest : top.rank = b.rank := by
    have regroup := (append_assoc (front ++ visitLoop fullVisits accountTied true noVal before)
      (⟨usage.id, tied⟩ :: between.flatMap (visitOne fullVisits true)) (first ::
        (run ++ visitLoop fullVisits accountTied false (levelFs account) after ++ back))).symm
    rw [cons_append] at regroup
    refine le_antisymm ?_ notHigher
    rw [regroup] at distinct room inB inTop
    refine ranksFrom_le_head le_rfl room distinct inB bFirst inTop ?_
    rw [append_assoc, ← cons_append, map_append]
    exact mem_append_left _ topVisit
  rw [highest, ranksFrom_same_iff le_rfl room distinct inA inB aUser bFirst, mark]
  refine and_congr_left fun _ => ?_
  constructor
  · exact fun all e inside visit here => all visit (mem_flatMap.mpr ⟨e, inside, here⟩)
  · intro all visit inside
    obtain ⟨e, mem, here⟩ := mem_flatMap.mp inside
    exact all e mem visit here

theorem exists_assigned (counted : (usersOf tree.children).length = userAssocCount.toNat)
    (inTree : SiblingsIn tree.children siblings) {assoc : Assoc} (mem : assoc ∈ siblings)
    {id : Nat} (user : id ∈ assoc.users) :
    ∃ a ∈ (applyPriorityFs userAssocCount tree).assigned, a.id = id := by
  have ids := (applyPriorityFs_ranks userAssocCount tree counted).1
  obtain ⟨a, inA, aId⟩ := mem_map.mp (ids.mem_iff.mpr (mem_usersOf_of_siblingsIn inTree mem user))
  exact ⟨a, inA, aId⟩

theorem exists_isHighest (counted : (usersOf tree.children).length = userAssocCount.toNat)
    (inTree : SiblingsIn tree.children siblings) {account : Assoc} (mem : account ∈ siblings)
    (someUsers : account.hasUsers = true) :
    ∃ top, IsHighest (applyPriorityFs userAssocCount tree).assigned account.users top := by
  obtain ⟨id, user⟩ : ∃ id, id ∈ account.users := by
    cases shape : account.users with
    | nil => simp [Assoc.hasUsers, shape] at someUsers
    | cons id rest => exact ⟨id, mem_cons_self⟩
  obtain ⟨a, inA, aId⟩ := exists_assigned counted inTree mem user
  obtain ⟨top, kept, highest⟩ := Finset.exists_max_image
    ((applyPriorityFs userAssocCount tree).assigned.filter fun a =>
      decide (a.id ∈ account.users)).toFinset Assignment.rank
    ⟨a, mem_toFinset.mpr (mem_filter.mpr ⟨inA, decide_eq_true (aId ▸ user)⟩)⟩
  obtain ⟨inTop, topUser⟩ := mem_filter.mp (mem_toFinset.mp kept)
  refine ⟨top, inTop, of_decide_eq_true topUser, fun other inOther otherUser => ?_⟩
  exact highest other (mem_toFinset.mpr (mem_filter.mpr ⟨inOther, decide_eq_true otherUser⟩))

end Carried

/-- Users share the rank of the accounts of their value exactly when every tie is carried. -/
theorem sharesRank_iff (userAssocCount : UInt32) (tree : AssocTree)
    (counted : (usersOf tree.children).length = userAssocCount.toNat) :
    SharesRank userAssocCount tree ↔
      ∀ siblings, SiblingsIn tree.children siblings → TieCarried siblings := by
  constructor
  · intro shares siblings inTree before usage between account after shape isAccount someUsers same
    have sortedUser : Assoc.user usage ∈ qsort cmpLevelFs siblings := by
      rw [shape]
      simp
    have sortedAccount : account ∈ qsort cmpLevelFs siblings := by
      rw [shape]
      simp
    have inUser := mem_qsort.mp sortedUser
    have inAccount := mem_qsort.mp sortedAccount
    obtain ⟨a, inA, aUser⟩ := exists_assigned counted inTree inUser mem_cons_self
    obtain ⟨top, isTop⟩ := exists_isHighest counted inTree inAccount someUsers
    exact (sameRank_iff counted inTree shape same someUsers inA aUser isTop).mp
      (shares siblings inTree usage inUser account inAccount isAccount same a inA aUser top isTop)
  · intro carried siblings inTree usage inUser account inAccount isAccount same a inA aUser top isTop
    obtain ⟨before, between, after, shape⟩ := (sorted_qsort siblings).user_first
      (mem_qsort.mpr inUser) (mem_qsort.mpr inAccount) isAccount same
    have someUsers := hasUsers_of_mem isTop.inside
    exact (sameRank_iff counted inTree shape same someUsers inA aUser isTop).mpr
      (carried siblings inTree before usage between account after shape isAccount someUsers same)

/-- A user next to an account of the same value, which has an account without users or usage
in front of its user. -/
def emptyChild : AssocTree where
  children :=
    [.user (.equalShare 1 2 50 100),
      .account (.equalShare 20 2 50 100)
        [.account (.equalShare 21 2 0 50) [], .user (.equalShare 2 2 50 50)]]
  distinct := by decide

theorem emptyChild_iff :
    SharesRank 2 emptyChild ↔
      ∀ siblings, SiblingsIn emptyChild.children siblings → TieCarried siblings :=
  sharesRank_iff 2 emptyChild (by decide)

/-- User 2 is the only one below the account and is ranked behind user 1. -/
theorem emptyChild_not_shared :
    (usersOf emptyChild.children).length = (2 : UInt32).toNat ∧
      (applyPriorityFs 2 emptyChild).assigned = [⟨1, 2, 2⟩, ⟨2, 1, 1⟩] ∧
      ¬SharesRank 2 emptyChild := by
  have assigned : (applyPriorityFs 2 emptyChild).assigned = [⟨1, 2, 2⟩, ⟨2, 1, 1⟩] := by
    decide +kernel
  refine ⟨by decide, assigned, ?_⟩
  intro shares
  have same := shares emptyChild.children (.roots _) _ mem_cons_self _
    (mem_cons_of_mem _ mem_cons_self) rfl (by decide +kernel) ⟨1, 2, 2⟩
    (by rw [assigned]; decide) rfl ⟨2, 1, 1⟩
    ⟨by rw [assigned]; decide, by decide, by rw [assigned]; decide⟩
  exact absurd same (by decide)

end SlurmSim.Priority.FairTree
