import Mathlib.Data.NNRat.Lemmas
import SlurmSim.Lib.Qsort

/-!
# The Fair Tree algorithm

The associations are ranked by walking the tree in the order of `level_fs`. The
long doubles are read as exact rationals with infinity on top. The fair-share
values of an association are fixed during the walk, so `level_fs` is a function
of the association.
-/

namespace SlurmSim.Priority.FairTree

open SlurmSim.Lib

/-- The value of `level_fs`, from 0 to infinity. -/
abbrev LevelFs := WithTop ℚ≥0

/-- `(long double) NO_VAL`. -/
def noVal : LevelFs := ((4294967294 : ℚ≥0) : WithTop ℚ≥0)

/-- `SLURMDB_FS_USE_PARENT`. -/
def useParent : Nat := 0x7FFFFFFF

/-- The usage record of an association. `fsAssocUsage` is the raw usage of the
association that `fs_assoc_ptr` points to. -/
structure AssocUsage where
  id : Nat
  sharesRaw : Nat
  sharesNorm : ℚ≥0
  usageRaw : ℚ≥0
  fsAssocUsage : Option ℚ≥0
  deriving DecidableEq

/-- An association with the children of its `children_list`. A user has none. -/
inductive Assoc where
  | user (usage : AssocUsage)
  | account (usage : AssocUsage) (children : List Assoc)

namespace Assoc

def usage : Assoc → AssocUsage
  | user usage => usage
  | account usage _ => usage

def isUser : Assoc → Bool
  | user _ => true
  | account _ _ => false

def children : Assoc → List Assoc
  | user _ => []
  | account _ children => children

end Assoc

/-- `_ft_set_assoc_usage_efctv`: the usage within the account. -/
def usageEfctv (usage : AssocUsage) : ℚ≥0 :=
  match usage.fsAssocUsage with
  | none => 0
  | some parentUsage => if parentUsage = 0 then 0 else usage.usageRaw / parentUsage

/-- `_calc_assoc_fs`: shares over usage, infinite without usage. -/
def levelFs (assoc : Assoc) : LevelFs :=
  let u := usageEfctv assoc.usage
  let s := assoc.usage.sharesNorm
  if assoc.usage.sharesRaw = useParent then
    if assoc.isUser then ⊤ else noVal
  else if s = 0 then ((0 : ℚ≥0) : WithTop ℚ≥0)
  else if u = 0 then ⊤
  else ((s / u : ℚ≥0) : WithTop ℚ≥0)

/-- `_cmp_level_fs`: higher values first, users before accounts. -/
def cmpLevelFs (a b : Assoc) : Int :=
  if levelFs a ≠ levelFs b then if levelFs a < levelFs b then 1 else -1
  else if a.isUser = b.isUser then 0
  else if a.isUser then -1 else 1

/-- `_count_tied_accounts`: the associations behind the index, as far as they
are users with the same value. -/
def countTiedAccounts (assoc : Assoc) : List Assoc → Nat
  | [] => 0
  | next :: rest =>
    if !next.isUser then 0
    else if levelFs assoc ≠ levelFs next then 0
    else countTiedAccounts assoc rest + 1

/-- `_merge_accounts`: the children of all accounts in one array. -/
def mergeAccounts (siblings : List Assoc) : List Assoc :=
  siblings.flatMap Assoc.children

/-- One `fs_factor` that is set: the rank and the counter `rnt` at that moment. -/
structure Assignment where
  id : Nat
  rank : Nat
  rnt : Nat
  deriving DecidableEq

/-- `rank / g_user_assoc_count`. -/
def Assignment.fsFactor (userAssocCount : UInt32) (assignment : Assignment) : ℚ :=
  assignment.rank / userAssocCount.toNat

/-- One recursive call: the sorted siblings, the account the loop has reached
and the merged array that is ranked next. -/
structure Merge where
  siblings : List Assoc
  account : Assoc
  merged : List Assoc

/-- The two counters, with what was assigned and merged so far. -/
structure RankState where
  rank : Nat
  rnt : Nat
  assigned : List Assignment
  merges : List Merge

/-- A user is given the rank of the user before when tied, else its own. -/
def assignUser (id : Nat) (tied : Bool) (state : RankState) : RankState :=
  let rank := if tied then state.rank else state.rnt
  { state with
    rank := rank
    rnt := (state.rnt + (2 ^ 32 - 1)) % 2 ^ 32
    assigned := state.assigned ++ [⟨id, rank, state.rnt⟩] }

/-- Whether the loop of `_calc_tree_fs` takes the sibling at hand for tied. -/
def tiedAt (first accountTied : Bool) (prevLevelFs : LevelFs) (assoc : Assoc) : Bool :=
  if first && accountTied then true else prevLevelFs = levelFs assoc

/-- The loop of `_calc_tree_fs` over the sorted array `siblings`, of which the
last argument is what is left. `skip` counts the siblings that `i += merge_count`
jumps over, `descend` is the recursive call. -/
def siblingLoop (descend : List Assoc → Bool → RankState → RankState) (siblings : List Assoc)
    (accountTied : Bool) : Bool → Nat → LevelFs → List Assoc → RankState → RankState
  | _, _, _, [], state => state
  | first, skip + 1, prevLevelFs, _ :: rest, state =>
    siblingLoop descend siblings accountTied first skip prevLevelFs rest state
  | first, 0, prevLevelFs, assoc :: rest, state =>
    let tied := tiedAt first accountTied prevLevelFs assoc
    match assoc with
    | .user usage =>
      siblingLoop descend siblings accountTied false 0 (levelFs assoc) rest
        (assignUser usage.id tied state)
    | .account _ _ =>
      let mergeCount := countTiedAccounts assoc rest
      let merged := mergeAccounts (assoc :: rest.take mergeCount)
      let state := { state with merges := state.merges ++ [⟨siblings, assoc, merged⟩] }
      siblingLoop descend siblings accountTied false mergeCount (levelFs assoc) rest
        (descend merged tied state)

/-- `_calc_tree_fs`. The depth of the recursion is bounded by `depth`. -/
def calcTreeFs : Nat → List Assoc → Bool → RankState → RankState
  | 0, _, _, state => state
  | depth + 1, siblings, accountTied, state =>
    let sorted := qsort cmpLevelFs siblings
    siblingLoop (calcTreeFs depth) sorted accountTied true 0 noVal sorted state

mutual

/-- The levels of the tree below an association, itself included. -/
def Assoc.height : Assoc → Nat
  | .user _ => 1
  | .account _ children => heightOf children + 1

def heightOf : List Assoc → Nat
  | [] => 0
  | assoc :: rest => max assoc.height (heightOf rest)

end

mutual

/-- The ids of the user associations at or below an association. -/
def Assoc.users : Assoc → List Nat
  | .user usage => [usage.id]
  | .account _ children => usersOf children

def usersOf : List Assoc → List Nat
  | [] => []
  | assoc :: rest => assoc.users ++ usersOf rest

end

/-- The associations below the root. The users have different ids. -/
structure AssocTree where
  children : List Assoc
  distinct : (usersOf children).Nodup

/-- `_apply_priority_fs`. -/
def applyPriorityFs (userAssocCount : UInt32) (tree : AssocTree) : RankState :=
  calcTreeFs (heightOf tree.children) tree.children false
    ⟨userAssocCount.toNat, userAssocCount.toNat, [], []⟩

/-- Lists of siblings in a forest: the roots, and the children of any account. -/
inductive SiblingsIn : List Assoc → List Assoc → Prop
  | roots (siblings : List Assoc) : SiblingsIn siblings siblings
  | under {roots siblings : List Assoc} {usage : AssocUsage} {children : List Assoc} :
      Assoc.account usage children ∈ roots → SiblingsIn children siblings →
      SiblingsIn roots siblings

end SlurmSim.Priority.FairTree
