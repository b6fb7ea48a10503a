import Mathlib.Data.Set.Card
import Mathlib.Order.Interval.Finset.Nat
import Mathlib.Tactic.IntervalCases
import Mathlib.Tactic.Ring

/-!
# The reverse tree

Ranks form a tree in depth-first order: the rank of a node is followed by the
sub-trees of its children, one interval of ranks for each.  The parent is searched
from the root, the children are listed by their distance, and the descendants are
counted by the size of a sub-tree, cut off at the number of nodes.
-/

namespace SlurmSim.Slurmd.ReverseTree

/-! ## The code -/

/-- The value of an `int` expression in 32 bits. -/
def toInt (value : Int) : Int :=
  value.bmod (2 ^ 32)

/-- The loop of `int_pow`. -/
def intPowLoop (num : Int) : Nat → Int → Int
  | 0, res => res
  | i + 1, res => intPowLoop num i (toInt (res * num))

/-- `int_pow` -/
def intPow (num : Int) (power : Nat) : Int :=
  if power = 0 then 1
  else if power = 1 then num
  else intPowLoop num (power - 1) num

/-- `geometric_series` -/
def geometricSeries (width : Int) (depth : Nat) : Int :=
  if width = 1 then toInt (depth + 1)
  else (toInt (1 - intPow width (depth + 1))).tdiv (1 - width)

/-- The loop of `dep`, from the depth `i` on. -/
def depLoop (total width : Int) : Nat → Nat → Int → Nat
  | 0, i, _ => i - 1
  | fuel + 1, i, x =>
    if x < total - 1 then depLoop total width fuel (i + 1) (toInt (x + intPow width i))
    else i - 1

/-- `dep` -/
def dep (total width : Int) : Nat :=
  depLoop total width total.toNat 1 0

/-- What `search_tree` stores: parent, number of descendants and depth. -/
structure Found where
  parentId : Int
  nextMaxChildren : Int
  depth : Nat
  deriving DecidableEq

/-- The loop of `search_tree` over the children of `node`. -/
def searchChildren (id node nextChildren : Int) (depth : Nat) (searchBelow : Int → Found) :
    Nat → Int → Found
  | 0, _ => ⟨-1, -1, depth⟩
  | i + 1, current =>
    let next := toInt (current + nextChildren + 1)
    if id = next then ⟨node, nextChildren, depth⟩
    else if current < id ∧ id < next then searchBelow current
    else searchChildren id node nextChildren depth searchBelow i next

/-- `search_tree`, with fuel for its recursion. -/
def searchTree (width : Nat) (id : Int) : Nat → Int → Int → Nat → Found
  | 0, _, _, depth => ⟨-1, -1, depth⟩
  | fuel + 1, node, maxChildren, depth =>
    let current := toInt (node + 1)
    let nextChildren := maxChildren.tdiv width - 1
    if id = current then ⟨node, nextChildren, depth + 1⟩
    else
      searchChildren id node nextChildren (depth + 1)
        (fun current => searchTree width id fuel current nextChildren (depth + 1)) width current

/-- What `reverse_tree_info` stores. -/
structure Info where
  parent : Int
  numChildren : Int
  depth : Int
  maxDepth : Int
  deriving DecidableEq

/-- `reverse_tree_info` -/
def reverseTreeInfo (rank numNodes : Int) (width : Nat) : Info :=
  if numNodes ≤ rank then ⟨-1, -1, -1, -1⟩
  else
    let maxDepth := dep numNodes width
    if rank = 0 then ⟨-1, numNodes - 1, 0, maxDepth⟩
    else
      let maxChildren := geometricSeries width maxDepth
      let found := searchTree width rank rank.toNat 0 maxChildren 0
      let c :=
        if numNodes ≤ toInt (rank + found.nextMaxChildren) then numNodes - rank - 1
        else found.nextMaxChildren
      ⟨found.parentId, c, found.depth, maxDepth⟩

/-- The loop of `reverse_tree_direct_children`. -/
def childrenFrom (numNodes childDistance : Int) : Nat → Int → List Int
  | 0, _ => []
  | i + 1, current =>
    if current < numNodes then
      current :: childrenFrom numNodes childDistance i (toInt (current + childDistance))
    else []

/-- `reverse_tree_direct_children`: the children it stores. -/
def reverseTreeDirectChildren (rank numNodes : Int) (width : Nat) (depth : Int) : List Int :=
  let maxDepth := dep numNodes width
  let subDepth := maxDepth - depth
  if subDepth = 0 then []
  else
    let maxRankChildren := geometricSeries width subDepth.toNat
    childrenFrom numNodes (maxRankChildren.tdiv width) width (toInt (rank + 1))

/-! ## The full tree -/

section Tree

variable {width : Nat}

/-- The number of nodes of a full tree. -/
def treeSize (width : Nat) : Nat → Nat
  | 0 => 1
  | depth + 1 => 1 + width * treeSize width depth

/-- The distance between sub-trees of a depth. With one child for each node it
reaches one rank too far, where no other sub-tree begins. -/
def span (width : Nat) : Nat → Nat
  | 0 => if width = 1 then 2 else 1
  | depth + 1 => 1 + width * span width depth

theorem span_pos (depth : Nat) : 0 < span width depth := by
  cases depth with
  | zero =>
    unfold span
    split_ifs <;> decide
  | succ depth => exact Nat.add_pos_left Nat.one_pos _

theorem span_eq_treeSize (several : width ≠ 1) (depth : Nat) :
    span width depth = treeSize width depth := by
  induction depth with
  | zero => exact if_neg several
  | succ depth ih => rw [span, treeSize, ih]

theorem span_one (depth : Nat) : span 1 depth = depth + 2 := by
  induction depth with
  | zero => rfl
  | succ depth ih =>
    rw [span, ih]
    omega

theorem treeSize_one (depth : Nat) : treeSize 1 depth = depth + 1 := by
  induction depth with
  | zero => rfl
  | succ depth ih =>
    rw [treeSize, ih]
    omega

theorem span_le (depth : Nat) : span width depth ≤ treeSize width depth + 1 := by
  by_cases one : width = 1
  · subst one
    rw [span_one, treeSize_one]
  · rw [span_eq_treeSize one]
    exact Nat.le_succ _

theorem treeSize_le_span (depth : Nat) : treeSize width depth ≤ span width depth := by
  by_cases one : width = 1
  · subst one
    rw [span_one, treeSize_one]
    exact Nat.le_succ _
  · rw [span_eq_treeSize one]

theorem treeSize_div (pos : 0 < width) (depth : Nat) :
    treeSize width (depth + 1) / width = span width depth := by
  by_cases one : width = 1
  · subst one
    rw [span_one, treeSize_one, Nat.div_one]
  · rw [span_eq_treeSize one, treeSize, Nat.add_mul_div_left _ _ pos,
      Nat.div_eq_of_lt (by omega), Nat.zero_add]

theorem span_sub_div (pos : 0 < width) (depth : Nat) :
    (span width (depth + 1) - 1) / width = span width depth := by
  rw [span, Nat.add_sub_cancel_left, Nat.mul_div_cancel_left _ pos]

theorem lt_treeSize (pos : 0 < width) (depth : Nat) : depth < treeSize width depth := by
  induction depth with
  | zero => exact Nat.one_pos
  | succ depth ih =>
    have more : treeSize width depth ≤ width * treeSize width depth :=
      Nat.le_mul_of_pos_left _ pos
    rw [treeSize]
    omega

theorem treeSize_mono (pos : 0 < width) {first second : Nat} (le : first ≤ second) :
    treeSize width first ≤ treeSize width second := by
  induction le with
  | refl => exact le_rfl
  | @step depth _ ih =>
    have more : treeSize width depth ≤ width * treeSize width depth :=
      Nat.le_mul_of_pos_left _ pos
    rw [treeSize]
    omega

theorem treeSize_eq_pow (width depth : Nat) :
    treeSize width (depth + 1) = treeSize width depth + width ^ (depth + 1) := by
  induction depth with
  | zero => simp [treeSize]
  | succ depth ih =>
    calc treeSize width (depth + 2)
        = 1 + width * (treeSize width depth + width ^ (depth + 1)) := by rw [treeSize, ih]
      _ = 1 + width * treeSize width depth + width ^ (depth + 2) := by ring

/-- A node at a relative depth below the root of a tree of the given depth. -/
inductive Below (width : Nat) : Nat → Nat → Nat → Nat → Prop where
  | root (depth node : Nat) : Below width depth node 0 node
  | child {depth node level rank : Nat} (i : Nat) (inside : i < width)
      (below : Below width depth (node + 1 + i * span width depth) level rank) :
      Below width (depth + 1) node (level + 1) rank

namespace Below

variable {depth node level rank : Nat}

theorem level_le (below : Below width depth node level rank) : level ≤ depth := by
  induction below with
  | root => exact Nat.zero_le _
  | child i mem below ih => exact Nat.succ_le_succ ih

theorem le (below : Below width depth node level rank) : node ≤ rank := by
  induction below with
  | root => exact le_rfl
  | child i mem below ih => omega

variable {i j level' : Nat}

theorem child_span_le (mem : i < width) (node depth : Nat) :
    node + 1 + i * span width depth + span width depth ≤ node + span width (depth + 1) := by
  have covered : (i + 1) * span width depth ≤ width * span width depth :=
    Nat.mul_le_mul_right _ mem
  rw [Nat.succ_mul] at covered
  rw [span]
  omega

theorem span_le (below : Below width depth node level rank) :
    rank + span width (depth - level) ≤ node + span width depth := by
  induction below with
  | root => exact le_rfl
  | @child depth node level rank i mem below ih =>
    have covered := child_span_le mem node depth
    rw [Nat.add_sub_add_right]
    omega

theorem lt (below : Below width depth node level rank) : rank < node + span width depth := by
  have covered := below.span_le
  have := @span_pos width (depth - level)
  omega

theorem level_eq_zero (below : Below width depth node level node) : level = 0 := by
  cases below with
  | root => rfl
  | child i mem below =>
    have := below.le
    omega

theorem eq_of_level_zero (below : Below width depth node level rank) (top : level = 0) :
    rank = node := by
  cases below with
  | root => rfl
  | child i mem below => exact absurd top (Nat.succ_ne_zero _)

theorem child_unique (inI : node + 1 + i * span width depth ≤ rank)
    (endI : rank < node + 1 + i * span width depth + span width depth)
    (inJ : node + 1 + j * span width depth ≤ rank)
    (endJ : rank < node + 1 + j * span width depth + span width depth) : i = j := by
  rcases Nat.lt_trichotomy i j with less | same | greater
  · have := Nat.mul_le_mul_right (span width depth) less
    rw [Nat.succ_mul] at this
    omega
  · exact same
  · have := Nat.mul_le_mul_right (span width depth) greater
    rw [Nat.succ_mul] at this
    omega

theorem within {other : Nat} (below : Below width depth node level rank)
    (below' : Below width depth node level' other) (from_rank : rank ≤ other)
    (to_end : other < rank + span width (depth - level)) :
    ∃ more, level' = level + more ∧ Below width (depth - level) rank more other := by
  induction below generalizing level' with
  | root => exact ⟨level', (Nat.zero_add _).symm, below'⟩
  | @child depth node level rank i mem below ih =>
    have start := below.le
    have stop := below.span_le
    rw [Nat.add_sub_add_right] at to_end ⊢
    cases below' with
    | root => omega
    | @child _ _ level' _ j inside' below' =>
      have same : i = j := by
        refine child_unique (start.trans from_rank) ?_ below'.le below'.lt
        omega
      subst same
      obtain ⟨more, rfl, relative⟩ := ih below' from_rank to_end
      exact ⟨more, by omega, relative⟩

theorem trans {more other : Nat} (below : Below width depth node level rank)
    (below' : Below width (depth - level) rank more other) :
    Below width depth node (level + more) other := by
  induction below with
  | root =>
    rw [Nat.zero_add]
    exact below'
  | @child depth node level rank i mem below ih =>
    rw [Nat.add_sub_add_right] at below'
    rw [Nat.add_right_comm]
    exact .child i mem (ih below')

theorem level_unique (below : Below width depth node level rank)
    (below' : Below width depth node level' rank) : level = level' := by
  obtain ⟨more, rfl, here⟩ := below.within below' le_rfl
    (Nat.lt_add_of_pos_right (span_pos _))
  rw [here.level_eq_zero, Nat.add_zero]

theorem next {i : Nat} (below : Below width depth node level rank) (inner : level < depth)
    (mem : i < width) :
    Below width depth node (level + 1) (rank + 1 + i * span width (depth - level - 1)) := by
  refine below.trans ?_
  obtain ⟨rest, left⟩ := Nat.exists_eq_add_of_lt inner
  have depthLeft : depth - level = rest + 1 := by omega
  rw [depthLeft]
  exact .child i mem (.root _ _)

theorem parent (below : Below width depth node level rank) (notRoot : node < rank) :
    ∃ parent level', ∃ i < width, level = level' + 1 ∧ level' < depth ∧
      Below width depth node level' parent ∧
      rank = parent + 1 + i * span width (depth - level' - 1) := by
  induction below with
  | root => omega
  | @child depth node level rank i mem below ih =>
    rcases Nat.lt_or_eq_of_le below.le with deeper | here
    · obtain ⟨parent, level', j, inside', rfl, inner, above, place⟩ := ih deeper
      refine ⟨parent, level' + 1, j, inside', rfl, by omega, .child i mem above, ?_⟩
      rw [Nat.add_sub_add_right]
      exact place
    · rw [← here] at below
      have top := below.level_eq_zero
      subst top
      exact ⟨node, 0, i, mem, rfl, Nat.succ_pos _, .root _ _, here.symm⟩

theorem eq_of_child_eq {first second : Nat} (below : Below width depth node level first)
    (below' : Below width depth node level second) (inner : level < depth) (mem : i < width)
    (order : first ≤ second)
    (same : first + 1 + i * span width (depth - level - 1) = second + 1 + j * span width (depth - level - 1)) :
    first = second := by
  have covered := child_span_le mem first (depth - level - 1)
  have depthLeft : depth - level - 1 + 1 = depth - level := by omega
  rw [depthLeft] at covered
  obtain ⟨more, equal, relative⟩ := below.within below' order (by omega)
  exact (relative.eq_of_level_zero (by omega)).symm

theorem parent_unique {first second : Nat} (below : Below width depth node level first)
    (inner : level < depth) (mem : i < width) (below' : Below width depth node level' second)
    (inner' : level' < depth) (inside' : j < width)
    (same : first + 1 + i * span width (depth - level - 1) = second + 1 + j * span width (depth - level' - 1)) :
    first = second := by
  have next' := below'.next inner' inside'
  rw [← same] at next'
  obtain rfl : level = level' := by
    have levels := (below.next inner mem).level_unique next'
    omega
  rcases Nat.le_total first second with order | order
  · exact below.eq_of_child_eq below' inner mem order same
  · exact (below'.eq_of_child_eq below inner inside' order same.symm).symm

end Below

end Tree

/-! ## Numbers in range -/

section Range

variable {width : Nat}

theorem toInt_natCast {value : Nat} (small : value < 2 ^ 31) : toInt value = value := by
  unfold toInt
  rw [Int.bmod_eq_iff (by decide)]
  omega

theorem toInt_eq {value : Int} {exact : Nat} (same : value = exact) (small : exact < 2 ^ 31) :
    toInt value = exact := by
  rw [same, toInt_natCast small]

theorem intPowLoop_eq (pos : 0 < width) (i power : Nat) (small : width ^ (power + i) < 2 ^ 31) :
    intPowLoop width i ((width ^ power : Nat) : Int) = (width ^ (power + i) : Nat) := by
  induction i generalizing power with
  | zero => rfl
  | succ i ih =>
    have next : ((width ^ power : Nat) : Int) * width = (width ^ (power + 1) : Nat) := by
      rfl
    have less : width ^ (power + 1) < 2 ^ 31 :=
      (Nat.pow_le_pow_right pos (by omega)).trans_lt small
    have shift : power + (i + 1) = power + 1 + i := by omega
    rw [shift] at small ⊢
    rw [intPowLoop, toInt_eq next less, ih (power + 1) small]

theorem intPow_eq (pos : 0 < width) {power : Nat} (small : width ^ power < 2 ^ 31) :
    intPow width power = (width ^ power : Nat) := by
  unfold intPow
  split_ifs with zero one
  · simp [zero]
  · simp [one]
  · have total : 1 + (power - 1) = power := by omega
    have loop := intPowLoop_eq pos (power - 1) 1 (by rwa [total])
    rwa [total, pow_one] at loop

theorem treeSize_mul (width depth : Nat) :
    ((1 : Int) - width) * treeSize width depth = 1 - (width ^ (depth + 1) : Nat) := by
  induction depth with
  | zero => simp [treeSize]
  | succ depth ih =>
    rw [treeSize_eq_pow]
    push_cast at ih ⊢
    rw [mul_add, ih]
    ring

theorem geometricSeries_eq (pos : 0 < width) {depth : Nat} (small : width ^ (depth + 1) < 2 ^ 31)
    (size : treeSize width depth < 2 ^ 31) :
    geometricSeries width depth = treeSize width depth := by
  unfold geometricSeries
  split_ifs with one
  · obtain rfl : width = 1 := by omega
    rw [treeSize_one] at size ⊢
    exact toInt_eq rfl size
  · have several : (1 : Int) - width ≠ 0 := by omega
    have inRange : toInt (1 - (width ^ (depth + 1) : Nat)) = 1 - (width ^ (depth + 1) : Nat) := by
      unfold toInt
      rw [Int.bmod_eq_iff (by decide)]
      omega
    rw [intPow_eq pos small, inRange, ← treeSize_mul, Int.mul_tdiv_cancel_left _ several]

/-- The depth of the smallest full tree for so many nodes. -/
structure IsDepth (width numNodes depth : Nat) : Prop where
  enough : numNodes ≤ treeSize width depth
  least : ∀ less < depth, treeSize width less < numNodes

/-- The geometric sums for the nodes are in the range of `int`. -/
def InRange (width numNodes : Nat) : Prop :=
  ∃ depth, IsDepth width numNodes depth ∧ width ^ (depth + 1) < 2 ^ 31 ∧
    treeSize width depth + 1 < 2 ^ 31

theorem depLoop_eq (pos : 0 < width) {numNodes depth : Nat} (isDepth : IsDepth width numNodes depth)
    (power : width ^ (depth + 1) < 2 ^ 31) (size : treeSize width depth < 2 ^ 31)
    (fuel level : Nat) (le : level ≤ depth) (enough : depth ≤ fuel + level) :
    depLoop numNodes width fuel (level + 1) (treeSize width level - 1) = depth := by
  induction fuel generalizing level with
  | zero =>
    rw [depLoop]
    omega
  | succ fuel ih =>
    rw [depLoop]
    rcases Nat.lt_or_eq_of_le le with deeper | rfl
    · have more := isDepth.least level deeper
      have small : width ^ (level + 1) < 2 ^ 31 :=
        (Nat.pow_le_pow_right pos (by omega)).trans_lt power
      have nextSize : treeSize width (level + 1) < 2 ^ 31 :=
        (treeSize_mono pos deeper).trans_lt size
      have sum := treeSize_eq_pow width level
      have next : toInt ((treeSize width level : Int) - 1 + intPow width (level + 1)) =
          treeSize width (level + 1) - 1 := by
        rw [intPow_eq pos small]
        have := lt_treeSize pos level
        have cast : (treeSize width level : Int) - 1 + (width ^ (level + 1) : Nat) =
            (treeSize width (level + 1) - 1 : Nat) := by omega
        rw [toInt_eq cast (by omega)]
        omega
      rw [if_pos (by omega), next]
      exact ih (level + 1) deeper (by omega)
    · have enough' := isDepth.enough
      rw [if_neg (by omega)]
      rfl

theorem dep_eq (pos : 0 < width) {numNodes depth : Nat} (isDepth : IsDepth width numNodes depth)
    (power : width ^ (depth + 1) < 2 ^ 31) (size : treeSize width depth < 2 ^ 31) :
    dep numNodes width = depth := by
  have fuel : depth ≤ numNodes := by
    cases depth with
    | zero => exact Nat.zero_le _
    | succ less =>
      have := isDepth.least less (Nat.lt_succ_self _)
      have := lt_treeSize pos less
      omega
  exact depLoop_eq pos isDepth power size numNodes 0 (Nat.zero_le _) fuel

end Range

/-! ## The search for the parent -/

section Search

variable {width : Nat}

theorem searchChildren_spec {id node depth level : Nat} {searchBelow : Int → Found}
    (i left : Nat) (all : i + left = width) (start : node + 1 + i * span width depth < id)
    (stop : id < node + 1 + width * span width depth)
    (small : node + 1 + width * span width depth < 2 ^ 31) :
    ∃ j < width, id = node + 1 + j * span width depth ∧
        searchChildren id node (span width depth - 1) level searchBelow left
          ((node + 1 + i * span width depth : Nat) : Int) = ⟨node, span width depth - 1, level⟩ ∨
      node + 1 + j * span width depth < id ∧
        id < node + 1 + j * span width depth + span width depth ∧
        searchChildren id node (span width depth - 1) level searchBelow left
          ((node + 1 + i * span width depth : Nat) : Int) =
            searchBelow ((node + 1 + j * span width depth : Nat) : Int) := by
  induction left generalizing i with
  | zero =>
    obtain rfl : i = width := by omega
    omega
  | succ left ih =>
    have step : (i + 1) * span width depth = i * span width depth + span width depth :=
      Nat.succ_mul _ _
    have covered : (i + 1) * span width depth ≤ width * span width depth :=
      Nat.mul_le_mul_right _ (by omega)
    have next : toInt (((node + 1 + i * span width depth : Nat) : Int) +
        (span width depth - 1) + 1) = (node + 1 + (i + 1) * span width depth : Nat) := by
      refine toInt_eq ?_ (by omega)
      push_cast
      ring
    rw [searchChildren, next]
    by_cases here : id = node + 1 + (i + 1) * span width depth
    · refine ⟨i + 1, ?_, .inl ⟨here, ?_⟩⟩
      · by_contra none
        obtain rfl : width = i + 1 := by omega
        omega
      · rw [if_pos (by rw [here])]
    · rw [if_neg (by exact_mod_cast here)]
      by_cases below : id < node + 1 + (i + 1) * span width depth
      · refine ⟨i, by omega, .inr ⟨start, by omega, ?_⟩⟩
        rw [if_pos ⟨by exact_mod_cast start, by exact_mod_cast below⟩]
      · rw [if_neg (by rintro ⟨-, less⟩; exact below (by exact_mod_cast less))]
        exact ih (i + 1) (by omega) (by omega)

theorem searchTree_spec (pos : 0 < width) {id : Nat} (fuel level : Nat) {depth node : Nat}
    {maxChildren : Int} (distance : maxChildren.tdiv width = span width depth)
    (start : node < id) (stop : id < node + treeSize width (depth + 1))
    (small : node + span width (depth + 1) < 2 ^ 31) (enough : id ≤ node + fuel) :
    ∃ down parent, ∃ i < width, down ≤ depth ∧ Below width (depth + 1) node down parent ∧
      id = parent + 1 + i * span width (depth - down) ∧
      searchTree width id fuel node maxChildren level =
        ⟨parent, span width (depth - down) - 1, level + down + 1⟩ := by
  induction fuel generalizing depth node level maxChildren with
  | zero => omega
  | succ fuel ih =>
    have size : id < node + 1 + width * span width depth := by
      have := @treeSize_le_span width (depth + 1)
      rw [span] at this
      omega
    rw [span] at small
    have first : toInt ((node : Int) + 1) = (node + 1 : Nat) := toInt_eq rfl (by omega)
    rw [searchTree, distance, first]
    by_cases here : id = node + 1
    · refine ⟨0, node, 0, pos, Nat.zero_le _, .root _ _, by omega, ?_⟩
      rw [if_pos (by rw [here])]
      rfl
    · rw [if_neg (by exact_mod_cast here)]
      have children := @searchChildren_spec width id node depth (level + 1)
        (fun current => searchTree width id fuel current (span width depth - 1) (level + 1))
        0 width (Nat.zero_add _) (by omega) size (by omega)
      rw [Nat.zero_mul, Nat.add_zero] at children
      obtain ⟨j, mem, ⟨place, found⟩ | ⟨above, below, found⟩⟩ := children
      · exact ⟨0, node, j, mem, Nat.zero_le _, .root _ _, place, found⟩
      · cases depth with
        | zero =>
          exfalso
          rw [treeSize, treeSize] at stop
          rw [span] at above below
          split_ifs at above below with one
          · subst one
            omega
          · omega
        | succ depth =>
          have deeper : ((span width (depth + 1) : Int) - 1).tdiv width = span width depth := by
            have cast : ((span width (depth + 1) : Int) - 1) =
                ((span width (depth + 1) - 1 : Nat) : Int) := by
              have := @span_pos width (depth + 1)
              omega
            rw [cast, ← Int.ofNat_tdiv, span_sub_div pos]
          have end_ : id < node + 1 + j * span width (depth + 1) + treeSize width (depth + 1) := by
            by_cases one : width = 1
            · subst one
              rw [treeSize_one] at stop ⊢
              omega
            · rw [← span_eq_treeSize one]
              exact below
          have whole : span width (depth + 2) = 1 + width * span width (depth + 1) := rfl
          have covered := Below.child_span_le mem node (depth + 1)
          rw [whole] at covered
          obtain ⟨down, parent, i, inside', le, relative, place, result⟩ :=
            @ih (level + 1) depth (node + 1 + j * span width (depth + 1)) _ deeper above end_
              (by omega) (by omega)
          refine ⟨down + 1, parent, i, inside', by omega, .child j mem relative, ?_, ?_⟩
          · rw [Nat.add_sub_add_right]
            exact place
          · have levels : level + 1 + down + 1 = level + (down + 1) + 1 := by omega
            rw [found, result, Nat.add_sub_add_right, levels]

end Search

/-! ## The tree of the ranks -/

section Ranks

variable {width numNodes depth : Nat}

/-- A full tree for the nodes whose sums are in range. -/
structure Fits (width numNodes depth : Nat) : Prop extends IsDepth width numNodes depth where
  pos : 0 < width
  power : width ^ (depth + 1) < 2 ^ 31
  size : treeSize width depth + 1 < 2 ^ 31

namespace Fits

variable (fits : Fits width numNodes depth)

include fits

theorem dep_eq : dep numNodes width = depth :=
  ReverseTree.dep_eq fits.pos fits.toIsDepth fits.power (Nat.lt_of_succ_lt fits.size)

theorem span_small : span width depth < 2 ^ 31 :=
  (ReverseTree.span_le depth).trans_lt fits.size

variable {level rank : Nat}

theorem below_small (below : Below width depth 0 level rank) :
    rank + span width (depth - level) < 2 ^ 31 := by
  have := below.span_le
  have := fits.span_small
  omega

theorem series_div {less : Nat} (le : less + 1 ≤ depth) :
    (geometricSeries width ((less + 1 : Nat))).tdiv width = span width less := by
  have power : width ^ (less + 2) < 2 ^ 31 :=
    (Nat.pow_le_pow_right fits.pos (by omega)).trans_lt fits.power
  have size := (treeSize_mono fits.pos le).trans_lt (Nat.lt_of_succ_lt fits.size)
  rw [geometricSeries_eq fits.pos power size, ← Int.ofNat_tdiv, treeSize_div fits.pos]

theorem info_root (some : 0 < numNodes) :
    reverseTreeInfo 0 numNodes width = ⟨-1, numNodes - 1, 0, depth⟩ := by
  rw [reverseTreeInfo, if_neg (by omega), if_pos rfl, fits.dep_eq]

theorem info_spec (notRoot : 0 < rank) (mem : rank < numNodes) :
    ∃ level parent, ∃ i < width, level < depth ∧ Below width depth 0 level parent ∧
      rank = parent + 1 + i * span width (depth - level - 1) ∧
      reverseTreeInfo rank numNodes width =
        ⟨parent, (min (span width (depth - level - 1) - 1) (numNodes - rank - 1) : Nat),
          level + 1, depth⟩ := by
  have enough := fits.enough
  cases depth with
  | zero =>
    rw [treeSize] at enough
    omega
  | succ less =>
    obtain ⟨level, parent, i, inWidth, le, below, place, found⟩ :=
      searchTree_spec fits.pos rank 0 (fits.series_div le_rfl) notRoot
        (by omega) (by simpa using fits.span_small) (by omega)
    have left : less + 1 - level - 1 = less - level := by omega
    refine ⟨level, parent, i, inWidth, by omega, below, by rw [left]; exact place, ?_⟩
    have small := fits.below_small (below.next (by omega) inWidth)
    have left' : less + 1 - (level + 1) = less - level := by omega
    rw [left, ← place, left'] at small
    have := @span_pos width (less - level)
    have reach : toInt ((rank : Int) + (span width (less - level) - 1)) =
        (rank + span width (less - level) - 1 : Nat) := toInt_eq (by omega) (by omega)
    rw [reverseTreeInfo, if_neg (by omega), if_neg (by omega), fits.dep_eq, left]
    rw [Nat.cast_zero] at found
    have number : (if (numNodes : Int) ≤ (rank + span width (less - level) - 1 : Nat) then
        (numNodes : Int) - rank - 1 else span width (less - level) - 1) =
        (min (span width (less - level) - 1) (numNodes - rank - 1) : Nat) := by
      split_ifs <;> omega
    simp only [Int.toNat_natCast, found, reach, Nat.zero_add, number, Nat.cast_succ]

theorem exists_below (mem : rank < numNodes) : ∃ level, Below width depth 0 level rank := by
  rcases Nat.eq_zero_or_pos rank with rfl | notRoot
  · exact ⟨0, .root _ _⟩
  · obtain ⟨level, parent, i, inWidth, less, below, place, -⟩ := fits.info_spec notRoot mem
    exact ⟨level + 1, place ▸ below.next less inWidth⟩

theorem info_below (below : Below width depth 0 level rank) (mem : rank < numNodes) :
    (reverseTreeInfo rank numNodes width).depth = level ∧
      (reverseTreeInfo rank numNodes width).numChildren =
        (min (span width (depth - level) - 1) (numNodes - rank - 1) : Nat) := by
  rcases Nat.eq_zero_or_pos rank with rfl | notRoot
  · have top := below.level_eq_zero
    have enough := fits.enough
    have := @treeSize_le_span width depth
    subst top
    rw [Nat.cast_zero, fits.info_root mem, Nat.sub_zero]
    dsimp only
    omega
  · obtain ⟨above, parent, i, inWidth, less, parentBelow, place, info⟩ :=
      fits.info_spec notRoot mem
    have next := parentBelow.next less inWidth
    rw [← place] at next
    obtain rfl := below.level_unique next
    rw [info]
    exact ⟨by rfl, rfl⟩

theorem parent_iff {child : Nat} (mem : child < numNodes) :
    (reverseTreeInfo child numNodes width).parent = rank ↔
      ∃ level, ∃ i < width, level < depth ∧ Below width depth 0 level rank ∧
        child = rank + 1 + i * span width (depth - level - 1) := by
  rcases Nat.eq_zero_or_pos child with rfl | notRoot
  · rw [Nat.cast_zero, fits.info_root mem]
    constructor
    · intro same
      dsimp only at same
      omega
    · omega
  · obtain ⟨level, parent, i, inWidth, less, below, place, info⟩ :=
      fits.info_spec notRoot mem
    rw [info]
    constructor
    · intro same
      obtain rfl : parent = rank := Int.ofNat.inj same
      exact ⟨level, i, inWidth, less, below, place⟩
    · rintro ⟨level', j, inWidth', less', below', place'⟩
      have same := below.parent_unique less inWidth below' less' inWidth' (place ▸ place')
      exact congrArg Int.ofNat same

/-! ### Children -/

omit fits in
theorem mem_childrenFrom {first distance : Nat} (left i : Nat)
    (small : first + (i + left) * distance < 2 ^ 31) (x : Int) :
    x ∈ childrenFrom numNodes distance left ((first + i * distance : Nat) : Int) ↔
      ∃ j, i ≤ j ∧ j < i + left ∧ x = (first + j * distance : Nat) ∧
        first + j * distance < numNodes := by
  induction left generalizing i with
  | zero =>
    simp only [childrenFrom, List.not_mem_nil, false_iff]
    omega
  | succ left ih =>
    have all : i + 1 + left = i + (left + 1) := by omega
    have covered : (i + 1) * distance ≤ (i + (left + 1)) * distance :=
      Nat.mul_le_mul_right _ (by omega)
    have next : toInt (((first + i * distance : Nat) : Int) + distance) =
        (first + (i + 1) * distance : Nat) := toInt_eq (by push_cast; ring) (by omega)
    rw [childrenFrom, next]
    split_ifs with inside
    · rw [List.mem_cons, ih (i + 1) (by rwa [all]), all]
      constructor
      · rintro (rfl | ⟨j, low, high, rfl, below⟩)
        · exact ⟨i, le_rfl, by omega, rfl, by exact_mod_cast inside⟩
        · exact ⟨j, by omega, high, rfl, below⟩
      · rintro ⟨j, low, high, rfl, below⟩
        rcases Nat.eq_or_lt_of_le low with rfl | later
        · exact .inl rfl
        · exact .inr ⟨j, later, high, rfl, below⟩
    · simp only [List.not_mem_nil, false_iff]
      rintro ⟨j, low, -, -, below⟩
      have := Nat.mul_le_mul_right distance low
      omega

omit fits in
theorem sorted_childrenFrom {first distance : Nat} (pos : 0 < distance) (left i : Nat)
    (small : first + (i + left) * distance < 2 ^ 31) :
    (childrenFrom numNodes distance left ((first + i * distance : Nat) : Int)).Pairwise (· < ·) := by
  induction left generalizing i with
  | zero => exact .nil
  | succ left ih =>
    have step : (i + 1) * distance = i * distance + distance := Nat.succ_mul _ _
    have all : i + 1 + left = i + (left + 1) := by omega
    have covered : (i + 1) * distance ≤ (i + (left + 1)) * distance :=
      Nat.mul_le_mul_right _ (by omega)
    have next : toInt (((first + i * distance : Nat) : Int) + distance) =
        (first + (i + 1) * distance : Nat) := toInt_eq (by push_cast; ring) (by omega)
    rw [childrenFrom, next]
    split_ifs with inside
    · refine List.pairwise_cons.mpr ⟨?_, ih (i + 1) (by rwa [all])⟩
      intro x member
      obtain ⟨j, low, -, rfl, -⟩ :=
        (mem_childrenFrom left (i + 1) (by rwa [all]) x).mp member
      have := Nat.mul_le_mul_right distance low
      omega
    · exact .nil

theorem directChildren_eq (below : Below width depth 0 level rank) (mem : rank < numNodes)
    (inner : level < depth) :
    reverseTreeDirectChildren rank numNodes width (reverseTreeInfo rank numNodes width).depth =
      childrenFrom numNodes (span width (depth - level - 1)) width
        ((rank + 1 + 0 * span width (depth - level - 1) : Nat) : Int) := by
  obtain ⟨less, left⟩ := Nat.exists_eq_add_of_lt inner
  have sub : ((depth : Int) - level).toNat = less + 1 := by omega
  have left' : depth - level - 1 = less := by omega
  have small := fits.below_small below
  have := @span_pos width (depth - level)
  have first : toInt ((rank : Int) + 1) = (rank + 1 : Nat) := toInt_eq rfl (by omega)
  have distance := fits.series_div (show less + 1 ≤ depth by omega)
  rw [reverseTreeDirectChildren, fits.dep_eq, (fits.info_below below mem).1,
    if_neg (by omega), sub, first, left', Nat.zero_mul, Nat.add_zero]
  dsimp only
  rw [distance]

theorem directChildren_small (below : Below width depth 0 level rank) (inner : level < depth) :
    rank + 1 + (0 + width) * span width (depth - level - 1) < 2 ^ 31 := by
  have small := fits.below_small below
  obtain ⟨less, left⟩ := Nat.exists_eq_add_of_lt inner
  have left' : depth - level - 1 = less := by omega
  have whole : depth - level = less + 1 := by omega
  rw [whole, span] at small
  rw [left', Nat.zero_add]
  omega

/-- The listed children are in order and are the ranks with this parent. -/
theorem directChildren_spec (mem : rank < numNodes) :
    (reverseTreeDirectChildren rank numNodes width
        (reverseTreeInfo rank numNodes width).depth).Pairwise (· < ·) ∧
      ∀ child, child ∈ reverseTreeDirectChildren rank numNodes width
          (reverseTreeInfo rank numNodes width).depth ↔
        0 ≤ child ∧ child < numNodes ∧ (reverseTreeInfo child numNodes width).parent = rank := by
  obtain ⟨level, below⟩ := fits.exists_below mem
  rcases Nat.lt_or_eq_of_le below.level_le with inner | bottom
  · have small := fits.directChildren_small below inner
    rw [fits.directChildren_eq below mem inner]
    refine ⟨sorted_childrenFrom (span_pos _) width 0 small, fun child => ?_⟩
    rw [mem_childrenFrom width 0 small]
    constructor
    · rintro ⟨i, -, inWidth, rfl, less⟩
      refine ⟨Int.natCast_nonneg _, by exact_mod_cast less, (fits.parent_iff less).mpr ?_⟩
      exact ⟨level, i, by omega, inner, below, rfl⟩
    · rintro ⟨nonneg, less, parent⟩
      obtain ⟨child, rfl⟩ := Int.eq_ofNat_of_zero_le nonneg
      have less' : child < numNodes := by exact_mod_cast less
      obtain ⟨level', i, inWidth, -, below', rfl⟩ := (fits.parent_iff less').mp parent
      obtain rfl := below.level_unique below'
      exact ⟨i, Nat.zero_le _, by omega, rfl, less'⟩
  · have leaf : reverseTreeDirectChildren rank numNodes width
        (reverseTreeInfo rank numNodes width).depth = [] := by
      rw [reverseTreeDirectChildren, fits.dep_eq, (fits.info_below below mem).1, bottom,
        sub_self, if_pos rfl]
    rw [leaf]
    refine ⟨.nil, fun child => ?_⟩
    simp only [List.not_mem_nil, false_iff]
    rintro ⟨nonneg, less, parent⟩
    obtain ⟨child, rfl⟩ := Int.eq_ofNat_of_zero_le nonneg
    obtain ⟨level', i, inWidth, inner, below', -⟩ :=
      (fits.parent_iff (by exact_mod_cast less)).mp parent
    have := below.level_unique below'
    omega

theorem parent_spec (notRoot : 0 < rank) (mem : rank < numNodes) :
    ∃ parent : Nat, (reverseTreeInfo rank numNodes width).parent = parent ∧ parent < rank ∧
      (reverseTreeInfo parent numNodes width).depth + 1 =
        (reverseTreeInfo rank numNodes width).depth := by
  obtain ⟨level, parent, i, inWidth, less, below, place, info⟩ := fits.info_spec notRoot mem
  refine ⟨parent, by rw [info], by omega, ?_⟩
  rw [(fits.info_below below (by omega)).1, info]

end Fits

/-! ### Descendants -/

/-- One step from a rank to its parent. -/
def ParentStep (width numNodes : Nat) (child rank : Nat) : Prop :=
  child < numNodes ∧ (reverseTreeInfo child numNodes width).parent = rank

/-- Following parents from the first rank leads to the second. -/
def Reaches (width numNodes : Nat) : Nat → Nat → Prop :=
  Relation.TransGen (ParentStep width numNodes)

namespace Fits

variable (fits : Fits width numNodes depth)

include fits

variable {level rank : Nat}

theorem step_within {child parent : Nat} (below : Below width depth 0 level rank)
    (step : ParentStep width numNodes child parent) (from_rank : rank ≤ parent)
    (to_end : parent < rank + span width (depth - level)) :
    rank < child ∧ child < rank + span width (depth - level) := by
  obtain ⟨above, i, inWidth, inner, parentBelow, rfl⟩ := (fits.parent_iff step.1).mp step.2
  obtain ⟨more, rfl, relative⟩ := below.within parentBelow from_rank to_end
  have next := relative.next (by omega) inWidth
  have left : depth - (level + more) - 1 = depth - level - more - 1 := by omega
  rw [left]
  exact ⟨by omega, next.lt⟩

theorem reaches_within {other : Nat} (below : Below width depth 0 level rank)
    (reaches : Reaches width numNodes other rank) :
    rank < other ∧ other < rank + span width (depth - level) := by
  induction reaches using Relation.TransGen.head_induction_on with
  | single step =>
    refine fits.step_within below step le_rfl ?_
    exact Nat.lt_add_of_pos_right (span_pos _)
  | head step _ ih => exact fits.step_within below step ih.1.le ih.2

theorem reaches_of_within {other : Nat} (below : Below width depth 0 level rank)
    (mem : other < numNodes) (behind : rank < other)
    (to_end : other < rank + span width (depth - level)) : Reaches width numNodes other rank := by
  induction other using Nat.strong_induction_on with
  | _ other ih =>
    obtain ⟨otherLevel, otherBelow⟩ := fits.exists_below mem
    obtain ⟨more, rfl, relative⟩ := below.within otherBelow behind.le to_end
    obtain ⟨parent, up, i, inWidth, rfl, inner, parentBelow, place⟩ := relative.parent behind
    have step : ParentStep width numNodes other parent := by
      refine ⟨mem, (fits.parent_iff mem).mpr ?_⟩
      refine ⟨level + up, i, inWidth, by omega, below.trans parentBelow, ?_⟩
      have left : depth - (level + up) - 1 = depth - level - up - 1 := by omega
      rw [left]
      exact place
    rcases Nat.eq_or_lt_of_le parentBelow.le with rfl | later
    · exact .single step
    · exact .head step (ih parent (by omega) (by omega) later parentBelow.lt)

theorem numChildren_eq (mem : rank < numNodes) :
    (reverseTreeInfo rank numNodes width).numChildren =
      Set.ncard {other | other < numNodes ∧ Reaches width numNodes other rank} := by
  obtain ⟨level, below⟩ := fits.exists_below mem
  have descendants : {other | other < numNodes ∧ Reaches width numNodes other rank} =
      Finset.Ioo rank (min numNodes (rank + span width (depth - level))) := by
    ext other
    simp only [Set.mem_ofPred_eq, Finset.coe_Ioo, Set.mem_Ioo, lt_min_iff]
    constructor
    · rintro ⟨less, reaches⟩
      have := fits.reaches_within below reaches
      exact ⟨this.1, less, this.2⟩
    · rintro ⟨behind, less, to_end⟩
      exact ⟨less, fits.reaches_of_within below less behind to_end⟩
  have := @span_pos width (depth - level)
  rw [(fits.info_below below mem).2, descendants, Set.ncard_coe_finset, Nat.card_Ioo]
  omega

end Fits

end Ranks

/-- The ranks whose parents lead to a rank follow it, as many as the number of its children:
the ranks that report through one rank are an interval. -/
theorem descendants_follow {width numNodes rank : Nat} (pos : 1 ≤ width) (inside : rank < numNodes)
    (range : InRange width numNodes) (other : Nat) :
    other < numNodes ∧ Reaches width numNodes other rank ↔
      rank < other ∧ (other : Int) ≤ rank + (reverseTreeInfo rank numNodes width).numChildren := by
  obtain ⟨depth, isDepth, power, size⟩ := range
  have fits : Fits width numNodes depth := ⟨isDepth, pos, power, size⟩
  obtain ⟨level, below⟩ := fits.exists_below inside
  have some := @span_pos width (depth - level)
  rw [(fits.info_below below inside).2]
  constructor
  · rintro ⟨less, reaches⟩
    have := fits.reaches_within below reaches
    omega
  · rintro ⟨behind, last⟩
    exact ⟨by omega, fits.reaches_of_within below (by omega) behind (by omega)⟩

theorem descendants_follow_six :
    (1 ≤ 2 ∧ 1 < 6 ∧ InRange 2 6) ∧ Reaches 2 6 3 1 ∧ ¬Reaches 2 6 4 1 := by
  have range : InRange 2 6 := by
    refine ⟨2, ⟨by decide, ?_⟩, by decide, by decide⟩
    intro less small
    interval_cases less <;> decide
  have follow := fun other => descendants_follow (by decide) (show 1 < 6 by decide) range other
  exact ⟨⟨by decide, by decide, range⟩, ((follow 3).mpr (by decide)).2,
    fun reaches => absurd ((follow 4).mp ⟨by decide, reaches⟩) (by decide)⟩

end SlurmSim.Slurmd.ReverseTree
