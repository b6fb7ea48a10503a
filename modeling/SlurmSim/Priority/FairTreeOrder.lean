import SlurmSim.Priority.FairTreeVisits

/-!
# The order of the Fair Tree ranks

A user keeps the rank of the user before when the walk takes it for tied. The
mark is also set where nothing is tied: behind an account without users, and at
the head of a list of siblings whose value is the initial one of
`prev_level_fs`. Siblings are ranked apart exactly when no such mark reaches the
first user below the lower one.
-/

namespace SlurmSim.Priority.FairTree

open SlurmSim.Lib List

/-- There is a user at or below the association. -/
def Assoc.hasUsers (assoc : Assoc) : Bool :=
  !assoc.users.isEmpty

/-- Of two siblings with different values every user of the higher one is ranked
above every user of the lower one. -/
def OrderedRanks (userAssocCount : UInt32) (tree : AssocTree) : Prop :=
  ∀ siblings, SiblingsIn tree.children siblings → ∀ x ∈ siblings, ∀ y ∈ siblings,
    levelFs y < levelFs x →
      ∀ a ∈ (applyPriorityFs userAssocCount tree).assigned, a.id ∈ x.users →
        ∀ b ∈ (applyPriorityFs userAssocCount tree).assigned, b.id ∈ y.users →
          b.fsFactor userAssocCount < a.fsFactor userAssocCount

/-! ## Where a tie mark comes from -/

/-- The mark of an association behind accounts without users: it is compared
with the last of them, or `none` applies when there is none. -/
def markBehind (none : Bool) (empties : List Assoc) (assoc : Assoc) : Bool :=
  match empties.getLast? with
  | .none => none
  | .some last => levelFs last = levelFs assoc

/-- The mark of the first user at or below an association with a mark. -/
def entryTied (down : List Assoc → Bool → Bool) (mark : Bool) : Assoc → Bool
  | .user _ => mark
  | .account _ children => down children mark

/-- The mark of the first user below siblings whose parent has a mark: it is
handed down the first association with users of each level. -/
def leadTied : Nat → List Assoc → Bool → Bool
  | 0, _, accountTied => accountTied
  | depth + 1, siblings, accountTied =>
    let sorted := qsort cmpLevelFs siblings
    match sorted.dropWhile fun assoc => !assoc.hasUsers with
    | [] => accountTied
    | assoc :: _ =>
      entryTied (leadTied depth)
        (markBehind (accountTied || decide (noVal = levelFs assoc))
          (sorted.takeWhile fun assoc => !assoc.hasUsers) assoc) assoc

/-- No tie mark reaches the first user of an association that stands behind one
with users and a higher value, with only accounts without users between. -/
def EntersUntied (siblings : List Assoc) : Prop :=
  ∀ before x between y after,
    qsort cmpLevelFs siblings = before ++ x :: (between ++ y :: after) →
    x.hasUsers = true → y.hasUsers = true → (∀ e ∈ between, e.hasUsers = false) →
    levelFs y < levelFs x →
    entryTied (fun children => leadTied (heightOf children) children)
      (markBehind false between y) y = false

/-! ## Visits of a part of the forest -/

/-- The mark with which the loop reaches an association behind others. -/
def loopMark (first accountTied : Bool) (prevLevelFs : LevelFs) (before : List Assoc)
    (assoc : Assoc) : Bool :=
  markBehind (tiedAt first accountTied prevLevelFs assoc) before assoc

variable {accountTied first : Bool} {prevLevelFs : LevelFs} {siblings : List Assoc}
  {assoc x y : Assoc} {rank rnt : Nat}

theorem visitLoop_append {down : List Assoc → Bool → List Visit} (before : List Assoc)
    (assoc : Assoc) (rest : List Assoc) :
    visitLoop down accountTied first prevLevelFs (before ++ assoc :: rest) =
      visitLoop down accountTied first prevLevelFs before ++
        (visitOne down (loopMark first accountTied prevLevelFs before assoc) assoc ++
          visitLoop down accountTied false (levelFs assoc) rest) := by
  induction before generalizing first prevLevelFs with
  | nil => rfl
  | cons other before ih =>
    have sameMark : loopMark false accountTied (levelFs other) before assoc =
        loopMark first accountTied prevLevelFs (other :: before) assoc := by
      cases before with
      | nil => simp [loopMark, markBehind, tiedAt]
      | cons next before =>
        cases shape : (next :: before).getLast? with
        | none => simp at shape
        | some last => rfl
    rw [cons_append, visitLoop, visitLoop, ih, sameMark, append_assoc]

theorem visitLoop_congr {down other : List Assoc → Bool → List Visit} {accountTied first : Bool}
    {prevLevelFs : LevelFs} {rest : List Assoc}
    (same : ∀ usage children tied, Assoc.account usage children ∈ rest →
      down children tied = other children tied) :
    visitLoop down accountTied first prevLevelFs rest =
      visitLoop other accountTied first prevLevelFs rest := by
  induction rest generalizing first prevLevelFs with
  | nil => rfl
  | cons assoc rest ih =>
    have tail := @ih false (levelFs assoc) fun usage children tied later =>
      same usage children tied (mem_cons_of_mem _ later)
    cases assoc with
    | user usage => rw [visitLoop, visitLoop, tail]; rfl
    | account usage children =>
      rw [visitLoop, visitLoop, tail, visitOne, visitOne, same usage children _ mem_cons_self]

theorem heightOf_eq_zero (flat : heightOf siblings ≤ 0) : siblings = [] := by
  cases siblings with
  | nil => rfl
  | cons assoc rest =>
    have pos : 0 < assoc.height := by cases assoc <;> simp [Assoc.height]
    have bound := height_le_heightOf (mem_cons_self (a := assoc) (l := rest))
    omega

theorem visits_depth {depth other : Nat} (enough : heightOf siblings ≤ depth)
    (enoughOther : heightOf siblings ≤ other) :
    visits depth siblings accountTied = visits other siblings accountTied := by
  induction depth generalizing other siblings accountTied with
  | zero =>
    obtain rfl := heightOf_eq_zero enough
    cases other <;> rfl
  | succ depth ih =>
    cases other with
    | zero =>
      obtain rfl := heightOf_eq_zero enoughOther
      rfl
    | succ other =>
      refine visitLoop_congr ?_
      intro usage children tied mem
      have below := heightOf_children_lt (mem_qsort.mp mem)
      exact ih (by omega) (by omega)

/-- The visits of a forest, walked as deep as it is. -/
def fullVisits (siblings : List Assoc) (accountTied : Bool) : List Visit :=
  visits (heightOf siblings) siblings accountTied

theorem visits_eq_loop {depth : Nat} (enough : heightOf siblings ≤ depth) :
    visits depth siblings accountTied =
      visitLoop fullVisits accountTied true noVal (qsort cmpLevelFs siblings) := by
  cases depth with
  | zero =>
    obtain rfl := heightOf_eq_zero enough
    rfl
  | succ depth =>
    refine visitLoop_congr ?_
    intro usage children tied mem
    have below := heightOf_children_lt (mem_qsort.mp mem)
    exact visits_depth (by omega) le_rfl

theorem visitLoop_full_ids (accountTied first : Bool) (prevLevelFs : LevelFs)
    (siblings : List Assoc) :
    ((visitLoop fullVisits accountTied first prevLevelFs siblings).map Visit.id).Perm
      (usersOf siblings) :=
  visitLoop_ids fun _ _ _ _ => visits_ids le_rfl

theorem visitOne_full_ids (mark : Bool) (assoc : Assoc) :
    ((visitOne fullVisits mark assoc).map Visit.id).Perm assoc.users := by
  cases assoc with
  | user usage => exact List.Perm.refl _
  | account usage children => exact visits_ids le_rfl

theorem visits_of_siblingsIn {roots : List Assoc} (mem : SiblingsIn roots siblings)
    (accountTied : Bool) :
    ∃ before tied after, fullVisits roots accountTied =
      before ++ (fullVisits siblings tied ++ after) := by
  induction mem generalizing accountTied with
  | roots siblings =>
    exact ⟨[], accountTied, [], by rw [nil_append, append_nil]⟩
  | @under roots siblings usage children account _ ih =>
    have sorted : Assoc.account usage children ∈ qsort cmpLevelFs roots := mem_qsort.mpr account
    obtain ⟨left, right, shape⟩ := append_of_mem sorted
    obtain ⟨before, tied, after, inner⟩ :=
      ih (loopMark true accountTied noVal left (.account usage children))
    refine ⟨visitLoop fullVisits accountTied true noVal left ++ before, tied, after ++
      visitLoop fullVisits accountTied false (levelFs (.account usage children)) right, ?_⟩
    rw [fullVisits, visits_eq_loop le_rfl, shape, visitLoop_append, visitOne, inner]
    simp only [append_assoc]

/-! ## The first visit -/

theorem usersOf_eq_nil : usersOf siblings = [] ↔ ∀ assoc ∈ siblings, assoc.hasUsers = false := by
  rw [usersOf_eq_flatMap, flatMap_eq_nil_iff]
  simp [Assoc.hasUsers]

theorem visitLoop_empty {empties : List Assoc} (empty : ∀ e ∈ empties, e.hasUsers = false) :
    visitLoop fullVisits accountTied first prevLevelFs empties = [] := by
  have ids := visitLoop_full_ids accountTied first prevLevelFs empties
  rw [usersOf_eq_nil.mpr empty] at ids
  exact map_eq_nil_iff.mp ids.eq_nil

/-- The first user of a forest with users is visited with the mark that was
handed down to it. -/
theorem visits_head {depth : Nat} {siblings : List Assoc} {accountTied : Bool}
    (enough : heightOf siblings ≤ depth) (some : usersOf siblings ≠ []) :
    ∃ visit run, visits depth siblings accountTied = visit :: run ∧
      visit.tied = leadTied depth siblings accountTied := by
  induction depth generalizing siblings accountTied with
  | zero =>
    obtain rfl := heightOf_eq_zero enough
    exact absurd rfl some
  | succ depth ih =>
    have sortedUsers : usersOf (qsort cmpLevelFs siblings) ≠ [] := by
      intro empty
      have same := usersOf_perm (qsort_perm siblings : (qsort cmpLevelFs siblings).Perm siblings)
      rw [empty] at same
      exact some (nil_perm.mp same)
    have splits := takeWhile_append_dropWhile (l := qsort cmpLevelFs siblings)
      (p := fun assoc => !assoc.hasUsers)
    have empties : ∀ e ∈ (qsort cmpLevelFs siblings).takeWhile (fun assoc => !assoc.hasUsers),
        e.hasUsers = false := by
      intro e taken
      simpa using mem_takeWhile_imp taken
    rw [leadTied]
    cases rest : (qsort cmpLevelFs siblings).dropWhile (fun assoc => !assoc.hasUsers) with
    | nil =>
      rw [rest, append_nil] at splits
      rw [splits] at empties
      exact absurd (usersOf_eq_nil.mpr empties) sortedUsers
    | cons assoc after =>
      have kept : assoc.hasUsers = true := by
        have stops := head?_dropWhile_not (fun assoc => !assoc.hasUsers) (qsort cmpLevelFs siblings)
        simpa [rest] using stops
      rw [rest] at splits
      have mark : tiedAt true accountTied noVal assoc =
          (accountTied || decide (noVal = levelFs assoc)) := by
        cases accountTied <;> simp [tiedAt]
      have inSiblings : assoc ∈ siblings := by
        have inSorted : assoc ∈ qsort cmpLevelFs siblings := by
          rw [← splits]
          exact mem_append_right _ mem_cons_self
        exact mem_qsort.mp inSorted
      have walked : visits (depth + 1) siblings accountTied =
          visitOne fullVisits (markBehind (accountTied || decide (noVal = levelFs assoc))
            ((qsort cmpLevelFs siblings).takeWhile fun assoc => !assoc.hasUsers) assoc) assoc ++
          visitLoop fullVisits accountTied false (levelFs assoc) after := by
        rw [visits_eq_loop enough]
        conv_lhs => rw [← splits]
        rw [visitLoop_append, visitLoop_empty empties, nil_append, loopMark, mark]
      rw [walked]
      cases assoc with
      | user usage => exact ⟨_, _, rfl, rfl⟩
      | account usage children =>
        have below := heightOf_children_lt inSiblings
        have someChildren : usersOf children ≠ [] := by
          intro empty
          simp [Assoc.hasUsers, Assoc.users, empty] at kept
        obtain ⟨visit, run, shape, tied⟩ := @ih children (markBehind
          (accountTied || decide (noVal = levelFs (.account usage children)))
          ((qsort cmpLevelFs siblings).takeWhile fun assoc => !assoc.hasUsers)
          (.account usage children)) (by omega) someChildren
        have full : fullVisits children = visits depth children := by
          funext tied
          exact visits_depth le_rfl (by omega)
        refine ⟨visit, run ++ visitLoop fullVisits accountTied false
          (levelFs (.account usage children)) after, ?_, tied⟩
        rw [visitOne, full, shape, cons_append]

theorem visitOne_head (some : assoc.hasUsers = true) (mark : Bool) :
    ∃ visit run, visitOne fullVisits mark assoc = visit :: run ∧
      visit.tied = entryTied (fun children => leadTied (heightOf children) children) mark assoc := by
  cases assoc with
  | user usage => exact ⟨_, _, rfl, rfl⟩
  | account usage children =>
    have someChildren : usersOf children ≠ [] := by
      intro empty
      simp [Assoc.hasUsers, Assoc.users, empty] at some
    exact visits_head le_rfl someChildren

/-! ## The boundary between two values -/

theorem exists_first {α : Type} {p : α → Bool} {values : List α} {value : α}
    (mem : value ∈ values) (holds : p value = true) :
    ∃ before first after, values = before ++ first :: after ∧ p first = true ∧
      ∀ e ∈ before, p e = false := by
  cases found : values.find? p with
  | none => exact absurd holds (find?_eq_none.mp found value mem)
  | some first =>
    obtain ⟨first_holds, before, after, shape, skipped⟩ :=
      find?_eq_some_iff_append.mp found
    exact ⟨before, first, after, shape, first_holds, fun e later => by simpa using skipped e later⟩

theorem Sorted.split {sorted : List Assoc} (inOrder : Sorted sorted) (bound : LevelFs) :
    ∃ higher lower, sorted = higher ++ lower ∧ (∀ e ∈ higher, bound < levelFs e) ∧
      ∀ e ∈ lower, levelFs e ≤ bound := by
  induction sorted with
  | nil => exact ⟨[], [], rfl, by simp, by simp⟩
  | cons assoc rest ih =>
    by_cases above : bound < levelFs assoc
    · obtain ⟨higher, lower, shape, up, down⟩ := ih inOrder.tail
      refine ⟨assoc :: higher, lower, congrArg (assoc :: ·) shape, ?_, down⟩
      intro e mem
      rcases mem_cons.mp mem with rfl | later
      · exact above
      · exact up e later
    · refine ⟨[], assoc :: rest, rfl, by simp, ?_⟩
      intro e mem
      rcases mem_cons.mp mem with rfl | later
      · exact not_lt.mp above
      · exact (inOrder.levelFs_le later).trans (not_lt.mp above)

/-- Between two siblings with users and different values lie two such siblings
with only accounts without users between them. -/
theorem Sorted.exists_boundary {sorted : List Assoc} (inOrder : Sorted sorted) (inX : x ∈ sorted)
    (inY : y ∈ sorted) (someX : x.hasUsers = true) (someY : y.hasUsers = true)
    (lower : levelFs y < levelFs x) :
    ∃ before x' between y' after, sorted = before ++ x' :: (between ++ y' :: after) ∧
      x'.hasUsers = true ∧ y'.hasUsers = true ∧ (∀ e ∈ between, e.hasUsers = false) ∧
      levelFs y' < levelFs x' ∧ x ∈ before ++ x' :: between ∧ y ∈ y' :: after := by
  obtain ⟨high, low, rfl, up, down⟩ := inOrder.split (levelFs y)
  have xHigh : x ∈ high :=
    (mem_append.mp inX).resolve_right fun inLow => not_lt.mpr (down x inLow) lower
  have yLow : y ∈ low :=
    (mem_append.mp inY).resolve_left fun inHigh => lt_irrefl _ (up y inHigh)
  obtain ⟨skipped, y', after, rfl, someY', emptyLow⟩ := exists_first yLow someY
  obtain ⟨behind, x', before, shape, someX', emptyHigh⟩ :=
    exists_first (mem_reverse.mpr xHigh) someX
  obtain rfl : high = before.reverse ++ x' :: behind.reverse := by
    rw [← reverse_reverse high, shape]
    simp
  refine ⟨before.reverse, x', behind.reverse ++ skipped, y', after, by simp, someX', someY',
    ?_, ?_, ?_, ?_⟩
  · intro e mem
    rcases mem_append.mp mem with inBehind | inSkipped
    · exact emptyHigh e (mem_reverse.mp inBehind)
    · exact emptyLow e inSkipped
  · exact lt_of_le_of_lt (down y' (by simp)) (up x' (by simp))
  · simp only [mem_append, mem_cons] at xHigh ⊢
    tauto
  · rcases mem_append.mp yLow with inSkipped | inRest
    · have none := emptyLow y inSkipped
      rw [someY] at none
      cases none
    · exact inRest

/-! ## Ranks on both sides of a visit -/

theorem mem_ranksFrom_id {run : List Visit} {a : Assignment} (mem : a ∈ ranksFrom rank rnt run) :
    a.id ∈ run.map Visit.id := by
  rw [← ranksFrom_ids rank rnt]
  exact mem_map_of_mem mem

/-- An untied visit separates the ranks before it from those from it on. -/
theorem ranksFrom_untied {front back : List Visit} {visit : Visit} (untied : visit.tied = false)
    (below : rnt ≤ rank) (room : (front ++ visit :: back).length ≤ rnt)
    (distinct : ((front ++ visit :: back).map Visit.id).Nodup) {a b : Assignment}
    (inA : a ∈ ranksFrom rank rnt (front ++ visit :: back))
    (inB : b ∈ ranksFrom rank rnt (front ++ visit :: back)) (aFront : a.id ∈ front.map Visit.id)
    (bBack : b.id ∈ (visit :: back).map Visit.id) : b.rank < a.rank := by
  rw [map_append, nodup_append] at distinct
  rw [ranksFrom_append, mem_append] at inA inB
  have left : a ∈ ranksFrom rank rnt front :=
    inA.resolve_right fun right => distinct.2.2 a.id aFront a.id (mem_ranksFrom_id right) rfl
  have right : b ∈ ranksFrom (rankAfter rank rnt front) (rnt - front.length) (visit :: back) :=
    inB.resolve_left fun left => distinct.2.2 b.id (mem_ranksFrom_id left) b.id bBack rfl
  rw [length_append, length_cons] at room
  have above := (ranksFrom_bounds (by omega) below a left).1
  rw [ranksFrom, untied, mem_cons] at right
  simp only [Bool.false_eq_true, if_false] at right
  rcases right with rfl | later
  · dsimp only
    omega
  · have upper := (ranksFrom_bounds (by omega) (by omega) b later).2
    omega

theorem ranksFrom_tied {front back : List Visit} {last visit : Visit} (tied : visit.tied = true) :
    ∃ a ∈ ranksFrom rank rnt (front ++ last :: visit :: back),
      ∃ b ∈ ranksFrom rank rnt (front ++ last :: visit :: back),
        a.id = last.id ∧ b.id = visit.id ∧ a.rank = b.rank := by
  rw [ranksFrom_append, ranksFrom, ranksFrom, tied]
  refine ⟨_, mem_append_right _ mem_cons_self, _,
    mem_append_right _ (mem_cons_of_mem _ mem_cons_self), rfl, rfl, rfl⟩

/-! ## The exact condition -/

theorem loopMark_behind {before between : List Assoc} (lower : levelFs y < levelFs x) :
    loopMark first accountTied prevLevelFs (before ++ x :: between) y =
      markBehind false between y := by
  rw [loopMark, markBehind, markBehind, getLast?_append]
  cases between with
  | nil => simp [lower.ne']
  | cons e between =>
    rw [getLast?_cons_cons]
    cases shape : (e :: between).getLast? with
    | none => simp at shape
    | some last => rfl

theorem fullVisits_cut {before between after : List Assoc}
    (shape : qsort cmpLevelFs siblings = before ++ x :: (between ++ y :: after))
    (lower : levelFs y < levelFs x) (accountTied : Bool) :
    fullVisits siblings accountTied =
      visitLoop fullVisits accountTied true noVal (before ++ x :: between) ++
        (visitOne fullVisits (markBehind false between y) y ++
          visitLoop fullVisits accountTied false (levelFs y) after) := by
  have regroup : before ++ x :: (between ++ y :: after) = (before ++ x :: between) ++ y :: after := by
    simp
  rw [fullVisits, visits_eq_loop le_rfl, shape, regroup, visitLoop_append,
    loopMark_behind lower]

theorem mem_users_of_visit {id : Nat} (mem : assoc ∈ siblings) (user : id ∈ assoc.users)
    (accountTied first : Bool) (prevLevelFs : LevelFs) :
    id ∈ (visitLoop fullVisits accountTied first prevLevelFs siblings).map Visit.id := by
  rw [(visitLoop_full_ids accountTied first prevLevelFs siblings).mem_iff, usersOf_eq_flatMap]
  exact mem_flatMap.mpr ⟨assoc, mem, user⟩

theorem hasUsers_of_mem {id : Nat} (user : id ∈ assoc.users) : assoc.hasUsers = true := by
  cases shape : assoc.users with
  | nil => simp [shape] at user
  | cons first rest => simp [Assoc.hasUsers, shape]

section Ordered

variable {userAssocCount : UInt32} {tree : AssocTree}

/-- Without stray marks siblings are ranked apart. -/
theorem orderedRanks_of_entersUntied
    (counted : (usersOf tree.children).length = userAssocCount.toNat)
    (untied : ∀ siblings, SiblingsIn tree.children siblings → EntersUntied siblings) :
    OrderedRanks userAssocCount tree := by
  intro siblings inTree x inX y inY lower a inA aUser b inB bUser
  obtain ⟨before, x', between, y', after, shape, someX, someY, empty, lower', xLeft, yRight⟩ :=
    (sorted_qsort siblings).exists_boundary (mem_qsort.mpr inX) (mem_qsort.mpr inY)
      (hasUsers_of_mem aUser) (hasUsers_of_mem bUser) lower
  have entry := untied siblings inTree before x' between y' after shape someX someY empty lower'
  obtain ⟨visit, run, first, mark⟩ := visitOne_head someY (markBehind false between y')
  obtain ⟨front, tied, back, whole⟩ := visits_of_siblingsIn inTree false
  have cut := fullVisits_cut shape lower' tied
  rw [first, cons_append] at cut
  have walk : rootVisits tree =
      (front ++ visitLoop fullVisits tied true noVal (before ++ x' :: between)) ++
        visit :: (run ++ visitLoop fullVisits tied false (levelFs y') after ++ back) := by
    change fullVisits tree.children false = _
    rw [whole, cut]
    simp only [append_assoc, cons_append]
  have distinct : ((rootVisits tree).map Visit.id).Nodup :=
    (rootVisits_ids tree).nodup_iff.mpr tree.distinct
  have room : (rootVisits tree).length ≤ userAssocCount.toNat := by
    rw [length_rootVisits, counted]
  have aFront : a.id ∈ (front ++
      visitLoop fullVisits tied true noVal (before ++ x' :: between)).map Visit.id := by
    rw [map_append]
    exact mem_append_right _ (mem_users_of_visit xLeft aUser tied true noVal)
  have bBack : b.id ∈ (visit ::
      (run ++ visitLoop fullVisits tied false (levelFs y') after ++ back)).map Visit.id := by
    rw [← cons_append, ← cons_append, ← first, map_append, map_append]
    refine mem_append_left _ ?_
    rcases mem_cons.mp yRight with rfl | later
    · exact mem_append_left _ ((visitOne_full_ids _ _).mem_iff.mpr bUser)
    · exact mem_append_right _ (mem_users_of_visit later bUser tied false (levelFs y'))
  rw [(applyPriorityFs_assigned counted).1] at inA inB
  rw [walk] at inA inB distinct room
  have ranks := ranksFrom_untied (mark.trans entry) le_rfl room distinct inA inB
    aFront bBack
  have total : (0 : ℚ) < userAssocCount.toNat := by
    rw [length_append, length_cons] at room
    exact_mod_cast (by omega : 0 < userAssocCount.toNat)
  exact div_lt_div_of_pos_right (by exact_mod_cast ranks) total

/-- A stray mark ranks two users of different siblings alike. -/
theorem entersUntied_of_orderedRanks
    (counted : (usersOf tree.children).length = userAssocCount.toNat)
    (ordered : OrderedRanks userAssocCount tree) {siblings : List Assoc}
    (inTree : SiblingsIn tree.children siblings) : EntersUntied siblings := by
  intro before x between y after shape someX someY empty lower
  by_contra stray
  rw [Bool.not_eq_false] at stray
  obtain ⟨visit, run, first, mark⟩ := visitOne_head someY (markBehind false between y)
  obtain ⟨front, tied, back, whole⟩ := visits_of_siblingsIn inTree false
  have cut := fullVisits_cut shape lower tied
  rw [first, visitLoop_append, visitLoop_empty empty, append_nil] at cut
  obtain ⟨head, tail, xVisits, -⟩ := visitOne_head someX (loopMark true tied noVal before x)
  have nonempty : visitOne fullVisits (loopMark true tied noVal before x) x ≠ [] := by
    rw [xVisits]
    exact cons_ne_nil _ _
  have lastSplit := dropLast_append_getLast nonempty
  have lastUser : ((visitOne fullVisits (loopMark true tied noVal before x) x).getLast
      nonempty).id ∈ x.users :=
    (visitOne_full_ids _ x).mem_iff.mp (mem_map_of_mem (getLast_mem nonempty))
  have firstUser : visit.id ∈ y.users := by
    refine (visitOne_full_ids (markBehind false between y) y).mem_iff.mp ?_
    rw [first]
    exact mem_cons_self
  have walk : rootVisits tree = (front ++ (visitLoop fullVisits tied true noVal before ++
        (visitOne fullVisits (loopMark true tied noVal before x) x).dropLast)) ++
      (visitOne fullVisits (loopMark true tied noVal before x) x).getLast nonempty ::
        visit :: (run ++ visitLoop fullVisits tied false (levelFs y) after ++ back) := by
    change fullVisits tree.children false = _
    rw [whole, cut]
    conv_lhs => rw [← lastSplit]
    simp only [append_assoc, cons_append, nil_append]
  obtain ⟨a, inA, b, inB, aId, bId, same⟩ := ranksFrom_tied (mark.trans stray)
  rw [← walk, ← (applyPriorityFs_assigned counted).1] at inA inB
  have inX : x ∈ qsort cmpLevelFs siblings := by
    rw [shape]
    simp
  have inY : y ∈ qsort cmpLevelFs siblings := by
    rw [shape]
    simp
  have apart := ordered siblings inTree x (mem_qsort.mp inX) y (mem_qsort.mp inY) lower a inA
    (aId ▸ lastUser) b inB (bId ▸ firstUser)
  rw [Assignment.fsFactor, Assignment.fsFactor, same] at apart
  exact lt_irrefl _ apart

end Ordered

/-- Siblings of different values are ranked apart exactly when no tie mark
reaches the first user of the lower one. -/
theorem orderedRanks_iff (userAssocCount : UInt32) (tree : AssocTree)
    (counted : (usersOf tree.children).length = userAssocCount.toNat) :
    OrderedRanks userAssocCount tree ↔
      ∀ siblings, SiblingsIn tree.children siblings → EntersUntied siblings := by
  constructor
  · intro ordered siblings inTree
    exact entersUntied_of_orderedRanks counted ordered inTree
  · exact orderedRanks_of_entersUntied counted

theorem emptySibling_iff :
    (usersOf emptySibling.children).length = (3 : UInt32).toNat ∧ (OrderedRanks 3 emptySibling ↔
        ∀ siblings, SiblingsIn emptySibling.children siblings → EntersUntied siblings) :=
  ⟨by decide, orderedRanks_iff 3 emptySibling (by decide)⟩

/-- User 2 below the lower account has the factor of user 1 below the higher one. -/
theorem emptySibling_not_ordered :
    (applyPriorityFs 3 emptySibling).assigned = [⟨1, 3, 3⟩, ⟨2, 3, 2⟩, ⟨3, 1, 1⟩] ∧
      ¬ OrderedRanks 3 emptySibling := by
  have assigned : (applyPriorityFs 3 emptySibling).assigned =
      [⟨1, 3, 3⟩, ⟨2, 3, 2⟩, ⟨3, 1, 1⟩] := by decide +kernel
  refine ⟨assigned, ?_⟩
  intro ordered
  have apart := ordered emptySibling.children (.roots _) _ mem_cons_self _
    (mem_cons_of_mem _ mem_cons_self) (by decide +kernel) ⟨1, 3, 3⟩
    (by rw [assigned]; decide) (by decide) ⟨2, 3, 2⟩ (by rw [assigned]; decide) (by decide)
  exact absurd apart (lt_irrefl _)

end SlurmSim.Priority.FairTree
