import Mathlib.Algebra.Order.BigOperators.Group.Finset
import SlurmSim.Lib.CInt
import SlurmSim.Select.EvalNodes

/-!
# What choosing nodes leaves

The counters of the selection tell the truth about the nodes that are chosen.
When they have come down to zero, the job has what it asked for, unless it asked
for more CPUs than an `int` can count.
-/

namespace SlurmSim.Select.EvalNodes

open SlurmSim.Lib.CInt
open Function (update update_of_ne)
open Finset

/-- The CPUs on the chosen nodes. -/
def cpuSum (nodes : Finset Nat) (cpuCnt : Nat → UInt16) : Nat :=
  ∑ i ∈ nodes, (cpuCnt i).toNat

theorem cpuSum_le (nodes : Finset Nat) (cpuCnt : Nat → UInt16) :
    cpuSum nodes cpuCnt ≤ nodes.card * 65535 := by
  refine sum_le_card_nsmul nodes _ 65535 fun i _ => ?_
  have bound := (cpuCnt i).toNat_lt
  omega

theorem cpuSum_insert {nodes : Finset Nat} {i : Nat} (absent : i ∉ nodes) (cpuCnt : Nat → UInt16)
    (count : UInt16) : cpuSum (insert i nodes) (update cpuCnt i count) =
      count.toNat + cpuSum nodes cpuCnt := by
  unfold cpuSum
  rw [sum_insert absent, Function.update_self]
  congr 1
  refine sum_congr rfl fun j mem => ?_
  rw [update_of_ne]
  rintro rfl
  exact absent mem

theorem cpuSum_update {nodes : Finset Nat} {i : Nat} (absent : i ∉ nodes) (cpuCnt : Nat → UInt16)
    (count : UInt16) :
    cpuSum nodes (update cpuCnt i count) = cpuSum nodes cpuCnt := by
  refine sum_congr rfl fun j mem => ?_
  rw [update_of_ne]
  rintro rfl
  exact absent mem

/-! ## Taking nodes -/

section Taking

variable {r : EvalRequest} {nodeMap : Finset Nat} {maxNodes wanted : UInt32} {s : Selection}

/-- The counters agree with the nodes that are chosen out of a bitmap. -/
structure Counted (r : EvalRequest) (nodeMap : Finset Nat) (maxNodes wanted : UInt32)
    (s : Selection) : Prop where
  inside : s.nodeMap ⊆ nodeMap
  required : r.required ⊆ s.nodeMap
  count : s.nodeMap.card + s.maxNodes.toNat = maxNodes.toNat
  total : s.totalCpus = Int32.ofNat (cpuSum s.nodeMap s.cpuCnt)
  remCpus : s.remCpus = Int32.ofNat r.details.minCpus - s.totalCpus
  remNodes : s.remNodes = wanted.toInt32 - Int32.ofNat s.nodeMap.card
  limit : r.maxCpus ≠ noVal → cpuSum s.nodeMap s.cpuCnt ≤ r.maxCpus.toNat

theorem cpusToUse_spec (pnMin : r.details.pnMinCpus < 2 ^ 16) (remCpus remNodes : Int32)
    (count : UInt16) (i : Nat) :
    (cpusToUse r (Int32.ofNat count.toNat) remCpus remNodes count i).1 =
      Int32.ofNat (cpusToUse r (Int32.ofNat count.toNat) remCpus remNodes count i).2.toNat := by
  have countLt := count.toNat_lt
  have availLt : (Int32.ofNat count.toNat).toInt < 2 ^ 16 := by
    rw [Int32.toInt_ofNat_of_lt (by omega)]
    omega
  have pnMinEq : (Int32.ofNat r.details.pnMinCpus).toInt = r.details.pnMinCpus :=
    Int32.toInt_ofNat_of_lt (by omega)
  unfold cpusToUse
  generalize remCpus - resvCpus r remNodes i = rem
  split_ifs with whole
  · rfl
  by_cases less : rem < Int32.ofNat count.toNat
  · simp only [if_pos less]
    rw [Int32.lt_iff_toInt_lt] at less
    split_ifs with least
    · exact (ofNat_toUInt16 (by omega) (by omega)).symm
    · rw [Int32.lt_iff_toInt_lt] at least
      exact (ofNat_toUInt16 (by omega) (by omega)).symm
  · simp only [if_neg less]

theorem Counted.takeNode (counted : Counted r nodeMap maxNodes wanted s)
    (pnMin : r.details.pnMinCpus < 2 ^ 16) (few : nodeMap.card ≤ 65537) {i : Nat}
    (candidate : i ∈ nodeMap) (absent : i ∉ s.nodeMap) (more : s.maxNodes ≠ 0) :
    Counted r nodeMap maxNodes wanted (takeNode r i (cpusOn s.cpuCnt i) s) := by
  obtain ⟨mem, required, count, total, remCpus, remNodes, limit⟩ := counted
  have used := cpusToUse_spec pnMin s.remCpus s.minRemNodes (s.cpuCnt i) i
  unfold EvalNodes.takeNode cpusOn
  generalize cpusToUse r (Int32.ofNat (s.cpuCnt i).toNat) s.remCpus s.minRemNodes (s.cpuCnt i) i =
    result at used
  obtain ⟨avail, count'⟩ := result
  simp only at used ⊢
  have newSum := cpuSum_insert absent s.cpuCnt count'
  have newTotal : s.totalCpus + avail =
      Int32.ofNat (cpuSum (insert i s.nodeMap) (update s.cpuCnt i count')) := by
    rw [newSum, Int32.ofNat_add, total, used]
    exact Int32.add_comm _ _
  have newInside : insert i s.nodeMap ⊆ nodeMap := insert_subset candidate mem
  have small : cpuSum (insert i s.nodeMap) (update s.cpuCnt i count') < 2 ^ 32 := by
    have bound := cpuSum_le (insert i s.nodeMap) (update s.cpuCnt i count')
    have card := card_le_card newInside
    omega
  split_ifs with tooMany
  · refine ⟨mem, required, count, ?_, remCpus, remNodes, fun limited => ?_⟩
    · rw [cpuSum_update absent]
      exact total
    · rw [cpuSum_update absent]
      exact limit limited
  · have one := toNat_sub_one more
    refine ⟨newInside, required.trans (subset_insert _ _), ?_, newTotal, ?_, ?_, fun limited => ?_⟩
    · rw [card_insert_of_notMem absent]
      dsimp only
      omega
    · simp only [remCpus]
      exact Int32.sub_sub _ _ _
    · simp only [remNodes, card_insert_of_notMem absent, Int32.ofNat_add]
      exact Int32.sub_sub _ _ _
    · have notOver : ¬r.maxCpus < (s.totalCpus + avail).toUInt32 := fun large => tooMany ⟨limited, large⟩
      have same : (Int32.ofNat (cpuSum (insert i s.nodeMap)
          (update s.cpuCnt i count'))).toUInt32.toNat =
          cpuSum (insert i s.nodeMap) (update s.cpuCnt i count') := by
        change (UInt32.ofNat _).toNat = _
        rw [UInt32.toNat_ofNat', Nat.mod_eq_of_lt small]
      rw [newTotal, UInt32.not_lt, UInt32.le_iff_toNat_le, same] at notOver
      exact notOver

theorem takeNode_cpuCnt_of_ne {i j : Nat} (other : j ≠ i) (avail : Int32) :
    (EvalNodes.takeNode r i avail s).cpuCnt j = s.cpuCnt j := by
  unfold EvalNodes.takeNode
  simp only
  split_ifs
  · exact update_of_ne other _ _
  · exact update_of_ne other _ _

theorem Counted.pickNodes (counted : Counted r nodeMap maxNodes wanted s)
    (pnMin : r.details.pnMinCpus < 2 ^ 16) (few : nodeMap.card ≤ 65537)
    {avail : Nat → Selection → Int32} (sized : Bool) {nodes : List Nat} (distinct : nodes.Nodup)
    (candidates : ∀ i ∈ nodes, i ∈ nodeMap) (base : Nat → UInt16)
    (same : ∀ i ∈ nodes, s.cpuCnt i = base i)
    (known : ∀ i now, now.cpuCnt i = base i → avail i now ≤ 0 ∨ avail i now = cpusOn now.cpuCnt i) :
    Counted r nodeMap maxNodes wanted (EvalNodes.pickNodes r avail sized nodes s) := by
  induction nodes generalizing s with
  | nil => exact counted
  | cons i rest ih =>
    have restDistinct := (List.nodup_cons.mp distinct).2
    have restCandidates : ∀ j ∈ rest, j ∈ nodeMap :=
      fun j later => candidates j (List.mem_cons_of_mem i later)
    have restSame : ∀ j ∈ rest, s.cpuCnt j = base j :=
      fun j later => same j (List.mem_cons_of_mem i later)
    have skipped := ih counted restDistinct restCandidates restSame
    rw [EvalNodes.pickNodes]
    split_ifs with done chosen none short
    · exact counted
    · exact skipped
    · exact skipped
    · exact skipped
    · have more : s.maxNodes ≠ 0 := fun zero => done (Or.inl zero)
      have isCount : avail i s = cpusOn s.cpuCnt i :=
        (known i s (same i List.mem_cons_self)).resolve_left none
      rw [isCount]
      refine ih (counted.takeNode pnMin few (candidates i List.mem_cons_self) chosen more)
        restDistinct restCandidates fun j later => ?_
      have other : j ≠ i := by
        rintro rfl
        exact (List.nodup_cons.mp distinct).1 later
      rw [takeNode_cpuCnt_of_ne other]
      exact restSame j later

/-- The nodes of a set, and those from its first required node on, are candidates. -/
structure Consec.Run (c : Consec) (nodeMap : Finset Nat) : Prop where
  nodes : ∀ j, c.start ≤ j → j ≤ c.stop → j ∈ nodeMap
  fromReq : ∀ q, c.req = some q → q ≤ c.stop ∧ ∀ j, q ≤ j → j ≤ c.stop → j ∈ nodeMap

theorem cpusArray_known (s : Selection) (nodes : List Nat) (i : Nat) (now : Selection)
    (same : now.cpuCnt i = s.cpuCnt i) :
    cpusArray s nodes i now ≤ 0 ∨ cpusArray s nodes i now = cpusOn now.cpuCnt i := by
  have entry : cpusOn s.cpuCnt i = cpusOn now.cpuCnt i := by
    unfold cpusOn
    rw [same]
  have zero : (0 : Int32) ≤ 0 := by decide
  unfold cpusArray
  split_ifs with one
  · cases singleFit s nodes none with
    | some best =>
      simp only
      split_ifs
      · exact Or.inr entry
      · exact Or.inl zero
    | none =>
      simp only
      split_ifs
      · exact Or.inl zero
      · exact Or.inr entry
  · exact Or.inr rfl

theorem Counted.pickFrom (counted : Counted r nodeMap maxNodes wanted s)
    (pnMin : r.details.pnMinCpus < 2 ^ 16) (few : nodeMap.card ≤ 65537) {c : Consec}
    (run : c.Run nodeMap) : Counted r nodeMap maxNodes wanted (EvalNodes.pickFrom r c s) := by
  have known : ∀ (base : Nat → UInt16) (i : Nat) (now : Selection), now.cpuCnt i = base i →
      cpusOn now.cpuCnt i ≤ 0 ∨ cpusOn now.cpuCnt i = cpusOn now.cpuCnt i :=
    fun _ _ _ _ => Or.inr rfl
  unfold EvalNodes.pickFrom
  cases reqEq : c.req with
  | some req =>
    obtain ⟨bound, fromReq⟩ := run.fromReq req reqEq
    have up : Counted r nodeMap maxNodes wanted (EvalNodes.pickNodes r
        (fun i now => cpusOn now.cpuCnt i) false (List.range' req (c.stop + 1 - req)) s) := by
      refine counted.pickNodes pnMin few false List.nodup_range' (fun i mem => ?_) s.cpuCnt
        (fun _ _ => rfl) (known s.cpuCnt)
      obtain ⟨low, high⟩ := List.mem_range'_1.mp mem
      exact fromReq i low (by omega)
    refine up.pickNodes pnMin few false (List.nodup_reverse.mpr List.nodup_range')
      (fun i mem => ?_) _ (fun _ _ => rfl) (known _)
    obtain ⟨low, high⟩ := List.mem_range'_1.mp (List.mem_reverse.mp mem)
    exact run.nodes i low (by omega)
  | none =>
    refine counted.pickNodes pnMin few true List.nodup_range' (fun i mem => ?_) s.cpuCnt
      (fun _ _ => rfl) (cpusArray_known s _)
    obtain ⟨low, high⟩ := List.mem_range'_1.mp mem
    exact run.nodes i low (by omega)

/-! ## The best set -/

/-- The best set, if there is one, is a set of the table that has nodes. -/
def BestFit.Known (best : BestFit) (table : List Consec) : Prop :=
  best.nodes = 0 ∨ ∃ c, table[best.index]? = some c ∧ c.nodes ≠ 0

theorem scanFit_known (minNodes reqNodes : UInt32) (before rest : List Consec) (best : BestFit)
    (known : best.Known (before ++ rest)) :
    (scanFit r s minNodes reqNodes rest before.length best).Known (before ++ rest) := by
  induction rest generalizing before best with
  | nil => exact known
  | cons c rest ih =>
    have shift : before ++ c :: rest = (before ++ [c]) ++ rest := by simp
    have length : before.length + 1 = (before ++ [c]).length := by simp
    have next : ∀ best : BestFit, best.Known (before ++ c :: rest) →
        (scanFit r s minNodes reqNodes rest (before.length + 1) best).Known
          (before ++ c :: rest) := by
      intro best known
      rw [shift] at known ⊢
      rw [length]
      exact ih (before ++ [c]) best known
    rw [scanFit]
    split_ifs with empty other block
    · exact next best known
    · exact next best known
    · exact Or.inl rfl
    · refine next _ ?_
      split_ifs
      · exact Or.inr ⟨c, by simp, empty⟩
      · exact known

theorem scanFit_index {minNodes reqNodes : UInt32} {table : List Consec}
    (found : (scanFit r s minNodes reqNodes table 0 ⟨0, 0, 0, none, false⟩).nodes ≠ 0) :
    ∃ c, table[(scanFit r s minNodes reqNodes table 0 ⟨0, 0, 0, none, false⟩).index]? = some c ∧
      c.nodes ≠ 0 :=
  (scanFit_known minNodes reqNodes [] table _ (Or.inl rfl)).resolve_left found

/-! ## Set after set -/

/-- The loop ends within its turns, with counters that tell the truth, and it reports
success only when nothing is left to be found. -/
theorem evalLoop_spec (pnMin : r.details.pnMinCpus < 2 ^ 16) (few : nodeMap.card ≤ 65537)
    (minNodes reqNodes : UInt32) (turns : Nat) (table : List Consec)
    (counted : Counted r nodeMap maxNodes wanted s) (runs : ∀ c ∈ table, c.Run nodeMap)
    (enough : table.countP (fun c => c.nodes ≠ 0) < turns) :
    ∃ success last, evalLoop r minNodes reqNodes turns table s = some (success, last) ∧
      Counted r nodeMap maxNodes wanted last ∧
      (success = true → last.remNodes ≤ 0 ∧ last.remCpus ≤ 0) := by
  induction turns generalizing table s with
  | zero => exact absurd enough (Nat.not_lt_zero _)
  | succ turns ih =>
    rw [evalLoop]
    simp only
    split_ifs with tooMany none hole done
    · exact ⟨false, s, rfl, counted, fun impossible => nomatch impossible⟩
    · exact ⟨false, s, rfl, counted, fun impossible => nomatch impossible⟩
    · exact ⟨false, s, rfl, counted, fun impossible => nomatch impossible⟩
    · obtain ⟨c, here, -⟩ := scanFit_index none
      rw [List.getD_eq_getElem?_getD, here, Option.getD_some] at done ⊢
      have run := runs c (List.mem_of_getElem? here)
      exact ⟨true, _, rfl, counted.pickFrom pnMin few run, fun _ => done⟩
    · obtain ⟨c, here, some⟩ := scanFit_index none
      rw [List.getD_eq_getElem?_getD, here, Option.getD_some]
      have run := runs c (List.mem_of_getElem? here)
      obtain ⟨mem, isC⟩ := List.getElem?_eq_some_iff.mp here
      refine ih _ (counted.pickFrom pnMin few run) ?_ ?_
      · intro other member
        rcases List.mem_or_eq_of_mem_set member with old | rfl
        · exact runs other old
        · exact ⟨run.nodes, run.fromReq⟩
      · have pos : 0 < table.countP (fun c => c.nodes ≠ 0) :=
          List.countP_pos_iff.mpr ⟨c, List.mem_of_getElem? here, by simpa using some⟩
        rw [List.countP_set mem, isC, if_pos (by simpa using some), if_neg (by simp [Consec.used])]
        omega

end Taking

/-! ## The required nodes and the table -/

section Table

variable {r : EvalRequest} {nodeMap : Finset Nat} {cpuCnt : Nat → UInt16}
  {maxNodes wanted : UInt32} {s : Selection} {i : Nat}

/-- The loop over all nodes has come to a node: of the nodes before it only the required
ones are left and counted. -/
structure Kept (r : EvalRequest) (nodeMap : Finset Nat) (cpuCnt : Nat → UInt16)
    (maxNodes wanted : UInt32) (i : Nat) (s : Selection) : Prop where
  map : s.nodeMap = nodeMap.filter fun j => i ≤ j ∨ j ∈ r.required
  sameCnt : s.cpuCnt = cpuCnt
  count : (r.required.filter (· < i)).card + s.maxNodes.toNat = maxNodes.toNat
  total : s.totalCpus = Int32.ofNat (cpuSum (r.required.filter (· < i)) cpuCnt)
  remCpus : s.remCpus = Int32.ofNat r.details.minCpus - s.totalCpus
  remNodes : s.remNodes = wanted.toInt32 - Int32.ofNat (r.required.filter (· < i)).card

theorem Kept.mem_iff (kept : Kept r nodeMap cpuCnt maxNodes wanted i s) :
    i ∈ s.nodeMap ↔ i ∈ nodeMap := by
  rw [kept.map, mem_filter, and_iff_left (Or.inl le_rfl)]

theorem required_below_succ (i : Nat) :
    r.required.filter (· < i + 1) =
      if i ∈ r.required then insert i (r.required.filter (· < i))
      else r.required.filter (· < i) := by
  ext j
  split_ifs with isRequired
  · simp only [mem_filter, mem_insert]
    constructor
    · rintro ⟨mem, bound⟩
      rcases Nat.lt_or_eq_of_le (Nat.le_of_lt_succ bound) with less | same
      · exact Or.inr ⟨mem, less⟩
      · exact Or.inl same
    · rintro (rfl | ⟨mem, less⟩)
      · exact ⟨isRequired, Nat.lt_succ_self _⟩
      · exact ⟨mem, Nat.lt_succ_of_lt less⟩
  · simp only [mem_filter]
    refine and_congr_right fun mem => ?_
    have ne : j ≠ i := by
      rintro rfl
      exact isRequired mem
    omega

theorem left_succ_iff {j : Nat} (ne : j ≠ i) :
    (i ≤ j ∨ j ∈ r.required) ↔ (i + 1 ≤ j ∨ j ∈ r.required) := by
  refine or_congr_left ?_
  omega

theorem Kept.required (kept : Kept r nodeMap cpuCnt maxNodes wanted i s)
    (few : r.required.card ≤ maxNodes.toNat) (candidate : i ∈ nodeMap) (isRequired : i ∈ r.required) :
    Kept r nodeMap cpuCnt maxNodes wanted (i + 1) (keepRequired r i s) := by
  have memIff := kept.mem_iff
  obtain ⟨map, sameCnt, count, total, remCpus, remNodes⟩ := kept
  have split := @required_below_succ r i
  rw [if_pos isRequired] at split
  have absent : i ∉ r.required.filter (· < i) := fun mem =>
    Nat.lt_irrefl i (mem_filter.mp mem).2
  have card : (r.required.filter (· < i)).card < r.required.card :=
    card_lt_card ⟨filter_subset _ _, fun all => absent (all isRequired)⟩
  have more : s.maxNodes ≠ 0 := by
    rintro zero
    rw [zero, UInt32.toNat_zero] at count
    omega
  have one := toNat_sub_one more
  have newSum : cpuSum (insert i (r.required.filter (· < i))) cpuCnt =
      (cpuCnt i).toNat + cpuSum (r.required.filter (· < i)) cpuCnt := sum_insert absent
  rw [keepRequired, if_pos (memIff.mpr candidate), if_pos ⟨more, isRequired⟩]
  refine ⟨?_, sameCnt, ?_, ?_, ?_, ?_⟩
  · rw [map]
    refine filter_congr fun j _ => ?_
    by_cases same : j = i
    · rw [same]
      exact iff_of_true (Or.inl le_rfl) (Or.inr isRequired)
    · exact left_succ_iff same
  · rw [split, card_insert_of_notMem absent]
    dsimp only
    omega
  · rw [split, newSum, Int32.ofNat_add, Int32.add_comm, ← total, ← sameCnt]
    rfl
  · simp only [remCpus, cpusOn]
    exact Int32.sub_sub _ _ _
  · rw [split, card_insert_of_notMem absent, Int32.ofNat_add]
    simp only [remNodes]
    exact Int32.sub_sub _ _ _

theorem Kept.other (kept : Kept r nodeMap cpuCnt maxNodes wanted i s)
    (notRequired : i ∉ r.required) :
    Kept r nodeMap cpuCnt maxNodes wanted (i + 1) (keepRequired r i s) := by
  have memIff := kept.mem_iff
  obtain ⟨map, sameCnt, count, total, remCpus, remNodes⟩ := kept
  have split := @required_below_succ r i
  rw [if_neg notRequired] at split
  unfold keepRequired
  by_cases candidate : i ∈ nodeMap
  · rw [if_pos (memIff.mpr candidate), if_neg fun both => notRequired both.2]
    refine ⟨?_, sameCnt, split ▸ count, split ▸ total, remCpus, split ▸ remNodes⟩
    simp only [map]
    ext j
    simp only [mem_erase, mem_filter]
    by_cases same : j = i
    · rw [same]
      refine iff_of_false (fun all => all.1 rfl) ?_
      rintro ⟨-, bound | isReq⟩
      · exact Nat.lt_irrefl i bound
      · exact notRequired isReq
    · rw [left_succ_iff same, and_iff_right same]
  · rw [if_neg (memIff.not.mpr candidate)]
    refine ⟨?_, sameCnt, split ▸ count, split ▸ total, remCpus, split ▸ remNodes⟩
    rw [map]
    refine filter_congr fun j mem => left_succ_iff ?_
    rintro rfl
    exact candidate mem

theorem Kept.next (kept : Kept r nodeMap cpuCnt maxNodes wanted i s)
    (mem : r.required ⊆ nodeMap) (few : r.required.card ≤ maxNodes.toNat) :
    Kept r nodeMap cpuCnt maxNodes wanted (i + 1) (keepRequired r i s) := by
  by_cases isRequired : i ∈ r.required
  · exact kept.required few (mem isRequired) isRequired
  · exact kept.other isRequired

/-- The sets that are closed, and the open one when the loop has come to a node. -/
structure Blocks (nodeMap : Finset Nat) (i : Nat) (closed : List Consec) (c : Consec) : Prop where
  closed : ∀ c ∈ closed, c.Run nodeMap
  positive : c.nodes ≠ 0 → 0 < i
  nodes : c.nodes ≠ 0 → ∀ j, c.start ≤ j → j < i → j ∈ nodeMap
  fromReq : ∀ q, c.req = some q → q < i ∧ ∀ j, q ≤ j → j < i → j ∈ nodeMap

theorem Blocks.close {closed : List Consec} {c : Consec} (blocks : Blocks nodeMap i closed c)
    (some : c.nodes ≠ 0) : ∀ d ∈ closed ++ [{ c with stop := i - 1 }], d.Run nodeMap := by
  obtain ⟨runs, pos, nodes, fromReq⟩ := blocks
  have after := pos some
  intro d mem
  rcases List.mem_append.mp mem with old | last
  · exact runs d old
  · rw [List.mem_singleton.mp last]
    refine ⟨fun j low high => nodes some j low ?_, fun q isReq => ?_⟩
    · simp only at high
      omega
    · obtain ⟨bound, all⟩ := fromReq q isReq
      refine ⟨?_, fun j low high => all j low ?_⟩
      · simp only
        omega
      · simp only at high
        omega

theorem Blocks.next {closed : List Consec} {c : Consec} (blocks : Blocks nodeMap i closed c)
    (memIff : i ∈ s.nodeMap ↔ i ∈ nodeMap) :
    Blocks nodeMap (i + 1) (extendTable r i s (closed, c)).1 (extendTable r i s (closed, c)).2 := by
  have closing := blocks.close
  obtain ⟨runs, pos, nodes, fromReq⟩ := blocks
  unfold extendTable
  by_cases candidate : i ∈ nodeMap
  · simp only [if_pos (memIff.mpr candidate)]
    have upTo : ∀ {from_ : Nat}, (∀ j, from_ ≤ j → j < i → j ∈ nodeMap) →
        ∀ j, from_ ≤ j → j < i + 1 → j ∈ nodeMap := by
      intro from_ before j low high
      rcases Nat.lt_or_eq_of_le (Nat.le_of_lt_succ high) with less | rfl
      · exact before j low less
      · exact candidate
    have self : ∀ j, i ≤ j → j < i + 1 → j ∈ nodeMap := by
      intro j low high
      obtain rfl : j = i := by omega
      exact candidate
    generalize started : (if c.nodes = 0 then { c with start := i } else c) = opened
    have openedNodes : ∀ j, opened.start ≤ j → j < i + 1 → j ∈ nodeMap := by
      rw [← started]
      split_ifs with empty
      · exact self
      · exact upTo (nodes empty)
    have openedReq : ∀ q, opened.req = some q → q < i + 1 ∧ ∀ j, q ≤ j → j < i + 1 → j ∈ nodeMap := by
      have sameReq : opened.req = c.req := by
        rw [← started]
        split_ifs <;> rfl
      intro q isReq
      obtain ⟨bound, all⟩ := fromReq q (sameReq ▸ isReq)
      exact ⟨Nat.lt_succ_of_lt bound, upTo all⟩
    split_ifs with required first
    · refine ⟨runs, fun _ => Nat.succ_pos i, fun _ => openedNodes, fun q isReq => ?_⟩
      obtain rfl : i = q := Option.some.inj isReq
      exact ⟨Nat.lt_succ_self i, self⟩
    · exact ⟨runs, fun _ => Nat.succ_pos i, fun _ => openedNodes, openedReq⟩
    · exact ⟨runs, fun _ => Nat.succ_pos i, fun _ => openedNodes, openedReq⟩
  · simp only [if_neg (memIff.not.mpr candidate)]
    split_ifs with empty
    · refine ⟨runs, fun some => absurd empty some, fun some => absurd empty some, ?_⟩
      exact fun q impossible => nomatch impossible
    · refine ⟨closing empty, fun some => absurd rfl some, fun some => absurd rfl some, ?_⟩
      exact fun q impossible => nomatch impossible

theorem buildTable_spec (mem : r.required ⊆ nodeMap) (few : r.required.card ≤ maxNodes.toNat)
    (k : Nat) {closed : List Consec} {c : Consec}
    (kept : Kept r nodeMap cpuCnt maxNodes wanted i s) (blocks : Blocks nodeMap i closed c) :
    ∃ last closed' c', buildTable r (List.range' i k) (s, closed, c) = (last, closed', c') ∧
      Kept r nodeMap cpuCnt maxNodes wanted (i + k) last ∧ Blocks nodeMap (i + k) closed' c' := by
  induction k generalizing i s closed c with
  | zero => exact ⟨s, closed, c, rfl, kept, blocks⟩
  | succ k ih =>
    obtain ⟨last, closed', c', built, keptLast, blocksLast⟩ :=
      ih (kept.next mem few) (blocks.next kept.mem_iff)
    rw [show i + 1 + k = i + (k + 1) by omega] at keptLast blocksLast
    exact ⟨last, closed', c', built, keptLast, blocksLast⟩

/-- After the loop the required nodes are chosen, and counted. -/
theorem Kept.counted {n : Nat} (kept : Kept r nodeMap cpuCnt maxNodes wanted n s)
    (mem : r.required ⊆ nodeMap) (bitmap : nodeMap ⊆ range n)
    (limit : r.maxCpus ≠ noVal → cpuSum r.required cpuCnt ≤ r.maxCpus.toNat) :
    Counted r nodeMap maxNodes wanted s := by
  obtain ⟨map, sameCnt, count, total, remCpus, remNodes⟩ := kept
  have all : r.required.filter (· < n) = r.required :=
    filter_true_of_mem fun j member => mem_range.mp (bitmap (mem member))
  have onlyRequired : s.nodeMap = r.required := by
    rw [map]
    ext j
    rw [mem_filter]
    constructor
    · rintro ⟨member, beyond | isReq⟩
      · have := mem_range.mp (bitmap member)
        omega
      · exact isReq
    · exact fun isReq => ⟨mem isReq, Or.inr isReq⟩
  rw [all] at count total remNodes
  rw [← onlyRequired] at count total remNodes limit
  rw [← sameCnt] at total limit
  refine ⟨?_, onlyRequired.ge, count, total, remCpus, remNodes, limit⟩
  rw [onlyRequired]
  exact mem

end Table

/-! ## The result -/

section Result

variable (r : EvalRequest) (crNodeCnt : Nat) (nodeMap : Finset Nat) (cpuCnt : Nat → UInt16)
  (minNodes maxNodes reqNodes : UInt32)

/-- The arguments: bitmaps of the nodes, candidates with CPUs, and required nodes among
them.  Callers keep the counts of nodes in the range of `int`, and nodes with fewer than
`pn_min_cpus` CPUs, of which an entry of `cpu_cnt` can have no more than it can hold, are
no candidates. -/
structure Admissible : Prop where
  bitmap : nodeMap ⊆ range crNodeCnt
  candidates : ∀ i ∈ nodeMap, 1 ≤ (cpuCnt i).toNat
  required : r.required ⊆ nodeMap
  fewRequired : r.required.card ≤ maxNodes.toNat
  ordered : minNodes ≤ maxNodes
  nodeCounts : minNodes.toNat < 2 ^ 31 ∧ reqNodes.toNat < 2 ^ 31
  pnMinCpus : r.details.pnMinCpus < 2 ^ 16
  cluster : nodeMap.card ≤ 65537

/-- The nodes and their CPUs are what the job asked for. -/
structure Fulfills (nodes : Finset Nat) (counts : Nat → UInt16) : Prop where
  inside : nodes ⊆ nodeMap
  required : r.required ⊆ nodes
  atLeast : minNodes.toNat ≤ nodes.card
  atMost : nodes.card ≤ maxNodes.toNat
  minCpus : r.details.minCpus ≤ cpuSum nodes counts
  maxCpus : r.maxCpus ≠ noVal → cpuSum nodes counts ≤ r.maxCpus.toNat

variable {r crNodeCnt nodeMap cpuCnt minNodes maxNodes reqNodes}

theorem toUInt32_cpuSum {nodes : Finset Nat} (mem : nodes ⊆ nodeMap)
    (cluster : nodeMap.card ≤ 65537) (counts : Nat → UInt16) :
    (Int32.ofNat (cpuSum nodes counts)).toUInt32.toNat = cpuSum nodes counts := by
  have bound := cpuSum_le nodes counts
  have card := card_le_card mem
  change (UInt32.ofNat _).toNat = _
  rw [UInt32.toNat_ofNat', Nat.mod_eq_of_lt (by omega)]

theorem minNodes_le_of_enoughNodes {n : Nat} {remNodes : Int32} (min : minNodes.toNat < 2 ^ 31)
    (remEq : remNodes = (if minNodes < reqNodes then reqNodes else minNodes).toInt32 - Int32.ofNat n)
    (enough : enoughNodes 0 remNodes minNodes reqNodes = true) : minNodes.toNat ≤ n := by
  refine le_of_sub_nonpos min ?_
  have needed := of_decide_eq_true enough
  rw [← toInt32_eq]
  split_ifs at remEq needed with more
  · rw [remEq, UInt32.toInt32_sub, UInt32.toInt32_add, Int32.toInt32_toUInt32] at needed
    have same : reqNodes.toInt32 - Int32.ofNat n + minNodes.toInt32 - reqNodes.toInt32 =
        minNodes.toInt32 - Int32.ofNat n := by grind
    rwa [same] at needed
  · rwa [remEq] at needed

/-- The sets that are tried for a job whose required nodes are counted. -/
theorem evalSets_spec {s : Selection} {table : List Consec}
    (minSmall : minNodes.toNat < 2 ^ 31) (reqSmall : reqNodes.toNat < 2 ^ 31)
    (pnMin : r.details.pnMinCpus < 2 ^ 16) (cluster : nodeMap.card ≤ 65537)
    (minCpus : r.details.minCpus < 2 ^ 31)
    (counted : (r.maxCpus ≠ noVal → s.totalCpus.toUInt32 ≤ r.maxCpus) →
      Counted r nodeMap maxNodes (if minNodes < reqNodes then reqNodes else minNodes) s)
    (runs : ∀ c ∈ table, c.Run nodeMap) :
    ∃ success nodes counts, evalSets r minNodes reqNodes table s = some (success, nodes, counts) ∧
      (success = true → Fulfills r nodeMap minNodes maxNodes nodes counts) := by
  unfold evalSets
  by_cases tooMany : r.maxCpus ≠ noVal ∧ r.maxCpus < s.totalCpus.toUInt32
  · rw [if_pos tooMany]
    exact ⟨false, s.nodeMap, s.cpuCnt, rfl, fun impossible => nomatch impossible⟩
  rw [if_neg tooMany]
  have within : r.maxCpus ≠ noVal → s.totalCpus.toUInt32 ≤ r.maxCpus :=
    fun limited => UInt32.not_lt.mp fun large => tooMany ⟨limited, large⟩
  obtain ⟨success, last, looped, countedLast, done⟩ := evalLoop_spec pnMin cluster minNodes reqNodes
    (table.length + 1) table (counted within) runs (Nat.lt_succ_of_le List.countP_le_length)
  rw [looped]
  refine ⟨_, _, _, rfl, fun successful => ?_⟩
  obtain ⟨mem, required, count, total, remCpus, remNodes, limit⟩ := countedLast
  have reached : last.remCpus ≤ 0 ∧ minNodes.toNat ≤ last.nodeMap.card := by
    rcases Bool.or_eq_true_iff.mp successful with early | relaxed
    · obtain ⟨nodesDone, cpusDone⟩ := done early
      refine ⟨cpusDone, ?_⟩
      rw [remNodes, toInt32_eq] at nodesDone
      split_ifs at nodesDone with more
      · exact (UInt32.lt_iff_toNat_lt.mp more).le.trans (le_of_sub_nonpos reqSmall nodesDone)
      · exact le_of_sub_nonpos minSmall nodesDone
    · obtain ⟨cpusDone, enough⟩ := Bool.and_eq_true_iff.mp relaxed
      exact ⟨of_decide_eq_true cpusDone, minNodes_le_of_enoughNodes minSmall remNodes enough⟩
  refine ⟨mem, required, reached.2, by omega, ?_, limit⟩
  have cpusDone := reached.1
  rw [remCpus, total] at cpusDone
  exact le_of_sub_nonpos minCpus cpusDone

theorem evalNodes_spec
    (admissible : Admissible r crNodeCnt nodeMap cpuCnt minNodes maxNodes reqNodes)
    (minCpus : r.details.minCpus < 2 ^ 31) :
    ∃ success nodes counts, evalNodes r crNodeCnt nodeMap cpuCnt minNodes maxNodes reqNodes =
        some (success, nodes, counts) ∧
      (success = true → Fulfills r nodeMap minNodes maxNodes nodes counts) := by
  obtain ⟨bitmap, -, required, fewRequired, -, ⟨minSmall, reqSmall⟩, pnMin, cluster⟩ := admissible
  unfold evalNodes
  by_cases tooFew : UInt32.ofNat nodeMap.card < minNodes
  · rw [if_pos tooFew]
    exact ⟨false, nodeMap, cpuCnt, rfl, fun impossible => nomatch impossible⟩
  rw [if_neg tooFew, if_neg (not_not.mpr required)]
  have kept : Kept r nodeMap cpuCnt maxNodes (if minNodes < reqNodes then reqNodes else minNodes) 0
      (startSelection r nodeMap cpuCnt minNodes maxNodes reqNodes) := by
    have none : r.required.filter (· < 0) = ∅ :=
      filter_false_of_mem fun j _ => Nat.not_lt_zero j
    refine ⟨?_, rfl, ?_, ?_, ?_, ?_⟩
    · exact (filter_true_of_mem fun j _ => Or.inl (Nat.zero_le j)).symm
    · rw [none, card_empty, Nat.zero_add]
      rfl
    · rw [none]
      rfl
    · exact (Int32.sub_zero _).symm
    · rw [none, card_empty]
      exact (Int32.sub_zero _).symm
  have blocks : Blocks nodeMap 0 [] .blank := by
    refine ⟨fun c impossible => absurd impossible List.not_mem_nil, fun some => absurd rfl some,
      fun some => absurd rfl some, fun q impossible => nomatch impossible⟩
  obtain ⟨s, closed, last, built, keptLast, blocksLast⟩ :=
    buildTable_spec required fewRequired crNodeCnt kept blocks
  rw [Nat.zero_add] at keptLast blocksLast
  rw [List.range_eq_range', built]
  refine evalSets_spec minSmall reqSmall pnMin cluster minCpus (fun within => ?_) ?_
  · refine keptLast.counted required bitmap fun limited => ?_
    have all : r.required.filter (· < crNodeCnt) = r.required :=
      filter_true_of_mem fun j mem => mem_range.mp (bitmap (required mem))
    have bound := UInt32.le_iff_toNat_le.mp (within limited)
    rw [keptLast.total, all, toUInt32_cpuSum required cluster] at bound
    exact bound
  · intro c mem
    unfold closeTable at mem
    split_ifs at mem with empty
    · exact blocksLast.closed c mem
    · exact blocksLast.close empty c mem

/-- A job without nodes, on a cluster without nodes. -/
def noNodes (minCpus : Nat) : EvalRequest where
  details := ⟨0, 1, minCpus, 0, none, 0, 1, false, 0, none, 0, 0, 0⟩
  contiguous := false
  maxCpus := noVal
  record := fun _ => ⟨1, 1, 1, 1, 1, 1, none⟩
  crSocket := false

/-- Choosing nodes for so many CPUs ends, and where it succeeds the job has what it asked
for, exactly if the number is in the range of `int`. -/
theorem eval_nodes_sound (minCpus : UInt32) :
    (∀ (r : EvalRequest) (crNodeCnt : Nat) (nodeMap : Finset Nat) (cpuCnt : Nat → UInt16)
        (minNodes maxNodes reqNodes : UInt32), r.details.minCpus = minCpus.toNat →
        Admissible r crNodeCnt nodeMap cpuCnt minNodes maxNodes reqNodes →
        ∃ success nodes counts,
          evalNodes r crNodeCnt nodeMap cpuCnt minNodes maxNodes reqNodes =
            some (success, nodes, counts) ∧
          (success = true → Fulfills r nodeMap minNodes maxNodes nodes counts)) ↔
      minCpus.toNat < 2 ^ 31 := by
  constructor
  · intro always
    by_contra large
    have nonpos : Int32.ofNat minCpus.toNat ≤ 0 :=
      ofNat_nonpos (Nat.not_lt.mp large) minCpus.toNat_lt
    have admissible : Admissible (noNodes minCpus.toNat) 0 ∅ (fun _ => 0) 0 0 0 := by
      have noPnMin : (noNodes minCpus.toNat).details.pnMinCpus = 0 := rfl
      refine ⟨empty_subset _, fun i impossible => absurd impossible (notMem_empty i), ?_, ?_, ?_, ?_,
        ?_, ?_⟩
      · exact empty_subset _
      · exact Nat.zero_le _
      · decide
      · decide
      · rw [noPnMin]
        decide
      · decide
    obtain ⟨success, nodes, counts, evaluated, fulfilled⟩ :=
      always (noNodes minCpus.toNat) 0 ∅ (fun _ => 0) 0 0 0 rfl admissible
    have succeeds : evalNodes (noNodes minCpus.toNat) 0 ∅ (fun _ => 0) 0 0 0 =
        some (true, ∅, fun _ => 0) := by
      have loop : evalNodes (noNodes minCpus.toNat) 0 ∅ (fun _ => 0) 0 0 0 =
          some (false || decide (Int32.ofNat minCpus.toNat ≤ 0) && enoughNodes 0 0 0 0, ∅,
            fun _ => 0) := rfl
      rw [loop, decide_eq_true nonpos]
      rfl
    rw [succeeds] at evaluated
    cases evaluated
    have asked := (fulfilled rfl).minCpus
    have got : minCpus.toNat ≤ 0 := asked
    omega
  · intro small r crNodeCnt nodeMap cpuCnt minNodes maxNodes reqNodes same admissible
    exact evalNodes_spec admissible (same ▸ small)

/-- One node with four CPUs, and a job with 60000 tasks of 60000 CPUs each: the node is
chosen for it. -/
theorem eval_nodes_sound_wraps :
    let job : EvalRequest := { noNodes 3600000000 with
      details := ⟨0, 60000, 3600000000, 1, none, 0, 60000, false, 1, none, 0, 0, 0⟩ }
    Admissible job 1 {0} (fun _ => 4) 1 1 1 ∧
      (evalNodes job 1 {0} (fun _ => 4) 1 1 1).map (fun result =>
        (result.1, result.2.1, result.2.2 0)) = some (true, {0}, 1) ∧
      ¬∀ nodes counts, evalNodes job 1 {0} (fun _ => 4) 1 1 1 = some (true, nodes, counts) →
        Fulfills job {0} 1 1 nodes counts := by
  intro job
  have result : (evalNodes job 1 {0} (fun _ => 4) 1 1 1).map (fun result =>
      (result.1, result.2.1, result.2.2 0)) = some (true, {0}, 1) := by decide +kernel
  refine ⟨⟨by decide, by decide, by decide, by decide, by decide, by decide, by decide, by decide⟩,
    result, fun always => ?_⟩
  obtain ⟨⟨success, nodes, counts⟩, evaluated, shown⟩ := Option.map_eq_some_iff.mp result
  simp only [Prod.mk.injEq] at shown
  obtain ⟨rfl, rfl, count⟩ := shown
  have asked := (always {0} counts evaluated).minCpus
  have got : cpuSum {0} counts = 1 := by
    rw [cpuSum, sum_singleton, count]
    rfl
  rw [got] at asked
  exact absurd asked (by decide)

end Result

end SlurmSim.Select.EvalNodes
