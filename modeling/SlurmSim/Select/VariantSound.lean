import SlurmSim.Select.ChooseNodes
import SlurmSim.Select.EvalSound

/-!
# What the other ways of choosing nodes leave

After the required nodes, a variant takes any node with CPUs between the first and the
last candidate, whether or not it is a candidate.  Its counters tell the truth about the
nodes that it takes, except that `_eval_nodes_spread` counts the required ones twice.
-/

namespace SlurmSim.Select.EvalNodes

open SlurmSim.Lib.CInt
open List (forall_mem_cons mem_reverse not_mem_nil)
open Finset

/-! ## From the first to the last candidate -/

section Span

variable {crNodeCnt : Nat} {nodeMap : Finset Nat}

variable {i : Nat}

theorem find?_reverse_range_le {j : Nat}
    (found : (List.range crNodeCnt).reverse.find? (· ∈ nodeMap) = some i) (member : j ∈ nodeMap)
    (mem : j < crNodeCnt) : j ≤ i := by
  obtain ⟨_, before, after, split, others⟩ := List.find?_eq_some_iff_append.mp found
  have sorted : (List.range crNodeCnt).reverse.Pairwise (· > ·) :=
    List.pairwise_reverse.mpr List.pairwise_lt_range
  have listed : j ∈ (List.range crNodeCnt).reverse :=
    mem_reverse.mpr (List.mem_range.mpr mem)
  rw [split] at sorted listed
  rcases List.mem_append.mp listed with early | late
  · have other := others j early
    simp [member] at other
  · rcases List.mem_cons.mp late with rfl | later
    · exact le_rfl
    · have tail := (List.pairwise_append.mp sorted).2.1
      exact ((List.pairwise_cons.mp tail).1 j later).le

theorem mem_span (bitmap : nodeMap ⊆ range crNodeCnt) :
    i ∈ span crNodeCnt nodeMap ↔ (∃ a ∈ nodeMap, a ≤ i) ∧ ∃ b ∈ nodeMap, i ≤ b := by
  have below : ∀ {j}, j ∈ nodeMap → j < crNodeCnt := fun mem => mem_range.mp (bitmap mem)
  unfold span
  cases isStart : (List.range crNodeCnt).find? (· ∈ nodeMap) with
  | none =>
    have none_ : ∀ j, j ∉ nodeMap := by
      intro j mem
      have absent := List.find?_eq_none.mp isStart j (List.mem_range.mpr (below mem))
      exact absent (by simpa using mem)
    constructor
    · intro impossible
      exact absurd impossible not_mem_nil
    · rintro ⟨⟨a, mem, _⟩, _⟩
      exact absurd mem (none_ a)
  | some iStart =>
    obtain ⟨startIn, startBelow, first⟩ := List.find?_range_eq_some.mp isStart
    have startMember : iStart ∈ nodeMap := by simpa using startIn
    cases isEnd : (List.range crNodeCnt).reverse.find? (· ∈ nodeMap) with
    | none =>
      have absent := List.find?_eq_none.mp isEnd iStart
        (mem_reverse.mpr (List.mem_range.mpr (below startMember)))
      exact absurd (by simpa using startMember) absent
    | some iEnd =>
      have endMember : iEnd ∈ nodeMap := by simpa using List.find?_some isEnd
      simp only [List.mem_range'_1]
      constructor
      · rintro ⟨low, high⟩
        exact ⟨⟨iStart, startMember, low⟩, iEnd, endMember, by omega⟩
      · rintro ⟨⟨a, aMember, low⟩, b, bMember, high⟩
        have last := find?_reverse_range_le isEnd bMember (below bMember)
        have least : iStart ≤ a := by
          by_contra before
          have absent := first a (by omega)
          simp [aMember] at absent
        omega

theorem span_nodup (crNodeCnt : Nat) (nodeMap : Finset Nat) : (span crNodeCnt nodeMap).Nodup := by
  unfold span
  split
  · exact List.nodup_range'
  · exact List.nodup_nil

theorem mem_span_of_mem (bitmap : nodeMap ⊆ range crNodeCnt) (mem : i ∈ nodeMap) :
    i ∈ span crNodeCnt nodeMap :=
  (mem_span bitmap).mpr ⟨⟨i, mem, Nat.le_refl i⟩, i, mem, Nat.le_refl i⟩

theorem mem_span_lt (bitmap : nodeMap ⊆ range crNodeCnt) (mem : i ∈ span crNodeCnt nodeMap) :
    i < crNodeCnt := by
  obtain ⟨_, b, isMember, le⟩ := (mem_span bitmap).mp mem
  exact le.trans_lt (mem_range.mp (bitmap isMember))

end Span

theorem cpusOn_pos {cpuCnt : Nat → UInt16} {i : Nat} : 0 < cpusOn cpuCnt i ↔ cpuCnt i ≠ 0 := by
  have zero : (0 : Int32).toInt = 0 := rfl
  have bound := (cpuCnt i).toNat_lt
  rw [cpusOn, Int32.lt_iff_toInt_lt, zero, Int32.toInt_ofNat_of_lt (by omega), Ne,
    ← UInt16.toNat_inj, UInt16.toNat_zero]
  omega

/-! ## Counters -/

section Counters

variable {r : EvalRequest} {all : Finset Nat} {cpuCnt : Nat → UInt16}
  {minNodes maxNodes wanted : UInt32} {s : Selection}

/-- The counters agree with the nodes that are taken. -/
structure Tally (r : EvalRequest) (all : Finset Nat) (cpuCnt : Nat → UInt16)
    (minNodes maxNodes wanted : UInt32) (s : Selection) : Prop where
  counts : s.cpuCnt = cpuCnt
  inside : s.nodeMap ⊆ all
  count : s.nodeMap.card + s.maxNodes.toNat = maxNodes.toNat
  remCpus : s.remCpus = Int32.ofNat r.details.minCpus - Int32.ofNat (cpuSum s.nodeMap cpuCnt)
  remNodes : s.remNodes = wanted.toInt32 - Int32.ofNat s.nodeMap.card
  minRemNodes : s.minRemNodes = minNodes.toInt32 - Int32.ofNat s.nodeMap.card

theorem Tally.addNode (tally : Tally r all cpuCnt minNodes maxNodes wanted s) {i : Nat}
    (member : i ∈ all) (absent : i ∉ s.nodeMap) (more : s.maxNodes ≠ 0) :
    Tally r all cpuCnt minNodes maxNodes wanted (addNode i s) := by
  obtain ⟨counts, mem, count, remCpus, remNodes, minRemNodes⟩ := tally
  have one := toNat_sub_one more
  have sum : cpuSum (insert i s.nodeMap) cpuCnt = (cpuCnt i).toNat + cpuSum s.nodeMap cpuCnt :=
    sum_insert absent
  refine ⟨counts, insert_subset member mem, ?_, ?_, ?_, ?_⟩
  · simp only [EvalNodes.addNode, countNode, card_insert_of_notMem absent]
    omega
  · simp only [EvalNodes.addNode, countNode, remCpus, counts, sum, cpusOn, Int32.ofNat_add]
    rw [Int32.sub_sub, Int32.add_comm]
  · simp only [EvalNodes.addNode, countNode, remNodes, card_insert_of_notMem absent,
      Int32.ofNat_add]
    exact Int32.sub_sub _ _ _
  · simp only [EvalNodes.addNode, countNode, minRemNodes, card_insert_of_notMem absent,
      Int32.ofNat_add]
    exact Int32.sub_sub _ _ _

theorem Tally.mono {more : Finset Nat} (tally : Tally r all cpuCnt minNodes maxNodes wanted s)
    (subset : all ⊆ more) : Tally r more cpuCnt minNodes maxNodes wanted s :=
  ⟨tally.counts, tally.inside.trans subset, tally.count, tally.remCpus, tally.remNodes,
    tally.minRemNodes⟩

theorem Tally.setTotal (tally : Tally r all cpuCnt minNodes maxNodes wanted s) (total : Int32) :
    Tally r all cpuCnt minNodes maxNodes wanted { s with totalCpus := total } :=
  ⟨tally.counts, tally.inside, tally.count, tally.remCpus, tally.remNodes, tally.minRemNodes⟩

/-! ## Required nodes -/

/-- Before the nodes `rest` of the loop over the required ones. -/
structure Passed (r : EvalRequest) (nodeMap : Finset Nat) (cpuCnt : Nat → UInt16)
    (minNodes maxNodes wanted : UInt32) (rest : List Nat) (s : Selection) : Prop where
  counts : s.cpuCnt = cpuCnt
  here : ∀ i, i ∈ s.nodeMap ↔ i ∈ r.required ∨ i ∈ nodeMap ∧ i ∈ rest
  tally : ∀ kept, kept = r.required.filter (· ∉ rest) →
    kept.card + s.maxNodes.toNat = maxNodes.toNat ∧
    s.remCpus = Int32.ofNat r.details.minCpus - Int32.ofNat (cpuSum kept cpuCnt) ∧
    s.remNodes = wanted.toInt32 - Int32.ofNat kept.card ∧
    s.minRemNodes = minNodes.toInt32 - Int32.ofNat kept.card

variable {nodeMap : Finset Nat}

variable {i : Nat} {rest nodes : List Nat} {s' : Selection}

theorem Passed.other (passed : Passed r nodeMap cpuCnt minNodes maxNodes wanted (i :: rest) s)
    (other : i ∉ r.required) (absent : i ∉ rest) :
    Passed r nodeMap cpuCnt minNodes maxNodes wanted rest
      { s with nodeMap := s.nodeMap.erase i } := by
  refine ⟨passed.counts, fun j => ?_, fun kept isKept => passed.tally kept ?_⟩
  · rw [mem_erase, passed.here j, List.mem_cons]
    constructor
    · rintro ⟨ne, required | ⟨mem, rfl | later⟩⟩
      · exact .inl required
      · exact absurd rfl ne
      · exact .inr ⟨mem, later⟩
    · rintro (required | ⟨mem, later⟩)
      · exact ⟨fun same => other (same ▸ required), .inl required⟩
      · exact ⟨fun same => absent (same ▸ later), .inr ⟨mem, .inr later⟩⟩
  · rw [isKept]
    refine filter_congr fun j required => ?_
    have ne : j ≠ i := fun same => other (same ▸ required)
    simp [ne]

theorem filter_notMem_cons {required : Finset Nat} (mem : i ∈ required) (absent : i ∉ rest) :
    i ∉ required.filter (· ∉ i :: rest) ∧
      required.filter (· ∉ rest) = insert i (required.filter (· ∉ i :: rest)) := by
  constructor
  · simp
  · ext j
    by_cases same : j = i
    · subst same
      simp [mem, absent]
    · simp [same]

theorem Passed.required (passed : Passed r nodeMap cpuCnt minNodes maxNodes wanted (i :: rest) s)
    (few : r.required.card ≤ maxNodes.toNat) (mem : i ∈ r.required) (absent : i ∉ rest) :
    s.maxNodes ≠ 0 ∧ Passed r nodeMap cpuCnt minNodes maxNodes wanted rest (countNode i s) := by
  obtain ⟨new, isNew⟩ := filter_notMem_cons mem absent
  obtain ⟨count, remCpus, remNodes, minRemNodes⟩ := passed.tally _ rfl
  have more : s.maxNodes ≠ 0 := by
    intro none_
    have less : (r.required.filter (· ∉ i :: rest)).card < r.required.card :=
      card_lt_card (filter_ssubset.mpr ⟨i, mem, by simp⟩)
    rw [none_, UInt32.toNat_zero] at count
    omega
  refine ⟨more, passed.counts, fun j => ?_, fun kept isKept => ?_⟩
  · refine (passed.here j).trans ?_
    rw [List.mem_cons]
    constructor
    · rintro (required | ⟨inMap, rfl | later⟩)
      · exact .inl required
      · exact .inl mem
      · exact .inr ⟨inMap, later⟩
    · rintro (required | ⟨inMap, later⟩)
      · exact .inl required
      · exact .inr ⟨inMap, .inr later⟩
  · rw [isNew] at isKept
    subst isKept
    have one := toNat_sub_one more
    have sum : cpuSum (insert i (r.required.filter (· ∉ i :: rest))) cpuCnt =
        (cpuCnt i).toNat + cpuSum (r.required.filter (· ∉ i :: rest)) cpuCnt := sum_insert new
    rw [card_insert_of_notMem new, sum]
    simp only [countNode, passed.counts, cpusOn, remCpus, remNodes, minRemNodes, Int32.ofNat_add]
    refine ⟨by omega, ?_, Int32.sub_sub _ _ _, Int32.sub_sub _ _ _⟩
    rw [Int32.sub_sub, Int32.add_comm]

theorem passRequired_spec (nodup : nodes.Nodup) (withCpus : Bool)
    (few : r.required.card ≤ maxNodes.toNat) (cpus : ∀ i ∈ r.required, cpuCnt i ≠ 0)
    (passed : Passed r nodeMap cpuCnt minNodes maxNodes wanted nodes s) :
    Passed r nodeMap cpuCnt minNodes maxNodes wanted [] (passRequired r withCpus nodes s) := by
  induction nodes generalizing s with
  | nil => exact passed
  | cons i rest ih =>
    obtain ⟨absent, nodup⟩ := List.nodup_cons.mp nodup
    rw [passRequired]
    by_cases mem : i ∈ r.required
    · have isIn : i ∈ s.nodeMap := (passed.here i).mpr (.inl mem)
      obtain ⟨more, next⟩ := passed.required few mem absent
      have some_ : withCpus = true → 0 < cpusOn s.cpuCnt i := by
        intro _
        rw [passed.counts]
        exact cpusOn_pos.mpr (cpus i mem)
      rw [if_neg (not_not.mpr mem), if_pos isIn, if_pos ⟨some_, more⟩]
      exact ih nodup next
    · rw [if_pos mem]
      exact ih nodup (passed.other mem absent)

theorem keepRequiredNodes_tally (r : EvalRequest) {crNodeCnt : Nat} (withCpus : Bool)
    (minNodes reqNodes : UInt32) (bitmap : nodeMap ⊆ range crNodeCnt) (required : r.required ⊆ nodeMap)
    (few : r.required.card ≤ maxNodes.toNat) (cpus : ∀ i ∈ nodeMap, cpuCnt i ≠ 0) :
    let s := keepRequiredNodes r withCpus (span crNodeCnt nodeMap)
      (startSelection r nodeMap cpuCnt minNodes maxNodes reqNodes)
    s.nodeMap = r.required ∧ Tally r nodeMap cpuCnt minNodes maxNodes
      (if minNodes < reqNodes then reqNodes else minNodes) s := by
  have none_ : r.required.filter (· ∉ span crNodeCnt nodeMap) = ∅ :=
    filter_false_of_mem fun i mem => not_not.mpr (mem_span_of_mem bitmap (required mem))
  unfold keepRequiredNodes
  by_cases given : r.details.reqNodeBitmap.isSome
  · rw [if_pos given]
    have passed : Passed r nodeMap cpuCnt minNodes maxNodes
        (if minNodes < reqNodes then reqNodes else minNodes) (span crNodeCnt nodeMap)
        (startSelection r nodeMap cpuCnt minNodes maxNodes reqNodes) := by
      refine ⟨rfl, fun i => ?_, fun kept isKept => ?_⟩
      · constructor
        · intro mem
          exact .inr ⟨mem, mem_span_of_mem bitmap mem⟩
        · rintro (mem | ⟨mem, _⟩)
          · exact required mem
          · exact mem
      · rw [isKept, none_]
        refine ⟨Nat.zero_add _, ?_, ?_, ?_⟩
        · exact (Int32.sub_zero _).symm
        · exact (Int32.sub_zero _).symm
        · exact (Int32.sub_zero _).symm
    have result := passRequired_spec (span_nodup crNodeCnt nodeMap) withCpus few
      (fun i mem => cpus i (required mem)) passed
    have same : (passRequired r withCpus (span crNodeCnt nodeMap)
        (startSelection r nodeMap cpuCnt minNodes maxNodes reqNodes)).nodeMap = r.required := by
      ext i
      rw [result.here i]
      simp
    have whole : r.required.filter (· ∉ ([] : List Nat)) = r.required := by simp
    obtain ⟨count, remCpus, remNodes, minRemNodes⟩ := result.tally _ whole.symm
    refine ⟨same, result.counts, same ▸ required, ?_, ?_, ?_, ?_⟩
    · rw [same]
      exact count
    · rw [same]
      exact remCpus
    · rw [same]
      exact remNodes
    · rw [same]
      exact minRemNodes
  · rw [if_neg given]
    have empty : r.required = ∅ := by
      rw [EvalRequest.required, Option.not_isSome_iff_eq_none.mp given]
      rfl
    refine ⟨empty.symm, rfl, empty_subset _, Nat.zero_add _, ?_, ?_, ?_⟩
    · exact (Int32.sub_zero _).symm
    · exact (Int32.sub_zero _).symm
    · exact (Int32.sub_zero _).symm

/-! ## The other nodes -/

/-- A loop keeps the counters and the nodes, and goes on over `nodes` until there are no
more nodes to take or none are wanted. -/
structure Gathers (r : EvalRequest) (all : Finset Nat) (cpuCnt : Nat → UInt16)
    (minNodes maxNodes wanted : UInt32) (nodes : Nat → Prop) (s s' : Selection) : Prop where
  tally : Tally r all cpuCnt minNodes maxNodes wanted s'
  kept : s.nodeMap ⊆ s'.nodeMap
  done : (∀ i, nodes i → cpuCnt i ≠ 0 → i ∈ s'.nodeMap) ∨ s'.maxNodes = 0 ∨ s'.remNodes ≤ 0

theorem Gathers.skip {nodes nodes' : Nat → Prop}
    (gathers : Gathers r all cpuCnt minNodes maxNodes wanted nodes s s')
    (more : ∀ i, nodes' i → cpuCnt i ≠ 0 → i ∈ s.nodeMap ∨ nodes i) :
    Gathers r all cpuCnt minNodes maxNodes wanted nodes' s s' := by
  refine ⟨gathers.tally, gathers.kept, gathers.done.imp_left fun every i isNode some_ => ?_⟩
  rcases more i isNode some_ with already | later
  · exact gathers.kept already
  · exact every i later some_

theorem Gathers.addNode {nodes nodes' : Nat → Prop}
    (gathers : Gathers r all cpuCnt minNodes maxNodes wanted nodes (addNode i s) s')
    (more : ∀ j, nodes' j → cpuCnt j ≠ 0 → j = i ∨ nodes j) :
    Gathers r all cpuCnt minNodes maxNodes wanted nodes' s s' := by
  have kept : insert i s.nodeMap ⊆ s'.nodeMap := gathers.kept
  refine ⟨gathers.tally, (subset_insert i s.nodeMap).trans kept, ?_⟩
  refine gathers.done.imp_left fun every j isNode some_ => ?_
  rcases more j isNode some_ with rfl | later
  · exact kept (mem_insert_self j s.nodeMap)
  · exact every j later some_

theorem Tally.full {nodes : Nat → Prop} (tally : Tally r all cpuCnt minNodes maxNodes wanted s)
    (full : s.maxNodes = 0) (gathers : Gathers r all cpuCnt minNodes maxNodes wanted nodes s s') :
    s'.maxNodes = 0 := by
  have count := tally.count
  have after := gathers.tally.count
  have grown := card_le_card gathers.kept
  rw [full, UInt32.toNat_zero] at count
  refine UInt32.toNat_inj.mp ?_
  rw [UInt32.toNat_zero]
  omega

theorem spreadNodes_gathers (nodup : nodes.Nodup)
    (tally : Tally r all cpuCnt minNodes maxNodes wanted s) (fresh : ∀ i ∈ nodes, i ∉ s.nodeMap)
    (mem : ∀ i ∈ nodes, cpuCnt i ≠ 0 → i ∈ all) :
    Gathers r all cpuCnt minNodes maxNodes wanted (· ∈ nodes) s (spreadNodes nodes s) := by
  induction nodes generalizing s with
  | nil => exact ⟨tally, Subset.rfl, .inl fun i impossible => absurd impossible not_mem_nil⟩
  | cons i rest ih =>
    obtain ⟨absent, nodup⟩ := List.nodup_cons.mp nodup
    obtain ⟨new, freshRest⟩ := forall_mem_cons.mp fresh
    obtain ⟨isNode, insideRest⟩ := forall_mem_cons.mp mem
    rw [spreadNodes, tally.counts]
    by_cases takes : 0 < cpusOn cpuCnt i ∧ s.maxNodes ≠ 0
    · rw [if_pos takes]
      have next := tally.addNode (isNode (cpusOn_pos.mp takes.1)) new takes.2
      dsimp only
      split_ifs with full
      · exact ⟨next, subset_insert _ _, .inr (.inl full)⟩
      · refine (ih nodup next ?_ insideRest).addNode ?_
        · intro j later already
          rcases mem_insert.mp already with rfl | before
          · exact absent later
          · exact freshRest j later before
        · intro j isIn _
          exact List.mem_cons.mp isIn
    · rw [if_neg takes]
      have rest_ := ih nodup tally freshRest insideRest
      by_cases full : s.maxNodes = 0
      · exact ⟨rest_.tally, rest_.kept, .inr (.inl (tally.full full rest_))⟩
      · refine rest_.skip ?_
        intro j isIn some_
        rcases List.mem_cons.mp isIn with rfl | later
        · exact absurd ⟨cpusOn_pos.mpr some_, full⟩ takes
        · exact .inr later

theorem busyNodes_gathers (idleNodeBitmap : Finset Nat) (idle : Bool)
    (tally : Tally r all cpuCnt minNodes maxNodes wanted s)
    (mem : ∀ i ∈ nodes, cpuCnt i ≠ 0 → i ∈ all) :
    Gathers r all cpuCnt minNodes maxNodes wanted
      (fun i => i ∈ nodes ∧ decide (i ∈ idleNodeBitmap) = idle) s
      (busyNodes idleNodeBitmap idle nodes s) := by
  induction nodes generalizing s with
  | nil =>
    exact ⟨tally, Subset.rfl, .inl fun i impossible => absurd impossible.1 not_mem_nil⟩
  | cons i rest ih =>
    obtain ⟨isNode, insideRest⟩ := forall_mem_cons.mp mem
    rw [busyNodes, tally.counts]
    by_cases passedBy : i ∈ s.nodeMap ∨ decide (i ∈ idleNodeBitmap) ≠ idle
    · rw [if_pos passedBy]
      refine (ih tally insideRest).skip ?_
      rintro j ⟨isIn, kind⟩ _
      rcases List.mem_cons.mp isIn with rfl | later
      · exact .inl (passedBy.resolve_right (not_not.mpr kind))
      · exact .inr ⟨later, kind⟩
    · obtain ⟨new, kind⟩ := not_or.mp passedBy
      rw [if_neg passedBy]
      by_cases takes : 0 < cpusOn cpuCnt i ∧ s.maxNodes ≠ 0
      · rw [if_pos takes]
        have next := tally.addNode (isNode (cpusOn_pos.mp takes.1)) new takes.2
        dsimp only
        split_ifs with enough
        · exact ⟨next, subset_insert _ _, .inr (enough.imp_right And.right)⟩
        · refine (ih next insideRest).addNode ?_
          rintro j ⟨isIn, sameKind⟩ _
          exact (List.mem_cons.mp isIn).imp_right fun later => ⟨later, sameKind⟩
      · rw [if_neg takes]
        have rest_ := ih tally insideRest
        by_cases full : s.maxNodes = 0
        · exact ⟨rest_.tally, rest_.kept, .inr (.inl (tally.full full rest_))⟩
        · refine rest_.skip ?_
          rintro j ⟨isIn, sameKind⟩ some_
          rcases List.mem_cons.mp isIn with rfl | later
          · exact absurd ⟨cpusOn_pos.mpr some_, full⟩ takes
          · exact .inr ⟨later, sameKind⟩

/-- The search ends at a node outside the bitmap with most CPUs, or with as many as the
last one had. -/
theorem maxCpuIdx_spec (s : Selection) (lastMaxCpuCnt : Option UInt16) (nodes : List Nat)
    {best : Option Nat} (start : ∀ b, best = some b → b ∉ s.nodeMap) :
    match maxCpuIdx s lastMaxCpuCnt nodes best with
    | none => best = none ∧ ∀ j ∈ nodes, j ∈ s.nodeMap
    | some i => i ∉ s.nodeMap ∧ (best = some i ∨ i ∈ nodes) ∧
        (some (s.cpuCnt i) = lastMaxCpuCnt ∨ (∀ b, best = some b → s.cpuCnt b ≤ s.cpuCnt i) ∧
            ∀ j ∈ nodes, j ∉ s.nodeMap → s.cpuCnt j ≤ s.cpuCnt i) := by
  induction nodes generalizing best with
  | nil =>
    cases best with
    | none => exact ⟨rfl, fun j impossible => absurd impossible not_mem_nil⟩
    | some b =>
      refine ⟨start b rfl, .inl rfl, .inr ⟨?_, ?_⟩⟩
      · rintro c ⟨⟩
        exact UInt16.le_refl _
      · exact fun j impossible => absurd impossible not_mem_nil
  | cons i rest ih =>
    rw [maxCpuIdx]
    by_cases already : i ∈ s.nodeMap
    · rw [if_pos already]
      have later := ih start
      cases isBest : maxCpuIdx s lastMaxCpuCnt rest best with
      | none =>
        rw [isBest] at later
        exact ⟨later.1, forall_mem_cons.mpr ⟨already, later.2⟩⟩
      | some k =>
        rw [isBest] at later
        obtain ⟨new, from_, most⟩ := later
        refine ⟨new, from_.imp_right (List.mem_cons_of_mem i), most.imp_right ?_⟩
        rintro ⟨before, others⟩
        exact ⟨before, forall_mem_cons.mpr ⟨fun absent => absurd already absent, others⟩⟩
    · rw [if_neg already]
      by_cases better : (best.all fun b => decide (s.cpuCnt b < s.cpuCnt i)) = true
      · rw [if_pos better]
        have beats : ∀ b, best = some b → s.cpuCnt b < s.cpuCnt i := by
          rintro b rfl
          simpa using better
        split_ifs with same
        · exact ⟨already, .inr List.mem_cons_self, .inl same⟩
        · have startHere : ∀ b, some i = some b → b ∉ s.nodeMap := by
            rintro b ⟨⟩
            exact already
          have later := ih startHere
          cases isBest : maxCpuIdx s lastMaxCpuCnt rest (some i) with
          | none =>
            rw [isBest] at later
            cases later.1
          | some k =>
            rw [isBest] at later
            obtain ⟨new, from_, most⟩ := later
            refine ⟨new, .inr ?_, most.imp_right ?_⟩
            · rcases from_ with ⟨⟨⟩⟩ | inRest
              · exact List.mem_cons_self
              · exact List.mem_cons_of_mem i inRest
            · rintro ⟨before, others⟩
              have here := before i rfl
              refine ⟨fun b isB => UInt16.le_trans (UInt16.le_of_lt (beats b isB)) here, ?_⟩
              exact forall_mem_cons.mpr ⟨fun _ => here, others⟩
      · rw [if_neg better]
        have later := ih start
        cases best with
        | none => exact absurd rfl better
        | some b =>
          have notLess : s.cpuCnt i ≤ s.cpuCnt b := by simpa using better
          cases isBest : maxCpuIdx s lastMaxCpuCnt rest (some b) with
          | none =>
            rw [isBest] at later
            cases later.1
          | some k =>
            rw [isBest] at later
            obtain ⟨new, from_, most⟩ := later
            refine ⟨new, from_.imp_right (List.mem_cons_of_mem i), most.imp_right ?_⟩
            rintro ⟨before, others⟩
            refine ⟨before, forall_mem_cons.mpr ⟨fun _ => ?_, others⟩⟩
            exact UInt16.le_trans notLess (before b rfl)

theorem llnNodes_gathers {turns : Nat} {lastMaxCpuCnt : Option UInt16}
    (tally : Tally r all cpuCnt minNodes maxNodes wanted s)
    (mem : ∀ i ∈ nodes, cpuCnt i ≠ 0 → i ∈ all) (bound : s.maxNodes.toNat ≤ turns)
    (lastSome : lastMaxCpuCnt ≠ some 0) :
    Gathers r all cpuCnt minNodes maxNodes wanted (· ∈ nodes) s
      (llnNodes nodes turns lastMaxCpuCnt s) := by
  induction turns generalizing s lastMaxCpuCnt with
  | zero =>
    refine ⟨tally, Subset.rfl, .inr (.inl ?_)⟩
    exact UInt32.toNat_inj.mp (Nat.le_zero.mp bound)
  | succ turns ih =>
    rw [llnNodes]
    by_cases goes : (0 < s.remCpus ∨ 0 < s.remNodes) ∧ s.maxNodes ≠ 0
    · rw [if_pos goes]
      have start : ∀ b, (none : Option Nat) = some b → b ∉ s.nodeMap := by rintro b ⟨⟩
      have search := maxCpuIdx_spec s lastMaxCpuCnt nodes start
      cases isBest : maxCpuIdx s lastMaxCpuCnt nodes none with
      | none =>
        rw [isBest] at search
        exact ⟨tally, Subset.rfl, .inl fun i isIn _ => search.2 i isIn⟩
      | some i =>
        rw [isBest] at search
        obtain ⟨new, ⟨⟨⟩⟩ | isIn, most⟩ := search
        dsimp only
        split_ifs with none_
        · refine ⟨tally, Subset.rfl, .inl fun j isIn some_ => ?_⟩
          rcases most with same | ⟨_, others⟩
          · rw [none_] at same
            exact absurd same.symm lastSome
          · by_contra outside
            have le := others j isIn outside
            rw [none_, tally.counts] at le
            exact some_ (UInt16.le_zero_iff.mp le)
        · have some_ : cpuCnt i ≠ 0 := by rwa [tally.counts] at none_
          have next := tally.addNode (mem i isIn some_) new goes.2
          have one := toNat_sub_one goes.2
          have least : ((addNode i s).maxNodes).toNat ≤ turns := by
            change (s.maxNodes - 1).toNat ≤ turns
            omega
          have rest_ := ih (next.setTotal s.totalCpus) least
            (fun isZero => none_ (Option.some.inj isZero))
          exact ⟨rest_.tally, (subset_insert i s.nodeMap).trans rest_.kept, rest_.done⟩
    · rw [if_neg goes]
      refine ⟨tally, Subset.rfl, ?_⟩
      by_cases full : s.maxNodes = 0
      · exact .inr (.inl full)
      · right
        right
        rw [← Int32.not_lt]
        exact fun more => goes ⟨.inr more, full⟩

theorem serialNodes_gathers {turns : Nat} (tally : Tally r all cpuCnt minNodes maxNodes wanted s)
    (mem : ∀ i ∈ nodes, cpuCnt i ≠ 0 → i ∈ all) (bound : s.maxNodes.toNat ≤ turns) :
    Gathers r all cpuCnt minNodes maxNodes wanted (· ∈ nodes) s (serialNodes nodes turns s) := by
  induction turns generalizing s with
  | zero =>
    refine ⟨tally, Subset.rfl, .inr (.inl ?_)⟩
    exact UInt32.toNat_inj.mp (Nat.le_zero.mp bound)
  | succ turns ih =>
    rw [serialNodes]
    by_cases goes : (0 < s.remCpus ∨ 0 < s.remNodes) ∧ s.maxNodes ≠ 0
    · rw [if_pos goes]
      cases isLast : nodes.reverse.find? fun i => decide (i ∉ s.nodeMap ∧ s.cpuCnt i ≠ 0) with
      | none =>
        refine ⟨tally, Subset.rfl, .inl fun i isIn some_ => ?_⟩
        by_contra outside
        have absent := List.find?_eq_none.mp isLast i (mem_reverse.mpr isIn)
        rw [tally.counts] at absent
        exact absent (decide_eq_true ⟨outside, some_⟩)
      | some i =>
        have isFree := List.find?_some isLast
        obtain ⟨new, some_⟩ := of_decide_eq_true isFree
        have isIn := mem_reverse.mp (List.mem_of_find?_eq_some isLast)
        rw [tally.counts] at some_
        have next := tally.addNode (mem i isIn some_) new goes.2
        have one := toNat_sub_one goes.2
        have least : ((addNode i s).maxNodes).toNat ≤ turns := by
          change (s.maxNodes - 1).toNat ≤ turns
          omega
        have rest_ := ih (next.setTotal s.totalCpus) least
        exact ⟨rest_.tally, (subset_insert i s.nodeMap).trans rest_.kept, rest_.done⟩
    · rw [if_neg goes]
      refine ⟨tally, Subset.rfl, ?_⟩
      by_cases full : s.maxNodes = 0
      · exact .inr (.inl full)
      · right
        right
        rw [← Int32.not_lt]
        exact fun more => goes ⟨.inr more, full⟩

theorem Gathers.whole {nodes : Nat → Prop}
    (gathers : Gathers r all cpuCnt minNodes maxNodes wanted nodes s s')
    (isMax : maxNodes.toNat = all.card) (isWanted : wanted.toNat = all.card)
    (small : all.card < 2 ^ 31) :
    s'.nodeMap = all ∨ ∀ i, nodes i → cpuCnt i ≠ 0 → i ∈ s'.nodeMap := by
  have inside := gathers.tally.inside
  rcases gathers.done with every | full | enough
  · exact .inr every
  · left
    have count := gathers.tally.count
    rw [full, UInt32.toNat_zero, Nat.add_zero, isMax] at count
    exact eq_of_subset_of_card_le inside count.ge
  · left
    rw [gathers.tally.remNodes, toInt32_eq, isWanted] at enough
    exact eq_of_subset_of_card_le inside (le_of_sub_nonpos small enough)

/-- Every variant but `_eval_nodes_spread` with required nodes counts right. -/
theorem addNodes_spec (v : Variant) (idleNodeBitmap : Finset Nat) (nodup : nodes.Nodup)
    (tally : Tally r all cpuCnt minNodes maxNodes wanted s)
    (inside : ∀ i ∈ nodes, cpuCnt i ≠ 0 → i ∈ all) (once : v = .spread → s.nodeMap = ∅) :
    let s' := addNodes idleNodeBitmap nodes s v
    Tally r all cpuCnt minNodes maxNodes wanted s' ∧ s.nodeMap ⊆ s'.nodeMap ∧
      (maxNodes.toNat = all.card → wanted.toNat = all.card → all.card < 2 ^ 31 →
        s'.nodeMap = all ∨ ∀ i ∈ nodes, cpuCnt i ≠ 0 → i ∈ s'.nodeMap) := by
  cases v with
  | spread =>
    have fresh : ∀ i ∈ nodes, i ∉ s.nodeMap := by
      intro i _
      rw [once rfl]
      exact notMem_empty i
    have gathers := spreadNodes_gathers nodup tally fresh inside
    exact ⟨gathers.tally, gathers.kept, gathers.whole⟩
  | busy =>
    have first := busyNodes_gathers idleNodeBitmap false tally inside
    have second := busyNodes_gathers idleNodeBitmap true first.tally inside
    refine ⟨second.tally, first.kept.trans second.kept, fun isMax isWanted small => ?_⟩
    rcases first.whole isMax isWanted small with whole | withJob
    · exact .inl (second.tally.inside.antisymm (whole.symm.subset.trans second.kept))
    · refine (second.whole isMax isWanted small).imp_right fun idle i isIn some_ => ?_
      by_cases isIdle : i ∈ idleNodeBitmap
      · exact idle i ⟨isIn, decide_eq_true isIdle⟩ some_
      · exact second.kept (withJob i ⟨isIn, decide_eq_false isIdle⟩ some_)
  | lln =>
    have unset : (none : Option UInt16) ≠ some 0 := nofun
    have gathers := llnNodes_gathers tally inside le_rfl unset
    exact ⟨gathers.tally, gathers.kept, gathers.whole⟩
  | serial =>
    have gathers := serialNodes_gathers tally inside le_rfl
    exact ⟨gathers.tally, gathers.kept, gathers.whole⟩

/-- `_eval_nodes_spread` goes over all nodes with CPUs while the limit allows it, those in
the bitmap too. -/
theorem spreadNodes_all (room : (nodes.filter fun i => s.cpuCnt i ≠ 0).length < s.maxNodes.toNat) :
    let s' := spreadNodes nodes s
    let taken := nodes.filter fun i => s.cpuCnt i ≠ 0
    s'.nodeMap = s.nodeMap ∪ taken.toFinset ∧
      s'.remCpus = s.remCpus - Int32.ofNat (taken.map fun i => (s.cpuCnt i).toNat).sum ∧
      s'.minRemNodes = s.minRemNodes - Int32.ofNat taken.length := by
  induction nodes generalizing s with
  | nil => exact ⟨(union_empty _).symm, (Int32.sub_zero _).symm, (Int32.sub_zero _).symm⟩
  | cons i rest ih =>
    rw [spreadNodes]
    by_cases some_ : s.cpuCnt i ≠ 0
    · rw [List.filter_cons_of_pos (by simpa using some_)] at room ⊢
      have more : s.maxNodes ≠ 0 := by
        rintro none_
        rw [none_] at room
        exact Nat.not_lt_zero _ room
      have one := toNat_sub_one more
      rw [List.length_cons] at room
      have roomNext : (rest.filter fun j => (addNode i s).cpuCnt j ≠ 0).length <
          (addNode i s).maxNodes.toNat := by
        change (rest.filter fun j => s.cpuCnt j ≠ 0).length < (s.maxNodes - 1).toNat
        omega
      have left : (addNode i s).maxNodes ≠ 0 := by
        intro none_
        rw [none_] at roomNext
        exact Nat.not_lt_zero _ roomNext
      obtain ⟨nodes_, cpus, count⟩ := ih roomNext
      rw [if_pos ⟨cpusOn_pos.mpr some_, more⟩]
      dsimp only
      rw [if_neg left, nodes_, cpus, count]
      refine ⟨?_, ?_, ?_⟩
      · rw [List.toFinset_cons, union_insert]
        exact insert_union i s.nodeMap _
      · rw [List.map_cons, List.sum_cons, Int32.ofNat_add]
        exact Int32.sub_sub _ _ _
      · rw [List.length_cons, Nat.add_comm, Int32.ofNat_add]
        exact Int32.sub_sub _ _ _
    · rw [List.filter_cons_of_neg (by simpa using some_)] at room ⊢
      rw [if_neg fun takes => some_ (cpusOn_pos.mp takes.1)]
      exact ih room

end Counters

/-! ## Candidates and nodes in between -/

section Sound

variable {crNodeCnt : Nat} {nodeMap : Finset Nat} {cpuCnt : Nat → UInt16}
  {required : Option (Finset Nat)}

/-- What `_choose_nodes` gives to a variant: candidates with CPUs, the required nodes
among them. -/
structure Candidates (crNodeCnt : Nat) (nodeMap : Finset Nat) (cpuCnt : Nat → UInt16)
    (required : Option (Finset Nat)) : Prop where
  bitmap : nodeMap ⊆ range crNodeCnt
  cpus : ∀ i ∈ nodeMap, 1 ≤ (cpuCnt i).toNat
  required : required.getD ∅ ⊆ nodeMap
  cluster : crNodeCnt + 1 < 2 ^ 31

/-- The nodes are what the job asked for. -/
structure Suits (r : EvalRequest) (nodeMap : Finset Nat) (cpuCnt : Nat → UInt16)
    (minNodes maxNodes : UInt32) (nodes : Finset Nat) : Prop where
  inside : nodes ⊆ nodeMap
  required : r.required ⊆ nodes
  atLeast : minNodes.toNat ≤ nodes.card
  atMost : nodes.card ≤ maxNodes.toNat
  minCpus : r.details.minCpus ≤ cpuSum nodes cpuCnt

/-- Every node with CPUs between two candidates is a candidate. -/
def Unbroken (nodeMap : Finset Nat) (cpuCnt : Nat → UInt16) : Prop :=
  ∀ i, (∃ a ∈ nodeMap, a ≤ i) → (∃ b ∈ nodeMap, i ≤ b) → cpuCnt i ≠ 0 → i ∈ nodeMap

variable {i : Nat}

theorem Candidates.ne_zero (candidates : Candidates crNodeCnt nodeMap cpuCnt required)
    (mem : i ∈ nodeMap) : cpuCnt i ≠ 0 := by
  intro none_
  have some_ := candidates.cpus i mem
  rw [none_] at some_
  exact absurd some_ (by decide)

/-- A variant meets the request when no other node lies in between. -/
theorem evalVariant_suits {v : Variant} {r : EvalRequest} {idleNodeBitmap : Finset Nat}
    {minNodes maxNodes reqNodes : UInt32}
    (candidates : Candidates crNodeCnt nodeMap cpuCnt r.details.reqNodeBitmap)
    (unbroken : Unbroken nodeMap cpuCnt) (once : v = .spread → r.required = ∅)
    (fewCpus : r.details.minCpus < 2 ^ 31) (fewNodes : minNodes.toNat < 2 ^ 31)
    (few : r.required.card ≤ maxNodes.toNat)
    (success : (evalVariant r v idleNodeBitmap crNodeCnt nodeMap cpuCnt minNodes maxNodes
      reqNodes).1 = true) :
    Suits r nodeMap cpuCnt minNodes maxNodes
      (evalVariant r v idleNodeBitmap crNodeCnt nodeMap cpuCnt minNodes maxNodes reqNodes).2 := by
  obtain ⟨isRequired, start⟩ := keepRequiredNodes_tally r
    (decide (v = .spread ∨ v = .busy)) minNodes reqNodes candidates.bitmap candidates.required few
    fun _ => candidates.ne_zero
  have inside : ∀ i ∈ span crNodeCnt nodeMap, cpuCnt i ≠ 0 → i ∈ nodeMap := by
    intro i isIn some_
    obtain ⟨low, high⟩ := (mem_span candidates.bitmap).mp isIn
    exact unbroken i low high some_
  obtain ⟨tally, kept, _⟩ := addNodes_spec v idleNodeBitmap (span_nodup crNodeCnt nodeMap) start
    inside fun isSpread => isRequired.trans (once isSpread)
  unfold evalVariant at success ⊢
  dsimp only at success ⊢
  split_ifs at success ⊢ with excess lacking
  obtain ⟨cpus, nodes⟩ := not_or.mp lacking
  rw [Int32.not_lt] at cpus nodes
  rw [tally.remCpus] at cpus
  rw [tally.minRemNodes, toInt32_eq] at nodes
  refine ⟨tally.inside, isRequired.symm.subset.trans kept, le_of_sub_nonpos fewNodes nodes, ?_,
    le_of_sub_nonpos fewCpus cpus⟩
  exact Nat.le.intro tally.count

/-- All nodes with CPUs that a variant goes over. -/
def reached (crNodeCnt : Nat) (nodeMap : Finset Nat) (cpuCnt : Nat → UInt16) : Finset Nat :=
  ((span crNodeCnt nodeMap).filter fun i => cpuCnt i ≠ 0).toFinset

theorem mem_reached :
    i ∈ reached crNodeCnt nodeMap cpuCnt ↔ i ∈ span crNodeCnt nodeMap ∧ cpuCnt i ≠ 0 := by
  simp [reached]

theorem card_reached (crNodeCnt : Nat) (nodeMap : Finset Nat) (cpuCnt : Nat → UInt16) :
    (reached crNodeCnt nodeMap cpuCnt).card =
      ((span crNodeCnt nodeMap).filter fun i => cpuCnt i ≠ 0).length :=
  List.toFinset_card_of_nodup ((span_nodup crNodeCnt nodeMap).filter _)

theorem Candidates.subset_reached (candidates : Candidates crNodeCnt nodeMap cpuCnt required) :
    nodeMap ⊆ reached crNodeCnt nodeMap cpuCnt := fun _ mem =>
  mem_reached.mpr ⟨mem_span_of_mem candidates.bitmap mem, candidates.ne_zero mem⟩

theorem Candidates.card_reached_lt (candidates : Candidates crNodeCnt nodeMap cpuCnt required) :
    (reached crNodeCnt nodeMap cpuCnt).card + 1 < 2 ^ 31 := by
  refine lt_of_le_of_lt (Nat.add_le_add_right ?_ 1) candidates.cluster
  refine (card_le_card fun i mem => ?_).trans_eq (card_range crNodeCnt)
  exact mem_range.mpr (mem_span_lt candidates.bitmap (mem_reached.mp mem).1)

/-- A request for these required nodes without limit of CPUs. -/
def requestFor (required : Option (Finset Nat)) (minCpus : Nat) : EvalRequest :=
  { noNodes minCpus with
    details := { (noNodes minCpus).details with reqNodeBitmap := required } }

/-- A request for all nodes that are reached gets them. -/
theorem exists_takes_reached {v : Variant} (idleNodeBitmap : Finset Nat)
    (candidates : Candidates crNodeCnt nodeMap cpuCnt required)
    (once : v = .spread → required.getD ∅ = ∅) (mem : i ∈ reached crNodeCnt nodeMap cpuCnt) :
    ∃ minCpus < 2 ^ 31, ∃ count : UInt32, (required.getD ∅).card ≤ count.toNat ∧
      (evalVariant (requestFor required minCpus) v idleNodeBitmap crNodeCnt nodeMap cpuCnt 0 count
        count).1 = true ∧
      i ∈ (evalVariant (requestFor required minCpus) v idleNodeBitmap crNodeCnt nodeMap cpuCnt 0
        count count).2 := by
  have small := Nat.lt_of_succ_lt candidates.card_reached_lt
  have some_ : 0 < (reached crNodeCnt nodeMap cpuCnt).card := card_pos.mpr ⟨i, mem⟩
  obtain ⟨minCpus, fewCpus, comesDown⟩ :=
    exists_counter (cpuSum (reached crNodeCnt nodeMap cpuCnt) cpuCnt)
  have isCount : (UInt32.ofNat (reached crNodeCnt nodeMap cpuCnt).card).toNat =
      (reached crNodeCnt nodeMap cpuCnt).card := by
    rw [UInt32.toNat_ofNat', Nat.mod_eq_of_lt (by omega)]
  generalize UInt32.ofNat (reached crNodeCnt nodeMap cpuCnt).card = count at isCount
  have few : (required.getD ∅).card ≤ count.toNat := by
    rw [isCount]
    exact card_le_card (candidates.required.trans candidates.subset_reached)
  have wanted : (0 : UInt32) < count := by
    rw [UInt32.lt_iff_toNat_lt, isCount]
    exact some_
  refine ⟨minCpus, fewCpus, count, few, ?_⟩
  obtain ⟨isRequired, start⟩ := keepRequiredNodes_tally (requestFor required minCpus)
    (decide (v = .spread ∨ v = .busy)) 0 count candidates.bitmap candidates.required few
    fun _ => candidates.ne_zero
  rw [if_pos wanted] at start
  obtain ⟨tally, _, whole⟩ := addNodes_spec v idleNodeBitmap (span_nodup crNodeCnt nodeMap)
    (start.mono candidates.subset_reached) (fun i isIn some_ => mem_reached.mpr ⟨isIn, some_⟩)
    fun isSpread => isRequired.trans (once isSpread)
  have all := (whole isCount isCount small).elim id fun every =>
    tally.inside.antisymm fun j isIn => every j (mem_reached.mp isIn).1 (mem_reached.mp isIn).2
  have cpus := tally.remCpus
  have nodes := tally.minRemNodes
  rw [all] at cpus nodes
  unfold evalVariant
  rw [if_neg fun limited => limited.1 rfl, if_neg]
  · exact ⟨rfl, all ▸ mem⟩
  · rw [not_or, Int32.not_lt, Int32.not_lt]
    exact ⟨cpus.trans_le comesDown, nodes.trans_le (sub_nonpos (Nat.zero_le _) small.le)⟩

/-- `_eval_nodes_spread` counts each required node for two. -/
theorem exists_spread_short (idleNodeBitmap : Finset Nat)
    (candidates : Candidates crNodeCnt nodeMap cpuCnt required) (some_ : required.getD ∅ ≠ ∅) :
    ∃ minCpus < 2 ^ 31, ∃ minNodes maxNodes : UInt32, minNodes.toNat < 2 ^ 31 ∧
      (required.getD ∅).card ≤ maxNodes.toNat ∧
      (evalVariant (requestFor required minCpus) .spread idleNodeBitmap crNodeCnt nodeMap cpuCnt
        minNodes maxNodes 0).1 = true ∧
      (evalVariant (requestFor required minCpus) .spread idleNodeBitmap crNodeCnt nodeMap cpuCnt
        minNodes maxNodes 0).2.card < minNodes.toNat := by
  have small := candidates.card_reached_lt
  have subset := candidates.required.trans candidates.subset_reached
  have least : 0 < (required.getD ∅).card := card_pos.mpr (nonempty_iff_ne_empty.mpr some_)
  have most := card_le_card subset
  obtain ⟨minCpus, fewCpus, comesDown⟩ := exists_counter (cpuSum (required.getD ∅) cpuCnt +
    (((span crNodeCnt nodeMap).filter fun i => cpuCnt i ≠ 0).map fun i => (cpuCnt i).toNat).sum)
  have isMin : (UInt32.ofNat ((reached crNodeCnt nodeMap cpuCnt).card + 1)).toNat =
      (reached crNodeCnt nodeMap cpuCnt).card + 1 := by
    rw [UInt32.toNat_ofNat', Nat.mod_eq_of_lt (by omega)]
  have isMax : (UInt32.ofNat ((required.getD ∅).card +
      (reached crNodeCnt nodeMap cpuCnt).card + 1)).toNat =
      (required.getD ∅).card + (reached crNodeCnt nodeMap cpuCnt).card + 1 := by
    rw [UInt32.toNat_ofNat', Nat.mod_eq_of_lt (by omega)]
  generalize UInt32.ofNat ((reached crNodeCnt nodeMap cpuCnt).card + 1) = minNodes at isMin
  generalize UInt32.ofNat ((required.getD ∅).card + (reached crNodeCnt nodeMap cpuCnt).card + 1) =
    maxNodes at isMax
  have few : (required.getD ∅).card ≤ maxNodes.toNat := by omega
  refine ⟨minCpus, fewCpus, minNodes, maxNodes, by omega, few, ?_⟩
  obtain ⟨isRequired, start⟩ := keepRequiredNodes_tally (requestFor required minCpus)
    (decide (Variant.spread = .spread ∨ Variant.spread = .busy)) minNodes 0 candidates.bitmap
    candidates.required few fun _ => candidates.ne_zero
  have count := card_reached crNodeCnt nodeMap cpuCnt
  unfold evalVariant
  dsimp only [addNodes]
  rw [if_neg fun limited => limited.1 rfl]
  generalize keepRequiredNodes (requestFor required minCpus) _ (span crNodeCnt nodeMap) _ = s
    at isRequired start
  change s.nodeMap = required.getD ∅ at isRequired
  obtain ⟨counts, _, left, remCpus, _, minRemNodes⟩ := start
  rw [isRequired] at left remCpus minRemNodes
  have room : ((span crNodeCnt nodeMap).filter fun i => s.cpuCnt i ≠ 0).length <
      s.maxNodes.toNat := by
    rw [counts, ← count]
    omega
  obtain ⟨nodes, cpus, minRem⟩ := spreadNodes_all room
  simp only [counts] at nodes cpus minRem
  rw [remCpus, Int32.sub_sub, ← Int32.ofNat_add] at cpus
  rw [minRemNodes, toInt32_eq, isMin, Int32.sub_sub, ← Int32.ofNat_add, ← count] at minRem
  have all : (spreadNodes (span crNodeCnt nodeMap) s).nodeMap =
      reached crNodeCnt nodeMap cpuCnt := by
    rw [nodes, isRequired]
    exact union_eq_right.mpr subset
  rw [if_neg]
  · rw [all, isMin]
    exact ⟨rfl, Nat.lt_succ_self _⟩
  · rw [not_or, Int32.not_lt, Int32.not_lt]
    exact ⟨cpus.trans_le comesDown, minRem.trans_le (sub_nonpos (by omega) (by omega))⟩

end Sound

/-- A job for whole nodes with at most four CPUs. -/
def smallWholeNodes : EvalRequest :=
  { noNodes 2 with
    details := { (noNodes 2).details with wholeNode := 1 }
    maxCpus := 4 }

end SlurmSim.Select.EvalNodes
