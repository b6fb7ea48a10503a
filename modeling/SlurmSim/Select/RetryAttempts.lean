import SlurmSim.Select.ChooseNodes
import SlurmSim.Select.EvalSound

/-!
# Attempts and what they leave

An attempt of `_choose_nodes` is to answer as a call of `_eval_nodes` with the CPU counts
of the job does.  Each attempt gets the counts that the one before it has left, so that
this depends on whether an attempt that fails leaves them alone.
-/

namespace SlurmSim.Select.EvalNodes

open SlurmSim.Select
open Finset

/-- A call of `_eval_nodes`: what it is given, and its result. -/
structure Attempt where
  nodeMap : Finset Nat
  cpuCnt : Nat → UInt16
  result : Bool × Finset Nat × (Nat → UInt16)

section Log

variable (r : EvalRequest) (eval : Evaluation)

/-- The calls of the loop, in its order. -/
def attemptLog (nodes : List Nat) :
    Nat → Nat → Finset Nat → Bool × Finset Nat × (Nat → UInt16) → List Attempt
  | 0, _, _, _ => []
  | left + 1, count, origmap, (_, nodeMap, cpuCnt) =>
    let nodeMap := nodeMap ∪ origmap
    let out := nodes.filter (leftOut r count nodeMap cpuCnt)
    let origmap := origmap.filter (· ∉ out)
    let nodeMap := nodeMap.filter (· ∉ out)
    if out = [] then attemptLog nodes left (count + 1) origmap (false, nodeMap, cpuCnt)
    else
      let result := eval nodeMap cpuCnt
      ⟨nodeMap, cpuCnt, result⟩ ::
        if result.1 = true then [] else attemptLog nodes left (count + 1) origmap result

/-- The calls of `_choose_nodes`. -/
def chooseLog (crNodeCnt : Nat) (nodeMap : Finset Nat) (cpuCnt : Nat → UInt16) : List Attempt :=
  let nodes := List.range crNodeCnt
  match clearUnusable r cpuCnt nodes nodeMap with
  | (false, _) => []
  | (true, origmap) =>
    let first := eval origmap cpuCnt
    ⟨origmap, cpuCnt, first⟩ ::
      if first.1 = true then []
      else attemptLog r eval nodes (mostCpusOn first.2.2 nodes - 1) 1 origmap first

/-- The candidates with more than `k` CPUs, and the required ones. -/
def reducedMap (origmap : Finset Nat) (cpuCnt : Nat → UInt16) (k : Nat) : Finset Nat :=
  origmap.filter fun i => k < (cpuCnt i).toNat ∨ i ∈ r.required

/-- The attempt answers as a fresh call for a reduced set of candidates, and leaves the CPU
counts alone when it fails. -/
structure Attempt.Fresh (origmap : Finset Nat) (cpuCnt : Nat → UInt16) (a : Attempt) : Prop where
  reduced : ∃ k, a.nodeMap = reducedMap r origmap cpuCnt k
  answer : a.result = eval a.nodeMap cpuCnt
  noTrace : a.result.1 = false → a.result.2.2 = cpuCnt

/-- Whether a fresh call accepts a reduced set. -/
def accepts (origmap : Finset Nat) (cpuCnt : Nat → UInt16) (k : Nat) : Bool :=
  (eval (reducedMap r origmap cpuCnt k) cpuCnt).1

/-- Every attempt is as good as a fresh call, and the job is not refused if a set that the
loop comes to is accepted. -/
structure Independent (crNodeCnt : Nat) (nodeMap : Finset Nat) (cpuCnt : Nat → UInt16) : Prop where
  fresh : ∀ origmap, clearUnusable r cpuCnt (List.range crNodeCnt) nodeMap = (true, origmap) →
    ∀ a ∈ chooseLog r eval crNodeCnt nodeMap cpuCnt, a.Fresh r eval origmap cpuCnt
  notRefused : ∀ origmap,
    clearUnusable r cpuCnt (List.range crNodeCnt) nodeMap = (true, origmap) →
    ∀ k ≤ mostCpusOn cpuCnt (List.range crNodeCnt) - 1, accepts r eval origmap cpuCnt k = true →
      (chooseNodes r eval crNodeCnt nodeMap cpuCnt).1 = true

/-- No set before the first that is accepted has an entry of `cpu_cnt` lowered. -/
def LowersNone (crNodeCnt : Nat) (nodeMap : Finset Nat) (cpuCnt : Nat → UInt16) : Prop :=
  ∀ origmap, clearUnusable r cpuCnt (List.range crNodeCnt) nodeMap = (true, origmap) →
    ∀ k ≤ mostCpusOn cpuCnt (List.range crNodeCnt) - 1,
      (∀ j ≤ k, accepts r eval origmap cpuCnt j = false) →
      (eval (reducedMap r origmap cpuCnt k) cpuCnt).2.2 = cpuCnt

end Log

/-! ## Reduced sets -/

section Loop

variable {r : EvalRequest} {eval : Evaluation} {crNodeCnt : Nat} {base : Finset Nat}
  {cpuCnt : Nat → UInt16}

theorem reducedMap_zero (cpus : ∀ i ∈ base, cpuCnt i ≠ 0) : reducedMap r base cpuCnt 0 = base := by
  refine filter_true_of_mem fun i mem => .inl (Nat.pos_of_ne_zero fun none_ => ?_)
  exact cpus i mem (UInt16.toNat_inj.mp none_)

theorem reducedMap_succ (bitmap : base ⊆ range crNodeCnt) (cpus : ∀ i ∈ base, cpuCnt i ≠ 0)
    (k : Nat) :
    (reducedMap r base cpuCnt k).filter (· ∉ (List.range crNodeCnt).filter
      (leftOut r (k + 1) (reducedMap r base cpuCnt k) cpuCnt)) = reducedMap r base cpuCnt (k + 1) := by
  ext i
  simp only [reducedMap, leftOut, mem_filter, List.mem_filter, List.mem_range, decide_eq_true_eq,
    not_and, not_not]
  constructor
  · rintro ⟨⟨mem, more⟩, stays⟩
    refine ⟨mem, ?_⟩
    by_contra neither
    obtain ⟨few, free⟩ := not_or.mp neither
    have some_ : 0 < (cpuCnt i).toNat :=
      Nat.pos_of_ne_zero fun none_ => cpus i mem (UInt16.toNat_inj.mp none_)
    exact free (stays (mem_range.mp (bitmap mem)) some_ (by omega) ⟨mem, more⟩)
  · rintro ⟨mem, more⟩
    refine ⟨⟨mem, more.imp_left fun more => by omega⟩, fun _ _ few _ => ?_⟩
    exact more.resolve_left (by omega)

theorem clearUnusable_spec {nodes : List Nat} {nodeMap origmap : Finset Nat}
    (cleared : clearUnusable r cpuCnt nodes nodeMap = (true, origmap)) :
    origmap ⊆ nodeMap ∧ ∀ i ∈ nodes, i ∈ origmap → cpuCnt i ≠ 0 := by
  induction nodes generalizing nodeMap with
  | nil =>
    cases cleared
    exact ⟨Subset.rfl, fun i impossible => absurd impossible List.not_mem_nil⟩
  | cons i rest ih =>
    rw [clearUnusable] at cleared
    split_ifs at cleared with present bad required
    · cases cleared
    · obtain ⟨subset, cpus⟩ := ih cleared
      refine ⟨subset.trans (erase_subset i nodeMap), List.forall_mem_cons.mpr ⟨?_, cpus⟩⟩
      intro mem
      exact absurd (subset mem) (notMem_erase i nodeMap)
    · obtain ⟨subset, cpus⟩ := ih cleared
      refine ⟨subset, List.forall_mem_cons.mpr ⟨fun _ none_ => bad ?_, cpus⟩⟩
      simp [unusable, none_]
    · obtain ⟨subset, cpus⟩ := ih cleared
      refine ⟨subset, List.forall_mem_cons.mpr ⟨fun mem => ?_, cpus⟩⟩
      exact absurd (subset mem) present

/-! ## The loop -/

/-- A result that leaves no more nodes than it is given, as one that fails does. -/
def Shrinks (eval : Evaluation) : Prop :=
  ∀ nodeMap cpuCnt, (eval nodeMap cpuCnt).1 = false → (eval nodeMap cpuCnt).2.1 ⊆ nodeMap

/-- Each of the next `left` numbers with `p` up to it false has `q`. -/
def Until (p : Nat → Bool) (q : Nat → Prop) (k left : Nat) : Prop :=
  ∀ j, k < j → j ≤ k + left → (∀ i, k < i → i ≤ j → p i = false) → q j

/-- One of the next `left` numbers with `p` means success. -/
def Succeeds (p : Nat → Bool) (success : Bool) (k left : Nat) : Prop :=
  ∀ j, k < j → j ≤ k + left → p j = true → success = true

variable {p : Nat → Bool} {k : Nat}

theorem Until.of_true {q : Nat → Prop} (here : p (k + 1) = true) (left : Nat) :
    Until p q k left := by
  intro j low _ none_
  rw [none_ (k + 1) (Nat.lt_succ_self k) low] at here
  cases here

theorem until_succ {q : Nat → Prop} {left : Nat} (here : p (k + 1) = false) :
    Until p q k (left + 1) ↔ q (k + 1) ∧ Until p q (k + 1) left := by
  constructor
  · intro all
    refine ⟨all (k + 1) (Nat.lt_succ_self k) (by omega) fun i low high => ?_, ?_⟩
    · rw [show i = k + 1 by omega]
      exact here
    · intro j low high none_
      refine all j (by omega) (by omega) fun i lowI highI => ?_
      by_cases first : i = k + 1
      · rw [first]
        exact here
      · exact none_ i (by omega) highI
  · rintro ⟨first, later⟩ j low high none_
    by_cases isFirst : j = k + 1
    · rw [isFirst]
      exact first
    · exact later j (by omega) (by omega) fun i lowI highI => none_ i (by omega) highI

theorem succeeds_succ {success : Bool} {left : Nat} (here : p (k + 1) = false) :
    Succeeds p success k (left + 1) ↔ Succeeds p success (k + 1) left := by
  constructor
  · intro all j low high found
    exact all j (by omega) (by omega) found
  · intro later j low high found
    by_cases isFirst : j = k + 1
    · rw [isFirst, here] at found
      cases found
    · exact later j (by omega) (by omega) found

theorem attempts_fresh_iff (shrinks : Shrinks eval) (bitmap : base ⊆ range crNodeCnt)
    (cpus : ∀ i ∈ base, cpuCnt i ≠ 0) (left k : Nat) {nodeMap : Finset Nat}
    (mem : nodeMap ⊆ reducedMap r base cpuCnt k)
    (failed : accepts r eval base cpuCnt k = false)
    (unchanged : (eval (reducedMap r base cpuCnt k) cpuCnt).2.2 = cpuCnt) :
    ((∀ a ∈ attemptLog r eval (List.range crNodeCnt) left (k + 1) (reducedMap r base cpuCnt k)
          (false, nodeMap, cpuCnt), a.Fresh r eval base cpuCnt) ∧
        Succeeds (accepts r eval base cpuCnt)
          (attempts r eval (List.range crNodeCnt) left (k + 1) (reducedMap r base cpuCnt k)
            (false, nodeMap, cpuCnt)).1 k left) ↔
      Until (accepts r eval base cpuCnt)
        (fun j => (eval (reducedMap r base cpuCnt j) cpuCnt).2.2 = cpuCnt) k left := by
  induction left generalizing k nodeMap with
  | zero =>
    constructor
    · intro _ j low high
      omega
    · intro _
      refine ⟨fun a impossible => absurd impossible List.not_mem_nil, fun j low high => ?_⟩
      omega
  | succ left ih =>
    have whole : nodeMap ∪ reducedMap r base cpuCnt k = reducedMap r base cpuCnt k :=
      union_eq_right.mpr mem
    have next : (reducedMap r base cpuCnt k).filter (· ∉ (List.range crNodeCnt).filter
        (leftOut r (k + 1) (reducedMap r base cpuCnt k) cpuCnt)) =
        reducedMap r base cpuCnt (k + 1) := reducedMap_succ bitmap cpus k
    rw [attemptLog, attempts]
    dsimp only
    rw [whole, next]
    by_cases none_ : (List.range crNodeCnt).filter
        (leftOut r (k + 1) (reducedMap r base cpuCnt k) cpuCnt) = []
    · have same : reducedMap r base cpuCnt (k + 1) = reducedMap r base cpuCnt k := by
        rw [← next, none_]
        exact filter_true_of_mem fun i _ => List.not_mem_nil
      have failedNext : accepts r eval base cpuCnt (k + 1) = false := by
        unfold accepts
        rw [same]
        exact failed
      have unchangedNext : (eval (reducedMap r base cpuCnt (k + 1)) cpuCnt).2.2 = cpuCnt := by
        rw [same]
        exact unchanged
      rw [if_pos none_, if_pos none_, succeeds_succ failedNext, until_succ failedNext,
        ih (k + 1) Subset.rfl failedNext unchangedNext]
      exact (and_iff_right unchangedNext).symm
    · rw [if_neg none_, if_neg none_]
      cases isResult : eval (reducedMap r base cpuCnt (k + 1)) cpuCnt with
      | mk success rest =>
        obtain ⟨nodes, counts⟩ := rest
        cases success with
        | true =>
          have found : accepts r eval base cpuCnt (k + 1) = true := by
            rw [accepts, isResult]
          refine iff_of_true ⟨?_, fun _ _ _ _ => rfl⟩ (Until.of_true found (left + 1))
          intro a isIn
          rw [List.mem_singleton.mp isIn]
          exact ⟨⟨k + 1, rfl⟩, isResult.symm, nofun⟩
        | false =>
          have failedNext : accepts r eval base cpuCnt (k + 1) = false := by
            rw [accepts, isResult]
          have shrunk : nodes ⊆ reducedMap r base cpuCnt (k + 1) := by
            have subset := shrinks (reducedMap r base cpuCnt (k + 1)) cpuCnt
            rw [isResult] at subset
            exact subset rfl
          rw [if_neg Bool.false_ne_true, if_neg Bool.false_ne_true, List.forall_mem_cons,
            succeeds_succ failedNext, until_succ failedNext, isResult]
          by_cases kept : counts = cpuCnt
          · subst kept
            have later := ih (k + 1) shrunk failedNext (by rw [isResult])
            have here : Attempt.Fresh r eval base counts
                ⟨reducedMap r base counts (k + 1), counts, (false, nodes, counts)⟩ :=
              ⟨⟨k + 1, rfl⟩, isResult.symm, fun _ => rfl⟩
            rw [and_iff_right here, later]
            exact (and_iff_right rfl).symm
          · refine iff_of_false (fun both => kept (both.1.1.noTrace rfl)) ?_
            exact fun both => kept both.1

variable {nodeMap origmap : Finset Nat}

theorem chooseLog_eq
    (cleared : clearUnusable r cpuCnt (List.range crNodeCnt) nodeMap = (true, origmap)) :
    chooseLog r eval crNodeCnt nodeMap cpuCnt = ⟨origmap, cpuCnt, eval origmap cpuCnt⟩ ::
        if (eval origmap cpuCnt).1 = true then []
        else attemptLog r eval (List.range crNodeCnt)
          (mostCpusOn (eval origmap cpuCnt).2.2 (List.range crNodeCnt) - 1) 1 origmap
          (eval origmap cpuCnt) := by
  rw [chooseLog]
  rw [cleared]

theorem chooseNodes_eq
    (cleared : clearUnusable r cpuCnt (List.range crNodeCnt) nodeMap = (true, origmap)) :
    chooseNodes r eval crNodeCnt nodeMap cpuCnt =
      if (eval origmap cpuCnt).1 = true then eval origmap cpuCnt
      else attempts r eval (List.range crNodeCnt)
        (mostCpusOn (eval origmap cpuCnt).2.2 (List.range crNodeCnt) - 1) 1 origmap
        (eval origmap cpuCnt) := by
  rw [chooseNodes]
  rw [cleared]

theorem independent_of_cleared
    (cleared : clearUnusable r cpuCnt (List.range crNodeCnt) nodeMap = (true, origmap)) :
    Independent r eval crNodeCnt nodeMap cpuCnt ↔
      (∀ a ∈ chooseLog r eval crNodeCnt nodeMap cpuCnt, a.Fresh r eval origmap cpuCnt) ∧
        ∀ k ≤ mostCpusOn cpuCnt (List.range crNodeCnt) - 1, accepts r eval origmap cpuCnt k = true →
            (chooseNodes r eval crNodeCnt nodeMap cpuCnt).1 = true := by
  constructor
  · rintro ⟨fresh, notRefused⟩
    exact ⟨fresh origmap cleared, notRefused origmap cleared⟩
  · rintro ⟨fresh, notRefused⟩
    refine ⟨fun other same => ?_, fun other same => ?_⟩
    · cases cleared.symm.trans same
      exact fresh
    · cases cleared.symm.trans same
      exact notRefused

theorem lowersNone_of_cleared
    (cleared : clearUnusable r cpuCnt (List.range crNodeCnt) nodeMap = (true, origmap)) :
    LowersNone r eval crNodeCnt nodeMap cpuCnt ↔ ∀ k ≤ mostCpusOn cpuCnt (List.range crNodeCnt) - 1,
        (∀ j ≤ k, accepts r eval origmap cpuCnt j = false) →
        (eval (reducedMap r origmap cpuCnt k) cpuCnt).2.2 = cpuCnt := by
  constructor
  · intro lowersNone
    exact lowersNone origmap cleared
  · intro lowersNone other same
    cases cleared.symm.trans same
    exact lowersNone

theorem until_zero_iff {p : Nat → Bool} {q : Nat → Prop} {most : Nat} (first : p 0 = false)
    (here : q 0) :
    (∀ k ≤ most, (∀ j ≤ k, p j = false) → q k) ↔ Until p q 0 most := by
  rw [Until, Nat.zero_add]
  constructor
  · intro all j _ high none_
    refine all j high fun i highI => ?_
    rcases Nat.eq_zero_or_pos i with rfl | positive
    · exact first
    · exact none_ i positive highI
  · intro all k high none_
    rcases Nat.eq_zero_or_pos k with rfl | positive
    · exact here
    · exact all k positive high fun i _ highI => none_ i highI

theorem succeeds_zero_iff {p : Nat → Bool} {success : Bool} {most : Nat} (first : p 0 = false) :
    (∀ k ≤ most, p k = true → success = true) ↔ Succeeds p success 0 most := by
  rw [Succeeds, Nat.zero_add]
  constructor
  · intro all j _ high found
    exact all j high found
  · intro all k high found
    rcases Nat.eq_zero_or_pos k with rfl | positive
    · rw [first] at found
      cases found
    · exact all k positive high found

/-- All attempts are as good as fresh calls exactly if none that fails lowers an entry. -/
theorem independent_iff (shrinks : Shrinks eval) (bitmap : nodeMap ⊆ range crNodeCnt)
    (cpuCnt : Nat → UInt16) :
    Independent r eval crNodeCnt nodeMap cpuCnt ↔ LowersNone r eval crNodeCnt nodeMap cpuCnt := by
  cases cleared : clearUnusable r cpuCnt (List.range crNodeCnt) nodeMap with
  | mk usable origmap =>
    cases usable with
    | false =>
      refine iff_of_true ⟨fun other same => ?_, fun other same => ?_⟩ fun other same => ?_
      · cases cleared.symm.trans same
      · cases cleared.symm.trans same
      · cases cleared.symm.trans same
    | true =>
      obtain ⟨subset, cpusIn⟩ := clearUnusable_spec cleared
      have inRange : origmap ⊆ range crNodeCnt := subset.trans bitmap
      have cpus : ∀ i ∈ origmap, cpuCnt i ≠ 0 := fun i member =>
        cpusIn i (List.mem_range.mpr (mem_range.mp (inRange member))) member
      have start : reducedMap r origmap cpuCnt 0 = origmap := reducedMap_zero cpus
      have shrunk := shrinks origmap cpuCnt
      rw [independent_of_cleared cleared, lowersNone_of_cleared cleared,
        chooseLog_eq cleared, chooseNodes_eq cleared, List.forall_mem_cons]
      cases isResult : eval origmap cpuCnt with
      | mk success rest =>
        obtain ⟨nodes, counts⟩ := rest
        rw [isResult] at shrunk
        have first : accepts r eval origmap cpuCnt 0 = success := by
          rw [accepts, start, isResult]
        cases success with
        | true =>
          refine iff_of_true ⟨⟨⟨⟨0, start.symm⟩, isResult.symm, nofun⟩, ?_⟩, fun _ _ _ => rfl⟩ ?_
          · exact fun a impossible => absurd impossible List.not_mem_nil
          · intro k _ none_
            rw [none_ 0 (Nat.zero_le k)] at first
            cases first
        | false =>
          by_cases kept : counts = cpuCnt
          · subst kept
            have unchanged : (eval (reducedMap r origmap counts 0) counts).2.2 = counts := by
              rw [start, isResult]
            have mem : nodes ⊆ reducedMap r origmap counts 0 := by
              rw [start]
              exact shrunk rfl
            have here : Attempt.Fresh r eval origmap counts
                ⟨origmap, counts, (false, nodes, counts)⟩ :=
              ⟨⟨0, start.symm⟩, isResult.symm, fun _ => rfl⟩
            have later := attempts_fresh_iff shrinks inRange cpus
              (mostCpusOn counts (List.range crNodeCnt) - 1) 0 mem first unchanged
            rw [start] at later
            rw [and_iff_right here, succeeds_zero_iff first, until_zero_iff first unchanged]
            exact later
          · refine iff_of_false (fun both => kept (both.1.1.noTrace rfl)) fun none_ => ?_
            have unchanged := none_ 0 (Nat.zero_le _) fun j low => by
              rw [Nat.le_zero.mp low]
              exact first
            rw [start, isResult] at unchanged
            exact kept unchanged

end Loop

/-! ## Results within the candidates -/

section Inside

variable {r : EvalRequest} {nodeMap : Finset Nat} {s : Selection}

theorem takeNode_subset (i : Nat) (avail : Int32) :
    (takeNode r i avail s).nodeMap ⊆ insert i s.nodeMap := by
  unfold takeNode
  dsimp only
  split_ifs
  · exact subset_insert i s.nodeMap
  · exact Subset.rfl

theorem pickNodes_subset {avail : Nat → Selection → Int32} {sized : Bool} {nodes : List Nat}
    (candidates : ∀ i ∈ nodes, i ∈ nodeMap) (mem : s.nodeMap ⊆ nodeMap) :
    (pickNodes r avail sized nodes s).nodeMap ⊆ nodeMap := by
  induction nodes generalizing s with
  | nil => exact mem
  | cons i rest ih =>
    obtain ⟨here, later⟩ := List.forall_mem_cons.mp candidates
    rw [pickNodes]
    split_ifs
    · exact mem
    · exact ih later mem
    · exact ih later mem
    · exact ih later mem
    · exact ih later ((takeNode_subset i _).trans (insert_subset here mem))

theorem pickFrom_subset {c : Consec} (run : c.Run nodeMap) (mem : s.nodeMap ⊆ nodeMap) :
    (pickFrom r c s).nodeMap ⊆ nodeMap := by
  unfold pickFrom
  cases reqEq : c.req with
  | some req =>
    obtain ⟨bound, fromReq⟩ := run.fromReq req reqEq
    refine pickNodes_subset (fun i member => ?_) (pickNodes_subset (fun i member => ?_) mem)
    · obtain ⟨low, high⟩ := List.mem_range'_1.mp (List.mem_reverse.mp member)
      exact run.nodes i low (by omega)
    · obtain ⟨low, high⟩ := List.mem_range'_1.mp member
      exact fromReq i low (by omega)
  | none =>
    refine pickNodes_subset (fun i member => ?_) mem
    obtain ⟨low, high⟩ := List.mem_range'_1.mp member
    exact run.nodes i low (by omega)

theorem evalLoop_subset (minNodes reqNodes : UInt32) (turns : Nat) (table : List Consec)
    (mem : s.nodeMap ⊆ nodeMap) (runs : ∀ c ∈ table, c.Run nodeMap)
    (enough : table.countP (fun c => c.nodes ≠ 0) < turns) :
    ∃ success last, evalLoop r minNodes reqNodes turns table s = some (success, last) ∧
      last.nodeMap ⊆ nodeMap := by
  induction turns generalizing table s with
  | zero => exact absurd enough (Nat.not_lt_zero _)
  | succ turns ih =>
    rw [evalLoop]
    dsimp only
    split_ifs with tooMany none_ hole done
    · exact ⟨false, s, rfl, mem⟩
    · exact ⟨false, s, rfl, mem⟩
    · exact ⟨false, s, rfl, mem⟩
    · obtain ⟨c, here, -⟩ := scanFit_index none_
      rw [List.getD_eq_getElem?_getD, here, Option.getD_some]
      exact ⟨true, _, rfl, pickFrom_subset (runs c (List.mem_of_getElem? here)) mem⟩
    · obtain ⟨c, here, some_⟩ := scanFit_index none_
      rw [List.getD_eq_getElem?_getD, here, Option.getD_some]
      have run := runs c (List.mem_of_getElem? here)
      obtain ⟨below, isC⟩ := List.getElem?_eq_some_iff.mp here
      refine ih _ (pickFrom_subset run mem) ?_ ?_
      · intro other member
        rcases List.mem_or_eq_of_mem_set member with old | rfl
        · exact runs other old
        · exact ⟨run.nodes, run.fromReq⟩
      · have pos : 0 < table.countP (fun c => c.nodes ≠ 0) :=
          List.countP_pos_iff.mpr ⟨c, List.mem_of_getElem? here, by simpa using some_⟩
        rw [List.countP_set below, isC, if_pos (by simpa using some_),
          if_neg (by simp [Consec.used])]
        omega

/-- The loop over all nodes only clears nodes, and those from the next one on are as they
were. -/
structure Clears (nodeMap : Finset Nat) (i : Nat) (s : Selection) : Prop where
  inside : s.nodeMap ⊆ nodeMap
  later : ∀ j, i ≤ j → (j ∈ s.nodeMap ↔ j ∈ nodeMap)

theorem Clears.next {i : Nat} (clears : Clears nodeMap i s) :
    Clears nodeMap (i + 1) (keepRequired r i s) := by
  unfold keepRequired
  split_ifs
  · exact ⟨clears.inside, fun j low => clears.later j (by omega)⟩
  · refine ⟨(erase_subset i s.nodeMap).trans clears.inside, fun j low => ?_⟩
    rw [mem_erase, clears.later j (by omega)]
    exact and_iff_right (by omega)
  · exact ⟨clears.inside, fun j low => clears.later j (by omega)⟩

theorem buildTable_clears (k : Nat) {i : Nat} {closed : List Consec} {c : Consec}
    (clears : Clears nodeMap i s) (blocks : Blocks nodeMap i closed c) :
    ∃ last closed' c', buildTable r (List.range' i k) (s, closed, c) = (last, closed', c') ∧
      last.nodeMap ⊆ nodeMap ∧ Blocks nodeMap (i + k) closed' c' := by
  induction k generalizing i s closed c with
  | zero => exact ⟨s, closed, c, rfl, clears.inside, blocks⟩
  | succ k ih =>
    obtain ⟨last, closed', c', built, inside, blocksLast⟩ :=
      ih clears.next (blocks.next (clears.later i (Nat.le_refl i)))
    rw [show i + 1 + k = i + (k + 1) by omega] at blocksLast
    exact ⟨last, closed', c', built, inside, blocksLast⟩

/-- `_eval_nodes` ends with some of the candidates. -/
theorem evalNodes_subset (r : EvalRequest) (crNodeCnt : Nat) (nodeMap : Finset Nat)
    (cpuCnt : Nat → UInt16) (minNodes maxNodes reqNodes : UInt32) :
    ∃ success nodes counts, evalNodes r crNodeCnt nodeMap cpuCnt minNodes maxNodes reqNodes =
      some (success, nodes, counts) ∧ nodes ⊆ nodeMap := by
  unfold evalNodes
  by_cases tooFew : UInt32.ofNat nodeMap.card < minNodes
  · rw [if_pos tooFew]
    exact ⟨false, nodeMap, cpuCnt, rfl, Subset.rfl⟩
  rw [if_neg tooFew]
  by_cases missing : ¬r.required ⊆ nodeMap
  · rw [if_pos missing]
    exact ⟨false, nodeMap, cpuCnt, rfl, Subset.rfl⟩
  rw [if_neg missing]
  have clears : Clears nodeMap 0 (startSelection r nodeMap cpuCnt minNodes maxNodes reqNodes) :=
    ⟨Subset.rfl, fun _ _ => Iff.rfl⟩
  have blocks : Blocks nodeMap 0 [] .blank := by
    refine ⟨fun c impossible => absurd impossible List.not_mem_nil, fun some_ => absurd rfl some_,
      fun some_ => absurd rfl some_, fun q impossible => nomatch impossible⟩
  obtain ⟨s, closed, last, built, mem, blocksLast⟩ :=
    buildTable_clears (r := r) crNodeCnt clears blocks
  rw [Nat.zero_add] at blocksLast
  rw [List.range_eq_range', built]
  have runs : ∀ c ∈ closeTable crNodeCnt closed last, c.Run nodeMap := by
    intro c member
    unfold closeTable at member
    split_ifs at member with empty
    · exact blocksLast.closed c member
    · exact blocksLast.close empty c member
  dsimp only
  unfold evalSets
  split_ifs with tooMany
  · exact ⟨false, s.nodeMap, s.cpuCnt, rfl, mem⟩
  · obtain ⟨success, s', loop, insideLast⟩ := evalLoop_subset (r := r) minNodes reqNodes
      ((closeTable crNodeCnt closed last).length + 1) _ mem runs
      (Nat.lt_succ_of_le List.countP_le_length)
    rw [loop]
    exact ⟨_, s'.nodeMap, s'.cpuCnt, rfl, insideLast⟩

theorem passRequired_subset (withCpus : Bool) (nodes : List Nat) (s : Selection) :
    (passRequired r withCpus nodes s).nodeMap ⊆ s.nodeMap := by
  induction nodes generalizing s with
  | nil => exact Subset.rfl
  | cons i rest ih =>
    rw [passRequired]
    split_ifs
    · exact ih _
    · exact (ih _).trans (erase_subset i s.nodeMap)
    · exact ih s
    · exact (ih _).trans (erase_subset i s.nodeMap)

theorem keepRequiredNodes_subset (withCpus : Bool) (nodes : List Nat) (s : Selection) :
    (keepRequiredNodes r withCpus nodes s).nodeMap ⊆ s.nodeMap := by
  unfold keepRequiredNodes
  split_ifs
  · exact passRequired_subset withCpus nodes s
  · exact empty_subset _

/-! ## Jobs with whole nodes -/

end Inside

/-! ## Independence -/

section Evaluate

variable (r : EvalRequest) (path : Option Variant) (idleNodeBitmap : Finset Nat) (crNodeCnt : Nat)
  (minNodes maxNodes reqNodes : UInt32)

/-- `_eval_nodes` on its default path or as one of its variations, which do not write to
`cpu_cnt`. -/
def evaluate : Evaluation := fun nodeMap cpuCnt =>
  match path with
  | none =>
    (evalNodes r crNodeCnt nodeMap cpuCnt minNodes maxNodes reqNodes).getD
      (false, nodeMap, cpuCnt)
  | some v =>
    if UInt32.ofNat nodeMap.card < minNodes ∨ ¬r.required ⊆ nodeMap then
      (false, nodeMap, cpuCnt)
    else
      let (success, nodes) :=
        evalVariant r v idleNodeBitmap crNodeCnt nodeMap cpuCnt minNodes maxNodes reqNodes
      (success, nodes, cpuCnt)

theorem evaluate_shrinks :
    Shrinks (evaluate r path idleNodeBitmap crNodeCnt minNodes maxNodes reqNodes) := by
  intro nodeMap cpuCnt failed
  cases path with
  | none =>
    obtain ⟨success, nodes, counts, result, mem⟩ :=
      evalNodes_subset r crNodeCnt nodeMap cpuCnt minNodes maxNodes reqNodes
    simp only [evaluate, result, Option.getD_some]
    exact mem
  | some v =>
    simp only [evaluate] at failed ⊢
    split_ifs at failed ⊢ with refused
    · exact Subset.rfl
    · unfold evalVariant at failed ⊢
      dsimp only at failed ⊢
      split_ifs at failed ⊢
      · exact keepRequiredNodes_subset _ _ _
      · exact empty_subset _

end Evaluate

/-- A job with exactly six CPUs and at least two on each node. -/
def sixCpus : EvalRequest where
  details := ⟨0xfffe, 1, 6, 1, none, 0, 6, false, 2, none, 0, 0, 0⟩
  contiguous := false
  maxCpus := 6
  record := fun _ => ⟨1, 1, 8, 8, 1, 1, none⟩
  crSocket := false

end SlurmSim.Select.EvalNodes
