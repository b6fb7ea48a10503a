import Mathlib.Data.Finset.Powerset
import SlurmSim.Select.CoreRuns
import SlurmSim.Select.DistCharge
import SlurmSim.Select.EvalSound
import SlurmSim.Select.MemoryTest

/-!
# Memory that is charged

The memory of a node is tested against the CPUs that are found for a job, and
charged for the CPUs that the distribution of the tasks counts.  When the memory
is given for each CPU, the two agree only as far as the distribution does not
count more.
-/

namespace SlurmSim.Select.Memory

open SlurmSim.Common List

namespace MemorySystem

variable {sys : MemorySystem} {s : SelectState} {req : MemoryRequest}

/-! ## The CPUs that are found -/

theorem toNat_stored {a : Int32} (low : 0 ≤ a.toInt) (high : a.toInt < 2 ^ 16) :
    (a.toUInt32.toUInt16.toNat : Int) = a.toInt := by
  have small := a.toUInt32.toUInt16.toNat_lt
  rw [← Int32.toInt_ofNat_of_lt (n := a.toUInt32.toUInt16.toNat) (by omega),
    Lib.CInt.ofNat_toUInt16 low high]

/-- The most CPUs that a choice of nodes leaves of those found on a node. -/
def foundCpus (d : JobDetails) (cpus : Nat) : Nat :=
  if d.wholeNode = 1 then cpus else max cpus d.pnMinCpus

theorem cpusToUse_le {r : EvalNodes.EvalRequest} (narrow : r.details.pnMinCpus < 2 ^ 16)
    (cpuCnt : UInt16) (remCpus remNodes : Int32) (node : Nat) :
    (EvalNodes.cpusToUse r (Int32.ofNat cpuCnt.toNat) remCpus remNodes cpuCnt node).2.toNat ≤
      foundCpus r.details cpuCnt.toNat := by
  have countLt := cpuCnt.toNat_lt
  have availEq : (Int32.ofNat cpuCnt.toNat).toInt = cpuCnt.toNat :=
    Int32.toInt_ofNat_of_lt (by omega)
  have pnMinEq : (Int32.ofNat r.details.pnMinCpus).toInt = r.details.pnMinCpus :=
    Int32.toInt_ofNat_of_lt (by omega)
  unfold EvalNodes.cpusToUse foundCpus
  generalize remCpus - EvalNodes.resvCpus r remNodes node = rem
  split_ifs with whole
  · exact le_rfl
  by_cases less : rem < Int32.ofNat cpuCnt.toNat
  · simp only [if_pos less]
    rw [Int32.lt_iff_toInt_lt] at less
    split_ifs with least
    · have stored := toNat_stored (a := Int32.ofNat r.details.pnMinCpus) (by omega) (by omega)
      exact le_max_of_le_right (by omega)
    · rw [Int32.lt_iff_toInt_lt] at least
      have stored := toNat_stored (a := rem) (by omega) (by omega)
      exact le_max_of_le_left (by omega)
  · simp only [if_neg less]
    exact le_max_left _ _

theorem foundCpus_mono (d : JobDetails) {a b : Nat} (le : a ≤ b) :
    foundCpus d a ≤ foundCpus d b := by
  unfold foundCpus
  split_ifs with whole
  · exact le
  · exact max_le_max_right _ le

theorem le_foundCpus (d : JobDetails) (cpus : Nat) : cpus ≤ foundCpus d cpus := by
  unfold foundCpus
  split_ifs with whole
  · exact le_rfl
  · exact le_max_left _ _

theorem foundCpus_found (d : JobDetails) (cpus : Nat) :
    foundCpus d (foundCpus d cpus) = foundCpus d cpus := by
  unfold foundCpus
  split_ifs with whole
  · rfl
  · rw [max_assoc, max_self]

theorem usedCpus_le (sys : MemorySystem) (req : MemoryRequest) (node cpus : Nat)
    (uses : List (Int32 × Int32)) :
    sys.usedCpus req node cpus uses ≤ foundCpus req.details cpus := by
  unfold usedCpus
  have cut : (UInt16.ofNat cpus).toNat ≤ cpus := by
    exact Nat.mod_le _ _
  refine le_trans ?_ (foundCpus_mono req.details cut)
  generalize UInt16.ofNat cpus = cpuCnt
  induction uses generalizing cpuCnt with
  | nil => exact le_foundCpus req.details cpuCnt.toNat
  | cons use rest ih =>
    refine (ih _).trans ?_
    refine (foundCpus_mono req.details (cpusToUse_le req.narrow cpuCnt use.1 use.2 node)).trans ?_
    exact (foundCpus_found req.details cpuCnt.toNat).le

/-! ## The search -/

/-- A selection that comes from the nodes and cores that are open. -/
def Selected (sys : MemorySystem) (s : SelectState) (req : MemoryRequest) (orig : Finset Nat)
    (avail : CoreMap) (sel : System.Selection) : Prop :=
  ∀ node ∈ sel.nodes, node ∈ orig ∧ ∃ coreMap ⊆ avail node, ∃ own,
    (own = none ∨ own = (sys.partCoreMap s req).map (· node)) ∧
      (sys.canJobRunOnNode s req node coreMap own).1 ≠ 0 ∧
      sel.cores node = (sys.canJobRunOnNode s req node coreMap own).2 ∧
      sel.cpuCnt node ≤ foundCpus req.details (sys.canJobRunOnNode s req node coreMap own).1

variable {orig nodes : Finset Nat} {avail cores : CoreMap} {sel : System.Selection}
  {bestSwitch : Bool}

theorem selectNodes_selected {own : Option CoreMap}
    (isOwn : own = none ∨ own = sys.partCoreMap s req) (within : nodes ⊆ orig)
    (fewer : ∀ node, cores node ⊆ avail node)
    (selected : (sys.selectNodes s req nodes cores own bestSwitch).1 = some sel) :
    sys.Selected s req orig avail sel := by
  unfold selectNodes at selected
  dsimp only at selected
  split_ifs at selected with few chosen
  obtain rfl := Option.some.inj selected
  intro node mem
  obtain ⟨usable, _⟩ := Finset.mem_filter.mp mem
  obtain ⟨offered, some_⟩ := Finset.mem_filter.mp usable
  have isMap : own.map (· node) = none ∨
      own.map (· node) = (sys.partCoreMap s req).map (· node) := by
    rcases isOwn with rfl | rfl
    · exact Or.inl rfl
    · exact Or.inr rfl
  refine ⟨within offered, cores node, fewer node, own.map (· node), isMap, ?_, ?_, ?_⟩
  · exact some_
  · rfl
  · exact usedCpus_le sys req node _ _

theorem blockWholeNodes_subset (req : MemoryRequest) (nodes : Finset Nat) (orig new : CoreMap) :
    blockWholeNodes req nodes orig new ⊆ nodes := by
  unfold blockWholeNodes
  split_ifs with whole
  · exact Finset.filter_subset _ _
  · exact Finset.Subset.refl _

theorem testCores_selected (fewer : ∀ node, cores node ⊆ avail node)
    (selected : (sys.testCores s req orig avail cores bestSwitch).1 = some sel) :
    sys.Selected s req orig avail sel :=
  selectNodes_selected (Or.inr rfl) (blockWholeNodes_subset req orig avail cores) fewer selected

theorem without_subset (parts : List Nat) (cores : CoreMap) (node : Nat) :
    sys.without s parts cores node ⊆ cores node :=
  Finset.filter_subset _ _

theorem withoutExcluded_subset (cores : CoreMap) (node : Nat) :
    sys.withoutExcluded req cores node ⊆ cores node := by
  unfold withoutExcluded
  cases req.excCoreBitmap with
  | none => exact Finset.Subset.refl _
  | some exc =>
    dsimp only
    split_ifs with size
    · exact Finset.sdiff_subset
    · exact Finset.Subset.refl _

theorem Selected.mono {free : CoreMap} (selected : sys.Selected s req orig free sel)
    (fewer : ∀ node, free node ⊆ avail node) : sys.Selected s req orig avail sel := by
  intro node mem
  obtain ⟨offered, coreMap, within, rest⟩ := selected node mem
  exact ⟨offered, coreMap, within.trans (fewer node), rest⟩

theorem avoidLower_selected {list : List Nat} {sel' : System.Selection} (within : nodes ⊆ orig)
    (fewer : ∀ node, cores node ⊆ avail node) (before : sys.Selected s req orig avail sel)
    (found : (sys.avoidLower s req avail list nodes cores sel bestSwitch).1 = some sel') :
    sys.Selected s req orig avail sel' := by
  induction list generalizing nodes cores sel bestSwitch with
  | nil =>
    cases found
    exact before
  | cons p rest ih =>
    rw [avoidLower] at found
    split_ifs at found with skipped
    · exact ih within fewer before found
    · dsimp only at found
      have within' := (blockWholeNodes_subset req nodes avail
        (sys.without s [p] cores)).trans within
      have fewer' : ∀ node, sys.without s [p] cores node ⊆ avail node := fun node =>
        (without_subset [p] cores node).trans (fewer node)
      cases selected : sys.selectNodes s req (blockWholeNodes req nodes avail
          (sys.without s [p] cores)) (sys.without s [p] cores) (sys.partCoreMap s req)
          bestSwitch with
      | mk result after =>
        rw [selected] at found
        cases result with
        | none =>
          cases found
          exact before
        | some next =>
          exact ih within' fewer' (selectNodes_selected (Or.inr rfl) within' fewer'
            (congrArg Prod.fst selected)) found

theorem step3_selected (found : (sys.step3 s req orig avail bestSwitch).1 = some sel) :
    sys.Selected s req orig avail sel := by
  unfold step3 at found
  dsimp only at found
  have fewer : ∀ node, sys.without s (sys.partList.filter fun p =>
      sys.priorityTier p = sys.priorityTier req.part) avail node ⊆ avail node :=
    without_subset _ avail
  generalize sys.without s _ avail = cores at found fewer
  cases selected : sys.testCores s req orig avail cores bestSwitch with
  | mk result after =>
    rw [selected] at found
    cases result with
    | none => cases found
    | some first =>
      exact avoidLower_selected (blockWholeNodes_subset req orig avail cores) fewer
        (testCores_selected fewer (congrArg Prod.fst selected)) found

theorem tryRows_selected {rows : List PartRow}
    (found : (sys.tryRows s req orig avail rows bestSwitch).1 = some sel) :
    sys.Selected s req orig avail sel := by
  induction rows generalizing bestSwitch with
  | nil => cases found
  | cons row rest ih =>
    rw [tryRows] at found
    cases bitmapEq : row.rowBitmap with
    | none =>
      rw [bitmapEq] at found
      exact selectNodes_selected (Or.inr rfl) (Finset.Subset.refl _)
        (fun _ => Finset.Subset.refl _) found
    | some bitmap =>
      rw [bitmapEq] at found
      dsimp only at found
      cases selected : sys.testCores s req orig avail
          (fun node => avail node \ sys.coresOn node (· ∈ bitmap)) bestSwitch with
      | mk result after =>
        rw [selected] at found
        cases result with
        | none => exact ih found
        | some chosen =>
          cases found
          exact testCores_selected (fun _ => Finset.sdiff_subset) (congrArg Prod.fst selected)

theorem step4_selected (found : (sys.step4 s req orig avail bestSwitch).1 = some sel) :
    sys.Selected s req orig avail sel := by
  unfold step4 at found
  cases rowEq : (s.parts req.part).bind PartRes.row with
  | none =>
    rw [rowEq] at found
    exact selectNodes_selected (Or.inr rfl) (Finset.Subset.refl _)
      (fun _ => Finset.Subset.refl _) found
  | some rows =>
    rw [rowEq] at found
    exact tryRows_selected found

variable {avail' : CoreMap}

theorem laterSteps_selected
    (found : sys.laterSteps s req orig avail bestSwitch = some (sel, avail')) :
    sys.Selected s req orig avail sel ∧ ∀ node, avail' node ⊆ avail node := by
  unfold laterSteps at found
  split_ifs at found with unlisted
  dsimp only at found
  have fewer : ∀ node, sys.without s (sys.protectedParts req)
      (sys.withoutExcluded req avail) node ⊆ avail node := fun node =>
    (without_subset _ _ node).trans (withoutExcluded_subset avail node)
  generalize sys.without s (sys.protectedParts req) (sys.withoutExcluded req avail) = free
    at found fewer
  cases second : sys.testCores s req orig avail free bestSwitch with
  | mk result after =>
    rw [second] at found
    cases result with
    | none => cases found
    | some first =>
      dsimp only at found
      cases third : sys.step3 s req orig free after with
      | mk result after' =>
        rw [third] at found
        cases result with
        | none =>
          split_ifs at found with best
          obtain ⟨other, fourth, same⟩ := Option.map_eq_some_iff.mp found
          cases same
          exact ⟨(step4_selected fourth).mono fewer, fewer⟩
        | some other =>
          split_ifs at found with best
          cases found
          exact ⟨(step3_selected (congrArg Prod.fst third)).mono fewer, fewer⟩

theorem findCores_selected (found : sys.findCores s req orig avail = some (sel, avail')) :
    sys.Selected s req orig avail sel ∧ ∀ node, avail' node ⊆ avail node := by
  unfold findCores at found
  dsimp only at found
  split at found
  · rename_i first tested
    by_cases alone : req.crMemory = .alone
    · rw [if_pos alone] at found
      cases found
      refine ⟨?_, fun _ => Finset.Subset.refl _⟩
      exact selectNodes_selected (Or.inl rfl) (Finset.filter_subset _ _)
        (fun _ => Finset.Subset.refl _) (congrArg Prod.fst tested)
    · rw [if_neg alone] at found
      split at found
      · rename_i chosen step
        cases found
        refine ⟨?_, fun _ => Finset.Subset.refl _⟩
        refine testCores_selected ?_ (congrArg Prod.fst step)
        exact fun node => (without_subset _ _ node).trans (withoutExcluded_subset avail node)
      · by_cases stops : sys.gangMode = false ∧ req.nodeReq = .oneRow
        · rw [if_pos stops] at found
          cases found
        · rw [if_neg stops] at found
          exact laterSteps_selected found
  · cases found

/-! ## Available cores -/

theorem dropSpecialized_subset (sys : System) (kept : Finset Nat) (list : List Nat)
    (cores : Finset Nat) (specCores : Nat) :
    (sys.dropSpecialized kept list cores specCores).1 ⊆ cores := by
  induction list generalizing cores specCores with
  | nil => exact Finset.Subset.refl _
  | cons i rest ih =>
    rw [System.dropSpecialized]
    split_ifs with keeps all last
    · exact ih _ _
    · exact (ih _ _).trans (Finset.erase_subset _ _)
    · exact Finset.erase_subset _ _
    · exact (ih _ _).trans (Finset.erase_subset _ _)

theorem specialize_subset (list : List Nat) (cores : Finset Nat) (specCores : Nat) :
    System.specialize list cores specCores ⊆ cores := by
  induction list generalizing cores specCores with
  | nil => exact Finset.Subset.refl _
  | cons core rest ih =>
    rw [System.specialize]
    split_ifs with none_ found
    · exact Finset.Subset.refl _
    · exact (ih _ _).trans (Finset.erase_subset _ _)
    · exact ih _ _

theorem makeCoreBitmap_subset (sys : System) (coreSpec node : Nat) :
    sys.makeCoreBitmap coreSpec node ⊆ Finset.range (sys.record node).coreCnt := by
  unfold System.makeCoreBitmap
  dsimp only
  cases (sys.record node).nodeSpecBitmap with
  | none =>
    split_ifs with small all enough
    · exact Finset.empty_subset _
    · exact Finset.Subset.refl _
    · exact Finset.Subset.refl _
    · exact specialize_subset _ _ _
  | some kept =>
    have dropped := dropSpecialized_subset sys kept (List.range (sys.record node).coreCnt)
      (Finset.range (sys.record node).coreCnt) (System.specCount coreSpec)
    split_ifs with small all enough
    · exact Finset.empty_subset _
    · exact Finset.Subset.refl _
    · exact dropped
    · exact (specialize_subset _ _ _).trans dropped

theorem canJobRunOnNode_subset (sys : MemorySystem) (s : SelectState) (req : MemoryRequest)
    (node : Nat) (coreMap : Finset Nat) (own : Option (Finset Nat)) :
    (sys.canJobRunOnNode s req node coreMap own).2 ⊆ coreMap := by
  unfold canJobRunOnNode
  split_ifs with completing
  · exact Finset.Subset.refl _
  · dsimp only
    split_ifs with lacking none_
    · exact Finset.inter_subset_left
    · exact Finset.empty_subset _
    · exact allocateSc_subset.trans Finset.inter_subset_left

/-! ## The memory of a node -/

/-- The nodes have room for what is allocated, besides what is left to the system. -/
def WithinMemory (sys : MemorySystem) (s : SelectState) : Prop :=
  ∀ node, (sys.memSpecLimit node).toNat + (s.usage node).allocMemory.toNat ≤
    (sys.realMemory node).toNat

theorem WithinMemory.toNat_availMem (within : sys.WithinMemory s) (node : Nat) :
    (sys.availMem s node).toNat = (sys.realMemory node).toNat - (sys.memSpecLimit node).toNat -
      (s.usage node).allocMemory.toNat := by
  have room := within node
  have spec : (sys.realMemory node - sys.memSpecLimit node).toNat =
      (sys.realMemory node).toNat - (sys.memSpecLimit node).toNat :=
    UInt64.toNat_sub_of_le _ _ (UInt64.le_iff_toNat_le.mpr (by omega))
  unfold availMem
  rw [UInt64.toNat_sub_of_le _ _ (UInt64.le_iff_toNat_le.mpr (by omega)), spec]

theorem reqMem_of_perNode (perNode : req.perCpu = false) : req.reqMem = req.pnMinMemory := by
  have clear : req.pnMinMemory &&& memPerCpu = 0 := by
    simpa [MemoryRequest.perCpu] using perNode
  have clearBits := congrArg UInt64.toBitVec clear
  unfold MemoryRequest.reqMem
  refine UInt64.eq_of_toBitVec_eq (BitVec.eq_of_getLsbD_eq ?_)
  intro i below
  have bit := congrArg (BitVec.getLsbD · i) clearBits
  simp only [UInt64.toBitVec_and, UInt64.toBitVec_not, BitVec.getLsbD_and, BitVec.getLsbD_not,
    UInt64.toBitVec_ofNat, BitVec.getLsbD_zero] at bit ⊢
  cases flag : memPerCpu.toBitVec.getLsbD i with
  | false => simp [below]
  | true =>
    rw [flag, Bool.and_true] at bit
    rw [bit, Bool.false_and]

theorem gresCpus_zero (req : MemoryRequest) (node : Nat) (gresCores : Option Nat) :
    sys.gresCpus req node gresCores 0 = 0 := by
  unfold gresCpus
  cases gresCores with
  | none => rfl
  | some cores =>
    dsimp only
    split_ifs <;> rfl

theorem reqMem_le_of_perNode {node : Nat} {coreMap : Finset Nat} {own : Option (Finset Nat)}
    (perNode : req.perCpu = false)
    (some_ : (sys.canJobRunOnNode s req node coreMap own).1 ≠ 0) :
    req.reqMem ≤ sys.availMem s node := by
  by_contra less
  refine some_ ?_
  unfold canJobRunOnNode
  split_ifs with completing
  · rfl
  · dsimp only
    split_ifs with lacking none_
    · rfl
    · rfl
    · unfold memoryCpus
      rw [perNode]
      simp only [Bool.false_eq_true, if_false, if_pos (UInt64.not_le.mp less), gresCpus_zero]

theorem allocMemory_eq_zero {node : Nat} (all : req.pnMinMemory = 0)
    (usable : sys.nodeUsable s req node = true) : (s.usage node).allocMemory = 0 := by
  by_contra used
  have lacks : sys.lacksMemory s req node = true := by
    unfold lacksMemory
    simp [all, used]
  simp [nodeUsable, lacks] at usable

/-! ## The memory of a job -/

/-- On every node that is left and for every set of cores of it that may be free,
the memory holds all CPUs that the job may be charged for. -/
def ChargesFit (sys : MemorySystem) (s : SelectState) (req : MemoryRequest) : Prop :=
  ∀ node ∈ (sys.verifyNodeState s req).getD ∅,
    ∀ coreMap ∈ (sys.makeCoreBitmap req.details.coreSpec node).powerset,
      ∀ own ∈ [none, (sys.partCoreMap s req).map (· node)],
        (sys.canJobRunOnNode s req node coreMap own).1 ≠ 0 →
          req.reqMem.toNat * mostCpus req.details req.crMemory.crType
              (decide (req.nodeReq = .reserved)) (sys.record node)
              (sys.makeCoreBitmap req.details.coreSpec node)
              (foundCpus req.details (sys.canJobRunOnNode s req node coreMap own).1) ≤
            (sys.availMem s node).toNat

/-- The memory of the job is given for each node, it is all memory, or the charges
fit. -/
def MemoryCovered (sys : MemorySystem) (s : SelectState) (req : MemoryRequest) : Prop :=
  req.perCpu = true → sys.ChargesFit s req

instance (sys : MemorySystem) (s : SelectState) (req : MemoryRequest) :
    Decidable (sys.MemoryCovered s req) := by
  unfold MemoryCovered ChargesFit
  infer_instance

theorem mostCpus_mono (d : JobDetails) (crType : CrType) (exclusive : Bool) (r : NodeRes)
    {avail avail' : Finset Nat} {cpus cpus' : Nat} (fewer : avail ⊆ avail') (le : cpus ≤ cpus') :
    mostCpus d crType exclusive r avail cpus ≤ mostCpus d crType exclusive r avail' cpus' := by
  unfold mostCpus
  split_ifs with special whole plane
  · exact le
  · refine Nat.mul_le_mul_right _ (Finset.card_le_card ?_)
    intro i mem
    obtain ⟨below, open_⟩ := Finset.mem_filter.mp mem
    exact Finset.mem_filter.mpr ⟨below, fewer open_⟩
  · exact charged_mono d crType r le
  · exact charged_mono d.someCpusPerTask crType r le

theorem chargedFor_nodes {most : NodeShare → Nat} {shares shares' : List NodeShare}
    (charges : List.Forall₂ (ChargedFor most) shares shares') :
    shares'.map NodeShare.node = shares.map NodeShare.node := by
  induction charges with
  | nil => rfl
  | cons here _ ih => rw [map_cons, map_cons, ih, here.1]

/-- What is known of a share of the job. -/
structure Fits (sys : MemorySystem) (s : SelectState) (req : MemoryRequest) (nodes : Finset Nat)
    (share : NodeShare) : Prop where
  offered : share.node ∈ nodes
  memory : req.perCpu = false → req.reqMem ≤ sys.availMem s share.node
  charge : req.perCpu = true →
    req.reqMem.toNat * share.cpus ≤ (sys.availMem s share.node).toNat

theorem allocJob_fits {res : JobResources} (verified : sys.verifyNodeState s req = some nodes)
    (covered : sys.MemoryCovered s req)
    (selected : sys.Selected s req nodes (sys.makeCoreBitmap req.details.coreSpec) sel)
    (fewer : ∀ node, avail' node ⊆ sys.makeCoreBitmap req.details.coreSpec node)
    (allocated : sys.allocJob req sel avail' = some res) :
    ∃ shares : List NodeShare, (∀ share ∈ shares, sys.Fits s req nodes share) ∧
      res.nodes sys.cluster = shares.map NodeShare.node ∧
      res.memoryAllocated = shares.map (sys.memoryAllocated req) := by
  obtain ⟨shares, distributed, rfl⟩ := Option.map_eq_some_iff.mp allocated
  have mem : ∀ share ∈ sys.shares sel,
      share.bits ⊆ Finset.range (sys.record share.node).coreCnt := by
    intro share member
    obtain ⟨chosen, bits⟩ := System.mem_shares member
    obtain ⟨_, coreMap, within, own, _, _, cores, _⟩ := selected share.node chosen
    rw [bits, cores]
    exact (canJobRunOnNode_subset sys s req _ _ _).trans
      (within.trans (makeCoreBitmap_subset sys.toSystem _ _))
  have charges := crDist_charge mem distributed
  refine ⟨shares, ?_, ?_, rfl⟩
  · intro share member
    obtain ⟨before, inBefore, node, most⟩ := System.exists_of_forall₂ charges member
    obtain ⟨chosen, _⟩ := System.mem_shares inBefore
    obtain ⟨offered, coreMap, within, own, isOwn, some_, _, found⟩ := selected before.node chosen
    refine ⟨node ▸ offered, ?_, ?_⟩
    · intro perNode
      rw [node]
      exact reqMem_le_of_perNode perNode some_
    · intro perCpu
      have fits := covered perCpu before.node (by rw [verified]; exact offered) coreMap
        (Finset.mem_powerset.mpr within) own (by simpa using isOwn) some_
      have counted : before.cpus = sel.cpuCnt before.node := by
        obtain ⟨_, _, rfl⟩ := mem_map.mp inBefore
        rfl
      rw [node]
      refine (Nat.mul_le_mul_left _ (most.trans ?_)).trans fits
      exact mostCpus_mono _ _ _ _ (fewer before.node) (counted ▸ found)
  · exact (System.shares_nodes sel).symm.trans (chargedFor_nodes charges).symm

theorem Fits.memoryAllocated_le {share : NodeShare} (fits : sys.Fits s req nodes share)
    (usable : sys.nodeUsable s req share.node = true) :
    (sys.memoryAllocated req share).toNat ≤ (sys.availMem s share.node).toNat := by
  unfold memoryAllocated
  cases each : req.perCpu with
  | true =>
    refine (Nat.mod_le _ _).trans ?_
    refine (Nat.mul_le_mul_right _ (Nat.mod_le _ _)).trans ?_
    rw [Nat.mul_comm]
    exact fits.charge each
  | false =>
    rw [if_neg Bool.false_ne_true]
    split_ifs with some_
    · rw [← reqMem_of_perNode each]
      exact UInt64.le_iff_toNat_le.mp (fits.memory each)
    · have none_ := allocMemory_eq_zero (not_not.mp some_) usable
      unfold availMem
      rw [none_, UInt64.sub_zero]

/-- A node with two cores of two threads each and 2000 MB of memory. -/
def twoThreads : MemorySystem where
  nodeCount := 1
  record := fun _ => ⟨4, 1, 1, 2, 2, 2, none⟩
  positive := fun _ => by decide
  partList := [0]
  maxCpusPerNode := fun _ => none
  priorityTier := fun _ => 1
  useSpecResources := false
  specCoresFirst := true
  coreDefaultDistBlock := false
  realMemory := fun _ => 2000
  memSpecLimit := fun _ => 0
  gangMode := false
  preemptByPart := false
  preemptByQos := false
  preemptModeOff := fun _ => false

/-- Nothing is in use. -/
def idleState : SelectState where
  parts := fun p => if p = 0 then some ⟨1, none⟩ else none
  usage := fun _ => ⟨0, 0, false⟩
  jobs := fun _ => ⟨none, ⟨[], [], [], ∅, 0, 0, [], 0⟩, false, false⟩
  initializing := false

theorem twoThreads_withinMemory : twoThreads.WithinMemory idleState := by
  intro node
  exact Nat.zero_le _

/-- A job of two tasks with memory for each CPU, on the one node; `threads` is its
`--threads-per-core`. -/
def twoTasks (threads : Nat) (memory : UInt64) : MemoryRequest where
  part := 0
  details := { System.plainDetails 2 with mcPtr := some ⟨noVal16, noVal16, 0, 0, threads, 0⟩ }
  narrow := Nat.two_pow_pos 16
  pnMinMemory := memPerCpu ||| memory
  nodeBitmap := {0}
  minNodes := 1
  crMemory := .core
  nodeReq := .oneRow
  excCoreBitmap := none
  qosPreemptor := false
  completing := ∅
  backfillTest := false
  gresCores := fun _ cores => (none, cores)
  lacksGres := fun _ => false
  chooseNodes := fun nodes _ => ⟨true, nodes, fun _ => [(2, 1)], true⟩

end MemorySystem

end SlurmSim.Select.Memory
