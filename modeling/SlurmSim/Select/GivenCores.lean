import SlurmSim.Select.JobTest

/-!
# Which cores a job is given

A job that shares its nodes is given cores that are free in every partition, but
for whole sockets: there the rest of a socket counts as free when no job of the
own partition uses it.  A job that has its nodes to itself is given cores of
nodes that nobody uses.
-/

namespace SlurmSim.Select

open SlurmSim.Common List

namespace System

variable {sys : System} {s : SelectState} {req : Request}

/-! ## Free cores -/

variable {avail cores avail' : CoreMap} {node i : Nat} {bestSwitch : Bool} {sel : Selection}
  {orig : Finset Nat}

theorem not_inUse_of_free {p : Nat} (free : i ∈ sys.freeCores s req avail node)
    (listed : p ∈ sys.partList) : i ∉ sys.inUse s p node :=
  (Finset.mem_filter.mp free).2 p listed

theorem mem_inUse {p : Nat} {bitmap : Finset Nat} (row : bitmap ∈ rowBitmaps s p)
    (below : i < (sys.record node).coreCnt)
    (mem : sys.cluster.crGetCoremapOffset node + i ∈ bitmap) : i ∈ sys.inUse s p node := by
  refine Finset.mem_filter.mpr ⟨Finset.mem_range.mpr below, ?_⟩
  exact any_eq_true.mpr ⟨bitmap, row, decide_eq_true mem⟩

/-! ## Selected nodes -/

theorem canJobRunOnNode_cores {coreMap : Finset Nat} {own : Option (Finset Nat)}
    (some_ : (sys.canJobRunOnNode req node coreMap own).1 ≠ 0) :
    (sys.canJobRunOnNode req node coreMap own).2 =
      (Select.allocateSc req.details (sys.record node) (sys.maxCpusPerNode req.part) coreMap own
        (decide (req.crType = .socket))).2 := by
  unfold canJobRunOnNode at some_ ⊢
  split_ifs at some_ ⊢ with completing
  · exact absurd rfl some_
  · dsimp only at some_ ⊢
    split_ifs at some_ ⊢ with none_
    · exact absurd rfl some_
    · rfl

theorem selectNodes_spec {nodes : Finset Nat} {own : Option CoreMap}
    (selected : (sys.selectNodes req nodes cores own bestSwitch).1 = some sel)
    (mem : node ∈ sel.nodes) :
    node ∈ nodes ∧ sel.cores node =
      (Select.allocateSc req.details (sys.record node) (sys.maxCpusPerNode req.part) (cores node)
        (own.map (· node)) (decide (req.crType = .socket))).2 := by
  unfold selectNodes at selected
  dsimp only at selected
  split_ifs at selected with few chosen
  cases selected
  obtain ⟨usable, _⟩ := Finset.mem_filter.mp mem
  obtain ⟨offered, some_⟩ := Finset.mem_filter.mp usable
  exact ⟨offered, canJobRunOnNode_cores some_⟩

theorem blockWholeNodes_subset (req : Request) (nodes : Finset Nat) (orig new : CoreMap) :
    blockWholeNodes req nodes orig new ⊆ nodes := by
  unfold blockWholeNodes
  split_ifs with whole
  · exact Finset.filter_subset _ _
  · exact Finset.Subset.refl _

theorem selectNodes_nodes {nodes : Finset Nat} {own : Option CoreMap}
    (selected : (sys.selectNodes req nodes cores own bestSwitch).1 = some sel) :
    sel.nodes ⊆ nodes := fun _ mem => (selectNodes_spec selected mem).1

theorem avoidLower_nodes {list : List Nat} {nodes : Finset Nat} {sel' : Selection}
    (within : nodes ⊆ orig) (before : sel.nodes ⊆ orig)
    (found : (sys.avoidLower s req avail list nodes cores sel bestSwitch).1 = some sel') :
    sel'.nodes ⊆ orig := by
  induction list generalizing nodes cores sel bestSwitch with
  | nil =>
    cases found
    exact before
  | cons p rest ih =>
    rw [avoidLower] at found
    split_ifs at found with skipped
    · exact ih within before found
    · dsimp only at found
      have fewer := (blockWholeNodes_subset req nodes avail (sys.without s [p] cores)).trans within
      cases selected : sys.selectNodes req (blockWholeNodes req nodes avail
          (sys.without s [p] cores)) (sys.without s [p] cores) (sys.partCoreMap s req)
          bestSwitch with
      | mk result after =>
        rw [selected] at found
        cases result with
        | none =>
          cases found
          exact before
        | some next =>
          have chosen := selectNodes_nodes (congrArg Prod.fst selected)
          exact ih fewer (chosen.trans fewer) found

theorem step3_nodes (found : (sys.step3 s req orig avail bestSwitch).1 = some sel) :
    sel.nodes ⊆ orig := by
  unfold step3 at found
  dsimp only at found
  generalize sys.without s _ avail = cores at found
  have fewer := blockWholeNodes_subset req orig avail cores
  cases selected : sys.selectNodes req (blockWholeNodes req orig avail cores) cores
      (sys.partCoreMap s req) bestSwitch with
  | mk result after =>
    rw [selected] at found
    cases result with
    | none => cases found
    | some first =>
      have chosen := selectNodes_nodes (congrArg Prod.fst selected)
      exact avoidLower_nodes fewer (chosen.trans fewer) found

theorem tryRows_nodes {rows : List PartRow}
    (found : (sys.tryRows s req orig avail rows bestSwitch).1 = some sel) : sel.nodes ⊆ orig := by
  induction rows generalizing bestSwitch with
  | nil => cases found
  | cons row rest ih =>
    rw [tryRows] at found
    cases bitmapEq : row.rowBitmap with
    | none =>
      rw [bitmapEq] at found
      exact selectNodes_nodes found
    | some bitmap =>
      rw [bitmapEq] at found
      dsimp only at found
      generalize (fun node => avail node \ sys.coresOn node (· ∈ bitmap)) = cores at found
      cases selected : sys.selectNodes req (blockWholeNodes req orig avail cores) cores
          (sys.partCoreMap s req) bestSwitch with
      | mk result after =>
        rw [selected] at found
        cases result with
        | none => exact ih found
        | some chosen =>
          cases found
          exact (selectNodes_nodes (congrArg Prod.fst selected)).trans
            (blockWholeNodes_subset req orig avail cores)

theorem step4_nodes (found : (sys.step4 s req orig avail bestSwitch).1 = some sel) :
    sel.nodes ⊆ orig := by
  unfold step4 at found
  cases rowEq : (s.parts req.part).bind PartRes.row with
  | none =>
    rw [rowEq] at found
    exact selectNodes_nodes found
  | some rows =>
    rw [rowEq] at found
    exact tryRows_nodes found

theorem laterSteps_nodes (found : sys.laterSteps s req orig avail bestSwitch = some (sel, avail')) :
    sel.nodes ⊆ orig := by
  unfold laterSteps at found
  split_ifs at found with unlisted
  cases second : sys.step2 s req orig avail bestSwitch with
  | mk result after =>
    rw [second] at found
    cases result with
    | none => cases found
    | some first =>
      dsimp only at found
      cases third : sys.step3 s req orig (sys.withoutExcluded req avail) after with
      | mk result after' =>
        rw [third] at found
        cases result with
        | none =>
          split_ifs at found with best
          obtain ⟨other, fourth, same⟩ := Option.map_eq_some_iff.mp found
          cases same
          exact step4_nodes fourth
        | some other =>
          split_ifs at found with best
          cases found
          exact step3_nodes (congrArg Prod.fst third)

theorem findCores_cases (found : sys.findCores s req orig avail = some (sel, avail')) :
    (sys.step1 s req orig avail true = (some sel, true) ∧ avail' = avail) ∨
      (req.nodeReq = .reserved ∧ sel.nodes ⊆ orig) := by
  unfold findCores at found
  dsimp only at found
  split at found
  · split at found
    · rename_i first
      cases found
      exact Or.inl ⟨first, rfl⟩
    · cases found
    · rename_i exclusive
      exact Or.inr ⟨exclusive, laterSteps_nodes found⟩
  · cases found

theorem step1_nodes (found : (sys.step1 s req orig avail bestSwitch).1 = some sel) :
    sel.nodes ⊆ orig :=
  (selectNodes_nodes found).trans (blockWholeNodes_subset req orig avail _)

theorem findCores_nodes (found : sys.findCores s req orig avail = some (sel, avail')) :
    sel.nodes ⊆ orig := by
  rcases findCores_cases found with ⟨first, _⟩ | ⟨_, within⟩
  · exact step1_nodes (congrArg Prod.fst first)
  · exact within

/-! ## The core bitmap of the job -/

theorem layout_buildSockCore (records : List NodeRes) :
    SockCore.layout (buildSockCore records) = records.map NodeRes.coreCnt := by
  induction records with
  | nil => rfl
  | cons r rest ih =>
    rw [buildSockCore]
    cases built : buildSockCore rest with
    | nil =>
      rw [built] at ih
      simp [SockCore.layout, SockCore.coreCnt, NodeRes.coreCnt, ← ih]
    | cons entry entries =>
      rw [built, SockCore.layout_cons] at ih
      dsimp only
      split_ifs with same
      · rw [SockCore.layout_cons, map_cons, ← ih]
        simp [replicate_succ, SockCore.coreCnt, NodeRes.coreCnt, same]
      · rw [SockCore.layout_cons, SockCore.layout_cons, map_cons, ← ih]
        rfl

theorem length_nodeBits (share : NodeShare) :
    (sys.nodeBits share).length = (sys.record share.node).coreCnt := by
  simp [nodeBits]

theorem getD_nodeBits {share : NodeShare} (below : i < (sys.record share.node).coreCnt)
    (more : List Bool) : (sys.nodeBits share ++ more).getD i false = decide (i ∈ share.bits) := by
  have mem : i < (sys.nodeBits share).length := (length_nodeBits share).symm ▸ below
  rw [getD_eq_getElem?_getD, getElem?_append_left mem]
  simp [nodeBits, getElem?_range below]

theorem nodeCores_nodeBits (wholeNode : Nat) (share : NodeShare) (more : List Bool) {core : Nat} :
    core ∈ JobResources.nodeCores sys.cluster wholeNode share.node (sys.nodeBits share ++ more) ↔
      ∃ i < (sys.record share.node).coreCnt, (wholeNode = 1 ∨ i ∈ share.bits) ∧
        core = sys.cluster.crGetCoremapOffset share.node + i := by
  simp only [JobResources.nodeCores, mem_map, mem_filter, mem_range]
  constructor
  · rintro ⟨i, ⟨below, given⟩, rfl⟩
    rw [getD_nodeBits below] at given
    exact ⟨i, below, by simpa using given, rfl⟩
  · rintro ⟨i, below, given, rfl⟩
    refine ⟨i, ⟨below, ?_⟩, rfl⟩
    rw [getD_nodeBits below]
    simpa using given

theorem mem_walkCores_shares (wholeNode : Nat) {shares : List NodeShare} {core : Nat} :
    core ∈ JobResources.walkCores sys.cluster wholeNode (shares.map NodeShare.node)
        (shares.flatMap sys.nodeBits) ↔
      ∃ share ∈ shares, ∃ i < (sys.record share.node).coreCnt, (wholeNode = 1 ∨ i ∈ share.bits) ∧
          core = sys.cluster.crGetCoremapOffset share.node + i := by
  induction shares with
  | nil => simp [JobResources.walkCores]
  | cons share rest ih =>
    have rest_ : (sys.nodeBits share ++ rest.flatMap sys.nodeBits).drop
        (sys.cluster.crNodeNumCores share.node) = rest.flatMap sys.nodeBits := by
      rw [show sys.cluster.crNodeNumCores share.node = (sys.nodeBits share).length from
        (length_nodeBits share).symm, drop_left]
    rw [map_cons, flatMap_cons, JobResources.walkCores, mem_append, nodeCores_nodeBits, rest_, ih]
    simp only [mem_cons, exists_eq_or_imp]

end System

/-- The cores that are set in the core bitmap of a job. -/
def givenCores (c : Cluster) (job : JobResources) : Finset Nat :=
  (JobResources.walkCores c 0 (job.nodes c) job.coreBitmap).toFinset

namespace System

variable {sys : System} {s : SelectState} {req : Request}

/-- The job resources are those of the shares, in the order of the nodes. -/
structure Shared (sys : System) (req : Request) (sel : Selection) (shares : List NodeShare)
    (res : JobResources) : Prop where
  nodes : shares.map NodeShare.node = (List.range sys.nodeCount).filter (· ∈ sel.nodes)
  built : ∃ ncpus, res = sys.jobResources req sel ncpus shares

namespace Shared

variable {sel : Selection} {shares : List NodeShare} {res : JobResources}

theorem nodes_eq (shared : Shared sys req sel shares res) :
    res.nodes sys.cluster = shares.map NodeShare.node := by
  obtain ⟨ncpus, rfl⟩ := shared.built
  exact shared.nodes.symm

theorem wellFormed (shared : Shared sys req sel shares res) : res.WellFormed sys.cluster := by
  have nodesEq := shared.nodes_eq
  obtain ⟨ncpus, rfl⟩ := shared.built
  refine ⟨?_, ?_, ?_, ?_⟩
  · rw [nodesEq, map_map]
    exact (layout_buildSockCore _).trans (map_map ..)
  · rw [nodesEq, map_map]
    simp only [jobResources, length_flatMap, length_nodeBits]
    rfl
  · rw [nodesEq]
    simp [jobResources]
  · rw [nodesEq]
    simp [jobResources]

theorem mem_givenCores (shared : Shared sys req sel shares res) {core : Nat} :
    core ∈ givenCores sys.cluster res ↔
      ∃ share ∈ shares, ∃ i < (sys.record share.node).coreCnt, i ∈ share.bits ∧
        core = sys.cluster.crGetCoremapOffset share.node + i := by
  rw [givenCores, mem_toFinset, shared.nodes_eq]
  obtain ⟨ncpus, rfl⟩ := shared.built
  exact (mem_walkCores_shares 0).trans (by simp)

theorem mem_cores (shared : Shared sys req sel shares res) {core : Nat} :
    core ∈ res.cores sys.cluster ↔ ∃ share ∈ shares, ∃ i < (sys.record share.node).coreCnt,
        (req.details.wholeNode = 1 ∨ i ∈ share.bits) ∧
          core = sys.cluster.crGetCoremapOffset share.node + i := by
  rw [JobResources.cores, mem_toFinset, shared.nodes_eq]
  obtain ⟨ncpus, rfl⟩ := shared.built
  exact mem_walkCores_shares _

end Shared

/-! ## The cores of each node -/

theorem exists_of_forall₂ {α β : Type} {R : α → β → Prop} {as : List α} {bs : List β}
    (related : List.Forall₂ R as bs) {b : β} (mem : b ∈ bs) : ∃ a ∈ as, R a b := by
  induction related with
  | nil => cases mem
  | cons here _ ih =>
    rcases mem_cons.mp mem with rfl | later
    · exact ⟨_, mem_cons_self, here⟩
    · obtain ⟨a, aIn, found⟩ := ih later
      exact ⟨a, mem_cons_of_mem _ aIn, found⟩

/-- Where the cores of a share come from. -/
inductive Origin (sys : System) (req : Request) (sel : Selection) (avail : CoreMap)
    (share : NodeShare) : Prop
  | kept (special : req.details.coreSpec ≠ noVal16) (same : share.bits = sel.cores share.node)
  | whole (exclusive : req.nodeReq = .reserved ∨ req.details.wholeNode = 1)
      (within : share.bits ⊆ avail share.node)
  | synced (common : req.details.coreSpec = noVal16) (part : req.details.wholeNode ≠ 1)
      (grown : Grown req.crType (sys.record share.node) (sel.cores share.node) share.bits)

theorem shares_nodes (sel : Selection) :
    (sys.shares sel).map NodeShare.node = (List.range sys.nodeCount).filter (· ∈ sel.nodes) := by
  simp [shares, Function.comp_def]

variable {sel : Selection} {res : JobResources} {p node core : Nat}

theorem mem_shares {share : NodeShare} (mem : share ∈ sys.shares sel) :
    share.node ∈ sel.nodes ∧ share.bits = sel.cores share.node := by
  obtain ⟨node, listed, rfl⟩ := mem_map.mp mem
  exact ⟨of_decide_eq_true (mem_filter.mp listed).2, rfl⟩

theorem follows_nodes {table : Nat → NodeRes} {crType : CrType} {shares shares' : List NodeShare}
    (follows : List.Forall₂ (Follows table crType) shares shares') :
    shares'.map NodeShare.node = shares.map NodeShare.node := by
  induction follows with
  | nil => rfl
  | cons here _ ih => rw [map_cons, map_cons, ih, here.node]

theorem allocJob_spec {avail : CoreMap} (allocated : sys.allocJob req sel avail = some res) :
    ∃ shares, Shared sys req sel shares res ∧
      ∀ share ∈ shares, share.node ∈ sel.nodes ∧ Origin sys req sel avail share := by
  obtain ⟨shares, distributed, rfl⟩ := Option.map_eq_some_iff.mp allocated
  refine ⟨shares, ?_⟩
  rcases crDist_cases distributed with ⟨special, rfl⟩ | ⟨_, exclusive, rfl⟩ |
    ⟨common, _, part, follows⟩
  · refine ⟨⟨shares_nodes sel, _, rfl⟩, fun share mem => ?_⟩
    obtain ⟨chosen, same⟩ := mem_shares mem
    exact ⟨chosen, Origin.kept special same⟩
  · refine ⟨⟨?_, _, rfl⟩, fun share mem => ?_⟩
    · rw [← shares_nodes sel]
      simp [clearSpecCores, Function.comp_def]
    · obtain ⟨before, inBefore, rfl⟩ := mem_map.mp mem
      refine ⟨(mem_shares inBefore).1, Origin.whole (exclusive.imp of_decide_eq_true id) ?_⟩
      exact fun i given => (Finset.mem_filter.mp given).2
  · refine ⟨⟨(follows_nodes follows).trans (shares_nodes sel), _, rfl⟩, fun share mem => ?_⟩
    obtain ⟨before, inBefore, here⟩ := exists_of_forall₂ follows mem
    obtain ⟨chosen, same⟩ := mem_shares inBefore
    refine ⟨here.node ▸ chosen, Origin.synced common part ?_⟩
    rw [here.node, ← same]
    exact here.grown

theorem crJobTest_cases (tested : sys.crJobTest s req = some res) :
    ∃ nodes sel avail, sys.verifyNodeState s req = some nodes ∧
      sys.findCores s req nodes (sys.makeCoreBitmap req.details.coreSpec) = some (sel, avail) ∧
      sys.allocJob req sel avail = some res := by
  obtain ⟨nodes, verified, found⟩ := Option.bind_eq_some_iff.mp tested
  obtain ⟨⟨sel, avail⟩, selected, allocated⟩ := Option.bind_eq_some_iff.mp found
  exact ⟨nodes, sel, avail, verified, selected, allocated⟩

/-! ## Jobs that share their nodes -/

/-- The nodes that `_verify_node_state` leaves. -/
def candidates (sys : System) (s : SelectState) (req : Request) : Finset Nat :=
  (sys.verifyNodeState s req).getD ∅

/-- The cores of a node that are free in every partition, for a job that can use
its available cores. -/
def freeFor (sys : System) (s : SelectState) (req : Request) : CoreMap :=
  sys.freeCores s req (sys.makeCoreBitmap req.details.coreSpec)

/-- The core belongs to a socket with a free core, and no job of the own partition
uses that socket; it goes to the job with the socket. -/
def Spills (sys : System) (s : SelectState) (req : Request) (node i : Nat) : Prop :=
  req.crType = .socket ∧ req.details.coreSpec = noVal16 ∧ req.details.wholeNode ≠ 1 ∧
    (sys.partCoreMap s req).isSome ∧
    (∃ k ∈ sys.freeFor s req node, k / (sys.record node).cores = i / (sys.record node).cores) ∧
    ∀ m ∈ sys.inUse s req.part node, m / (sys.record node).cores ≠ i / (sys.record node).cores

instance (node i : Nat) : Decidable (Spills sys s req node i) :=
  inferInstanceAs (Decidable (_ ∧ _))

theorem partCoreMap_eq_some {own : CoreMap} (mapped : sys.partCoreMap s req = some own) :
    req.part ∈ sys.partList ∧ own = sys.inUse s req.part := by
  unfold partCoreMap at mapped
  split_ifs at mapped with present
  exact ⟨present.1, (Option.some.inj mapped).symm⟩

theorem mem_inUse_lt {m : Nat} (used : m ∈ sys.inUse s p node) : m < (sys.record node).coreCnt :=
  Finset.mem_range.mp (Finset.mem_filter.mp used).1

theorem step1_cores {nodes : Finset Nat}
    (first : sys.step1 s req nodes (sys.makeCoreBitmap req.details.coreSpec) true = (some sel, true))
    (chosen : node ∈ sel.nodes) : sel.cores node ⊆ sys.freeFor s req node ∧
      ∀ k ∈ sel.cores node, ∀ i < (sys.record node).coreCnt, req.crType = .socket →
        req.details.coreSpec = noVal16 → req.details.wholeNode ≠ 1 →
        i / (sys.record node).cores = k / (sys.record node).cores →
          i ∈ sys.freeFor s req node ∨ Spills sys s req node i := by
  obtain ⟨_, coresEq⟩ := selectNodes_spec (congrArg Prod.fst first) chosen
  have within : sel.cores node ⊆ sys.freeFor s req node := coresEq ▸ allocateSc_subset
  refine ⟨within, ?_⟩
  intro k selected i below socket common part same
  rw [coresEq, decide_eq_true socket] at selected
  rcases allocateSc_entire common selected below same with free | ⟨own, mapped, _⟩
  · exact Or.inl free
  · obtain ⟨map, mapEq, rfl⟩ := Option.map_eq_some_iff.mp mapped
    obtain ⟨listed, rfl⟩ := partCoreMap_eq_some mapEq
    refine Or.inr ⟨socket, common, part, mapEq ▸ rfl, ⟨k, ?_, same.symm⟩, ?_⟩
    · exact allocateSc_subset selected
    · intro m used together
      have alike := together.trans same
      rcases allocateSc_entire common selected (mem_inUse_lt used) alike with free | ⟨own, here, open_⟩
      · exact not_inUse_of_free free listed used
      · rw [mapEq] at here
        cases here
        exact open_ used

theorem given_of_oneRow (tested : sys.crJobTest s req = some res) (oneRow : req.nodeReq = .oneRow)
    (given : core ∈ givenCores sys.cluster res) :
    ∃ node ∈ sys.candidates s req, ∃ i < (sys.record node).coreCnt,
      core = sys.cluster.crGetCoremapOffset node + i ∧
        (i ∈ sys.freeFor s req node ∨ Spills sys s req node i) := by
  obtain ⟨nodes, sel, avail, verified, selected, allocated⟩ := crJobTest_cases tested
  obtain ⟨shares, shared, each⟩ := allocJob_spec allocated
  obtain ⟨share, mem, i, below, inBits, coreEq⟩ := shared.mem_givenCores.mp given
  obtain ⟨chosen, origin⟩ := each share mem
  have candidate : share.node ∈ sys.candidates s req := by
    rw [candidates, verified]
    exact findCores_nodes selected chosen
  refine ⟨share.node, candidate, i, below, coreEq, ?_⟩
  rcases findCores_cases selected with ⟨first, rfl⟩ | ⟨exclusive, _⟩
  · obtain ⟨within, rest⟩ := step1_cores first chosen
    cases origin with
    | kept special same => exact Or.inl (within (same ▸ inBits))
    | whole exclusive available =>
      have whole := exclusive.resolve_left (by simp [oneRow])
      obtain ⟨unblocked, _⟩ := selectNodes_spec (congrArg Prod.fst first) chosen
      rw [blockWholeNodes, if_pos whole] at unblocked
      exact Or.inl ((Finset.mem_filter.mp unblocked).2 (available inBits))
    | synced common part grown =>
      rcases grown i inBits with before | ⟨socket, k, found, same⟩
      · exact Or.inl (within before)
      · exact rest k found i below socket common part same.symm
  · rw [oneRow] at exclusive
    cases exclusive

theorem free_of_whole (tested : sys.crJobTest s req = some res) (oneRow : req.nodeReq = .oneRow)
    (whole : req.details.wholeNode = 1) (used : node ∈ res.nodes sys.cluster) :
    node ∈ sys.candidates s req ∧
      sys.makeCoreBitmap req.details.coreSpec node ⊆ sys.freeFor s req node := by
  obtain ⟨nodes, sel, avail, verified, selected, allocated⟩ := crJobTest_cases tested
  obtain ⟨shares, shared, _⟩ := allocJob_spec allocated
  rw [shared.nodes_eq, shared.nodes] at used
  have chosen : node ∈ sel.nodes := of_decide_eq_true (mem_filter.mp used).2
  rcases findCores_cases selected with ⟨first, _⟩ | ⟨exclusive, _⟩
  · obtain ⟨unblocked, _⟩ := selectNodes_spec (congrArg Prod.fst first) chosen
    rw [blockWholeNodes, if_pos whole] at unblocked
    obtain ⟨offered, free⟩ := Finset.mem_filter.mp unblocked
    exact ⟨by rw [candidates, verified]; exact offered, free⟩
  · rw [oneRow] at exclusive
    cases exclusive

/-! ## Jobs that have their nodes to themselves -/

theorem idle_of_reserved (tested : sys.crJobTest s req = some res)
    (reserved : req.nodeReq = .reserved) (used : node ∈ res.nodes sys.cluster)
    (listed : p ∈ sys.partList) : sys.inUse s p node = ∅ := by
  obtain ⟨nodes, sel, avail, verified, selected, allocated⟩ := crJobTest_cases tested
  obtain ⟨shares, shared, _⟩ := allocJob_spec allocated
  rw [shared.nodes_eq, shared.nodes] at used
  have chosen := findCores_nodes selected (of_decide_eq_true (mem_filter.mp used).2)
  have usable : sys.nodeUsable s req node = true := by
    unfold verifyNodeState at verified
    dsimp only at verified
    split_ifs at verified with required
    cases verified
    exact (Finset.mem_filter.mp chosen).2
  unfold nodeUsable at usable
  rw [reserved] at usable
  split_ifs at usable with closed busy
  · cases usable
  · by_contra some_
    simp only [decide_false, Bool.not_eq_true'] at usable
    refine absurd (any_eq_false.mp usable p listed) (not_not.mpr ?_)
    simp [some_]

/-! ## Jobs that start clear of others -/

/-- No core in use goes to the job with its socket, and no job of its partition
uses a core of a node that looks free to a job that wants whole nodes. -/
def StartsClear (sys : System) (s : SelectState) (req : Request) : Prop :=
  req.nodeReq = .oneRow → ∀ node ∈ sys.candidates s req,
    (∀ p ∈ sys.partList, ∀ i ∈ sys.inUse s p node, ¬Spills sys s req node i) ∧
      (req.details.wholeNode = 1 →
        sys.makeCoreBitmap req.details.coreSpec node ⊆ sys.freeFor s req node →
          sys.inUse s req.part node = ∅)

instance : Decidable (StartsClear sys s req) := inferInstanceAs (Decidable (_ → _))

theorem given_notMem (tested : sys.crJobTest s req = some res) (clear : StartsClear sys s req)
    (given : core ∈ givenCores sys.cluster res) (listed : p ∈ sys.partList) {bitmap : Finset Nat}
    (row : bitmap ∈ rowBitmaps s p) : core ∉ bitmap := by
  intro mem
  cases nodeReq : req.nodeReq with
  | oneRow =>
    obtain ⟨node, candidate, i, below, rfl, free | spills⟩ := given_of_oneRow tested nodeReq given
    · exact not_inUse_of_free free listed (mem_inUse row below mem)
    · exact (clear nodeReq node candidate).1 p listed i (mem_inUse row below mem) spills
  | reserved =>
    obtain ⟨nodes, sel, avail, _, _, allocated⟩ := crJobTest_cases tested
    obtain ⟨shares, shared, _⟩ := allocJob_spec allocated
    obtain ⟨share, inShares, i, below, _, rfl⟩ := shared.mem_givenCores.mp given
    have used : share.node ∈ res.nodes sys.cluster :=
      shared.nodes_eq ▸ mem_map_of_mem inShares
    have found := mem_inUse row below mem
    rw [idle_of_reserved tested nodeReq used listed] at found
    exact absurd found (Finset.notMem_empty i)

theorem cores_notMem (tested : sys.crJobTest s req = some res) (clear : StartsClear sys s req)
    (listed : req.part ∈ sys.partList) (counted : core ∈ res.cores sys.cluster)
    {bitmap : Finset Nat} (row : bitmap ∈ rowBitmaps s req.part) : core ∉ bitmap := by
  obtain ⟨nodes, sel, avail, _, _, allocated⟩ := crJobTest_cases tested
  obtain ⟨shares, shared, _⟩ := allocJob_spec allocated
  obtain ⟨share, inShares, i, below, whole | given, rfl⟩ := shared.mem_cores.mp counted
  · intro mem
    have used : share.node ∈ res.nodes sys.cluster := shared.nodes_eq ▸ mem_map_of_mem inShares
    have empty : sys.inUse s req.part share.node = ∅ := by
      cases nodeReq : req.nodeReq with
      | oneRow =>
        obtain ⟨candidate, free⟩ := free_of_whole tested nodeReq whole used
        exact (clear nodeReq share.node candidate).2 whole free
      | reserved => exact idle_of_reserved tested nodeReq used listed
    have found := mem_inUse row below mem
    rw [empty] at found
    exact Finset.notMem_empty i found
  · exact given_notMem tested clear (shared.mem_givenCores.mpr ⟨share, inShares, i, below, given, rfl⟩)
      listed row

theorem crJobTest_wellFormed (tested : sys.crJobTest s req = some res) :
    res.WellFormed sys.cluster := by
  obtain ⟨nodes, sel, avail, _, _, allocated⟩ := crJobTest_cases tested
  obtain ⟨shares, shared, _⟩ := allocJob_spec allocated
  exact shared.wellFormed

end System

theorem givenCores_subset (c : Cluster) (job : JobResources) : givenCores c job ⊆ job.cores c := by
  have walk : ∀ (nodes : List Nat) (bits : List Bool), ∀ core ∈ JobResources.walkCores c 0 nodes bits,
      core ∈ JobResources.walkCores c job.wholeNode nodes bits := by
    intro nodes
    induction nodes with
    | nil => exact fun _ _ mem => mem
    | cons node nodes ih =>
      intro bits core mem
      rw [JobResources.walkCores, mem_append] at mem ⊢
      refine mem.imp ?_ (ih _ core)
      simp only [JobResources.nodeCores, mem_map, mem_filter]
      rintro ⟨i, ⟨below, given⟩, rfl⟩
      refine ⟨i, ⟨below, ?_⟩, rfl⟩
      simp only [Nat.zero_ne_one, decide_false, Bool.false_or] at given
      rw [given, Bool.or_true]
  intro core mem
  exact mem_toFinset.mpr (walk _ _ core (mem_toFinset.mp mem))

end SlurmSim.Select
