import Mathlib.Algebra.BigOperators.Fin
import Mathlib.Algebra.Order.BigOperators.Group.Finset
import Mathlib.Algebra.Order.Floor.Div
import Mathlib.Data.Nat.Count
import SlurmSim.Select.JobTest

/-!
# The exact count of cores

`_allocate_sc` on the bitmap of all cores.  The cores that stay open are counted
socket by socket, against what the sockets had free and against the CPUs that the
call answers.
-/

namespace SlurmSim.Select

open SlurmSim.Common List

/-- The cores of a socket. -/
def onSocket (r : NodeRes) (cores : Finset Nat) (i : Nat) : Finset Nat :=
  cores.filter (· / r.cores = i)

theorem card_eq_sum_onSocket {r : NodeRes} {cores : Finset Nat}
    (mem : cores ⊆ Finset.range r.coreCnt) :
    cores.card = ∑ i ∈ Finset.range r.sockets, (onSocket r cores i).card := by
  refine Finset.card_eq_sum_card_fiberwise fun c member => ?_
  have below := Finset.mem_range.mp (mem member)
  exact Finset.mem_coe.mpr (Finset.mem_range.mpr (Nat.div_lt_of_lt_mul
    (Nat.mul_comm r.sockets r.cores ▸ below)))

namespace System

/-- `_allocate_sc` as a step on the bitmap of all cores. -/
def allocateSc (sys : System) (d : JobDetails) (maxCpusPerNode : Option Nat) (node : Nat)
    (coreMap : CoreMap) (partCoreMap : Option CoreMap) (entireSocketsOnly : Bool) :
    Nat × CoreMap :=
  let (cpus, cores) := Select.allocateSc d (sys.record node) maxCpusPerNode (coreMap node)
    (partCoreMap.map (· node)) entireSocketsOnly
  (cpus, Function.update coreMap node cores)

end System

/-! ## Free cores and the limit of the partition -/

variable {d : JobDetails} {r : NodeRes}

variable {i : Nat}

theorem getD_eq_zero {free : List Nat} (outside : free.length ≤ i) : free.getD i 0 = 0 := by
  rw [getD_eq_getElem?_getD, getElem?_eq_none outside, Option.getD_none]

theorem sum_getD (free : List Nat) :
    ∑ i ∈ Finset.range free.length, free.getD i 0 = free.sum := by
  rw [Finset.sum_range, ← Fin.sum_univ_getElem]
  refine Finset.sum_congr rfl fun i _ => ?_
  rw [getD_eq_getElem?_getD, getElem?_eq_getElem i.isLt, Option.getD_some]

theorem sum_set (free : List Nat) (some_ : 0 < free.getD i 0) :
    (free.set i (free.getD i 0 - 1)).sum + 1 = free.sum := by
  induction free generalizing i with
  | nil => simp at some_
  | cons count rest ih =>
    cases i with
    | zero =>
      simp only [getD_cons_zero] at some_ ⊢
      simp only [set_cons_zero, sum_cons]
      omega
    | succ i =>
      simp only [getD_cons_succ] at some_ ⊢
      simp only [set_cons_succ, sum_cons, ← ih some_]
      omega

theorem getD_set (free : List Nat) (i j value : Nat) (mem : i < free.length) :
    (free.set i value).getD j 0 = if i = j then value else free.getD j 0 := by
  simp only [getD_eq_getElem?_getD, getElem?_set]
  split_ifs with same
  · rfl
  · rfl

theorem lt_length {free : List Nat} (some_ : 0 < free.getD i 0) : i < free.length := by
  by_contra outside
  rw [getD_eq_zero (Nat.le_of_not_lt outside)] at some_
  exact absurd some_ (Nat.lt_irrefl 0)

theorem dropExcess_covers (cores : List Nat) (excess : Int) (free : List Nat)
    (enough : ∀ i, free.getD i 0 ≤ cores.countP (· / r.cores = i)) :
    (dropExcess r cores excess free).sum = 0 ∨
      (dropExcess r cores excess free).sum * r.vpus + excess ≤ free.sum * r.vpus := by
  induction cores generalizing excess free with
  | nil =>
    refine Or.inl ?_
    rw [dropExcess, ← sum_getD]
    refine Finset.sum_eq_zero fun i _ => Nat.le_zero.mp ?_
    simpa using enough i
  | cons c rest ih =>
    rw [dropExcess]
    by_cases some_ : 0 < free.getD (c / r.cores) 0
    · have one := sum_set free some_
      have fewer : ((free.set (c / r.cores) (free.getD (c / r.cores) 0 - 1)).sum : Int) * r.vpus +
          r.vpus = free.sum * r.vpus := by
        rw [← Nat.cast_mul, ← Nat.cast_mul, ← one, Nat.succ_mul, Nat.cast_add]
      have enoughRest : ∀ i, (free.set (c / r.cores) (free.getD (c / r.cores) 0 - 1)).getD i 0 ≤
          rest.countP (· / r.cores = i) := by
        intro i
        have before := enough i
        rw [countP_cons] at before
        rw [getD_set free _ i _ (lt_length some_)]
        by_cases same : c / r.cores = i
        · rw [if_pos same]
          simp only [same, decide_true, if_true] at before
          rw [same]
          omega
        · simpa [same] using before
      simp only [some_, if_true]
      split_ifs with last
      · omega
      · rcases ih (excess - r.vpus) _ enoughRest with none_ | covered
        · exact Or.inl none_
        · omega
    · simp only [some_, if_false]
      refine ih excess free fun i => ?_
      have before := enough i
      by_cases same : c / r.cores = i
      · rw [same] at some_
        omega
      · simpa [same] using before

theorem range_sockets (r : NodeRes) :
    List.range r.coreCnt = (List.range r.sockets).flatMap r.socketCores := by
  unfold NodeRes.coreCnt
  induction r.sockets with
  | zero => rw [Nat.zero_mul, range_zero, flatMap_nil]
  | succ sockets ih =>
    rw [Nat.succ_mul, range_add, range_succ, flatMap_append, ih, flatMap_singleton]
    rfl

theorem countP_sockets (r : NodeRes) (p : Nat → Bool) :
    (List.range r.coreCnt).countP p =
      ((List.range r.sockets).map fun i => (r.socketCores i).countP p).sum := by
  rw [range_sockets, countP_flatMap]
  rfl

theorem countSocket_free_le (coreMap : Finset Nat) (partCoreMap : Option (Finset Nat))
    (mem : i < r.sockets) :
    (countSocket r coreMap partCoreMap i).free ≤
      (List.range r.coreCnt).countP (· / r.cores = i) := by
  have mine : (r.socketCores i).countP (· ∈ coreMap) ≤ (r.socketCores i).countP (· / r.cores = i) :=
    countP_mono_left fun c here _ => by simpa using div_of_mem_socketCores here
  refine mine.trans ?_
  rw [countP_sockets]
  exact single_le_sum (fun _ _ => Nat.zero_le _) _ (mem_map.mpr ⟨i, mem_range.mpr mem, rfl⟩)

theorem blockUsed_free_le (entire : Bool) (count : SocketCount) :
    (count.blockUsed entire).free ≤ count.free := by
  unfold SocketCount.blockUsed
  split_ifs
  · exact Nat.zero_le _
  · exact le_rfl

theorem own_le_charge (coreMap : Finset Nat) (partCoreMap : Option (Finset Nat)) (entire : Bool)
    (i : Nat) :
    (countSocket r coreMap partCoreMap i).own * r.vpus ≤
      (let count := (countSocket r coreMap partCoreMap i).blockUsed entire
       if count.own ≠ 0 then count.used * r.vpus else 0) := by
  have ownUsed : (countSocket r coreMap partCoreMap i).own ≤
      (countSocket r coreMap partCoreMap i).used := by
    refine countP_mono_left fun c _ own => ?_
    cases partCoreMap with
    | none => simp at own
    | some map => simpa using own
  have sameOwn : ((countSocket r coreMap partCoreMap i).blockUsed entire).own =
      (countSocket r coreMap partCoreMap i).own := by
    unfold SocketCount.blockUsed
    split_ifs <;> rfl
  have moreUsed : (countSocket r coreMap partCoreMap i).used ≤
      ((countSocket r coreMap partCoreMap i).blockUsed entire).used := by
    unfold SocketCount.blockUsed
    split_ifs
    · exact Nat.le_add_right _ _
    · exact le_rfl
  dsimp only
  rw [sameOwn]
  split_ifs with some_
  · exact Nat.mul_le_mul_right _ (ownUsed.trans moreUsed)
  · rw [not_not.mp some_, Nat.zero_mul]

theorem dropExcess_length (cores : List Nat) (excess : Int) (free : List Nat) :
    (dropExcess r cores excess free).length = free.length := by
  induction cores generalizing excess free with
  | nil => rfl
  | cons c rest ih =>
    rw [dropExcess]
    split_ifs with some_ last
    · exact length_set
    · rw [ih, length_set]
    · exact ih excess free

section Free

variable (maxCpusPerNode : Option Nat) (coreMap : Finset Nat) (partCoreMap : Option (Finset Nat))
    (entire : Bool)

theorem freeCores_length :
    (freeCores r maxCpusPerNode coreMap partCoreMap entire).length = r.sockets := by
  unfold freeCores
  cases maxCpusPerNode with
  | none => simp
  | some most =>
    dsimp only
    split_ifs
    · rw [dropExcess_length]
      simp
    · simp

/-- The cores of the node that the partition uses and that are not open. -/
def usedByPartition (r : NodeRes) (coreMap : Finset Nat) (partCoreMap : Option (Finset Nat)) :
    Finset Nat :=
  (Finset.range r.coreCnt).filter fun c => c ∉ coreMap ∧ partCoreMap.any (c ∈ ·) = true

theorem usedByPartition_card :
    (usedByPartition r coreMap partCoreMap).card =
      ((List.range r.sockets).map fun i => (countSocket r coreMap partCoreMap i).own).sum := by
  have counted := countP_sockets r fun c => c ∉ coreMap ∧ partCoreMap.any (c ∈ ·)
  rw [usedByPartition, ← Nat.count_eq_card_filter_range]
  exact counted

theorem freeCores_limit (most : Nat) :
    (freeCores r (some most) coreMap partCoreMap entire).sum = 0 ∨
      (freeCores r (some most) coreMap partCoreMap entire).sum * r.vpus +
        (usedByPartition r coreMap partCoreMap).card * r.vpus ≤ most := by
  generalize countsEq : ((List.range r.sockets).map fun i =>
    (countSocket r coreMap partCoreMap i).blockUsed entire) = counts
  have charged : (usedByPartition r coreMap partCoreMap).card * r.vpus ≤
      (counts.map fun count => if count.own ≠ 0 then count.used * r.vpus else 0).sum := by
    rw [usedByPartition_card, ← sum_map_mul_right, ← countsEq, map_map]
    exact sum_le_sum fun i _ => own_le_charge coreMap partCoreMap entire i
  have freeCpus : (counts.map fun count => count.free * r.vpus).sum =
      (counts.map SocketCount.free).sum * r.vpus := sum_map_mul_right ..
  have enough : ∀ i, (counts.map SocketCount.free).getD i 0 ≤
      (List.range r.coreCnt).countP (· / r.cores = i) := by
    intro i
    rw [← countsEq, map_map]
    by_cases mem : i < r.sockets
    · simp only [getD_eq_getElem?_getD, getElem?_map, getElem?_range mem,
        Option.map_some, Option.getD_some]
      exact (blockUsed_free_le entire _).trans (countSocket_free_le coreMap partCoreMap mem)
    · rw [getD_eq_zero (by simpa using mem)]
      exact Nat.zero_le _
  simp only [freeCores, countsEq]
  split_ifs with excess
  · refine (dropExcess_covers _ _ _ enough).imp_right fun covered => ?_
    omega
  · omega

theorem dropSmall_sum_le (free : List Nat) : (dropSmall d free).sum ≤ free.sum := by
  refine (sum_le_sum (g := id) fun cores _ => ?_).trans_eq (by rw [map_id])
  split_ifs
  · exact Nat.zero_le _
  · exact le_rfl

end Free

/-! ## The scan -/

namespace Scan

variable {threadsPerCore cps : Nat} {coreMap : Finset Nat}

/-- What the scan has done when `next` is the core to look at. -/
structure Tally (d : JobDetails) (r : NodeRes) (threadsPerCore cps next : Nat) (free : List Nat)
    (st : Scan) : Prop where
  /-- Every core that is kept takes one from the free cores of its socket. -/
  taken : ∀ i, (onSocket r st.kept i).card + st.free.getD i 0 = free.getD i 0
  /-- The cores of the current socket are its last ones. -/
  last : ∀ c ∈ st.kept, ∃ recent, c ≤ recent ∧ recent < next ∧ recent / r.cores = st.si
  /-- `cpu_cnt` counts the CPUs of the current socket. -/
  socket : st.cpuCnt = threadsPerCore * (onSocket r st.kept st.si).card
  /-- No socket has more cores than its limit needs. -/
  limit : ∀ i, (onSocket r st.kept i).card ≤ max 1 (cps ⌈/⌉ threadsPerCore)
  /-- A task has CPUs left to take. -/
  task : threadsPerCore < d.cpusPerTask → 0 < st.tmpCpt
  most : st.cpuCount ≤ threadsPerCore * st.kept.card
  least : st.kept ≠ ∅ → 0 < st.cpuCount

theorem Tally.start (availCpus : Nat) (free : List Nat) :
    Tally d r threadsPerCore cps 0 free ⟨availCpus, 9999, 0, 0, d.cpusPerTask, free, ∅⟩ where
  taken := fun i => by simp [onSocket]
  last := fun c mem => absurd mem (Finset.notMem_empty c)
  socket := by simp [onSocket]
  limit := fun i => by simp [onSocket]
  task := Nat.zero_lt_of_lt
  most := Nat.zero_le _
  least := fun some_ => absurd rfl some_

variable {next : Nat} {free : List Nat} {st : Scan}

theorem Tally.skip (tally : Tally d r threadsPerCore cps next free st) :
    Tally d r threadsPerCore cps (next + 1) free st :=
  { tally with
    last := fun c mem => by
      obtain ⟨recent, le, before, here⟩ := tally.last c mem
      exact ⟨recent, le, Nat.lt_succ_of_lt before, here⟩ }

theorem takeCpus_si (st : Scan) : (takeCpus d threadsPerCore st).si = st.si := by
  unfold takeCpus
  split_ifs <;> rfl

theorem takeCpus_cpuCnt (st : Scan) : (takeCpus d threadsPerCore st).cpuCnt = st.cpuCnt := by
  unfold takeCpus
  split_ifs <;> rfl

theorem takeCpus_cpuCount (st : Scan) (left : 0 < st.availCpus) (pos : 0 < threadsPerCore)
    (task : threadsPerCore < d.cpusPerTask → 0 < st.tmpCpt) :
    st.cpuCount < (takeCpus d threadsPerCore st).cpuCount ∧
      (takeCpus d threadsPerCore st).cpuCount ≤ st.cpuCount + threadsPerCore := by
  unfold takeCpus
  by_cases whole : threadsPerCore ≤ st.availCpus
  · rw [if_pos whole]
    dsimp only
    split_ifs with alone
    · have some_ := task alone.2
      exact ⟨Nat.lt_add_of_pos_right (Nat.lt_min.mpr ⟨some_, pos⟩),
        Nat.add_le_add_left (Nat.min_le_right _ _) _⟩
    · exact ⟨Nat.lt_add_of_pos_right pos, le_rfl⟩
  · rw [if_neg whole]
    dsimp only
    omega

theorem takeCpus_tmpCpt (task : threadsPerCore < d.cpusPerTask → 0 < st.tmpCpt)
    (long : threadsPerCore < d.cpusPerTask) : 0 < (takeCpus d threadsPerCore st).tmpCpt := by
  have some_ := task long
  unfold takeCpus
  by_cases whole : threadsPerCore ≤ st.availCpus
  · rw [if_pos whole]
    dsimp only
    split_ifs <;> omega
  · rw [if_neg whole]
    exact some_

theorem onSocket_insert {kept : Finset Nat} {c : Nat} (fresh : c ∉ kept) (i : Nat) :
    (onSocket r (insert c kept) i).card =
      (onSocket r kept i).card + if c / r.cores = i then 1 else 0 := by
  unfold onSocket
  rw [Finset.filter_insert]
  split_ifs with here
  · exact Finset.card_insert_of_notMem fun mem => fresh (Finset.mem_filter.mp mem).1
  · rfl

theorem Tally.entered (tally : Tally d r threadsPerCore cps next free st)
    (other : st.si ≠ next / r.cores) : (onSocket r st.kept (next / r.cores)).card = 0 := by
  refine Finset.card_eq_zero.mpr (Finset.filter_eq_empty_iff.mpr fun c mem here => other ?_)
  obtain ⟨recent, le, before, socket⟩ := tally.last c mem
  have low := Nat.div_le_div_right (c := r.cores) le
  have high := Nat.div_le_div_right (c := r.cores) before.le
  omega

theorem Tally.take (tally : Tally d r threadsPerCore cps next free st) (left : 0 < st.availCpus)
    (pos : 0 < threadsPerCore) (some_ : 0 < st.free.getD (next / r.cores) 0)
    (open_ : st.si = next / r.cores → st.cpuCnt < cps) :
    Tally d r threadsPerCore cps (next + 1) free
      (takeCore d threadsPerCore st next (next / r.cores)) := by
  have fresh : next ∉ st.kept := fun mem => by
    obtain ⟨recent, le, before, _⟩ := tally.last next mem
    omega
  have counted := takeCpus_cpuCount (d := d) { st with
      si := next / r.cores
      cpuCnt := if st.si = next / r.cores then st.cpuCnt + threadsPerCore else threadsPerCore
      free := st.free.set (next / r.cores) (st.free.getD (next / r.cores) 0 - 1)
      kept := insert next st.kept } left pos tally.task
  refine ⟨?_, ?_, ?_, ?_, ?_, ?_, ?_⟩
  · intro i
    rw [takeCore, takeCpus_free, takeCpus_kept]
    rw [onSocket_insert fresh, getD_set _ _ _ _ (lt_length some_), ← tally.taken i]
    split_ifs with here
    · subst here
      omega
    · rfl
  · intro c mem
    rw [takeCore, takeCpus_kept] at mem
    rw [takeCore, takeCpus_si]
    refine ⟨next, ?_, Nat.lt_succ_self next, rfl⟩
    rcases Finset.mem_insert.mp mem with rfl | before
    · exact Nat.le_refl c
    · obtain ⟨recent, le, earlier, _⟩ := tally.last c before
      exact le.trans earlier.le
  · rw [takeCore, takeCpus_cpuCnt, takeCpus_si, takeCpus_kept]
    dsimp only
    rw [onSocket_insert fresh, if_pos rfl, Nat.mul_add, Nat.mul_one]
    split_ifs with same
    · rw [tally.socket, same]
    · rw [tally.entered same, Nat.mul_zero, Nat.zero_add]
  · intro i
    rw [takeCore, takeCpus_kept]
    rw [onSocket_insert fresh]
    split_ifs with here
    · subst here
      by_cases same : st.si = next / r.cores
      · have room : threadsPerCore * (onSocket r st.kept (next / r.cores)).card < cps := by
          rw [← same, ← tally.socket]
          exact open_ same
        refine le_max_of_le_right (Nat.succ_le_of_lt (lt_of_not_ge fun full => ?_))
        exact absurd ((ceilDiv_le_iff_le_mul pos).mp full) (Nat.not_le_of_lt room)
      · rw [tally.entered same]
        exact le_max_left _ _
    · exact tally.limit i
  · exact takeCpus_tmpCpt tally.task
  · rw [takeCore, takeCpus_kept]
    rw [Finset.card_insert_of_notMem fresh, Nat.mul_add, Nat.mul_one]
    exact counted.2.trans (Nat.add_le_add_right tally.most _)
  · intro _
    exact Nat.zero_lt_of_lt counted.1

theorem Tally.core (tally : Tally d r threadsPerCore cps next free st) (left : 0 < st.availCpus)
    (pos : 0 < threadsPerCore) :
    Tally d r threadsPerCore cps (next + 1) free (core d r threadsPerCore cps coreMap st next) := by
  unfold Scan.core
  by_cases closed : next ∉ coreMap ∨ st.free.getD (next / r.cores) 0 = 0
  · rw [if_pos closed]
    exact tally.skip
  · rw [if_neg closed]
    split_ifs with full
    · exact tally.skip
    · refine tally.take left pos (Nat.pos_of_ne_zero (not_or.mp closed).2) fun same => ?_
      exact Nat.lt_of_not_le fun more => full ⟨same, more⟩

theorem Tally.cores (count : Nat) (tally : Tally d r threadsPerCore cps next free st)
    (pos : 0 < threadsPerCore) :
    ∃ last, last ≤ next + count ∧ Tally d r threadsPerCore cps last free
      (cores d r threadsPerCore cps coreMap (List.range' next count) st) := by
  induction count generalizing next st with
  | zero => exact ⟨next, le_rfl, tally⟩
  | succ count ih =>
    rw [range'_succ, Scan.cores]
    split_ifs with done
    · exact ⟨next, Nat.le_add_right _ _, tally⟩
    · obtain ⟨last, le, after⟩ := ih (tally.core (Nat.pos_of_ne_zero done) pos)
      exact ⟨last, by omega, after⟩

end Scan

/-! ## What the call leaves -/

theorem countTasks_positive {threadsPerCore : Nat} {free : List Nat}
    (tasks : (countTasks d threadsPerCore free).1 ≠ 0) : 0 < threadsPerCore := by
  refine Nat.pos_of_ne_zero fun none_ => tasks ?_
  subst none_
  have nothing : (free.map fun cores => if d.ntasksPerSocket ≠ 0
      then min (cores * 0) d.ntasksPerSocket else cores * 0).sum = 0 := by
    refine sum_eq_zero fun count mem => ?_
    obtain ⟨cores, _, rfl⟩ := mem_map.mp mem
    simp
  unfold countTasks
  simp only [nothing, Nat.zero_min, ite_self]
  split_ifs <;> rfl

section Taken

variable (d : JobDetails) (r : NodeRes) (maxCpusPerNode : Option Nat) (coreMap : Finset Nat)
    (partCoreMap : Option (Finset Nat)) (entire : Bool)

theorem takeCores_tally :
    takeCores d r maxCpusPerNode coreMap partCoreMap entire = (0, ∅) ∨
      ∃ numTasks last st, 0 < d.crCpusPerCore r ∧ last ≤ r.coreCnt ∧
        Scan.Tally d r (d.crCpusPerCore r) (cpusPerSocket d numTasks) last
          (dropSmall d (freeCores r maxCpusPerNode coreMap partCoreMap entire)) st ∧
        takeCores d r maxCpusPerNode coreMap partCoreMap entire = (st.cpuCount, st.kept) := by
  unfold takeCores
  dsimp only
  split_ifs with unusable few
  · exact Or.inl rfl
  · exact Or.inl rfl
  · have positive := countTasks_positive (not_or.mp few).2
    obtain ⟨last, le, tally⟩ := (Scan.Tally.start (d := d) (r := r) _ _).cores r.coreCnt positive
    rw [Nat.zero_add] at le
    rw [← range_eq_range'] at tally
    exact Or.inr ⟨_, last, _, positive, le, tally, rfl⟩

theorem takeCores_cpus :
    (takeCores d r maxCpusPerNode coreMap partCoreMap entire).1 ≤
        d.crCpusPerCore r * (takeCores d r maxCpusPerNode coreMap partCoreMap entire).2.card ∧
      ((takeCores d r maxCpusPerNode coreMap partCoreMap entire).1 = 0 ↔
        (takeCores d r maxCpusPerNode coreMap partCoreMap entire).2 = ∅) := by
  rcases takeCores_tally d r maxCpusPerNode coreMap partCoreMap entire with
    nothing | ⟨numTasks, last, st, _, _, tally, result⟩
  · rw [nothing]
    exact ⟨Nat.zero_le _, iff_of_true rfl rfl⟩
  · rw [result]
    refine ⟨tally.most, fun none_ => ?_, fun empty => ?_⟩
    · by_contra some_
      exact absurd none_ (tally.least some_).ne'
    · have most := tally.most
      dsimp only at empty
      rw [empty, Finset.card_empty, Nat.mul_zero] at most
      exact Nat.le_zero.mp most

theorem takeCores_card_le :
    (takeCores d r maxCpusPerNode coreMap partCoreMap entire).2.card ≤
      (freeCores r maxCpusPerNode coreMap partCoreMap entire).sum := by
  rcases takeCores_tally d r maxCpusPerNode coreMap partCoreMap entire with
    nothing | ⟨numTasks, last, st, _, le, tally, result⟩
  · rw [nothing]
    exact Nat.zero_le _
  · rw [result]
    refine Nat.le_trans ?_ (dropSmall_sum_le (d := d) _)
    have mem : st.kept ⊆ Finset.range r.coreCnt := by
      intro c member
      obtain ⟨recent, before, below, _⟩ := tally.last c member
      exact Finset.mem_range.mpr (before.trans_lt (below.trans_le le))
    rw [card_eq_sum_onSocket mem, ← sum_getD]
    have length : (dropSmall d (freeCores r maxCpusPerNode coreMap partCoreMap entire)).length =
        r.sockets := by
      rw [dropSmall, length_map, freeCores_length]
    rw [length]
    exact Finset.sum_le_sum fun i _ => tally.taken i ▸ Nat.le_add_right _ _

theorem takeCores_limit {most : Nat}
    (some_ : (takeCores d r (some most) coreMap partCoreMap entire).2 ≠ ∅) :
    r.vpus * (takeCores d r (some most) coreMap partCoreMap entire).2.card +
      r.vpus * (usedByPartition r coreMap partCoreMap).card ≤ most := by
  have few := takeCores_card_le d r (some most) coreMap partCoreMap entire
  rcases freeCores_limit coreMap partCoreMap entire most with none_ | kept
  · rw [none_] at few
    exact absurd (Finset.card_eq_zero.mp (Nat.le_zero.mp few)) some_
  · refine Nat.le_trans ?_ kept
    rw [Nat.mul_comm r.vpus, Nat.mul_comm r.vpus]
    exact Nat.add_le_add_right (Nat.mul_le_mul_right _ few) _

theorem cpusPerSocket_le (limited : 1 ≤ d.ntasksPerSocket) (numTasks : Nat) :
    cpusPerSocket d numTasks ≤ d.ntasksPerSocket * max d.cpusPerTask 1 := by
  unfold cpusPerSocket
  split_ifs with many
  · rw [max_eq_left many.le]
    exact Nat.mod_le _ _
  · exact Nat.le_mul_of_pos_right _ (Nat.lt_of_lt_of_le Nat.one_pos (le_max_right _ _))

theorem takeCores_socket (limited : 1 ≤ d.ntasksPerSocket) (i : Nat) :
    (onSocket r (takeCores d r maxCpusPerNode coreMap partCoreMap entire).2 i).card ≤
      d.ntasksPerSocket * max d.cpusPerTask 1 ⌈/⌉ d.crCpusPerCore r := by
  rcases takeCores_tally d r maxCpusPerNode coreMap partCoreMap entire with
    nothing | ⟨numTasks, last, st, pos, _, tally, result⟩
  · rw [nothing]
    exact Nat.zero_le _
  · rw [result]
    have covered : d.ntasksPerSocket * max d.cpusPerTask 1 ≤
        d.crCpusPerCore r * (d.ntasksPerSocket * max d.cpusPerTask 1 ⌈/⌉ d.crCpusPerCore r) :=
      (ceilDiv_le_iff_le_mul pos).mp le_rfl
    have some_ : 1 ≤ d.ntasksPerSocket * max d.cpusPerTask 1 :=
      Nat.mul_pos limited (Nat.lt_of_lt_of_le Nat.one_pos (le_max_right _ _))
    refine (tally.limit i).trans (max_le ?_ ?_)
    · refine Nat.pos_of_ne_zero fun none_ => ?_
      rw [none_, Nat.mul_zero] at covered
      exact absurd some_ (Nat.not_le_of_lt (Nat.lt_succ_of_le covered))
    · exact (ceilDiv_le_iff_le_mul pos).mpr ((cpusPerSocket_le d limited numTasks).trans covered)

end Taken

theorem reserveThreads_le (d : JobDetails) (r : NodeRes) (cpuCount : Nat) :
    reserveThreads d r cpuCount ≤ cpuCount := by
  unfold reserveThreads
  dsimp only
  split_ifs
  · exact le_rfl
  · exact Nat.sub_le _ _
  · exact le_rfl

namespace System

variable (sys : System) (d : JobDetails) (maxCpusPerNode : Option Nat) (node : Nat)
    (coreMap : CoreMap) (partCoreMap : Option CoreMap) (entireSocketsOnly : Bool)

/-- What `_allocate_sc` promises of the CPUs it answers and the bitmap it leaves. -/
structure Exact (cpus : Nat) (after : CoreMap) : Prop where
  /-- No bit of another node changes. -/
  others : ∀ other, other ≠ node → after other = coreMap other
  /-- The cores left set were set before. -/
  subset : after node ⊆ coreMap node
  /-- The CPUs are those of the cores left set. -/
  most : cpus ≤ d.crCpusPerCore (sys.record node) * (after node).card
  /-- Before CPUs are reserved for specialized threads there are none only if no core
  is left set. -/
  counted : ∃ cpuCount, cpus = reserveThreads d (sys.record node) cpuCount ∧
    (cpuCount = 0 ↔ after node = ∅)
  /-- Without specialized threads the answer is 0 only if no core is left set. -/
  zero : d.coreSpec = noVal16 ∨ d.coreSpec &&& coreSpecThread = 0 →
    (cpus = 0 ↔ after node = ∅)
  /-- A core is left set only within the limit of the partition. -/
  limit : ∀ most, maxCpusPerNode = some most → after node ≠ ∅ →
    (sys.record node).vpus * (after node).card + (sys.record node).vpus *
      (usedByPartition (sys.record node) (coreMap node) (partCoreMap.map (· node))).card ≤ most
  /-- Entire sockets have no core that counts as used. -/
  entire : entireSocketsOnly = true → ¬(d.wholeNode ≠ 0 ∧ d.coreSpec ≠ noVal16) →
    ∀ c ∈ after node, ∀ mate < (sys.record node).coreCnt,
      mate / (sys.record node).cores = c / (sys.record node).cores →
      mate ∈ coreMap node ∨ ∃ own, partCoreMap = some own ∧ mate ∉ own node
  /-- No socket keeps more than its tasks need, in whole cores. -/
  socket : 1 ≤ d.ntasksPerSocket → ∀ i, (onSocket (sys.record node) (after node) i).card ≤
    d.ntasksPerSocket * max d.cpusPerTask 1 ⌈/⌉ d.crCpusPerCore (sys.record node)

/-- `_allocate_sc` is exact on every node, for all bitmaps and layouts. -/
theorem allocateSc_exact :
    sys.Exact d maxCpusPerNode node coreMap partCoreMap entireSocketsOnly
      (sys.allocateSc d maxCpusPerNode node coreMap partCoreMap entireSocketsOnly).1
      (sys.allocateSc d maxCpusPerNode node coreMap partCoreMap entireSocketsOnly).2 := by
  generalize flag : (entireSocketsOnly && !decide (d.wholeNode ≠ 0 ∧ d.coreSpec ≠ noVal16)) = entire
  have taken : (sys.allocateSc d maxCpusPerNode node coreMap partCoreMap entireSocketsOnly).2 node =
      (takeCores d (sys.record node) maxCpusPerNode (coreMap node)
        (partCoreMap.map (· node)) entire).2 := by
    rw [← flag]
    exact Function.update_self ..
  have answer : (sys.allocateSc d maxCpusPerNode node coreMap partCoreMap entireSocketsOnly).1 =
      reserveThreads d (sys.record node) (takeCores d (sys.record node) maxCpusPerNode (coreMap node)
        (partCoreMap.map (· node)) entire).1 := by
    rw [← flag]
    rfl
  obtain ⟨most, zero⟩ := takeCores_cpus d (sys.record node) maxCpusPerNode (coreMap node)
    (partCoreMap.map (· node)) entire
  refine ⟨fun other different => Function.update_of_ne different _ _, ?_, ?_, ?_, ?_, ?_, ?_, ?_⟩
  · rw [taken]
    exact fun c inside => (takeCores_sound inside).1
  · rw [answer, taken]
    exact (reserveThreads_le d _ _).trans most
  · rw [taken]
    exact ⟨_, answer, zero⟩
  · intro unspecialized
    have whole : ∀ cpuCount, reserveThreads d (sys.record node) cpuCount = cpuCount := by
      intro cpuCount
      unfold reserveThreads
      rw [if_neg]
      rintro ⟨given, threads, _⟩
      exact unspecialized.elim given threads
    rw [answer, taken, whole]
    exact zero
  · rintro limit rfl
    rw [taken]
    exact takeCores_limit d _ _ _ _
  · intro asked plain c inside mate below same
    rw [taken] at inside
    have only : entire = true := by
      rw [← flag, asked, decide_eq_false plain]
      rfl
    subst only
    by_cases opened : mate ∈ coreMap node
    · exact Or.inl opened
    · have free := (takeCores_sound inside).2
      rw [← same] at free
      obtain ⟨own, mapped, outside⟩ := freeCores_entire free (mem_socketCores below) opened
      obtain ⟨map, given, rfl⟩ := Option.map_eq_some_iff.mp mapped
      exact Or.inr ⟨map, given, outside⟩
  · rw [taken]
    exact takeCores_socket d _ _ _ _ _

/-- A node of one socket with two cores. -/
def twoCores : System where
  nodeCount := 1
  record := fun _ => ⟨2, 1, 1, 2, 1, 1, none⟩
  positive := fun _ => by decide
  partList := [0]
  maxCpusPerNode := fun _ => none
  priorityTier := fun _ => 1
  useSpecResources := true
  specCoresFirst := true
  coreDefaultDistBlock := false

/-- A job that leaves cores or threads to the system. -/
def specialized (coreSpec wholeNode : Nat) : JobDetails where
  coreSpec := coreSpec
  cpusPerTask := 1
  minCpus := 1
  minNodes := 1
  mcPtr := none
  ntasksPerNode := 0
  numTasks := 1
  overcommit := false
  pnMinCpus := 0
  reqNodeBitmap := none
  shareRes := 254
  taskDist := 1
  wholeNode := wholeNode

/-- Two specialized threads leave no CPU but both cores; cores that the partition
shares are open, although with those in use they exceed its limit; and a specialized
job on whole nodes is given a core next to one in use. -/
theorem allocateSc_exact_fails :
    (let result := twoCores.allocateSc (specialized 0x8002 0) none 0 (fun _ => {0, 1}) none false
     result.1 = 0 ∧ result.2 0 ≠ ∅) ∧
    (let result := twoCores.allocateSc (specialized noVal16 0) (some 2) 0 (fun _ => {0, 1})
      (some fun _ => {0, 1}) false
     2 < (result.2 0).card * 1 + ({0, 1} : Finset Nat).card * 1) ∧
    (let result := twoCores.allocateSc (specialized 1 1) none 0 (fun _ => {0}) none true
     0 ∈ result.2 0 ∧ (countSocket (twoCores.record 0) {0} none 0).used ≠ 0) := by
  decide

end System

end SlurmSim.Select
