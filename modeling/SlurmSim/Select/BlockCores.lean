import SlurmSim.Select.AllocateExact
import SlurmSim.Select.BlockBoards
import SlurmSim.Select.DistCharge

/-!
# The cores of a block distribution

`_block_sync_core_bitmap` empties the sockets of the best-fit boards, the largest
first unless one socket has all required cores, so that it uses as few as there can be.
-/

namespace SlurmSim.Select

open SlurmSim.Lib List

variable {d : JobDetails} {crType : CrType} {r : NodeRes} {vpus : Nat} {bits : Finset Nat}

/-! ## Whole tasks -/

/-- Tasks with cores of their own get all their CPUs. -/
def Taken.Whole (d : JobDetails) (vpus : Nat) (st : Taken) : Prop :=
  d.ntasksPerCore = 1 → vpus < d.cpusPerTask → st.cpus = 0 ∨
    0 < st.tmpCpt ∧ st.tmpCpt ≤ d.cpusPerTask ∧ ∃ tasks, st.cpus = st.tmpCpt + tasks * d.cpusPerTask

theorem coresFor_mul (own : d.ntasksPerCore = 1 ∧ vpus < d.cpusPerTask) (tasks : Nat) :
    coresFor d vpus (tasks * d.cpusPerTask) = tasks * (d.cpusPerTask ⌈/⌉ vpus) := by
  rw [coresFor, if_pos own, Nat.mul_div_cancel _ (Nat.zero_lt_of_lt own.2), Nat.mul_mod_left,
    zero_ceilDiv, Nat.add_zero]

theorem Taken.coresLeft_tasks {st : Taken} (own : d.ntasksPerCore = 1 ∧ vpus < d.cpusPerTask)
    {tasks : Nat} (cpus : st.cpus = st.tmpCpt + tasks * d.cpusPerTask) :
    st.coresLeft d vpus = st.tmpCpt ⌈/⌉ vpus + tasks * (d.cpusPerTask ⌈/⌉ vpus) := by
  rw [Taken.coresLeft, cpus, Nat.add_sub_cancel_left, coresFor_mul own]
  rcases Nat.eq_zero_or_pos tasks with rfl | some_
  · rw [Nat.zero_mul, Nat.zero_mul, Nat.add_zero, if_neg (by omega), Nat.add_zero]
  · have more := Nat.mul_pos some_ (Nat.zero_lt_of_lt own.2)
    rw [if_pos ⟨own.1, own.2, by omega⟩]

theorem ceilDiv_eq_one {cpus : Nat} (some_ : 0 < cpus) (few : cpus ≤ vpus) : cpus ⌈/⌉ vpus = 1 := by
  exact Nat.div_eq_of_lt_le (by omega) (by omega)

/-- A core less is left. -/
theorem Taken.takeCore_exact {st : Taken} (pos : 0 < vpus) (some_ : st.cpus ≠ 0)
    (whole : st.Whole d vpus) :
    (st.takeCore d vpus).coresLeft d vpus + 1 = st.coresLeft d vpus ∧
      (st.takeCore d vpus).Whole d vpus := by
  by_cases own : d.ntasksPerCore = 1 ∧ vpus < d.cpusPerTask
  · obtain ⟨lacks, most, tasks, cpus⟩ := (whole own.1 own.2).resolve_left some_
    rw [Taken.coresLeft_tasks own cpus]
    unfold Taken.takeCore
    by_cases few : st.cpus < vpus
    · have none_ : tasks = 0 := by
        by_contra more
        have whole := Nat.le_mul_of_pos_left d.cpusPerTask (Nat.pos_of_ne_zero more)
        omega
      rw [if_pos few, Taken.coresLeft_of_zero rfl, none_, Nat.zero_mul,
        ceilDiv_eq_one lacks (by omega)]
      exact ⟨rfl, fun _ _ => Or.inl rfl⟩
    · rw [if_neg few]
      simp only [taskShare, if_pos own]
      rcases Nat.lt_or_ge vpus st.tmpCpt with less | last
      · have share : st.cpus - vpus = st.tmpCpt - vpus + tasks * d.cpusPerTask := by omega
        simp only [Nat.min_eq_right less.le, if_neg (Nat.not_le_of_lt less)]
        refine ⟨?_, fun _ _ => Or.inr ⟨by dsimp only; omega, by dsimp only; omega, tasks, share⟩⟩
        have left : Taken.coresLeft d vpus ⟨st.cpus - vpus, st.coreCnt + 1, st.tmpCpt - vpus⟩ =
            (st.tmpCpt - vpus) ⌈/⌉ vpus + tasks * (d.cpusPerTask ⌈/⌉ vpus) :=
          Taken.coresLeft_tasks own share
        rw [left, ← ceilDiv_sub pos less.le]
        omega
      · have rest : st.cpus - st.tmpCpt = tasks * d.cpusPerTask := by omega
        simp only [Nat.min_eq_left last, le_refl, if_true, rest, ceilDiv_eq_one lacks last]
        rcases Nat.eq_zero_or_pos tasks with rfl | more
        · rw [Nat.zero_mul, Nat.zero_mul, Taken.coresLeft_of_zero rfl]
          exact ⟨rfl, fun _ _ => Or.inl rfl⟩
        · obtain ⟨others, rfl⟩ := Nat.exists_eq_succ_of_ne_zero more.ne'
          have next : others.succ * d.cpusPerTask = d.cpusPerTask + others * d.cpusPerTask := by
            rw [Nat.succ_mul, Nat.add_comm]
          refine ⟨?_, fun _ _ => Or.inr ⟨Nat.zero_lt_of_lt own.2, le_rfl, others, next⟩⟩
          have left : Taken.coresLeft d vpus
              ⟨others.succ * d.cpusPerTask, st.coreCnt + 1, d.cpusPerTask⟩ =
              d.cpusPerTask ⌈/⌉ vpus + others * (d.cpusPerTask ⌈/⌉ vpus) :=
            Taken.coresLeft_tasks own next
          rw [left, Nat.succ_mul]
          omega
  · refine ⟨?_, fun one more => absurd ⟨one, more⟩ own⟩
    have simple : ∀ cpus coreCnt tmpCpt, Taken.coresLeft d vpus ⟨cpus, coreCnt, tmpCpt⟩ =
        cpus ⌈/⌉ vpus := fun _ _ _ => if_neg fun more => own ⟨more.1, more.2.1⟩
    unfold Taken.takeCore
    by_cases few : st.cpus < vpus
    · rw [if_pos few, simple, simple, zero_ceilDiv, ceilDiv_eq_one (by omega) few.le]
    · rw [if_neg few, taskShare, if_neg own, simple, simple, ceilDiv_sub pos (by omega)]

/-! ## The cores of one socket -/

section Socket

variable {s : Nat} {st : BlockState}

/-- What the cores of a socket leave of those that are required. -/
structure SocketExact (d : JobDetails) (crType : CrType) (vpus : Nat) (list : List Nat)
    (st st' : BlockState) : Prop where
  whole : st'.taken.Whole d vpus
  left : st'.taken.cpus ≠ 0 →
    st'.taken.coresLeft d vpus + list.countP (· ∈ st.bits) = st.taken.coresLeft d vpus
  cores : crType ≠ .socket →
    st'.taken.coreCnt + st'.taken.coresLeft d vpus = st.taken.coreCnt + st.taken.coresLeft d vpus
  counted : crType ≠ .socket →
    st'.taken.coreCnt = st.taken.coreCnt + list.countP (· ∈ st'.bits)

variable (crType s) in
theorem blockCore_exact (positive : 0 < vpus) (whole : st.taken.Whole d vpus) (j : Nat) :
    SocketExact d crType vpus [j] st (blockCore d crType vpus s st j) := by
  unfold blockCore
  by_cases done : st.taken.cpus = 0
  · rw [if_pos done]
    split_ifs with sockets
    · exact ⟨whole, fun more => absurd done more, fun other => absurd sockets other,
        fun other => absurd sockets other⟩
    · exact ⟨whole, fun more => absurd done more, fun _ => rfl, fun _ => by simp⟩
  · rw [if_neg done]
    by_cases found : j ∈ st.bits
    · rw [if_pos found]
      obtain ⟨less, whole'⟩ := Taken.takeCore_exact positive done whole
      have counts := st.taken.coreCnt_takeCore d vpus
      have one : [j].countP (· ∈ st.bits) = 1 := by simp [found]
      refine ⟨whole', fun _ => ?_, fun _ => ?_, fun _ => ?_⟩
      · rw [one]
        exact less
      · dsimp only
        omega
      · rw [one]
        exact counts
    · rw [if_neg found]
      have none_ : [j].countP (· ∈ st.bits) = 0 := by simp [found]
      split_ifs with sockets
      · refine ⟨whole, fun _ => ?_, fun other => absurd sockets other, fun other => absurd sockets other⟩
        rw [none_]
        rfl
      · refine ⟨whole, fun _ => ?_, fun _ => rfl, fun _ => ?_⟩
        · rw [none_]
          rfl
        · rw [none_]
          rfl

variable (crType s) in
theorem blockCores_exact (positive : 0 < vpus) (whole : st.taken.Whole d vpus) {list : List Nat}
    (nodup : list.Nodup) :
    SocketExact d crType vpus list st (list.foldl (blockCore d crType vpus s) st) := by
  induction list generalizing st with
  | nil => exact ⟨whole, fun _ => rfl, fun _ => rfl, fun _ => rfl⟩
  | cons j rest ih =>
    obtain ⟨notLater, nodup⟩ := nodup_cons.mp nodup
    have one := blockCore_exact crType s positive whole j
    have more := ih one.whole nodup
    have frame := (blockCores_frame d crType vpus s st [j]).2.1
    have last := (blockCores_frame d crType vpus s (blockCore d crType vpus s st j) rest).2.1
    have split : ∀ p : Nat → Bool, (j :: rest).countP p = [j].countP p + rest.countP p := by
      intro p
      rw [← countP_append, singleton_append]
    rw [foldl_cons]
    refine ⟨more.whole, fun wanted => ?_, fun other => ?_, fun other => ?_⟩
    · have wantedHere : (blockCore d crType vpus s st j).taken.cpus ≠ 0 :=
        fun none_ => wanted (blockCores_done none_ rest)
      have same : rest.countP (· ∈ (blockCore d crType vpus s st j).bits) =
          rest.countP (· ∈ st.bits) := by
        refine countP_congr fun k later => ?_
        have other : k ∉ [j] := fun isHere => notLater (mem_singleton.mp isHere ▸ later)
        simpa using frame k other
      have first := one.left wantedHere
      have second := more.left wanted
      rw [split]
      omega
    · exact (more.cores other).trans (one.cores other)
    · have same : [j].countP (· ∈ (rest.foldl (blockCore d crType vpus s)
          (blockCore d crType vpus s st j)).bits) =
          [j].countP (· ∈ (blockCore d crType vpus s st j).bits) := by
        refine countP_congr fun k isHere => ?_
        rw [mem_singleton.mp isHere]
        simpa using last j notLater
      rw [more.counted other, one.counted other, split, same, Nat.add_assoc]

end Socket

/-! ## The socket with the best fit -/

/-- The best of the sockets seen: one that suffices, or the largest. -/
def BestFit.Fits (reqCores : Nat) (count : Nat → Nat) (seen : List Nat) (best : BestFit) : Prop :=
  best.cores = 0 ∧ (∀ s ∈ seen, count s = 0) ∨
    best.location ∈ seen ∧ best.cores = count best.location ∧ best.cores ≠ 0 ∧
      best.sufficient = decide (reqCores ≤ best.cores) ∧
      (best.sufficient = true ∨ ∀ s ∈ seen, count s ≤ best.cores)

theorem BestFit.Fits.next {reqCores : Nat} {count : Nat → Nat} {seen : List Nat} {best : BestFit}
    (pos : 0 < reqCores) (fits : best.Fits reqCores count seen) (s : Nat) :
    (best.next reqCores count s).Fits reqCores count (seen ++ [s]) := by
  have seenHere : ∀ {most : Nat}, (∀ t ∈ seen, count t ≤ most) → count s ≤ most →
      ∀ t ∈ seen ++ [s], count t ≤ most := by
    intro most before here t mem
    rcases mem_append.mp mem with earlier | isHere
    · exact before t earlier
    · exact mem_singleton.mp isHere ▸ here
  unfold BestFit.next
  dsimp only
  split_ifs with better
  · rcases Nat.eq_zero_or_pos (count s) with none_ | some_
    · left
      refine ⟨none_, fun t mem => Nat.le_zero.mp (seenHere (fun t earlier => ?_) none_.le t mem)⟩
      rcases fits with ⟨_, zero⟩ | ⟨_, _, cores, _⟩
      · exact (zero t earlier).le
      · have small : ¬reqCores ≤ count s := by omega
        simp only [small, decide_false, Bool.false_eq_true, false_and, false_or] at better
        omega
    · right
      refine ⟨mem_append_right _ mem_cons_self, rfl, some_.ne', rfl, ?_⟩
      by_cases enough : reqCores ≤ count s
      · exact Or.inl (decide_eq_true enough)
      · right
        refine seenHere (fun t earlier => ?_) le_rfl
        rcases fits with ⟨_, zero⟩ | ⟨_, _, cores, sufficient, suffices_ | largest⟩
        · rw [zero t earlier]
          exact Nat.zero_le _
        · rw [suffices_, eq_comm, decide_eq_true_iff] at sufficient
          simp only [enough, decide_false, Bool.false_eq_true, false_and, false_or] at better
          omega
        · simp only [enough, decide_false, Bool.false_eq_true, false_and, false_or] at better
          have le := largest t earlier
          dsimp only
          omega
  · rcases fits with ⟨none_, _⟩ | ⟨location, cores, some_, sufficient, fit⟩
    · exact absurd (Or.inl none_) better
    · right
      refine ⟨mem_append_left _ location, cores, some_, sufficient, ?_⟩
      by_cases suffices_ : best.sufficient = true
      · exact Or.inl suffices_
      · right
        refine seenHere (fit.resolve_left suffices_) ?_
        simp only [some_, suffices_, and_true, false_or, not_or, decide_eq_true_eq,
          decide_eq_false_iff_not] at better
        omega

theorem bestFit_fits {reqCores : Nat} (pos : 0 < reqCores) (count : Nat → Nat)
    (sockets : List Nat) :
    (sockets.foldl (BestFit.next reqCores count) ⟨0, 0, false⟩).Fits reqCores count sockets := by
  have fold : ∀ (rest seen : List Nat) (best : BestFit), best.Fits reqCores count seen →
      (rest.foldl (BestFit.next reqCores count) best).Fits reqCores count (seen ++ rest) := by
    intro rest
    induction rest with
    | nil =>
      intro seen best fits
      rwa [append_nil]
    | cons s rest ih =>
      intro seen best fits
      have next := ih (seen ++ [s]) _ (fits.next pos s)
      rwa [append_assoc, singleton_append] at next
  exact fold sockets [] ⟨0, 0, false⟩ (Or.inl ⟨rfl, by simp⟩)

/-! ## The loop over sockets -/

theorem onSocket_card (mem : bits ⊆ Finset.range r.coreCnt) (s : Nat) :
    (onSocket r bits s).card = socketsCoreCnt r bits s := by
  have nodup : ((r.socketCores s).filter (· ∈ bits)).Nodup := (nodup_socketCores r s).filter _
  rw [socketsCoreCnt, countP_eq_length_filter, ← toFinset_card_of_nodup nodup]
  congr 1
  ext j
  simp only [onSocket, Finset.mem_filter, mem_toFinset, mem_filter, decide_eq_true_eq]
  constructor
  · rintro ⟨member, rfl⟩
    exact ⟨mem_socketCores (Finset.mem_range.mp (mem member)), member⟩
  · rintro ⟨here, member⟩
    exact ⟨member, div_of_mem_socketCores here⟩

theorem card_filter_sockets (mem : bits ⊆ Finset.range r.coreCnt) (sockets : Finset Nat) :
    (bits.filter (· / r.cores ∈ sockets)).card = ∑ s ∈ sockets, socketsCoreCnt r bits s := by
  have maps : ∀ j ∈ bits.filter (· / r.cores ∈ sockets), j / r.cores ∈ sockets :=
    fun j member => (Finset.mem_filter.mp member).2
  rw [Finset.card_eq_sum_card_fiberwise maps]
  refine Finset.sum_congr rfl fun s isSocket => ?_
  rw [← onSocket_card mem, onSocket, Finset.filter_filter]
  congr 1
  refine Finset.filter_congr fun j _ => ⟨And.right, fun same => ⟨?_, same⟩⟩
  rw [same]
  exact isSocket

/-- The loop so far: the largest sockets are used up. -/
structure BlockState.Fills (d : JobDetails) (crType : CrType) (r : NodeRes) (vpus : Nat)
    (bits : Finset Nat) (sockets : List Nat) (reqCores : Nat) (st : BlockState) : Prop where
  between : st.Between r bits
  grown : Grown crType r bits st.bits
  whole : st.taken.Whole d vpus
  top : IsTop (socketsCoreCnt r bits) sockets.toFinset st.used
  left : st.taken.coresLeft d vpus + ∑ s ∈ st.used, socketsCoreCnt r bits s = reqCores
  cores : crType ≠ .socket → st.taken.coreCnt + st.taken.coresLeft d vpus = reqCores
  counted : crType ≠ .socket → st.taken.coreCnt = ∑ s ∈ st.used, socketsCoreCnt r st.bits s

/-- What the loop leaves. -/
structure BlockState.Filled (crType : CrType) (r : NodeRes) (bits : Finset Nat)
    (sockets : List Nat) (reqCores : Nat) (st : BlockState) : Prop where
  grown : Grown crType r bits st.bits
  used : st.used ⊆ sockets.toFinset
  fewest : ∀ some_ ⊆ sockets.toFinset, reqCores ≤ ∑ s ∈ some_, socketsCoreCnt r bits s →
    st.used.card ≤ some_.card
  onUsed : ∀ j ∈ st.bits, j / r.cores ∈ st.used
  cores : crType ≠ .socket → st.taken.coreCnt = reqCores ∧ st.bits.card = reqCores

namespace BlockState.Fills

variable {sockets : List Nat} {reqCores : Nat} {st : BlockState}

theorem bestFit_ne_zero (fills : st.Fills d crType r vpus bits sockets reqCores)
    (pos : 0 < vpus) (more : st.taken.cpus ≠ 0)
    (enough : reqCores ≤ ∑ s ∈ sockets.toFinset, socketsCoreCnt r bits s) :
    ∃ s ∈ sockets, st.count s ≠ 0 := by
  by_contra none_
  push Not at none_
  have spent : ∑ s ∈ sockets.toFinset, socketsCoreCnt r bits s =
      ∑ s ∈ st.used, socketsCoreCnt r bits s := by
    refine (Finset.sum_subset fills.top.subset fun s inList notUsed => ?_).symm
    rw [← fills.between.counts s notUsed]
    exact none_ s (mem_toFinset.mp inList)
  have some_ := (ceilDiv_pos pos more).trans_le (st.taken.ceilDiv_le_coresLeft d vpus)
  have left := fills.left
  omega

theorem sum_insert {s : Nat} {st' : BlockState} (notUsed : s ∉ st.used)
    (same : ∀ other ∈ st.used, socketsCoreCnt r st'.bits other = socketsCoreCnt r st.bits other) :
    ∑ other ∈ insert s st.used, socketsCoreCnt r st'.bits other =
      ∑ other ∈ st.used, socketsCoreCnt r st.bits other + socketsCoreCnt r st'.bits s := by
  rw [Finset.sum_insert notUsed, Nat.add_comm, Finset.sum_congr rfl same]

theorem ok (fills : st.Fills d crType r vpus bits sockets reqCores) : st.Ok crType r bits := by
  refine ⟨fills.grown, fun s => ?_⟩
  by_cases isUsed : s ∈ st.used
  · rw [fills.between.spent s isUsed]
    exact Nat.zero_le _
  · exact (fills.between.counts s isUsed).le

end BlockState.Fills

/-- What the cores of a socket `s` leave, which was not used before. -/
structure BlockState.Emptied (d : JobDetails) (crType : CrType) (r : NodeRes) (vpus : Nat)
    (bits : Finset Nat) (reqCores s : Nat) (st next : BlockState) : Prop where
  used : next.used = insert s st.used
  grown : Grown crType r bits next.bits
  whole : next.taken.Whole d vpus
  left : next.taken.cpus ≠ 0 →
    next.taken.coresLeft d vpus + socketsCoreCnt r bits s = st.taken.coresLeft d vpus
  cores : crType ≠ .socket → next.taken.coreCnt + next.taken.coresLeft d vpus = reqCores
  counted : crType ≠ .socket → next.taken.coreCnt = ∑ s ∈ next.used, socketsCoreCnt r next.bits s

section Turn

variable {sockets : List Nat} {reqCores s : Nat} {st next : BlockState}

theorem BlockState.Fills.emptied (fills : st.Fills d crType r vpus bits sockets reqCores)
    (pos : 0 < vpus) (count : 0 < st.count s) :
    st.Emptied d crType r vpus bits reqCores s (blockSocket d crType r vpus s st) := by
  have notUsed := fills.between.fresh count
  have whole : ({ st with used := insert s st.used } : BlockState).taken.Whole d vpus := fills.whole
  have exact_ := blockCores_exact crType s pos whole (nodup_socketCores r s)
  obtain ⟨_, frame, used⟩ := blockCores_frame d crType vpus s
    { st with used := insert s st.used } (r.socketCores s)
  rw [← blockSocket] at exact_ frame used
  have here : (r.socketCores s).countP (· ∈ st.bits) = socketsCoreCnt r bits s :=
    countP_congr fun j inSocket => by
      simpa using fills.between.same s notUsed j inSocket
  have others : ∀ other ∈ st.used, socketsCoreCnt r (blockSocket d crType r vpus s st).bits other =
        socketsCoreCnt r st.bits other := by
    intro other isUsed
    have ne : other ≠ s := fun same => notUsed (same ▸ isUsed)
    refine countP_congr fun j inSocket => ?_
    have apart : j ∉ r.socketCores s := fun both =>
      ne ((div_of_mem_socketCores inSocket).symm.trans (div_of_mem_socketCores both))
    simpa using frame j apart
  refine ⟨used, (fills.ok.socket count).grown, exact_.whole, fun more => ?_, fun apart => ?_,
    fun apart => ?_⟩
  · rw [← here]
    exact exact_.left more
  · exact (exact_.cores apart).trans (fills.cores apart)
  · rw [used, BlockState.Fills.sum_insert notUsed others, ← fills.counted apart]
    exact exact_.counted apart

namespace BlockState.Emptied

theorem card_used (emptied : st.Emptied d crType r vpus bits reqCores s next)
    (notUsed : s ∉ st.used) : next.used.card = st.used.card + 1 := by
  rw [emptied.used, Finset.card_insert_of_notMem notUsed]

theorem filled (emptied : st.Emptied d crType r vpus bits reqCores s next)
    (fills : st.Fills d crType r vpus bits sockets reqCores) (pos : 0 < vpus)
    (mem : bits ⊆ Finset.range r.coreCnt) (more : st.taken.cpus ≠ 0) (notUsed : s ∉ st.used)
    (location : s ∈ sockets) (done : next.taken.cpus = 0) :
    ({ next with bits := next.bits.filter (· / r.cores ∈ next.used) } : BlockState).Filled
      crType r bits sockets reqCores := by
  have some_ := (ceilDiv_pos pos more).trans_le (st.taken.ceilDiv_le_coresLeft d vpus)
  have total := fills.left
  refine ⟨fun j member => emptied.grown j (Finset.mem_filter.mp member).1, ?_, ?_,
    fun j member => (Finset.mem_filter.mp member).2, fun apart => ?_⟩
  · rw [emptied.used]
    exact Finset.insert_subset (mem_toFinset.mpr location) fills.top.subset
  · intro places inSockets reaches
    rw [emptied.card_used notUsed]
    refine Nat.succ_le_of_lt (Nat.lt_of_not_le fun few => ?_)
    have small := fills.top.sum_le inSockets few
    omega
  · have all : next.taken.coreCnt = reqCores := by
      have cores := emptied.cores apart
      rwa [Taken.coresLeft_of_zero done, Nat.add_zero] at cores
    refine ⟨all, ?_⟩
    have within : next.bits ⊆ Finset.range r.coreCnt := by
      intro j member
      refine mem ((emptied.grown j member).resolve_right fun whole => ?_)
      exact apart whole.1
    rw [card_filter_sockets within, ← emptied.counted apart, all]

theorem fills (emptied : st.Emptied d crType r vpus bits reqCores s next)
    (fills : st.Fills d crType r vpus bits sockets reqCores) (pos : 0 < vpus)
    (between : next.Between r bits) (notUsed : s ∉ st.used) (location : s ∈ sockets)
    (fit : reqCores ≤ st.count s ∨ ∀ t ∈ sockets, st.count t ≤ st.count s)
    (more : next.taken.cpus ≠ 0) : next.Fills d crType r vpus bits sockets reqCores := by
  have left := emptied.left more
  have some_ := (ceilDiv_pos pos more).trans_le (next.taken.ceilDiv_le_coresLeft d vpus)
  have total := fills.left
  refine ⟨between, emptied.grown, emptied.whole, ?_, ?_, emptied.cores, emptied.counted⟩
  · rw [emptied.used]
    refine fills.top.insert (mem_toFinset.mpr location) fun other inSockets notIn => ?_
    rw [← fills.between.counts other notIn, ← fills.between.counts _ notUsed]
    refine fit.resolve_left (fun suffices_ => ?_) other (mem_toFinset.mp inSockets)
    rw [fills.between.counts _ notUsed] at suffices_
    omega
  · rw [emptied.used, Finset.sum_insert notUsed]
    omega

end BlockState.Emptied

end Turn

theorem blockSockets_fills {sockets : List Nat} {reqCores n : Nat} {st : BlockState}
    (pos : 0 < vpus) (required : 0 < reqCores) (mem : bits ⊆ Finset.range r.coreCnt)
    (enough : reqCores ≤ ∑ s ∈ sockets.toFinset, socketsCoreCnt r bits s)
    (fills : st.Fills d crType r vpus bits sockets reqCores) (more : st.taken.cpus ≠ 0)
    (fuel : r.sockets < n + st.used.card) :
    ∃ st', blockSockets d crType r vpus reqCores sockets n st = some st' ∧
      st'.Filled crType r bits sockets reqCores := by
  induction n generalizing st with
  | zero =>
    have few := Finset.card_le_card fills.between.used
    rw [Finset.card_range] at few
    omega
  | succ n ih =>
    rw [blockSockets, if_neg more]
    obtain ⟨busy, inList, some_⟩ := fills.bestFit_ne_zero pos more enough
    rcases bestFit_fits required st.count sockets with
      ⟨_, zero⟩ | ⟨location, cores, someCores, sufficient, fit⟩
    · exact absurd (zero busy inList) some_
    · rw [if_neg someCores]
      generalize sockets.foldl (BestFit.next reqCores st.count) ⟨0, 0, false⟩ = best
        at location cores someCores sufficient fit ⊢
      rw [sufficient, decide_eq_true_iff, cores] at fit
      have count : 0 < st.count best.location := by
        rw [← cores]
        exact Nat.pos_of_ne_zero someCores
      have notUsed := fills.between.fresh count
      have emptied := fills.emptied pos count
      by_cases done : (blockSocket d crType r vpus best.location st).taken.cpus = 0
      · rw [if_neg (not_not.mpr done)]
        exact ⟨_, rfl, emptied.filled fills pos mem more notUsed location done⟩
      · rw [if_pos done]
        have card := emptied.card_used notUsed
        have between := fills.between.socket mem count done
        exact ih (emptied.fills fills pos between notUsed location fit done) done (by omega)

/-! ## One node -/

theorem ceilDiv_eq_div_add (pos : 0 < vpus) (cpus : Nat) :
    cpus ⌈/⌉ vpus = cpus / vpus + if cpus % vpus ≠ 0 then 1 else 0 := by
  have whole := Nat.div_add_mod' cpus vpus
  have rest := Nat.mod_lt cpus pos
  split_ifs with some_
  · refine Nat.div_eq_of_lt_le ?_ ?_
    · rw [Nat.add_mul, Nat.one_mul]
      omega
    · rw [Nat.add_mul, Nat.add_mul, Nat.one_mul]
      omega
  · refine Nat.div_eq_of_lt_le ?_ ?_
    · rw [Nat.add_zero]
      omega
    · rw [Nat.add_zero, Nat.add_mul, Nat.one_mul]
      omega

/-- The CPUs are those of whole tasks where a task has its cores to itself. -/
def EntireTasks (d : JobDetails) (vpus cpus : Nat) : Prop :=
  d.ntasksPerCore = 1 → vpus < d.cpusPerTask → d.cpusPerTask ∣ cpus

theorem requiredCores_eq {cpus : Nat} (pos : 0 < vpus) (some_ : cpus ≠ 0)
    (tasks : EntireTasks d vpus cpus) :
    Taken.coresLeft d vpus ⟨cpus, 0, d.cpusPerTask⟩ = requiredCores d vpus cpus ∧
      Taken.Whole d vpus ⟨cpus, 0, d.cpusPerTask⟩ := by
  by_cases own : d.ntasksPerCore = 1 ∧ vpus < d.cpusPerTask
  · obtain ⟨n, rfl⟩ := tasks own.1 own.2
    have task := Nat.zero_lt_of_lt own.2
    have more : n ≠ 0 := by
      rintro rfl
      exact some_ (Nat.mul_zero _)
    obtain ⟨others, rfl⟩ := Nat.exists_eq_succ_of_ne_zero more
    have split : d.cpusPerTask * others.succ = d.cpusPerTask + others * d.cpusPerTask := by
      rw [Nat.mul_succ, Nat.mul_comm, Nat.add_comm]
    refine ⟨?_, fun _ _ => Or.inr ⟨task, le_rfl, others, split⟩⟩
    have left : Taken.coresLeft d vpus ⟨d.cpusPerTask * others.succ, 0, d.cpusPerTask⟩ =
        d.cpusPerTask ⌈/⌉ vpus + others * (d.cpusPerTask ⌈/⌉ vpus) :=
      Taken.coresLeft_tasks own split
    rw [left, requiredCores, if_pos own, Nat.mul_div_cancel_left _ task,
      ← Nat.ceilDiv_eq_add_pred_div, Nat.succ_mul, Nat.add_comm]
  · refine ⟨?_, fun one longer => absurd ⟨one, longer⟩ own⟩
    rw [Taken.coresLeft, if_neg fun more => own ⟨more.1, more.2.1⟩, requiredCores, if_neg own]
    exact ceilDiv_eq_div_add pos cpus

theorem requiredCores_pos {cpus : Nat} (pos : 0 < vpus) (some_ : cpus ≠ 0)
    (tasks : EntireTasks d vpus cpus) : 0 < requiredCores d vpus cpus := by
  rw [← (requiredCores_eq pos some_ tasks).1]
  exact (ceilDiv_pos pos some_).trans_le (Taken.ceilDiv_le_coresLeft d vpus ⟨cpus, 0, _⟩)

/-- The sockets with cores of a bitmap, and the boards these lie on. -/
def socketsOf (r : NodeRes) (bits : Finset Nat) : Finset Nat := bits.image (· / r.cores)

def boardsOf (r : NodeRes) (bits : Finset Nat) : Finset Nat :=
  (socketsOf r bits).image (· / sockPerBrd r)

/-- What `_block_sync_core_bitmap` leaves of a node. -/
structure BlockExact (d : JobDetails) (crType : CrType) (r : NodeRes) (share share' : NodeShare) :
    Prop where
  /-- Exactly the required cores are left of those that were set. -/
  cores : crType ≠ .socket → share'.bits ⊆ share.bits ∧
    share'.bits.card = requiredCores d (d.crCpusPerCore r) share.cpus
  /-- No fewer boards have the required cores. -/
  boards : ∀ boards ⊆ Finset.range r.boards,
    requiredCores d (d.crCpusPerCore r) share.cpus ≤
      ∑ s ∈ socketsOn r boards, socketsCoreCnt r share.bits s →
    (boardsOf r share'.bits).card ≤ boards.card
  /-- No fewer sockets of as few boards have them. -/
  sockets : ∀ boards ⊆ Finset.range r.boards,
    (∀ others ⊆ Finset.range r.boards, requiredCores d (d.crCpusPerCore r) share.cpus ≤
      ∑ s ∈ socketsOn r others, socketsCoreCnt r share.bits s → boards.card ≤ others.card) →
    ∀ sockets ⊆ socketsOn r boards, requiredCores d (d.crCpusPerCore r) share.cpus ≤
      ∑ s ∈ sockets, socketsCoreCnt r share.bits s →
    (socketsOf r share'.bits).card ≤ sockets.card
  cpus : crType = .core → 1 ≤ r.vpus → share'.cpus = share'.bits.card * r.vpus

variable (crType) in
theorem blockSyncNode_exact {share : NodeShare} (boarded : Boarded r)
    (inside : share.bits ⊆ Finset.range r.coreCnt) (positive : 0 < d.crCpusPerCore r)
    (some_ : share.cpus ≠ 0) (tasks : EntireTasks d (d.crCpusPerCore r) share.cpus)
    (enough : requiredCores d (d.crCpusPerCore r) share.cpus ≤ share.bits.card) :
    ∃ share', blockSyncNode d crType r share = some share' ∧
      BlockExact d crType r share share' := by
  have required := requiredCores_pos positive some_ tasks
  obtain ⟨left, whole⟩ := requiredCores_eq positive some_ tasks
  have total : requiredCores d (d.crCpusPerCore r) share.cpus ≤
      ∑ s ∈ Finset.range r.sockets, socketsCoreCnt r share.bits s := by
    refine enough.trans_eq ((card_eq_sum_onSocket inside).trans ?_)
    exact Finset.sum_congr rfl fun s _ => onSocket_card inside s
  obtain ⟨boards, sockets, found, best⟩ := bestSockets_best boarded required total
  have between : BlockState.Between r share.bits
      ⟨share.bits, socketsCoreCnt r share.bits, ∅, ⟨share.cpus, 0, d.cpusPerTask⟩⟩ :=
    ⟨fun _ _ => rfl, fun _ _ _ _ => Iff.rfl,
      fun _ used => absurd used (Finset.notMem_empty _), Finset.empty_subset _⟩
  have fills : BlockState.Fills d crType r (d.crCpusPerCore r) share.bits sockets
      (requiredCores d (d.crCpusPerCore r) share.cpus)
      ⟨share.bits, socketsCoreCnt r share.bits, ∅, ⟨share.cpus, 0, d.cpusPerTask⟩⟩ := by
    refine ⟨between, Grown.refl _, whole, IsTop.empty _ _, ?_, fun _ => ?_, fun _ => ?_⟩
    · rw [Finset.sum_empty, Nat.add_zero, left]
    · rw [Nat.zero_add, left]
    · rw [Finset.sum_empty]
  obtain ⟨st, loop, filled⟩ := blockSockets_fills positive required inside
    (best.toFinset ▸ best.enough) fills some_ (Nat.lt_succ_self _)
  obtain ⟨places, onBoards, reaches, least⟩ := best.least
  have usedSockets : socketsOf r st.bits ⊆ st.used := Finset.image_subset_iff.mpr filled.onUsed
  have usedBoards : boardsOf r st.bits ⊆ boards := by
    refine Finset.image_subset_iff.mpr fun s member => ?_
    have used := filled.used (usedSockets member)
    rw [best.toFinset] at used
    exact (Finset.mem_filter.mp used).2
  have result : blockSyncNode d crType r share = some
      { share with
        bits := st.bits
        cpus := adjustCpus crType r share.cpus st.taken.coreCnt } := by
    unfold blockSyncNode
    dsimp only
    rw [found]
    dsimp only
    rw [loop]
    rfl
  refine ⟨_, result, ?_, ?_, ?_, ?_⟩
  · intro apart
    refine ⟨fun j member => ?_, (filled.cores apart).2⟩
    exact (filled.grown j member).resolve_right fun whole => apart whole.1
  · intro others inBoards enoughThere
    exact (Finset.card_le_card usedBoards).trans (best.fewest others inBoards enoughThere)
  · intro others inBoards fewest some_ onOthers enoughThere
    have enoughOthers : requiredCores d (d.crCpusPerCore r) share.cpus ≤
        ∑ s ∈ socketsOn r others, socketsCoreCnt r share.bits s :=
      enoughThere.trans (Finset.sum_le_sum_of_subset onOthers)
    have same : others.card = boards.card :=
      le_antisymm (fewest boards best.inside best.enough)
        (best.fewest others inBoards enoughOthers)
    calc (socketsOf r st.bits).card ≤ st.used.card := Finset.card_le_card usedSockets
      _ ≤ places.card := filled.fewest places (best.toFinset ▸ onBoards) reaches
      _ ≤ some_.card := least others inBoards same some_ onOthers enoughThere
  · rintro rfl counted
    obtain ⟨cores, card⟩ := filled.cores CrType.noConfusion
    rw [adjustCpus, if_pos ⟨CrType.noConfusion, counted⟩, cores, card]

/-! ## All nodes of a job -/

/-- A node whose request `_block_sync_core_bitmap` can meet. -/
structure Meets (d : JobDetails) (r : NodeRes) (share : NodeShare) : Prop where
  boarded : Boarded r
  inside : share.bits ⊆ Finset.range r.coreCnt
  positive : 0 < d.crCpusPerCore r
  tasks : EntireTasks d (d.crCpusPerCore r) share.cpus
  enough : requiredCores d (d.crCpusPerCore r) share.cpus ≤ share.bits.card

variable (d crType) in
theorem blockSyncNode_zero {share : NodeShare} (boarded : Boarded r) (none_ : share.cpus = 0) :
    ∃ share', blockSyncNode d crType r share = some share' := by
  have required : requiredCores d (d.crCpusPerCore r) share.cpus = 0 := by
    rw [requiredCores, none_]
    simp
  have boards : 1 ≤ boardsNb r := boarded.boardsNb_eq.symm ▸ boarded.some_
  unfold blockSyncNode
  dsimp only
  rw [required]
  cases found : bestSockets r 0 (socketsCoreCnt r share.bits) with
  | none => exact absurd found (bestSockets_ne_none boards (Nat.zero_le _))
  | some sockets =>
    dsimp only
    rw [blockSockets, if_pos none_]
    exact ⟨_, rfl⟩

theorem syncNodes_some {sync : NodeShare → Option NodeShare} {shares : List NodeShare}
    {related : NodeShare → NodeShare → Prop}
    (each : ∀ share ∈ shares, ∃ share', sync share = some share' ∧ related share share') :
    ∃ shares', syncNodes sync shares = some shares' ∧ List.Forall₂ related shares shares' := by
  induction shares with
  | nil => exact ⟨[], rfl, .nil⟩
  | cons share rest ih =>
    obtain ⟨⟨share', here, isRelated⟩, more⟩ := forall_mem_cons.mp each
    obtain ⟨rest', others, areRelated⟩ := ih more
    refine ⟨share' :: rest', ?_, .cons isRelated areRelated⟩
    rw [syncNodes, here, others]

/-- `_block_sync_core_bitmap` ends without giving up, and every node with CPUs is left
exactly the cores they need, on as few boards and sockets as there can be. -/
theorem block_sync_exact (table : Nat → NodeRes) (d : JobDetails) (crType : CrType)
    (shares : List NodeShare) (meets : ∀ share ∈ shares, Meets d (table share.node) share) :
    ∃ shares', blockSyncCoreBitmap table d crType shares = some shares' ∧
      List.Forall₂ (fun share share' => share'.node = share.node ∧
        (share.cpus ≠ 0 → BlockExact d crType (table share.node) share share')) shares shares' := by
  unfold blockSyncCoreBitmap
  split_ifs with empty
  · refine ⟨shares, rfl, forall₂_same.mpr fun share member => ⟨rfl, fun some_ => ?_⟩⟩
    have met := meets share member
    have required := requiredCores_pos met.positive some_ met.tasks
    have enough := met.enough
    rw [empty share member, Finset.card_empty] at enough
    omega
  · refine syncNodes_some fun share member => ?_
    have met := meets share member
    by_cases none_ : share.cpus = 0
    · obtain ⟨share', synced⟩ := blockSyncNode_zero d crType met.boarded none_
      exact ⟨share', synced, (blockSyncNode_follows synced).node, fun some_ => absurd none_ some_⟩
    · obtain ⟨share', synced, exact_⟩ := blockSyncNode_exact crType met.boarded
        met.inside met.positive none_ met.tasks met.enough
      exact ⟨share', synced, (blockSyncNode_follows synced).node, fun _ => exact_⟩

/-- Tasks of three CPUs that have their cores to themselves. -/
def ownCores : JobDetails :=
  { pairedTasks with
    cpusPerTask := 3
    mcPtr := some ⟨noVal16, noVal16, 1, 0, noVal16, 0⟩ }

/-- Two boards with a socket of four cores each: two tasks of three CPUs on one of them. -/
theorem block_sync_exact_boards :
    ∃ shares', blockSyncCoreBitmap (fun _ => ⟨16, 2, 2, 4, 2, 2, none⟩) ownCores .core
        [⟨0, 6, {0, 1, 4, 5, 6, 7}⟩] = some shares' ∧
      List.Forall₂ (fun share share' => share'.node = share.node ∧
        (share.cpus ≠ 0 → BlockExact ownCores .core ⟨16, 2, 2, 4, 2, 2, none⟩ share share'))
        [⟨0, 6, {0, 1, 4, 5, 6, 7}⟩] shares' := by
  refine block_sync_exact (fun _ => ⟨16, 2, 2, 4, 2, 2, none⟩) ownCores .core
    [⟨0, 6, {0, 1, 4, 5, 6, 7}⟩] fun share member => ?_
  rw [mem_singleton.mp member]
  refine ⟨⟨by decide, by decide, by decide, by decide⟩, by decide, by decide, ?_, by decide⟩
  exact fun _ _ => by decide

/-- Two tasks of three CPUs with cores of their own keep four cores of two CPUs, where
three have the six; and a node without CPUs keeps its cores. -/
theorem block_sync_exact_fails :
    (blockSyncCoreBitmap (fun _ => ⟨8, 1, 1, 4, 2, 2, none⟩) ownCores .core
        [⟨0, 6, {0, 1, 2, 3}⟩]).map (List.map NodeShare.bits) = some [{0, 1, 2, 3}] ∧
      ownCores.crCpusPerCore ⟨8, 1, 1, 4, 2, 2, none⟩ = 2 ∧
      (blockSyncCoreBitmap (fun _ => ⟨2, 1, 1, 2, 1, 1, none⟩) pairedTasks .core
        [⟨0, 0, {0, 1}⟩]).map (List.map NodeShare.bits) = some [{0, 1}] := by
  decide

end SlurmSim.Select
