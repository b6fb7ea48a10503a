import Mathlib.Algebra.Order.Floor.Div
import SlurmSim.Select.TaskShares

/-!
# The CPUs that a distribution charges

`cr_dist` counts the CPUs of a job again.  Where cores or sockets are allocated,
the count goes up to all CPUs of the cores that are taken, and these can be more
than the CPUs that were found for the job.  This module bounds the new count.
-/

namespace SlurmSim.Select

open List

/-! ## Cores for CPUs -/

/-- The cores that CPUs are taken from.  A task that has its cores to itself uses
its last core in part. -/
def coresFor (d : JobDetails) (vpus cpus : Nat) : Nat :=
  if d.ntasksPerCore = 1 ∧ vpus < d.cpusPerTask then
    cpus / d.cpusPerTask * (d.cpusPerTask ⌈/⌉ vpus) + (cpus % d.cpusPerTask) ⌈/⌉ vpus
  else cpus ⌈/⌉ vpus

/-- The most CPUs that a node counts for after the cores are synchronized with
`cpus` CPUs of it. -/
def charged (d : JobDetails) (crType : CrType) (r : NodeRes) (cpus : Nat) : Nat :=
  let cores := coresFor d (d.crCpusPerCore r) cpus
  match crType with
  | .cpu => cpus
  | .core => max cpus (cores * r.vpus)
  | .socket => max cpus (min cores r.sockets * r.cores * r.vpus)

/-- The most CPUs that `cr_dist` leaves on a node on which it finds `cpus`. -/
def mostCpus (d : JobDetails) (crType : CrType) (exclusive : Bool) (r : NodeRes)
    (avail : Finset Nat) (cpus : Nat) : Nat :=
  if d.coreSpec ≠ noVal16 then cpus
  else if exclusive ∨ d.wholeNode = 1 then
    ((Finset.range r.coreCnt).filter (· ∈ avail)).card * r.vpus
  else if d.taskDist &&& 0xffff = 0x4 then charged d crType r cpus
  else charged d.someCpusPerTask crType r cpus

variable {d : JobDetails} {crType : CrType} {r : NodeRes} {vpus : Nat} {bits : Finset Nat}

variable {a b : Nat} {st st' : Taken}

theorem ceilDiv_mono (vpus : Nat) (le : a ≤ b) : a ⌈/⌉ vpus ≤ b ⌈/⌉ vpus := by
  exact Nat.div_le_div_right (by omega)

theorem ceilDiv_sub {cpus : Nat} (pos : 0 < vpus) (enough : vpus ≤ cpus) :
    (cpus - vpus) ⌈/⌉ vpus + 1 = cpus ⌈/⌉ vpus := by
  rw [Nat.ceilDiv_eq_add_pred_div, Nat.ceilDiv_eq_add_pred_div]
  have more : cpus + vpus - 1 = cpus - vpus + vpus - 1 + vpus := by omega
  rw [more, Nat.add_div_right _ pos]

theorem ceilDiv_pos {cpus : Nat} (pos : 0 < vpus) (some_ : cpus ≠ 0) :
    0 < cpus ⌈/⌉ vpus := by
  exact Nat.div_pos (by omega) pos

@[simp]
theorem coresFor_zero (d : JobDetails) (vpus : Nat) : coresFor d vpus 0 = 0 := by
  unfold coresFor
  split_ifs with own
  · rw [Nat.zero_div, Nat.zero_mod, zero_ceilDiv, Nat.zero_mul, Nat.add_zero]
  · exact zero_ceilDiv vpus

theorem coresFor_mono (d : JobDetails) (vpus : Nat) (le : a ≤ b) :
    coresFor d vpus a ≤ coresFor d vpus b := by
  unfold coresFor
  split_ifs with own
  · rcases Nat.lt_or_ge (a / d.cpusPerTask) (b / d.cpusPerTask) with fewer | same
    · have part : (a % d.cpusPerTask) ⌈/⌉ vpus ≤ d.cpusPerTask ⌈/⌉ vpus :=
        ceilDiv_mono vpus (Nat.mod_lt a (Nat.zero_lt_of_lt own.2)).le
      calc a / d.cpusPerTask * (d.cpusPerTask ⌈/⌉ vpus) + (a % d.cpusPerTask) ⌈/⌉ vpus
          ≤ (a / d.cpusPerTask + 1) * (d.cpusPerTask ⌈/⌉ vpus) := by
            rw [Nat.add_mul, Nat.one_mul]
            exact Nat.add_le_add_left part _
        _ ≤ b / d.cpusPerTask * (d.cpusPerTask ⌈/⌉ vpus) := Nat.mul_le_mul_right _ fewer
        _ ≤ _ := Nat.le_add_right _ _
    · have quotient : a / d.cpusPerTask = b / d.cpusPerTask :=
        le_antisymm (Nat.div_le_div_right le) same
      have rest : a % d.cpusPerTask ≤ b % d.cpusPerTask := by
        have whole := Nat.div_add_mod a d.cpusPerTask
        have whole' := Nat.div_add_mod b d.cpusPerTask
        rw [quotient] at whole
        omega
      rw [quotient]
      exact Nat.add_le_add_left (ceilDiv_mono vpus rest) _
  · exact ceilDiv_mono vpus le

theorem ceilDiv_le_coresFor (d : JobDetails) (vpus cpus : Nat) :
    cpus ⌈/⌉ vpus ≤ coresFor d vpus cpus := by
  rcases Nat.eq_zero_or_pos vpus with rfl | positive
  · rw [ceilDiv_zero]
    exact Nat.zero_le _
  · unfold coresFor
    split_ifs with own
    · rw [ceilDiv_le_iff_le_mul positive, Nat.mul_add]
      have task : d.cpusPerTask ≤ vpus * (d.cpusPerTask ⌈/⌉ vpus) := le_smul_ceilDiv positive
      have rest : cpus % d.cpusPerTask ≤ vpus * ((cpus % d.cpusPerTask) ⌈/⌉ vpus) :=
        le_smul_ceilDiv positive
      calc cpus = cpus / d.cpusPerTask * d.cpusPerTask + cpus % d.cpusPerTask :=
            (Nat.div_add_mod' _ _).symm
        _ ≤ cpus / d.cpusPerTask * (vpus * (d.cpusPerTask ⌈/⌉ vpus)) +
            vpus * ((cpus % d.cpusPerTask) ⌈/⌉ vpus) :=
            Nat.add_le_add (Nat.mul_le_mul_left _ task) rest
        _ = _ := by rw [Nat.mul_left_comm]
    · exact le_rfl

theorem coresFor_task {cpus : Nat} (own : d.ntasksPerCore = 1 ∧ vpus < d.cpusPerTask)
    (enough : d.cpusPerTask ≤ cpus) :
    d.cpusPerTask ⌈/⌉ vpus + coresFor d vpus (cpus - d.cpusPerTask) = coresFor d vpus cpus := by
  unfold coresFor
  rw [if_pos own, if_pos own, Nat.mod_eq_sub_mod enough,
    Nat.div_eq_sub_div (Nat.zero_lt_of_lt own.2) enough, Nat.add_mul, Nat.one_mul]
  omega

theorem charged_mono (d : JobDetails) (crType : CrType) (r : NodeRes) (le : a ≤ b) :
    charged d crType r a ≤ charged d crType r b := by
  have cores := coresFor_mono d (d.crCpusPerCore r) le
  cases crType with
  | cpu => exact le
  | core => exact max_le_max le (Nat.mul_le_mul_right _ cores)
  | socket =>
    exact max_le_max le (Nat.mul_le_mul_right _ (Nat.mul_le_mul_right _ (min_le_min_right _ cores)))

/-! ## One core at a time -/

/-- The cores that are still to be taken. -/
def Taken.coresLeft (d : JobDetails) (vpus : Nat) (st : Taken) : Nat :=
  if d.ntasksPerCore = 1 ∧ vpus < d.cpusPerTask ∧ st.tmpCpt < st.cpus then
    st.tmpCpt ⌈/⌉ vpus + coresFor d vpus (st.cpus - st.tmpCpt)
  else st.cpus ⌈/⌉ vpus

/-- A task with cores of its own is never without a CPU to get. -/
def Taken.Lacks (d : JobDetails) (vpus : Nat) (st : Taken) : Prop :=
  d.ntasksPerCore = 1 → vpus < d.cpusPerTask → 0 < st.tmpCpt

/-- What a core leaves: nothing, or the share of the task less. -/
structure Taken.TakesCore (d : JobDetails) (vpus : Nat) (st st' : Taken) : Prop where
  cpus : st.cpus < vpus ∧ st'.cpus = 0 ∨
    vpus ≤ st.cpus ∧ st'.cpus = st.cpus - (taskShare d vpus st.tmpCpt).1 ∧
      st'.tmpCpt = (taskShare d vpus st.tmpCpt).2

theorem Taken.coresLeft_of_zero (none_ : st.cpus = 0) : st.coresLeft d vpus = 0 := by
  unfold Taken.coresLeft
  rw [if_neg (by omega), none_]
  exact zero_ceilDiv vpus

theorem Taken.ceilDiv_le_coresLeft (d : JobDetails) (vpus : Nat) (st : Taken) :
    st.cpus ⌈/⌉ vpus ≤ st.coresLeft d vpus := by
  rcases Nat.eq_zero_or_pos vpus with rfl | positive
  · rw [ceilDiv_zero]
    exact Nat.zero_le _
  · unfold Taken.coresLeft
    split_ifs with own
    · rw [ceilDiv_le_iff_le_mul positive, Nat.mul_add]
      have task : st.tmpCpt ≤ vpus * (st.tmpCpt ⌈/⌉ vpus) := le_smul_ceilDiv positive
      have rest := (ceilDiv_le_iff_le_mul positive).mp
        (ceilDiv_le_coresFor d vpus (st.cpus - st.tmpCpt))
      omega
    · exact le_rfl

theorem Taken.coresLeft_of_whole (vpus : Nat) (whole : st.tmpCpt = d.cpusPerTask) :
    st.coresLeft d vpus ≤ coresFor d vpus st.cpus := by
  unfold Taken.coresLeft
  rw [whole]
  split_ifs with more
  · exact (coresFor_task ⟨more.1, more.2.1⟩ more.2.2.le).le
  · exact ceilDiv_le_coresFor d vpus st.cpus

theorem Taken.TakesCore.coresLeft (takes : Taken.TakesCore d vpus st st') (pos : 0 < vpus)
    (some_ : st.cpus ≠ 0) (lacks : st.Lacks d vpus) :
    st'.coresLeft d vpus + 1 ≤ st.coresLeft d vpus := by
  rcases takes.cpus with ⟨_, none_⟩ | ⟨enough, left, share⟩
  · rw [Taken.coresLeft_of_zero none_]
    exact (ceilDiv_pos pos some_).trans_le (st.ceilDiv_le_coresLeft d vpus)
  · by_cases own : d.ntasksPerCore = 1 ∧ vpus < d.cpusPerTask
    · simp only [taskShare, if_pos own] at left share
      rcases Nat.lt_or_ge vpus st.tmpCpt with less | last
      · rw [min_eq_right less.le] at left share
        rw [if_neg (by omega)] at share
        unfold Taken.coresLeft
        rw [left, share]
        by_cases more : st.tmpCpt < st.cpus
        · rw [if_pos ⟨own.1, own.2, by omega⟩, if_pos ⟨own.1, own.2, more⟩,
            ← ceilDiv_sub pos less.le, Nat.sub_sub_sub_cancel_right less.le]
          omega
        · rw [if_neg (by omega), if_neg (by omega), ceilDiv_sub pos enough]
      · rw [min_eq_left last] at left share
        rw [if_pos le_rfl] at share
        have task : 0 < st.tmpCpt ⌈/⌉ vpus :=
          ceilDiv_pos pos (lacks own.1 own.2).ne'
        have after := Taken.coresLeft_of_whole vpus share
        rw [left] at after
        by_cases more : st.tmpCpt < st.cpus
        · rw [Taken.coresLeft.eq_def d vpus st, if_pos ⟨own.1, own.2, more⟩]
          omega
        · rw [Nat.sub_eq_zero_of_le (by omega), coresFor_zero] at after
          have before := ceilDiv_pos pos some_
          exact (Nat.add_le_add_right after 1).trans
            (before.trans_le (st.ceilDiv_le_coresLeft d vpus))
    · simp only [taskShare, if_neg own] at left share
      unfold Taken.coresLeft
      rw [if_neg (fun more => own ⟨more.1, more.2.1⟩), if_neg (fun more => own ⟨more.1, more.2.1⟩),
        left, ceilDiv_sub pos enough]

theorem Taken.TakesCore.lacks (takes : Taken.TakesCore d vpus st st') (lacks : st.Lacks d vpus) :
    st'.cpus = 0 ∨ st'.Lacks d vpus := by
  rcases takes.cpus with ⟨_, none_⟩ | ⟨_, _, share⟩
  · exact Or.inl none_
  · refine Or.inr ?_
    intro one more
    rw [share, taskShare, if_pos ⟨one, more⟩]
    dsimp only
    split_ifs with last
    · exact Nat.zero_lt_of_lt more
    · omega

/-- There are cores to take, unless no CPU is left. -/
def Taken.Ready (d : JobDetails) (vpus : Nat) (st : Taken) : Prop :=
  st.cpus = 0 ∨ 0 < vpus ∧ st.Lacks d vpus

/-- No more cores are taken than were left. -/
structure Taken.Pays (d : JobDetails) (vpus : Nat) (st st' : Taken) : Prop where
  ready : st'.Ready d vpus
  total : st'.coreCnt + st'.coresLeft d vpus ≤ st.coreCnt + st.coresLeft d vpus

theorem Taken.Pays.refl (ready : st.Ready d vpus) : st.Pays d vpus st :=
  ⟨ready, le_rfl⟩

theorem Taken.Pays.trans {st'' : Taken} (one : st.Pays d vpus st') (two : st'.Pays d vpus st'') :
    st.Pays d vpus st'' :=
  ⟨two.ready, two.total.trans one.total⟩

theorem Taken.TakesCore.pays (takes : Taken.TakesCore d vpus st st')
    (counts : st'.coreCnt = st.coreCnt + 1) (ready : st.Ready d vpus) (some_ : st.cpus ≠ 0) :
    st.Pays d vpus st' := by
  obtain ⟨pos, lacks⟩ := ready.resolve_left some_
  refine ⟨(takes.lacks lacks).imp_right fun more => ⟨pos, more⟩, ?_⟩
  have left := takes.coresLeft pos some_ lacks
  omega

/-! ## Cyclic distribution -/

/-- The cores of a used socket that were passed. -/
def Sock.passed (r : NodeRes) (sock : Sock) : Nat :=
  if sock.used then r.cores - (sock.stop - sock.start) else 0

def Sock.begun (sock : Sock) : Nat := if sock.used then 1 else 0

/-- Between two counts of cores, each core that was taken was passed, and each
socket that was begun gave one. -/
structure Progress (r : NodeRes) (socks socks' : List Sock) (before after : Nat) : Prop where
  length : socks'.length = socks.length
  passed : after + (socks.map (Sock.passed r)).sum ≤ before + (socks'.map (Sock.passed r)).sum
  begun : (socks'.map Sock.begun).sum + before ≤ after + (socks.map Sock.begun).sum

namespace Progress

variable {socks socks' socks'' rest rest' : List Sock} {sock sock' : Sock} {a b c : Nat}

theorem refl (socks : List Sock) (a : Nat) : Progress r socks socks a a :=
  ⟨rfl, le_rfl, (Nat.add_comm _ _).le⟩

theorem trans (one : Progress r socks socks' a b) (two : Progress r socks' socks'' b c) :
    Progress r socks socks'' a c := by
  obtain ⟨length, passed, begun⟩ := one
  obtain ⟨length', passed', begun'⟩ := two
  exact ⟨length'.trans length, by omega, by omega⟩

theorem cons (one : Progress r [sock] [sock'] a b) (more : Progress r rest rest' b c) :
    Progress r (sock :: rest) (sock' :: rest') a c := by
  obtain ⟨_, passed, begun⟩ := one
  obtain ⟨length, passed', begun'⟩ := more
  simp only [map_cons, map_nil, sum_cons, sum_nil] at passed begun
  refine ⟨by simp only [length_cons, length], ?_, ?_⟩
  · simp only [map_cons, sum_cons]
    omega
  · simp only [map_cons, sum_cons]
    omega

theorem advance {start : Nat} (later : sock.start ≤ start) (a : Nat) :
    Progress r [sock] [{ sock with start := start }] a a := by
  refine ⟨rfl, ?_, ?_⟩
  · simp only [map_cons, map_nil, sum_cons, sum_nil, Sock.passed]
    split_ifs with used
    · omega
    · exact le_rfl
  · exact (Nat.add_comm _ _).le

theorem take (ok : sock.Ok r bits) {k : Nat} (later : sock.start ≤ k) (before : k < sock.stop)
    (a : Nat) : Progress r [sock] [{ sock with start := k + 1, used := true }] a (a + 1) := by
  obtain ⟨s, low, _, stopEq, _⟩ := ok
  refine ⟨rfl, ?_, ?_⟩
  · simp only [map_cons, map_nil, sum_cons, sum_nil, Sock.passed, if_true]
    split_ifs with used
    · omega
    · omega
  · simp only [map_cons, map_nil, sum_cons, sum_nil, Sock.begun, if_true]
    omega

end Progress

variable {st : Taken} {socks : List Sock}

theorem packSock_charge {n : Nat} {sock : Sock} (count : Nat) (ok : sock.Ok r bits)
    (room : n ≤ sock.stop - sock.start) (ready : st.Ready d vpus) :
    st.Pays d vpus (packSock d vpus bits n sock count st).2 ∧
      Progress r [sock] [(packSock d vpus bits n sock count st).1] st.coreCnt
        (packSock d vpus bits n sock count st).2.coreCnt := by
  induction n generalizing sock count st with
  | zero => exact ⟨.refl ready, .refl _ _⟩
  | succ n ih =>
    rw [packSock]
    by_cases full : count = 0 ∨ st.cpus = 0
    · rw [if_pos full]
      exact ⟨.refl ready, .refl _ _⟩
    · rw [if_neg full]
      by_cases found : sock.start ∈ bits
      · rw [if_pos found]
        have some_ : st.cpus ≠ 0 := fun none_ => full (Or.inr none_)
        have takes : Taken.TakesCore d vpus st
            ⟨if st.cpus < vpus then 0 else st.cpus - (taskShare d vpus st.tmpCpt).1,
              st.coreCnt + 1, (taskShare d vpus st.tmpCpt).2⟩ := by
          constructor
          rcases Nat.lt_or_ge st.cpus vpus with few | enough
          · exact Or.inl ⟨few, if_pos few⟩
          · exact Or.inr ⟨enough, if_neg (Nat.not_lt.mpr enough), rfl⟩
        have pays := takes.pays rfl ready some_
        have mem : sock.start < sock.stop := by omega
        obtain ⟨pays', progress⟩ := ih
          (if count < vpus then 0 else count - (taskShare d vpus st.tmpCpt).1)
          (ok.take found le_rfl mem) (by dsimp only; omega) pays.ready
        exact ⟨pays.trans pays', (Progress.take ok le_rfl mem _).trans progress⟩
      · rw [if_neg found]
        obtain ⟨pays, progress⟩ := ih count
          (ok.advance (Nat.le_succ _) (by omega)) (by dsimp only; omega) ready
        exact ⟨pays, (Progress.advance (Nat.le_succ _) _).trans progress⟩

theorem packSocks_charge (ok : ∀ sock ∈ socks, sock.Ok r bits) (ready : st.Ready d vpus) :
    st.Pays d vpus (packSocks d vpus bits socks st).2 ∧
      Progress r socks (packSocks d vpus bits socks st).1 st.coreCnt
        (packSocks d vpus bits socks st).2.coreCnt := by
  induction socks generalizing st with
  | nil => exact ⟨.refl ready, .refl _ _⟩
  | cons sock rest ih =>
    obtain ⟨here, more⟩ := forall_mem_cons.mp ok
    obtain ⟨pays, progress⟩ := packSock_charge
      (cpusCnt vpus bits sock - cpusCnt vpus bits sock % d.cpusPerTask)
      here le_rfl ready
    obtain ⟨pays', progress'⟩ := ih more pays.ready
    exact ⟨pays.trans pays', progress.cons progress'⟩

theorem ceilDiv_round {cpus : Nat} (pos : 0 < vpus) (some_ : cpus ≠ 0) :
    (cpus - vpus) ⌈/⌉ vpus + 1 ≤ cpus ⌈/⌉ vpus := by
  rcases Nat.lt_or_ge cpus vpus with few | enough
  · rw [Nat.sub_eq_zero_of_le few.le, zero_ceilDiv]
    exact ceilDiv_pos pos some_
  · exact (ceilDiv_sub pos enough).le

theorem cyclicRound_charge (st : Taken) (pos : 0 < vpus)
    (ok : ∀ sock ∈ socks, sock.Ok r bits) :
    (cyclicRound vpus bits socks st).2.coreCnt + (cyclicRound vpus bits socks st).2.cpus ⌈/⌉ vpus ≤
        st.coreCnt + st.cpus ⌈/⌉ vpus ∧
      Progress r socks (cyclicRound vpus bits socks st).1 st.coreCnt
        (cyclicRound vpus bits socks st).2.coreCnt := by
  induction socks generalizing st with
  | nil => exact ⟨le_rfl, .refl _ _⟩
  | cons sock rest ih =>
    obtain ⟨here, more⟩ := forall_mem_cons.mp ok
    have whole : sock.start + (sock.stop - sock.start) = sock.stop := by
      have inside := here.start_le
      omega
    rw [cyclicRound]
    dsimp only
    split_ifs with done avoided used
    · exact ⟨le_rfl, .refl _ _⟩
    · exact ⟨(ih st more).1, (Progress.refl [sock] _).cons (ih st more).2⟩
    · obtain ⟨total, progress⟩ := ih st more
      refine ⟨total, Progress.cons ?_ progress⟩
      rw [used]
      exact Progress.advance here.start_le _
    · obtain ⟨total, progress⟩ := ih
        { st with cpus := st.cpus - vpus, coreCnt := st.coreCnt + 1 } more
      have less := ceilDiv_round pos done
      refine ⟨total.trans (by dsimp only; omega), Progress.cons ?_ progress⟩
      rcases seek_spec bits (sock.stop - sock.start) sock.start with none_ | ⟨_, later, before⟩
      · exact absurd (none_.trans whole) used
      · exact Progress.take here later (before.trans_eq whole) _

theorem cyclicRounds_charge {rounds : Nat} {socks' : List Sock} {st' : Taken}
    (takes : st.cpus = 0 ∨ 0 < vpus) (ok : ∀ sock ∈ socks, sock.Ok r bits)
    (result : cyclicRounds vpus bits rounds socks st = some (socks', st')) :
    st'.coreCnt ≤ st.coreCnt + st.cpus ⌈/⌉ vpus ∧
      Progress r socks socks' st.coreCnt st'.coreCnt := by
  induction rounds generalizing socks st with
  | zero => simp [cyclicRounds] at result
  | succ rounds ih =>
    rw [cyclicRounds] at result
    dsimp only at result
    split_ifs at result with done stuck
    · cases result
      exact ⟨Nat.le_add_right _ _, .refl _ _⟩
    · have positive := takes.resolve_left done
      obtain ⟨total, progress⟩ := cyclicRound_charge st positive ok
      obtain ⟨total', progress'⟩ := ih (Or.inr positive) (cyclicRound_ok ok) result
      exact ⟨total'.trans total, progress.trans progress'⟩

/-! ### Cores without CPUs -/

theorem taskShare_zero (d : JobDetails) (tmpCpt : Nat) : (taskShare d 0 tmpCpt).1 = 0 := by
  unfold taskShare
  split_ifs with own
  · exact Nat.min_zero tmpCpt
  · rfl

theorem packSock_zero (n : Nat) (sock : Sock) (count : Nat) (st : Taken) :
    (packSock d 0 bits n sock count st).2.cpus = st.cpus := by
  induction n generalizing sock count st with
  | zero => rfl
  | succ n ih =>
    rw [packSock]
    by_cases full : count = 0 ∨ st.cpus = 0
    · rw [if_pos full]
    · rw [if_neg full]
      by_cases found : sock.start ∈ bits
      · rw [if_pos found]
        have none_ := taskShare_zero d st.tmpCpt
        cases isShare : taskShare d 0 st.tmpCpt with
        | mk used tmpCpt =>
          rw [isShare] at none_
          refine (ih _ _ _).trans ?_
          dsimp only at none_ ⊢
          rw [if_neg (Nat.not_lt_zero _), none_, Nat.sub_zero]
      · rw [if_neg found]
        exact ih _ _ _

theorem packSocks_zero (socks : List Sock) (st : Taken) :
    (packSocks d 0 bits socks st).2.cpus = st.cpus := by
  induction socks generalizing st with
  | nil => rfl
  | cons sock rest ih =>
    exact (ih _).trans (packSock_zero _ _ _ _)

theorem prepareSocks_zero (cpus : Nat) : (prepareSocks d r 0 bits cpus).2.cpus = cpus := by
  unfold prepareSocks
  by_cases perSocket : (if d.ntasksPerSocket ≠ 0 then d.ntasksPerSocket else 0xffff) ≠ 0xffff
  · rw [if_pos perSocket]
  · rw [if_neg perSocket]
    split_ifs with several
    · exact packSocks_zero _ _
    · rfl

theorem cyclicRound_zero (socks : List Sock) (st : Taken) :
    (cyclicRound 0 bits socks st).2.cpus = st.cpus := by
  induction socks generalizing st with
  | nil => rfl
  | cons sock rest ih =>
    rw [cyclicRound]
    dsimp only
    split_ifs with done avoided used
    · rfl
    · exact ih _
    · exact ih _
    · exact ih _

theorem cyclicRounds_zero {rounds : Nat} {found : List Sock × Taken}
    (result : cyclicRounds 0 bits rounds socks st = some found) : st.cpus = 0 := by
  cases rounds with
  | zero => simp [cyclicRounds] at result
  | succ rounds =>
    rw [cyclicRounds] at result
    rw [if_pos (cyclicRound_zero socks st)] at result
    split_ifs at result with done
    exact done

/-! ### The count of a node -/

theorem sum_unused {f : Sock → Nat} (zero : ∀ sock, sock.used = false → f sock = 0)
    (unused : ∀ sock ∈ socks, sock.used = false) : (socks.map f).sum = 0 := by
  refine sum_eq_zero ?_
  intro x mem
  obtain ⟨sock, member, rfl⟩ := mem_map.mp mem
  exact zero sock (unused sock member)

theorem Sock.passed_unused (r : NodeRes) (sock : Sock) (unused : sock.used = false) :
    sock.passed r = 0 := by
  rw [Sock.passed, unused, if_neg Bool.false_ne_true]

theorem Sock.begun_unused (sock : Sock) (unused : sock.used = false) : sock.begun = 0 := by
  rw [Sock.begun, unused, if_neg Bool.false_ne_true]

theorem startSocks_unused (r : NodeRes) : ∀ sock ∈ startSocks r, sock.used = false := by
  intro sock mem
  obtain ⟨s, _, rfl⟩ := mem_map.mp mem
  rfl

theorem length_startSocks (r : NodeRes) : (startSocks r).length = r.sockets := by
  rw [startSocks, length_map, length_range]

section Avoid

variable {β : Type} {f : Sock → β} (same : ∀ sock : Sock, f { sock with avoid := true } = f sock)

include same in
theorem avoidSocks_map (cpusPerSocket cpus total : Nat) (socks : List (Sock × Nat)) :
    (avoidSocks cpusPerSocket cpus socks total).map f = socks.map (f ·.1) := by
  induction socks generalizing total with
  | nil => rfl
  | cons head rest ih =>
    rw [avoidSocks]
    split_ifs with spare
    · simp only [map_cons, ih, same]
    · simp only [map_cons, ih]

theorem length_trimCounts (cpusPerSocket cpus total : Nat) (counts : List Nat) :
    (trimCounts cpusPerSocket cpus counts total).1.length = counts.length := by
  induction counts generalizing total with
  | nil => rfl
  | cons count rest ih =>
    rw [trimCounts]
    split_ifs with more
    · exact congrArg (· + 1) (ih _)
    · exact congrArg (· + 1) (ih _)

include same in
theorem spareSocks_map (d : JobDetails) (vpus : Nat) (bits : Finset Nat)
    (ntasksPerSocket cpus : Nat) (socks : List Sock) :
    (spareSocks d vpus bits ntasksPerSocket cpus socks).map f = socks.map f := by
  unfold spareSocks
  have length : socks.length ≤ (trimCounts (ntasksPerSocket * d.cpusPerTask) cpus
      (socks.map (cpusCnt vpus bits)) (socks.map (cpusCnt vpus bits)).sum).1.length := by
    rw [length_trimCounts, length_map]
  rw [avoidSocks_map same]
  conv_rhs => rw [← map_fst_zip length]
  rw [map_map]
  rfl

end Avoid

theorem prepareSocks_charge (d : JobDetails) (r : NodeRes) (bits : Finset Nat) {cpus : Nat}
    (takes : cpus = 0 ∨ 0 < vpus) :
    (prepareSocks d r vpus bits cpus).2.coreCnt +
          (prepareSocks d r vpus bits cpus).2.cpus ⌈/⌉ vpus ≤ coresFor d vpus cpus ∧
      Progress r (startSocks r) (prepareSocks d r vpus bits cpus).1 0
        (prepareSocks d r vpus bits cpus).2.coreCnt := by
  have start : 0 + cpus ⌈/⌉ vpus ≤ coresFor d vpus cpus :=
    (Nat.zero_add _).le.trans (ceilDiv_le_coresFor d vpus cpus)
  unfold prepareSocks
  by_cases perSocket : (if d.ntasksPerSocket ≠ 0 then d.ntasksPerSocket else 0xffff) ≠ 0xffff
  · rw [if_pos perSocket]
    have used := spareSocks_map (f := Sock.used) (fun _ => rfl) d vpus bits
      (if d.ntasksPerSocket ≠ 0 then d.ntasksPerSocket else 0xffff) cpus (startSocks r)
    refine ⟨start, ?_, ?_, ?_⟩
    · simpa only [length_map] using congrArg List.length used
    · rw [sum_unused (Sock.passed_unused r) (startSocks_unused r)]
      exact Nat.zero_le _
    · rw [sum_unused Sock.begun_unused]
      · exact Nat.zero_le _
      · intro sock mem
        have same := used ▸ mem_map_of_mem (f := Sock.used) mem
        obtain ⟨first, member, eq⟩ := mem_map.mp same
        exact eq.symm.trans (startSocks_unused r first member)
  · rw [if_neg perSocket]
    split_ifs with several
    · have ready : Taken.Ready d vpus ⟨cpus, 0, d.cpusPerTask⟩ :=
        takes.imp_right fun pos => ⟨pos, fun _ more => Nat.zero_lt_of_lt more⟩
      obtain ⟨pays, progress⟩ := packSocks_charge (startSocks_ok (r := r) bits) ready
      refine ⟨?_, progress⟩
      have whole : Taken.coresLeft d vpus ⟨cpus, 0, d.cpusPerTask⟩ ≤ coresFor d vpus cpus :=
        Taken.coresLeft_of_whole vpus rfl
      have left := (packSocks d vpus bits (startSocks r)
        ⟨cpus, 0, d.cpusPerTask⟩).2.ceilDiv_le_coresLeft d vpus
      have total := pays.total
      dsimp only at whole total
      omega
    · exact ⟨start, .refl _ _⟩

/-- The cores that are left in a used socket. -/
def Sock.left (sock : Sock) : Nat := if sock.used then sock.stop - sock.start else 0

theorem Sock.Ok.passed_add_left {sock : Sock} (ok : sock.Ok r bits) :
    sock.passed r + sock.left = sock.begun * r.cores := by
  obtain ⟨s, low, _, stopEq, _⟩ := ok
  unfold Sock.passed Sock.left Sock.begun
  split_ifs with used
  · rw [Nat.one_mul]
    omega
  · rw [Nat.zero_mul]

theorem sum_passed_add_left {socks : List Sock} (ok : ∀ sock ∈ socks, sock.Ok r bits) :
    (socks.map (Sock.passed r)).sum + (socks.map Sock.left).sum =
      (socks.map Sock.begun).sum * r.cores := by
  induction socks with
  | nil => rw [map_nil, map_nil, map_nil, sum_nil, Nat.zero_mul,
      Nat.add_zero]
  | cons sock rest ih =>
    obtain ⟨here, more⟩ := forall_mem_cons.mp ok
    have one := here.passed_add_left
    have others := ih more
    simp only [map_cons, sum_cons, Nat.add_mul]
    omega

theorem sum_begun_le (socks : List Sock) : (socks.map Sock.begun).sum ≤ socks.length := by
  induction socks with
  | nil => exact le_rfl
  | cons sock rest ih =>
    have one : sock.begun ≤ 1 := by
      unfold Sock.begun
      split_ifs with used
      · exact le_rfl
      · exact Nat.zero_le _
    simp only [map_cons, sum_cons, length_cons]
    omega

theorem finishSock_count (crType : CrType) (r : NodeRes) (sock : Sock) (found : Finset Nat × Nat) :
    (finishSock crType r sock found).2 ≤ found.2 + if crType = .socket then sock.left else 0 := by
  unfold finishSock
  by_cases empty : sock.start = sock.stop
  · rw [if_pos empty]
    exact Nat.le_add_right _ _
  · rw [if_neg empty]
    by_cases used : 1 ≤ r.vpus ∧ crType ≠ .cpu ∧ sock.used = true
    · rw [if_pos used]
      by_cases sockets : crType = .socket
      · simp only [if_pos sockets, Sock.left, if_pos used.2.2]
        refine Nat.add_le_add_left ?_ _
        exact (Finset.card_le_card Finset.inter_subset_left).trans (Nat.card_Ico _ _).le
      · simp only [if_neg sockets, if_pos (Or.inl sockets), Nat.add_zero]
        rw [Finset.inter_sdiff_self, Finset.card_empty, Nat.add_zero]
    · rw [if_neg used]
      exact Nat.le_add_right _ _

theorem finishSocks_count (crType : CrType) (r : NodeRes) (socks : List Sock) (found : Finset Nat × Nat) :
    (socks.foldl (fun found sock => finishSock crType r sock found) found).2 ≤
      found.2 + if crType = .socket then (socks.map Sock.left).sum else 0 := by
  induction socks generalizing found with
  | nil => exact Nat.le_add_right _ _
  | cons sock rest ih =>
    have one := finishSock_count crType r sock found
    have others := ih (finishSock crType r sock found)
    simp only [foldl_cons, map_cons, sum_cons]
    split_ifs at one others ⊢ with sockets
    · omega
    · omega

theorem adjustCpus_le_charged {cpus coreCnt : Nat}
    (core : crType = .core → coreCnt ≤ coresFor d (d.crCpusPerCore r) cpus)
    (socket : crType = .socket →
      coreCnt ≤ min (coresFor d (d.crCpusPerCore r) cpus) r.sockets * r.cores) :
    adjustCpus crType r cpus coreCnt ≤ charged d crType r cpus := by
  unfold adjustCpus
  split_ifs with counted
  · cases crType with
    | cpu => exact absurd rfl counted.1
    | core => exact le_max_of_le_right (Nat.mul_le_mul_right _ (core rfl))
    | socket => exact le_max_of_le_right (Nat.mul_le_mul_right _ (socket rfl))
  · cases crType with
    | cpu => exact le_rfl
    | core => exact le_max_left _ _
    | socket => exact le_max_left _ _

theorem cyclicSyncNode_charge {share share' : NodeShare}
    (result : cyclicSyncNode d crType r share = some share') :
    share'.cpus ≤ charged d crType r share.cpus := by
  obtain ⟨⟨socks, st⟩, rounds, rfl⟩ := Option.map_eq_some_iff.mp result
  have ok : ∀ sock ∈ (prepareSocks d r (d.crCpusPerCore r) share.bits share.cpus).1,
      sock.Ok r share.bits := prepareSocks_ok share.cpus
  have takes : (share.cpus = 0 ∨ 0 < d.crCpusPerCore r) ∧
      ((prepareSocks d r (d.crCpusPerCore r) share.bits share.cpus).2.cpus = 0 ∨
        0 < d.crCpusPerCore r) := by
    rcases Nat.eq_zero_or_pos (d.crCpusPerCore r) with none_ | positive
    · rw [none_] at rounds ⊢
      have done := cyclicRounds_zero rounds
      exact ⟨Or.inl ((prepareSocks_zero _).symm.trans done), Or.inl done⟩
    · exact ⟨Or.inr positive, Or.inr positive⟩
  obtain ⟨prepared, progress⟩ := prepareSocks_charge d r share.bits takes.1
  obtain ⟨taken, progress'⟩ := cyclicRounds_charge takes.2 ok rounds
  obtain ⟨length, passed, begun⟩ := progress.trans progress'
  rw [sum_unused Sock.begun_unused (startSocks_unused r)] at begun
  have cores : st.coreCnt ≤ coresFor d (d.crCpusPerCore r) share.cpus := taken.trans prepared
  have counted := finishSocks_count crType r socks (share.bits, st.coreCnt)
  refine adjustCpus_le_charged ?_ ?_
  · intro isCore
    rw [if_neg (by rw [isCore]; exact CrType.noConfusion)] at counted
    exact counted.trans cores
  · intro sockets
    rw [if_pos sockets] at counted
    have whole := sum_passed_add_left (cyclicRounds_ok ok rounds)
    have few := sum_begun_le socks
    rw [length, length_startSocks] at few
    refine counted.trans (le_trans ?_ (Nat.mul_le_mul_right r.cores
      (le_min (Nat.le_trans ?_ cores) few)))
    · omega
    · omega

/-! ## Block distribution -/

theorem Taken.takesCore_takeCore (d : JobDetails) (vpus : Nat) (st : Taken) :
    Taken.TakesCore d vpus st (st.takeCore d vpus) := by
  constructor
  unfold Taken.takeCore
  split_ifs with few
  · exact Or.inl ⟨few, rfl⟩
  · exact Or.inr ⟨Nat.not_lt.mp few, rfl, rfl⟩

theorem Taken.coreCnt_takeCore (d : JobDetails) (vpus : Nat) (st : Taken) :
    (st.takeCore d vpus).coreCnt = st.coreCnt + 1 := by
  unfold Taken.takeCore
  split_ifs with few
  · rfl
  · rfl

section Socket

variable {s : Nat} {st : BlockState}

theorem blockCore_taken (d : JobDetails) (crType : CrType) (vpus s : Nat) (st : BlockState) (j : Nat) :
    (st.taken.cpus ≠ 0 ∧ j ∈ st.bits ∧
        (blockCore d crType vpus s st j).taken = st.taken.takeCore d vpus) ∨
      ((st.taken.cpus = 0 ∨ j ∉ st.bits) ∧ crType = .socket ∧
        (blockCore d crType vpus s st j).taken =
          { st.taken with coreCnt := st.taken.coreCnt + 1 }) ∨
      ((st.taken.cpus = 0 ∨ j ∉ st.bits) ∧ crType ≠ .socket ∧
        (blockCore d crType vpus s st j).taken = st.taken) := by
  unfold blockCore
  split_ifs with done sockets found sockets
  · exact Or.inr (Or.inl ⟨Or.inl done, sockets, rfl⟩)
  · exact Or.inr (Or.inr ⟨Or.inl done, sockets, rfl⟩)
  · exact Or.inl ⟨done, found, rfl⟩
  · exact Or.inr (Or.inl ⟨Or.inr found, sockets, rfl⟩)
  · exact Or.inr (Or.inr ⟨Or.inr found, sockets, rfl⟩)

theorem blockCore_ready (crType : CrType) (s : Nat) (ready : st.taken.Ready d vpus) (j : Nat) :
    (blockCore d crType vpus s st j).taken.Ready d vpus ∧
      (blockCore d crType vpus s st j).taken.coresLeft d vpus ≤ st.taken.coresLeft d vpus ∧
      (crType ≠ .socket → st.taken.Pays d vpus (blockCore d crType vpus s st j).taken) := by
  rcases blockCore_taken d crType vpus s st j with
    ⟨some_, _, taken⟩ | ⟨_, sockets, taken⟩ | ⟨_, _, taken⟩
  · have counts := st.taken.coreCnt_takeCore d vpus
    have pays := (st.taken.takesCore_takeCore d vpus).pays counts ready some_
    have total := pays.total
    rw [taken]
    exact ⟨pays.ready, by omega, fun _ => pays⟩
  · rw [taken]
    exact ⟨ready, le_rfl, fun other => absurd sockets other⟩
  · rw [taken]
    exact ⟨ready, le_rfl, fun _ => .refl ready⟩

theorem blockCores_ready (crType : CrType) (s : Nat) (ready : st.taken.Ready d vpus) (list : List Nat) :
    (list.foldl (blockCore d crType vpus s) st).taken.Ready d vpus ∧
      (list.foldl (blockCore d crType vpus s) st).taken.coresLeft d vpus ≤
        st.taken.coresLeft d vpus ∧
      (crType ≠ .socket →
        st.taken.Pays d vpus (list.foldl (blockCore d crType vpus s) st).taken) := by
  induction list generalizing st with
  | nil => exact ⟨ready, le_rfl, fun _ => .refl ready⟩
  | cons j rest ih =>
    obtain ⟨ready', less, pays⟩ := blockCore_ready crType s ready j
    obtain ⟨ready'', less', pays'⟩ := ih ready'
    exact ⟨ready'', less'.trans less, fun other => (pays other).trans (pays' other)⟩

theorem blockCores_length (d : JobDetails) (crType : CrType) (vpus s : Nat) (st : BlockState)
    (list : List Nat) :
    (list.foldl (blockCore d crType vpus s) st).taken.coreCnt ≤ st.taken.coreCnt + list.length := by
  induction list generalizing st with
  | nil => exact le_rfl
  | cons j rest ih =>
    have one : (blockCore d crType vpus s st j).taken.coreCnt ≤ st.taken.coreCnt + 1 := by
      rcases blockCore_taken d crType vpus s st j with
        ⟨_, _, taken⟩ | ⟨_, _, taken⟩ | ⟨_, _, taken⟩
      · rw [taken, Taken.coreCnt_takeCore]
      · rw [taken]
      · rw [taken]
        exact Nat.le_succ _
    have more := ih (blockCore d crType vpus s st j)
    rw [foldl_cons, length_cons]
    omega

theorem blockCores_uses (ready : st.taken.Ready d vpus) (some_ : st.taken.cpus ≠ 0) {list : List Nat}
    (found : ∃ k ∈ list, k ∈ st.bits) :
    (list.foldl (blockCore d crType vpus s) st).taken.coresLeft d vpus + 1 ≤
      st.taken.coresLeft d vpus := by
  induction list generalizing st with
  | nil => exact absurd found (by simp)
  | cons j rest ih =>
    rw [foldl_cons]
    obtain ⟨ready', _, _⟩ := blockCore_ready crType s ready j
    by_cases here : j ∈ st.bits
    · have left := (blockCores_ready crType s ready' rest).2.1
      obtain ⟨pos, lacks⟩ := ready.resolve_left some_
      have less := (st.taken.takesCore_takeCore d vpus).coresLeft pos some_ lacks
      rcases blockCore_taken d crType vpus s st j with
        ⟨_, _, taken⟩ | ⟨none_ | notIn, _⟩ | ⟨none_ | notIn, _⟩
      · rw [taken] at left
        omega
      · exact absurd none_ some_
      · exact absurd here notIn
      · exact absurd none_ some_
      · exact absurd here notIn
    · obtain ⟨k, member, inBits⟩ := found
      have later : k ∈ rest := by
        rcases mem_cons.mp member with rfl | later
        · exact absurd inBits here
        · exact later
      have same : (blockCore d crType vpus s st j).taken.cpus = st.taken.cpus ∧
          (blockCore d crType vpus s st j).taken.coresLeft d vpus = st.taken.coresLeft d vpus := by
        rcases blockCore_taken d crType vpus s st j with
          ⟨_, mem, _⟩ | ⟨_, _, taken⟩ | ⟨_, _, taken⟩
        · exact absurd mem here
        · rw [taken]
          exact ⟨rfl, rfl⟩
        · rw [taken]
          exact ⟨rfl, rfl⟩
      have kept : k ∈ (blockCore d crType vpus s st j).bits := by
        unfold blockCore
        rw [if_neg some_, if_neg here]
        split_ifs with sockets
        · exact Finset.mem_insert_of_mem inBits
        · exact inBits
      rw [← same.2]
      exact ih ready' (by rw [same.1]; exact some_) ⟨k, later, kept⟩

theorem blockCores_done (none_ : st.taken.cpus = 0) (list : List Nat) :
    (list.foldl (blockCore d crType vpus s) st).taken.cpus = 0 := by
  induction list generalizing st with
  | nil => exact none_
  | cons j rest ih =>
    refine ih ?_
    rcases blockCore_taken d crType vpus s st j with
      ⟨some_, _, _⟩ | ⟨_, _, taken⟩ | ⟨_, _, taken⟩
    · exact absurd none_ some_
    · rw [taken]
      exact none_
    · rw [taken]
      exact none_

theorem blockCores_count {list : List Nat} (nodup : list.Nodup)
    (more : (list.foldl (blockCore d crType vpus s) st).taken.cpus ≠ 0) :
    (list.foldl (blockCore d crType vpus s) st).count s =
      st.count s - list.countP (· ∈ st.bits) := by
  induction list generalizing st with
  | nil => rfl
  | cons j rest ih =>
    obtain ⟨notLater, nodup⟩ := nodup_cons.mp nodup
    have some_ : st.taken.cpus ≠ 0 := fun none_ => more (blockCores_done none_ (j :: rest))
    rw [foldl_cons] at more ⊢
    rw [ih nodup more]
    unfold blockCore
    rw [if_neg some_]
    by_cases here : j ∈ st.bits
    · rw [if_pos here, countP_cons_of_pos (by simpa using here)]
      dsimp only
      rw [Function.update_self]
      omega
    · rw [if_neg here, countP_cons_of_neg (by simpa using here)]
      split_ifs with sockets
      · refine congrArg (st.count s - ·) (countP_congr ?_)
        intro k later
        have other : k ≠ j := fun same => notLater (same ▸ later)
        simp [other]
      · rfl

theorem blockCores_frame (d : JobDetails) (crType : CrType) (vpus s : Nat) (st : BlockState)
    (list : List Nat) :
    (∀ other, other ≠ s → (list.foldl (blockCore d crType vpus s) st).count other = st.count other) ∧
      (∀ j ∉ list, (j ∈ (list.foldl (blockCore d crType vpus s) st).bits ↔ j ∈ st.bits)) ∧
      (list.foldl (blockCore d crType vpus s) st).used = st.used := by
  induction list generalizing st with
  | nil => exact ⟨fun _ _ => rfl, fun _ _ => Iff.rfl, rfl⟩
  | cons k rest ih =>
    obtain ⟨counts, inBits, used⟩ := ih (blockCore d crType vpus s st k)
    have one : (∀ other, other ≠ s → (blockCore d crType vpus s st k).count other =
          st.count other) ∧
        (∀ j, j ≠ k → (j ∈ (blockCore d crType vpus s st k).bits ↔ j ∈ st.bits)) ∧
        (blockCore d crType vpus s st k).used = st.used := by
      unfold blockCore
      split_ifs with done sockets found sockets
      · exact ⟨fun _ _ => rfl, fun j other => by simp [other], rfl⟩
      · exact ⟨fun _ _ => rfl, fun j other => by simp [other], rfl⟩
      · exact ⟨fun _ other => Function.update_of_ne other _ _, fun _ _ => Iff.rfl, rfl⟩
      · exact ⟨fun _ _ => rfl, fun j other => by simp [other], rfl⟩
      · exact ⟨fun _ _ => rfl, fun _ _ => Iff.rfl, rfl⟩
    refine ⟨fun other ne => (counts other ne).trans (one.1 other ne), ?_, used.trans one.2.2⟩
    intro j notIn
    rw [mem_cons, not_or] at notIn
    obtain ⟨ne, notLater⟩ := notIn
    exact (inBits j notLater).trans (one.2.1 j ne)

end Socket

theorem nodup_socketCores (r : NodeRes) (s : Nat) : (r.socketCores s).Nodup :=
  List.Nodup.map (fun _ _ same => Nat.add_left_cancel same) nodup_range

theorem length_socketCores (r : NodeRes) (s : Nat) : (r.socketCores s).length = r.cores := by
  rw [NodeRes.socketCores, length_map, length_range]

/-- Between two sockets: those that were used are used up, the others are as at
the start. -/
structure BlockState.Between (r : NodeRes) (bits : Finset Nat) (st : BlockState) : Prop where
  counts : ∀ s ∉ st.used, st.count s = socketsCoreCnt r bits s
  same : ∀ s ∉ st.used, ∀ j ∈ r.socketCores s, (j ∈ st.bits ↔ j ∈ bits)
  spent : ∀ s ∈ st.used, st.count s = 0
  used : st.used ⊆ Finset.range r.sockets

namespace BlockState.Between

variable {st : BlockState} {s : Nat}

theorem fresh (between : st.Between r bits) (pos : 0 < st.count s) : s ∉ st.used :=
  fun used => pos.ne' (between.spent s used)

theorem found (between : st.Between r bits) (pos : 0 < st.count s) :
    ∃ k ∈ r.socketCores s, k ∈ st.bits := by
  have notUsed := between.fresh pos
  rw [between.counts s notUsed] at pos
  obtain ⟨k, mem, inBits⟩ := countP_pos_iff.mp pos
  exact ⟨k, mem, (between.same s notUsed k mem).mpr (of_decide_eq_true inBits)⟩

theorem lt_sockets (between : st.Between r bits) (mem : bits ⊆ Finset.range r.coreCnt)
    (pos : 0 < st.count s) : s < r.sockets := by
  obtain ⟨k, inSocket, inBits⟩ := between.found pos
  have below : k < r.coreCnt :=
    Finset.mem_range.mp (mem ((between.same s (between.fresh pos) k inSocket).mp inBits))
  rw [← div_of_mem_socketCores inSocket]
  exact Nat.div_lt_of_lt_mul (below.trans_eq (Nat.mul_comm _ _))

theorem socket (between : st.Between r bits) (mem : bits ⊆ Finset.range r.coreCnt)
    (pos : 0 < st.count s) (more : (blockSocket d crType r vpus s st).taken.cpus ≠ 0) :
    (blockSocket d crType r vpus s st).Between r bits := by
  have notUsed := between.fresh pos
  obtain ⟨counts, inBits, used⟩ := blockCores_frame d crType vpus s
    { st with used := insert s st.used } (r.socketCores s)
  have spent := blockCores_count (nodup_socketCores r s) more
  have usedEq : (blockSocket d crType r vpus s st).used = insert s st.used := used
  have others : ∀ {other}, other ∉ (blockSocket d crType r vpus s st).used →
      other ≠ s ∧ other ∉ st.used := by
    intro other notIn
    rw [usedEq, Finset.mem_insert, not_or] at notIn
    exact notIn
  refine ⟨?_, ?_, ?_, ?_⟩
  · intro other notIn
    obtain ⟨ne, notIn⟩ := others notIn
    exact (counts other ne).trans (between.counts other notIn)
  · intro other notIn j inSocket
    obtain ⟨ne, notIn⟩ := others notIn
    have apart : j ∉ r.socketCores s := fun both =>
      ne ((div_of_mem_socketCores inSocket).symm.trans (div_of_mem_socketCores both))
    exact (inBits j apart).trans (between.same other notIn j inSocket)
  · intro other isUsed
    rw [usedEq] at isUsed
    rcases eq_or_ne other s with rfl | ne
    · refine spent.trans ?_
      have all : (r.socketCores other).countP (· ∈ st.bits) = socketsCoreCnt r bits other :=
        countP_congr fun j inSocket => by
          simpa using between.same other notUsed j inSocket
      rw [all, between.counts other notUsed, Nat.sub_self]
    · exact (counts other ne).trans
        (between.spent other ((Finset.mem_insert.mp isUsed).resolve_left ne))
  · rw [usedEq]
    exact Finset.insert_subset (Finset.mem_range.mpr (between.lt_sockets mem pos))
      between.used

end BlockState.Between

variable {reqCores : Nat} {list : List Nat} {st : BlockState}

theorem bestFit_positive {count : Nat → Nat}
    (some_ : (list.foldl (BestFit.next reqCores count) ⟨0, 0, false⟩).cores ≠ 0) :
    0 < count (list.foldl (BestFit.next reqCores count) ⟨0, 0, false⟩).location := by
  have counted := bestFit_counted reqCores count list ⟨0, 0, false⟩ (Or.inl rfl)
  rw [← counted.resolve_left some_]
  exact Nat.pos_of_ne_zero some_

theorem blockSockets_zero {n : Nat} {st' : BlockState}
    (result : blockSockets d crType r 0 reqCores list n st = some st') : st.taken.cpus = 0 := by
  have stuck : ∀ (cores : List Nat) (s : Nat) (st : BlockState),
      (cores.foldl (blockCore d crType 0 s) st).taken.cpus = st.taken.cpus := by
    intro cores s st
    induction cores generalizing st with
    | nil => rfl
    | cons j rest ih =>
      refine (ih _).trans ?_
      rcases blockCore_taken d crType 0 s st j with
        ⟨_, _, taken⟩ | ⟨_, _, taken⟩ | ⟨_, _, taken⟩
      · rw [taken, Taken.takeCore, if_neg (Nat.not_lt_zero _)]
        exact (congrArg (st.taken.cpus - ·) (taskShare_zero d _)).trans (Nat.sub_zero _)
      · rw [taken]
      · rw [taken]
  induction n generalizing st with
  | zero => simp [blockSockets] at result
  | succ n ih =>
    rw [blockSockets] at result
    dsimp only at result
    split_ifs at result with done none_ more
    · exact done
    · exact absurd ((stuck _ _ _).symm.trans (ih result)) done
    · exact absurd ((stuck _ _ _).symm.trans (not_not.mp more)) done

/-- A socket is used: it counts for its cores at most, and one of those that were
left is taken. -/
structure BlockState.Uses (d : JobDetails) (crType : CrType) (r : NodeRes) (vpus : Nat)
    (st st' : BlockState) : Prop where
  ready : st'.taken.Ready d vpus
  cores : st'.taken.coreCnt ≤ st.taken.coreCnt + r.cores
  left : st'.taken.coresLeft d vpus + 1 ≤ st.taken.coresLeft d vpus
  total : crType ≠ .socket →
    st'.taken.coreCnt + st'.taken.coresLeft d vpus ≤ st.taken.coreCnt + st.taken.coresLeft d vpus
  card : st'.used.card = st.used.card + 1
  few : st'.used.card ≤ r.sockets

theorem blockSocket_uses (crType : CrType) {s : Nat} (mem : bits ⊆ Finset.range r.coreCnt)
    (between : st.Between r bits) (ready : st.taken.Ready d vpus) (some_ : st.taken.cpus ≠ 0)
    (pos : 0 < st.count s) :
    BlockState.Uses d crType r vpus st (blockSocket d crType r vpus s st) := by
  have start : Taken.Ready d vpus (BlockState.taken { st with used := insert s st.used }) := ready
  obtain ⟨ready', _, pays⟩ := blockCores_ready crType s start (r.socketCores s)
  have length := blockCores_length d crType vpus s { st with used := insert s st.used }
    (r.socketCores s)
  rw [length_socketCores] at length
  have used : (blockSocket d crType r vpus s st).used = insert s st.used :=
    (blockCores_frame ..).2.2
  refine ⟨ready', length, ?_, fun other => (pays other).total, ?_, ?_⟩
  · exact blockCores_uses start some_ (between.found pos)
  · rw [used, Finset.card_insert_of_notMem (between.fresh pos)]
  · rw [used]
    refine (Finset.card_le_card (Finset.insert_subset ?_ between.used)).trans
      (Finset.card_range _).le
    exact Finset.mem_range.mpr (between.lt_sockets mem pos)

/-- The sockets that are used are different ones of the node, and each takes one
of the cores that were left. -/
theorem blockSockets_charge {n : Nat} {st' : BlockState} (mem : bits ⊆ Finset.range r.coreCnt)
    (between : st.Between r bits) (ready : st.taken.Ready d vpus)
    (result : blockSockets d crType r vpus reqCores list n st = some st') :
    (crType ≠ .socket → st'.taken.coreCnt ≤ st.taken.coreCnt + st.taken.coresLeft d vpus) ∧
      ∃ k, st'.taken.coreCnt ≤ st.taken.coreCnt + k * r.cores ∧
        k ≤ st.taken.coresLeft d vpus ∧ st.used.card + k ≤ r.sockets := by
  induction n generalizing st with
  | zero => simp [blockSockets] at result
  | succ n ih =>
    have few : st.used.card ≤ r.sockets :=
      (Finset.card_le_card between.used).trans (Finset.card_range _).le
    rw [blockSockets] at result
    dsimp only at result
    by_cases done : st.taken.cpus = 0
    · rw [if_pos done] at result
      cases result
      refine ⟨fun _ => Nat.le_add_right _ _, 0, ?_, Nat.zero_le _, few⟩
      exact Nat.le_add_right _ _
    · rw [if_neg done] at result
      split_ifs at result with none_ more
      · have positive := bestFit_positive none_
        have uses := blockSocket_uses crType mem between ready done positive
        obtain ⟨total, k, cores, left, room⟩ :=
          ih (between.socket mem positive more) uses.ready result
        refine ⟨fun other => (total other).trans (uses.total other), k + 1, ?_, ?_, ?_⟩
        · have here := uses.cores
          rw [Nat.add_mul, Nat.one_mul]
          omega
        · exact (Nat.add_le_add_right left 1).trans uses.left
        · have card := uses.card
          omega
      · have positive := bestFit_positive none_
        have uses := blockSocket_uses crType mem between ready done positive
        cases result
        refine ⟨fun other => (Nat.le_add_right _ _).trans (uses.total other), 1, ?_, ?_, ?_⟩
        · rw [Nat.one_mul]
          exact uses.cores
        · exact (Nat.le_add_left _ _).trans uses.left
        · exact uses.card.symm.trans_le uses.few

theorem blockSyncNode_charge {share share' : NodeShare}
    (mem : share.bits ⊆ Finset.range r.coreCnt)
    (result : blockSyncNode d crType r share = some share') :
    share'.cpus ≤ charged d crType r share.cpus := by
  unfold blockSyncNode at result
  dsimp only at result
  cases socketsEq : bestSockets r (requiredCores d (d.crCpusPerCore r) share.cpus)
      (socketsCoreCnt r share.bits) with
  | none => simp [socketsEq] at result
  | some sockets =>
    rw [socketsEq] at result
    obtain ⟨st, loop, rfl⟩ := Option.map_eq_some_iff.mp result
    have ready : Taken.Ready d (d.crCpusPerCore r) ⟨share.cpus, 0, d.cpusPerTask⟩ := by
      rcases Nat.eq_zero_or_pos (d.crCpusPerCore r) with none_ | positive
      · rw [none_] at loop
        exact Or.inl (blockSockets_zero loop)
      · exact Or.inr ⟨positive, fun _ more => Nat.zero_lt_of_lt more⟩
    have between : BlockState.Between r share.bits
        ⟨share.bits, socketsCoreCnt r share.bits, ∅, ⟨share.cpus, 0, d.cpusPerTask⟩⟩ :=
      ⟨fun _ _ => rfl, fun _ _ _ _ => Iff.rfl,
        fun _ used => absurd used (Finset.notMem_empty _), Finset.empty_subset _⟩
    obtain ⟨total, k, cores, left, room⟩ := blockSockets_charge mem between ready loop
    have whole : Taken.coresLeft d (d.crCpusPerCore r) ⟨share.cpus, 0, d.cpusPerTask⟩ ≤
        coresFor d (d.crCpusPerCore r) share.cpus :=
      Taken.coresLeft_of_whole (d.crCpusPerCore r) rfl
    dsimp only at total cores left room whole
    rw [Finset.card_empty, Nat.zero_add] at room
    rw [Nat.zero_add] at cores
    refine adjustCpus_le_charged ?_ ?_
    · intro isCore
      have bound := total (by rw [isCore]; exact CrType.noConfusion)
      omega
    · intro _
      exact cores.trans (Nat.mul_le_mul_right _ (le_min (left.trans whole) room))

/-! ## The distribution of a job -/

/-- The share keeps its node and is charged for so many CPUs at most. -/
def ChargedFor (most : NodeShare → Nat) (share share' : NodeShare) : Prop :=
  share'.node = share.node ∧ share'.cpus ≤ most share

theorem le_charged (d : JobDetails) (crType : CrType) (r : NodeRes) (cpus : Nat) :
    cpus ≤ charged d crType r cpus := by
  cases crType with
  | cpu => exact le_rfl
  | core => exact le_max_left _ _
  | socket => exact le_max_left _ _

variable {table : Nat → NodeRes} {shares shares' : List NodeShare}

theorem forall₂_imp_mem {α β : Type} {R S : α → β → Prop} {as : List α} {bs : List β}
    (imp : ∀ a ∈ as, ∀ b, R a b → S a b) (all : List.Forall₂ R as bs) : List.Forall₂ S as bs := by
  induction all with
  | nil => exact .nil
  | cons head _ ih =>
    obtain ⟨here, more⟩ := forall_mem_cons.mp imp
    exact .cons (here _ head) (ih more)

theorem forall₂_trans {α β γ : Type} {R : α → β → Prop} {S : β → γ → Prop} {T : α → γ → Prop}
    {as : List α} {bs : List β} {cs : List γ} (both : ∀ a b c, R a b → S b c → T a c)
    (one : List.Forall₂ R as bs) (two : List.Forall₂ S bs cs) : List.Forall₂ T as cs := by
  induction one generalizing cs with
  | nil =>
    cases two
    exact .nil
  | cons head _ ih =>
    cases two with
    | cons head' rest' => exact .cons (both _ _ _ head head') (ih rest')

theorem blockSyncCoreBitmap_charge
    (mem : ∀ share ∈ shares, share.bits ⊆ Finset.range (table share.node).coreCnt)
    (result : blockSyncCoreBitmap table d crType shares = some shares') :
    List.Forall₂ (ChargedFor fun share => charged d crType (table share.node) share.cpus)
      shares shares' := by
  unfold blockSyncCoreBitmap at result
  split_ifs at result with empty
  · cases result
    exact forall₂_same.mpr fun share _ => ⟨rfl, le_charged _ _ _ _⟩
  · refine forall₂_imp_mem ?_ (syncNodes_forall₂ result)
    intro share member share' synced
    have follows : Follows table crType share share' := blockSyncNode_follows synced
    exact ⟨follows.node, blockSyncNode_charge (mem share member) synced⟩

variable {coreDefaultDistBlock : Bool}

theorem syncCores_charge
    (mem : ∀ share ∈ shares, share.bits ⊆ Finset.range (table share.node).coreCnt)
    (result : syncCores table d crType coreDefaultDistBlock shares = some shares') :
    List.Forall₂ (ChargedFor fun share => charged d crType (table share.node) share.cpus)
      shares shares' := by
  unfold syncCores at result
  dsimp only at result
  split_ifs at result with cpus blockDefault block cyclic
  · exact blockSyncCoreBitmap_charge mem result
  · exact blockSyncCoreBitmap_charge mem result
  · exact blockSyncCoreBitmap_charge mem result
  · refine (syncNodes_forall₂ result).imp ?_
    intro share share' synced
    have follows : Follows table crType share share' := cyclicSyncNode_follows synced
    exact ⟨follows.node, cyclicSyncNode_charge synced⟩

theorem forall₂_setCpus {cpus : List Nat}
    (le : ∀ i, cpus.getD i 0 ≤ (shares.map NodeShare.cpus).getD i 0) :
    List.Forall₂ (fun share share' : NodeShare => share'.node = share.node ∧
      share'.bits = share.bits ∧ share'.cpus ≤ share.cpus) shares (setCpus cpus shares) := by
  unfold setCpus
  rw [forall₂_map_right_iff]
  refine forall₂_iff_get.mpr ⟨by rw [length_zipIdx], ?_⟩
  intro i inShares inZip
  simp only [get_eq_getElem, getElem_zipIdx, Nat.zero_add]
  refine ⟨trivial, trivial, ?_⟩
  refine (le i).trans_eq ?_
  rw [getD_eq_getElem?_getD, getElem?_map, getElem?_eq_getElem inShares]
  rfl

/-- The new counts first, then the cores. -/
theorem setCpus_charge {cpus : List Nat}
    (le : ∀ i, cpus.getD i 0 ≤ (shares.map NodeShare.cpus).getD i 0)
    (mem : ∀ share ∈ shares, share.bits ⊆ Finset.range (table share.node).coreCnt)
    (result : syncCores table d crType coreDefaultDistBlock (setCpus cpus shares) = some shares') :
    List.Forall₂ (ChargedFor fun share => charged d crType (table share.node) share.cpus)
      shares shares' := by
  have inside' : ∀ share ∈ setCpus cpus shares,
      share.bits ⊆ Finset.range (table share.node).coreCnt := by
    intro share member
    obtain ⟨⟨first, i⟩, inZip, rfl⟩ := mem_map.mp member
    exact mem first (mem_of_getElem? (mem_zipIdx_iff_getElem?.mp inZip))
  refine forall₂_trans ?_ (forall₂_setCpus le) (syncCores_charge inside' result)
  rintro share counted share' ⟨node, _, fewer⟩ ⟨node', most⟩
  refine ⟨node'.trans node, most.trans ?_⟩
  dsimp only
  rw [node]
  exact charged_mono d crType _ fewer

/-- No node counts for more CPUs after the distribution. -/
theorem crDist_charge {exclusive : Bool} {ncpus : Nat} {avail : Nat → Finset Nat}
    (mem : ∀ share ∈ shares, share.bits ⊆ Finset.range (table share.node).coreCnt)
    (result : crDist table d crType coreDefaultDistBlock exclusive ncpus avail shares = some shares') :
    List.Forall₂ (ChargedFor fun share =>
        mostCpus d crType exclusive (table share.node) (avail share.node) share.cpus)
      shares shares' := by
  unfold crDist at result
  unfold mostCpus
  by_cases special : d.coreSpec ≠ noVal16
  · rw [if_pos special] at result
    cases result
    simp only [if_pos special]
    exact forall₂_same.mpr fun _ _ => ⟨rfl, le_rfl⟩
  · rw [if_neg special] at result
    simp only [if_neg special]
    by_cases whole : exclusive = true ∨ d.wholeNode = 1
    · rw [if_pos whole] at result
      cases result
      simp only [if_pos whole]
      exact forall₂_map_right_iff.mpr (forall₂_same.mpr fun _ _ => ⟨rfl, le_rfl⟩)
    · rw [if_neg whole] at result
      simp only [if_neg whole]
      split_ifs at result ⊢ with none_ plane
      · obtain ⟨cpus, dist, synced⟩ := Option.bind_eq_some_iff.mp result
        exact setCpus_charge (computePlaneDist_le dist) mem synced
      · exact setCpus_charge (computeCBTaskDist_le d ncpus _) mem result

end SlurmSim.Select
