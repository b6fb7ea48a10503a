import SlurmSim.Select.AllocateExact
import SlurmSim.Select.DistCharge

/-!
# The cores of a cyclic distribution

`_cyclic_sync_core_bitmap` moves a cursor over each socket of a node.  The cores
before the cursors are those the job keeps, and they are as many as were counted.
The rounds give the sockets the same number of cores as long as they have some.
-/

namespace SlurmSim.Select

open List
open Finset (mem_Ico mem_inter)

variable {d : JobDetails} {crType : CrType} {r : NodeRes} {vpus : Nat} {bits : Finset Nat}

/-! ## Cursors -/

namespace Sock

/-- The cores of the job before the cursor of a socket. -/
def taken (r : NodeRes) (bits : Finset Nat) (sock : Sock) : Nat :=
  (Finset.Ico (sock.stop - r.cores) sock.start ∩ bits).card

/-- The cores of the job on a socket. -/
def avail (r : NodeRes) (bits : Finset Nat) (sock : Sock) : Nat :=
  (Finset.Ico (sock.stop - r.cores) sock.stop ∩ bits).card

/-- The job has no core from the cursor up to `k`. -/
def Skips (bits : Finset Nat) (sock : Sock) (k : Nat) : Prop :=
  sock.start ≤ k ∧ k ≤ sock.stop ∧ ∀ j, sock.start ≤ j → j < k → j ∉ bits

variable {sock : Sock}

theorem Ok.base_le (ok : sock.Ok r bits) : sock.stop - r.cores ≤ sock.start := by
  obtain ⟨s, low, _, stopEq, _⟩ := ok
  omega

theorem Skips.taken {k : Nat} (skips : sock.Skips bits k) (avoid used : Bool) :
    Sock.taken r bits ⟨k, sock.stop, avoid, used⟩ = sock.taken r bits := by
  obtain ⟨later, _, none_⟩ := skips
  unfold Sock.taken
  congr 1
  ext j
  simp only [mem_inter, mem_Ico]
  constructor
  · rintro ⟨⟨low, before⟩, found⟩
    refine ⟨⟨low, Nat.lt_of_not_le fun passed => ?_⟩, found⟩
    exact none_ j passed before found
  · rintro ⟨⟨low, before⟩, found⟩
    exact ⟨⟨low, before.trans_le later⟩, found⟩

theorem Skips.taken_take {k : Nat} (skips : sock.Skips bits k) (ok : sock.Ok r bits)
    (found : k ∈ bits) (avoid used : Bool) :
    Sock.taken r bits ⟨k + 1, sock.stop, avoid, used⟩ = sock.taken r bits + 1 := by
  rw [← skips.taken avoid used]
  unfold Sock.taken
  have low : sock.stop - r.cores ≤ k := ok.base_le.trans skips.1
  have next : Finset.Ico (sock.stop - r.cores) (k + 1) =
      insert k (Finset.Ico (sock.stop - r.cores) k) := by
    ext j
    simp only [mem_Ico, Finset.mem_insert]
    omega
  rw [next, Finset.insert_inter_of_mem found]
  refine Finset.card_insert_of_notMem fun mem => ?_
  exact absurd (mem_Ico.mp (mem_inter.mp mem).1).2 (Nat.lt_irrefl k)

theorem taken_le_avail (ok : sock.Ok r bits) : sock.taken r bits ≤ sock.avail r bits := by
  refine Finset.card_le_card (Finset.inter_subset_inter_right ?_)
  exact Finset.Ico_subset_Ico_right ok.start_le

end Sock

/-- The cores that the sockets gave. -/
def takenSum (r : NodeRes) (bits : Finset Nat) (socks : List Sock) : Nat :=
  (socks.map (Sock.taken r bits)).sum

/-- The end and the avoidance of each socket. -/
def bounds (socks : List Sock) : List (Nat × Bool) := socks.map fun sock => (sock.stop, sock.avoid)

/-- The cores that the sockets give are counted, and cover no more CPUs than they have. -/
structure Accounts (r : NodeRes) (vpus : Nat) (bits : Finset Nat) (socks socks' : List Sock)
    (st st' : Taken) : Prop where
  bounds_eq : bounds socks' = bounds socks
  counted : st'.coreCnt + takenSum r bits socks = st.coreCnt + takenSum r bits socks'
  covered : st.cpus + vpus * st.coreCnt ≤ st'.cpus + vpus * st'.coreCnt
  fewer : st'.cpus ≤ st.cpus

namespace Accounts

variable {socks socks' socks'' rest rest' : List Sock} {sock sock' : Sock} {st st' st'' : Taken}

theorem refl (socks : List Sock) (st : Taken) : Accounts r vpus bits socks socks st st :=
  ⟨rfl, rfl, le_rfl, le_rfl⟩

theorem trans (one : Accounts r vpus bits socks socks' st st')
    (two : Accounts r vpus bits socks' socks'' st' st'') :
    Accounts r vpus bits socks socks'' st st'' := by
  have counted := one.counted
  have counted' := two.counted
  exact ⟨two.bounds_eq.trans one.bounds_eq, by omega, one.covered.trans two.covered,
    two.fewer.trans one.fewer⟩

theorem cons (one : Accounts r vpus bits [sock] [sock'] st st')
    (more : Accounts r vpus bits rest rest' st' st'') :
    Accounts r vpus bits (sock :: rest) (sock' :: rest') st st'' := by
  have bound := one.bounds_eq
  have bounds' := more.bounds_eq
  have counted := one.counted
  have counted' := more.counted
  simp only [bounds, map_cons, map_nil, List.cons.injEq, and_true] at bound bounds'
  simp only [takenSum, map_cons, map_nil, sum_cons, sum_nil] at counted counted'
  refine ⟨?_, ?_, one.covered.trans more.covered, more.fewer.trans one.fewer⟩
  · simp only [bounds, map_cons, bound, bounds']
  · simp only [takenSum, map_cons, sum_cons]
    omega

end Accounts

theorem seek_skips (bits : Finset Nat) (n start : Nat) {j : Nat} (later : start ≤ j)
    (before : j < seek bits n start) : j ∉ bits := by
  induction n generalizing start with
  | zero => exact absurd (later.trans_lt before) (Nat.lt_irrefl start)
  | succ n ih =>
    rw [seek] at before
    split_ifs at before with found
    · exact absurd (later.trans_lt before) (Nat.lt_irrefl start)
    · rcases Nat.eq_or_lt_of_le later with rfl | after
      · exact found
      · exact ih (start + 1) after before

/-! ## Rounds -/

/-- What a round does: until the CPUs are found each socket that is not avoided gives
its next core, or has none left. -/
inductive Round (vpus : Nat) (bits : Finset Nat) :
    List Sock → Taken → List Sock → Taken → Prop where
  | nil (st : Taken) : Round vpus bits [] st [] st
  | done (socks : List Sock) {st : Taken} (none_ : st.cpus = 0) : Round vpus bits socks st socks st
  | avoid {sock : Sock} {rest rest' : List Sock} {st st' : Taken} (avoided : sock.avoid = true)
      (more : Round vpus bits rest st rest' st') :
      Round vpus bits (sock :: rest) st (sock :: rest') st'
  | empty {sock : Sock} {rest rest' : List Sock} {st st' : Taken} (open_ : sock.avoid = false)
      (skips : sock.Skips bits sock.stop) (more : Round vpus bits rest st rest' st') :
      Round vpus bits (sock :: rest) st ({ sock with start := sock.stop } :: rest') st'
  | take {sock : Sock} {rest rest' : List Sock} {st st' : Taken} {k : Nat}
      (some_ : st.cpus ≠ 0) (open_ : sock.avoid = false) (skips : sock.Skips bits k)
      (found : k ∈ bits) (before : k < sock.stop)
      (more : Round vpus bits rest
        { st with cpus := st.cpus - vpus, coreCnt := st.coreCnt + 1 } rest' st') :
      Round vpus bits (sock :: rest) st ({ sock with start := k + 1, used := true } :: rest') st'

variable (vpus) in
theorem cyclicRound_round {socks : List Sock} (st : Taken) (ok : ∀ sock ∈ socks, sock.Ok r bits) :
    Round vpus bits socks st (cyclicRound vpus bits socks st).1 (cyclicRound vpus bits socks st).2 := by
  induction socks generalizing st with
  | nil => exact .nil st
  | cons sock rest ih =>
    obtain ⟨here, more⟩ := forall_mem_cons.mp ok
    have whole : sock.start + (sock.stop - sock.start) = sock.stop := by
      have inside := here.start_le
      omega
    have skips : sock.Skips bits (seek bits (sock.stop - sock.start) sock.start) := by
      refine ⟨?_, ?_, fun j later before => seek_skips bits _ _ later before⟩
      · rcases seek_spec bits (sock.stop - sock.start) sock.start with last | ⟨_, later, _⟩
        · exact here.start_le.trans_eq (last.trans whole).symm
        · exact later
      · rcases seek_spec bits (sock.stop - sock.start) sock.start with last | ⟨_, _, before⟩
        · exact (last.trans whole).le
        · exact (before.trans_eq whole).le
    rw [cyclicRound]
    dsimp only
    split_ifs with done avoided used
    · exact .done _ done
    · exact .avoid avoided (ih st more)
    · rw [used] at skips ⊢
      exact .empty (Bool.eq_false_of_not_eq_true avoided) skips (ih st more)
    · rcases seek_spec bits (sock.stop - sock.start) sock.start with last | ⟨found, _, before⟩
      · exact absurd (last.trans whole) used
      · exact .take done (Bool.eq_false_of_not_eq_true avoided) skips found
          (before.trans_eq whole) (ih _ more)

namespace Round

variable {socks socks' : List Sock} {st st' : Taken}

theorem cpus_le (round : Round vpus bits socks st socks' st') : st'.cpus ≤ st.cpus := by
  induction round with
  | nil st => exact le_rfl
  | done socks none_ => exact le_rfl
  | avoid avoided more ih => exact ih
  | empty open_ skips more ih => exact ih
  | take some_ open_ skips found before more ih => exact ih.trans (Nat.sub_le _ _)

theorem accounts (round : Round vpus bits socks st socks' st')
    (ok : ∀ sock ∈ socks, sock.Ok r bits) : Accounts r vpus bits socks socks' st st' := by
  induction round with
  | nil st => exact .refl _ _
  | done socks none_ => exact .refl _ _
  | avoid avoided more ih => exact (Accounts.refl _ _).cons (ih (forall_mem_cons.mp ok).2)
  | empty open_ skips more ih =>
    refine Accounts.cons ⟨rfl, ?_, le_rfl, le_rfl⟩ (ih (forall_mem_cons.mp ok).2)
    simp only [takenSum, map_cons, map_nil, skips.taken]
  | take some_ open_ skips found before more ih =>
    obtain ⟨here, rest⟩ := forall_mem_cons.mp ok
    refine Accounts.cons ⟨rfl, ?_, ?_, Nat.sub_le _ _⟩ (ih rest)
    · simp only [takenSum, map_cons, map_nil, sum_cons, sum_nil, skips.taken_take here found]
      omega
    · simp only [Nat.mul_add, Nat.mul_one]
      omega

theorem covered_eq (round : Round vpus bits socks st socks' st') (wanted : st'.cpus ≠ 0) :
    st'.cpus + vpus * st'.coreCnt = st.cpus + vpus * st.coreCnt := by
  induction round with
  | nil st => rfl
  | done socks none_ => rfl
  | avoid avoided more ih => exact ih wanted
  | empty open_ skips more ih => exact ih wanted
  | take some_ open_ skips found before more ih =>
    have le := more.cpus_le
    have others := ih wanted
    simp only [Nat.mul_add, Nat.mul_one] at others
    dsimp only at le
    omega

theorem stuck (round : Round vpus bits socks st socks' st') (pos : 0 < vpus)
    (same : st'.cpus = st.cpus) (wanted : st.cpus ≠ 0) :
    ∀ sock ∈ socks, sock.avoid = false → sock.Skips bits sock.stop := by
  induction round with
  | nil st => simp
  | done socks none_ => exact absurd none_ wanted
  | avoid avoided more ih =>
    refine forall_mem_cons.mpr ⟨fun open_ => ?_, ih same wanted⟩
    rw [avoided] at open_
    exact absurd open_ Bool.noConfusion
  | empty open_ skips more ih =>
    exact forall_mem_cons.mpr ⟨fun _ => skips, ih same wanted⟩
  | take some_ open_ skips found before more ih =>
    have le := more.cpus_le
    dsimp only at le
    omega

end Round

/-! ## Accounts tasks -/

theorem taskShare_le (d : JobDetails) (vpus tmpCpt : Nat) : (taskShare d vpus tmpCpt).1 ≤ vpus := by
  unfold taskShare
  split_ifs with own
  · exact Nat.min_le_right _ _
  · exact le_rfl

theorem packSock_accounts {n : Nat} {sock : Sock} (count : Nat) (st : Taken) (ok : sock.Ok r bits)
    (room : n ≤ sock.stop - sock.start) :
    Accounts r vpus bits [sock] [(packSock d vpus bits n sock count st).1] st
      (packSock d vpus bits n sock count st).2 := by
  induction n generalizing sock count st with
  | zero => exact .refl _ _
  | succ n ih =>
    rw [packSock]
    by_cases full : count = 0 ∨ st.cpus = 0
    · rw [if_pos full]
      exact .refl _ _
    · rw [if_neg full]
      have mem : sock.start < sock.stop := by omega
      by_cases found : sock.start ∈ bits
      · rw [if_pos found]
        have skips : sock.Skips bits sock.start :=
          ⟨le_rfl, mem.le, fun j later before => absurd (later.trans_lt before) (by simp)⟩
        refine Accounts.trans ?_ (ih (if count < vpus then 0 else count -
          (taskShare d vpus st.tmpCpt).1) ⟨if st.cpus < vpus then 0 else st.cpus -
          (taskShare d vpus st.tmpCpt).1, st.coreCnt + 1, (taskShare d vpus st.tmpCpt).2⟩
          (ok.take found le_rfl mem) (by dsimp only; omega))
        refine ⟨rfl, ?_, ?_, ?_⟩
        · simp only [takenSum, map_cons, map_nil, sum_cons, sum_nil, skips.taken_take ok found]
          omega
        · have share := taskShare_le d vpus st.tmpCpt
          simp only [Nat.mul_add, Nat.mul_one]
          split_ifs <;> omega
        · split_ifs
          · exact Nat.zero_le _
          · exact Nat.sub_le _ _
      · rw [if_neg found]
        have skips : sock.Skips bits (sock.start + 1) := by
          refine ⟨Nat.le_succ _, mem, fun j later before => ?_⟩
          rw [Nat.le_antisymm (Nat.le_of_lt_succ before) later]
          exact found
        have skipped : Accounts r vpus bits [sock] [{ sock with start := sock.start + 1 }] st st := by
          refine ⟨rfl, ?_, le_rfl, le_rfl⟩
          simp only [takenSum, map_cons, map_nil, skips.taken]
        exact skipped.trans (ih count st (ok.advance (Nat.le_succ _) mem) (by dsimp only; omega))

variable (d vpus) in
theorem packSocks_accounts {socks : List Sock} (st : Taken) (ok : ∀ sock ∈ socks, sock.Ok r bits) :
    Accounts r vpus bits socks (packSocks d vpus bits socks st).1 st
      (packSocks d vpus bits socks st).2 := by
  induction socks generalizing st with
  | nil => exact .refl _ _
  | cons sock rest ih =>
    obtain ⟨here, more⟩ := forall_mem_cons.mp ok
    exact (packSock_accounts _ st here le_rfl).cons (ih _ more)

/-! ## Before the rounds -/

theorem takenSum_start (r : NodeRes) (bits : Finset Nat) : takenSum r bits (startSocks r) = 0 := by
  refine sum_eq_zero fun count mem => ?_
  obtain ⟨sock, member, rfl⟩ := mem_map.mp mem
  obtain ⟨s, _, rfl⟩ := mem_map.mp member
  rw [Sock.taken, Nat.add_sub_cancel, Finset.Ico_self, Finset.empty_inter, Finset.card_empty]

/-- The cores counted before the rounds. -/
structure Prepared (r : NodeRes) (vpus : Nat) (bits : Finset Nat) (cpus : Nat) (socks : List Sock)
    (st : Taken) : Prop where
  stops : socks.map Sock.stop = (startSocks r).map Sock.stop
  counted : st.coreCnt = takenSum r bits socks
  covered : cpus ≤ st.cpus + vpus * st.coreCnt
  fewer : st.cpus ≤ cpus

theorem prepareSocks_prepared (d : JobDetails) (r : NodeRes) (vpus : Nat) (bits : Finset Nat)
    (cpus : Nat) :
    Prepared r vpus bits cpus (prepareSocks d r vpus bits cpus).1
      (prepareSocks d r vpus bits cpus).2 := by
  unfold prepareSocks
  by_cases perSocket : (if d.ntasksPerSocket ≠ 0 then d.ntasksPerSocket else 0xffff) ≠ 0xffff
  · rw [if_pos perSocket]
    refine ⟨spareSocks_map (fun _ => rfl) _ _ _ _ _ _, ?_, Nat.le_add_right _ _, le_rfl⟩
    rw [takenSum, spareSocks_map (fun _ => rfl)]
    exact (takenSum_start r bits).symm
  · rw [if_neg perSocket]
    split_ifs with several
    · obtain ⟨bound, counted, covered, fewer⟩ :=
        packSocks_accounts d vpus ⟨cpus, 0, d.cpusPerTask⟩ (startSocks_ok (r := r) bits)
      refine ⟨?_, ?_, ?_, fewer⟩
      · have first := congrArg (List.map Prod.fst) bound
        simp only [bounds, map_map] at first
        exact first
      · rw [takenSum_start] at counted
        dsimp only at counted
        omega
      · simpa only [Nat.mul_zero, Nat.add_zero] using covered
    · exact ⟨rfl, (takenSum_start r bits).symm, Nat.le_add_right _ _, le_rfl⟩

/-- What the sockets that are not avoided add up to. -/
def openSum (f : Sock → Nat) (socks : List Sock) : Nat :=
  (socks.map fun sock => if sock.avoid then 0 else f sock).sum

variable {socks : List Sock}

theorem openSum_unavoided {f : Sock → Nat} (unavoided : ∀ sock ∈ socks, sock.avoid = false) :
    openSum f socks = (socks.map f).sum := by
  unfold openSum
  congr 1
  refine map_congr_left fun sock mem => ?_
  rw [unavoided sock mem, if_neg Bool.false_ne_true]

theorem avoidSocks_open {cpusPerSocket cpus : Nat} {f : Sock → Nat} (extra : Nat)
    (unavoided : ∀ sock ∈ socks, sock.avoid = false) :
    avoidSocks cpusPerSocket cpus (socks.zip (socks.map f)) (extra + (socks.map f).sum) = socks ∨
      cpus ≤ extra + openSum f (avoidSocks cpusPerSocket cpus (socks.zip (socks.map f))
        (extra + (socks.map f).sum)) := by
  induction socks generalizing extra with
  | nil => exact Or.inl rfl
  | cons sock rest ih =>
    obtain ⟨here, more⟩ := forall_mem_cons.mp unavoided
    simp only [map_cons, zip_cons_cons, sum_cons, avoidSocks]
    by_cases spare : cpus < extra + (f sock + (rest.map f).sum) ∧ f sock ≤ cpusPerSocket ∧
        cpus ≤ extra + (f sock + (rest.map f).sum) - f sock
    · rw [if_pos spare]
      have less : extra + (f sock + (rest.map f).sum) - f sock = extra + (rest.map f).sum := by omega
      rw [less] at spare ⊢
      right
      simp only [openSum, map_cons, sum_cons, if_true, Nat.zero_add]
      rcases ih extra more with all | enough
      · rw [all]
        exact spare.2.2.trans_eq (congrArg (extra + ·) (openSum_unavoided more).symm)
      · exact enough
    · rw [if_neg spare]
      have total : extra + (f sock + (rest.map f).sum) = extra + f sock + (rest.map f).sum := by omega
      rw [total]
      rcases ih (extra + f sock) more with all | enough
      · left
        rw [all]
      · right
        simp only [openSum, map_cons, sum_cons, here, Bool.false_eq_true, if_false]
        rw [← Nat.add_assoc]
        exact enough

theorem avoidSocks_none {cpusPerSocket cpus total : Nat} (few : total ≤ cpus)
    (socks : List (Sock × Nat)) :
    avoidSocks cpusPerSocket cpus socks total = socks.map Prod.fst := by
  induction socks with
  | nil => rfl
  | cons head rest ih =>
    rw [avoidSocks, if_neg fun spare => Nat.not_lt_of_le few spare.1, ih]
    rfl

/-- When more CPUs than wanted are left, every socket is trimmed. -/
theorem trimCounts_spec (cpusPerSocket cpus : Nat) (counts : List Nat) {total : Nat}
    (sum_le : counts.sum ≤ total) :
    (trimCounts cpusPerSocket cpus counts total).2 + counts.sum =
        total + (trimCounts cpusPerSocket cpus counts total).1.sum ∧
      (cpus < (trimCounts cpusPerSocket cpus counts total).2 →
        (trimCounts cpusPerSocket cpus counts total).1 = counts.map (min · cpusPerSocket)) ∧
      (trimCounts cpusPerSocket cpus counts total).2 ≤ total := by
  induction counts generalizing total with
  | nil => exact ⟨rfl, fun _ => rfl, le_rfl⟩
  | cons count rest ih =>
    rw [sum_cons] at sum_le
    rw [trimCounts]
    split_ifs with excess
    · have less : rest.sum ≤ total - (count - cpusPerSocket) := by omega
      obtain ⟨sums, trimmed, le⟩ := ih less
      refine ⟨?_, fun more => ?_, le.trans (Nat.sub_le _ _)⟩
      · simp only [sum_cons]
        omega
      · simp only [map_cons, min_eq_right excess.2.le]
        exact congrArg (_ :: ·) (trimmed more)
    · have less : rest.sum ≤ total := by omega
      obtain ⟨sums, trimmed, le⟩ := ih less
      refine ⟨?_, fun more => ?_, le⟩
      · simp only [sum_cons]
        omega
      · have small : count ≤ cpusPerSocket :=
          Nat.le_of_not_lt fun large => excess ⟨more.trans_le le, large⟩
        simp only [map_cons, min_eq_left small]
        exact congrArg (_ :: ·) (trimmed more)

/-- The CPUs that a socket has, at most the limit of a socket. -/
def Sock.capped (r : NodeRes) (vpus : Nat) (bits : Finset Nat) (cpusPerSocket : Nat) (sock : Sock) :
    Nat :=
  min (vpus * sock.avail r bits) cpusPerSocket

theorem spareSocks_open (d : JobDetails) (r : NodeRes) (vpus : Nat) (bits : Finset Nat)
    (ntasksPerSocket cpus : Nat) :
    spareSocks d vpus bits ntasksPerSocket cpus (startSocks r) = startSocks r ∨
      cpus ≤ openSum (Sock.capped r vpus bits (ntasksPerSocket * d.cpusPerTask))
        (spareSocks d vpus bits ntasksPerSocket cpus (startSocks r)) := by
  have counts : (startSocks r).map (cpusCnt vpus bits) =
      (startSocks r).map fun sock => vpus * sock.avail r bits := by
    refine map_congr_left fun sock mem => ?_
    obtain ⟨s, _, rfl⟩ := mem_map.mp mem
    rw [cpusCnt, Sock.avail, Nat.add_sub_cancel]
  obtain ⟨sums, trimmed, _⟩ := trimCounts_spec (ntasksPerSocket * d.cpusPerTask) cpus
    ((startSocks r).map (cpusCnt vpus bits)) le_rfl
  have length := length_trimCounts (ntasksPerSocket * d.cpusPerTask) cpus
    ((startSocks r).map (cpusCnt vpus bits)).sum ((startSocks r).map (cpusCnt vpus bits))
  unfold spareSocks
  dsimp only
  generalize trimCounts (ntasksPerSocket * d.cpusPerTask) cpus
    ((startSocks r).map (cpusCnt vpus bits)) ((startSocks r).map (cpusCnt vpus bits)).sum = trim
    at sums trimmed length ⊢
  obtain ⟨counts', total⟩ := trim
  dsimp only at sums trimmed length ⊢
  rcases Nat.lt_or_ge cpus total with more | few
  · have capped : counts' = (startSocks r).map
        (Sock.capped r vpus bits (ntasksPerSocket * d.cpusPerTask)) := by
      rw [trimmed more, counts, map_map]
      rfl
    have whole : total = 0 + counts'.sum := by omega
    rw [whole, capped]
    refine (avoidSocks_open 0 fun sock mem => ?_).imp_right fun enough => ?_
    · obtain ⟨s, _, rfl⟩ := mem_map.mp mem
      rfl
    · rw [Nat.zero_add] at enough
      exact enough
  · left
    rw [avoidSocks_none few]
    exact map_fst_zip (by rw [length, length_map])

/-! ## Even rounds -/

/-- After `n` rounds every open socket gave as many cores, or all it has. -/
def Level (r : NodeRes) (bits : Finset Nat) (n : Nat) (socks : List Sock) : Prop :=
  ∀ sock ∈ socks, sock.taken r bits = if sock.avoid then 0 else min (sock.avail r bits) n

theorem Level.start (r : NodeRes) (bits : Finset Nat) (none_ : takenSum r bits socks = 0) :
    Level r bits 0 socks := by
  intro sock mem
  rw [Nat.min_zero, ite_self]
  exact sum_eq_zero_iff.mp none_ _ (mem_map_of_mem mem)

theorem Level.takenSum {n : Nat} (level : Level r bits n socks) :
    takenSum r bits socks = openSum (fun sock => min (sock.avail r bits) n) socks := by
  unfold Select.takenSum openSum
  congr 1
  exact map_congr_left level

theorem Level.taken_le {n : Nat} (level : Level r bits n socks) :
    ∀ sock ∈ socks, sock.taken r bits ≤ n := by
  intro sock mem
  rw [level sock mem]
  split_ifs
  · exact Nat.zero_le _
  · exact Nat.min_le_right _ _

namespace Round

variable {socks socks' : List Sock} {st st' : Taken} {n : Nat}

theorem taken_le (round : Round vpus bits socks st socks' st')
    (ok : ∀ sock ∈ socks, sock.Ok r bits) (most : ∀ sock ∈ socks, sock.taken r bits ≤ n) :
    ∀ sock ∈ socks', sock.taken r bits ≤ n + 1 := by
  induction round with
  | nil st => simp
  | done socks none_ => exact fun sock mem => (most sock mem).trans (Nat.le_succ n)
  | avoid avoided more ih =>
    obtain ⟨here, rest⟩ := forall_mem_cons.mp most
    exact forall_mem_cons.mpr ⟨here.trans (Nat.le_succ n), ih (forall_mem_cons.mp ok).2 rest⟩
  | empty open_ skips more ih =>
    obtain ⟨here, rest⟩ := forall_mem_cons.mp most
    refine forall_mem_cons.mpr ⟨?_, ih (forall_mem_cons.mp ok).2 rest⟩
    rw [skips.taken]
    exact here.trans (Nat.le_succ n)
  | take some_ open_ skips found before more ih =>
    obtain ⟨here, rest⟩ := forall_mem_cons.mp most
    obtain ⟨okHere, okRest⟩ := forall_mem_cons.mp ok
    refine forall_mem_cons.mpr ⟨?_, ih okRest rest⟩
    rw [skips.taken_take okHere found]
    exact Nat.succ_le_succ here

/-- A round that does not find all CPUs takes a core from every open socket. -/
theorem level (round : Round vpus bits socks st socks' st')
    (ok : ∀ sock ∈ socks, sock.Ok r bits) (level : Level r bits n socks) (wanted : st'.cpus ≠ 0) :
    Level r bits (n + 1) socks' := by
  induction round with
  | nil st => simp [Level]
  | done socks none_ => exact absurd none_ wanted
  | avoid avoided more ih =>
    obtain ⟨here, rest⟩ := forall_mem_cons.mp level
    refine forall_mem_cons.mpr ⟨?_, ih (forall_mem_cons.mp ok).2 rest wanted⟩
    rw [here, avoided, if_pos rfl, if_pos rfl]
  | empty open_ skips more ih =>
    obtain ⟨here, rest⟩ := forall_mem_cons.mp level
    refine forall_mem_cons.mpr ⟨?_, ih (forall_mem_cons.mp ok).2 rest wanted⟩
    have all := skips.taken (r := r) true true
    rw [here, open_, if_neg Bool.false_ne_true] at all
    rw [skips.taken, here, open_, if_neg Bool.false_ne_true, if_neg Bool.false_ne_true]
    have few : min (Sock.avail r bits _) n = Sock.avail r bits _ := all.symm
    simp only [Sock.avail] at few ⊢
    omega
  | take some_ open_ skips found before more ih =>
    obtain ⟨here, rest⟩ := forall_mem_cons.mp level
    obtain ⟨okHere, okRest⟩ := forall_mem_cons.mp ok
    refine forall_mem_cons.mpr ⟨?_, ih okRest rest wanted⟩
    have le := Sock.taken_le_avail (okHere.take found skips.1 before)
    rw [skips.taken_take okHere found, here, open_, if_neg Bool.false_ne_true] at le ⊢
    simp only [Sock.avail, Bool.false_eq_true, if_false] at le ⊢
    omega

end Round

variable {socks socks' : List Sock} {rounds i : Nat} {st st' : Taken}

theorem unavoided_of_bounds (same : bounds socks' = bounds socks)
    (unavoided : ∀ sock ∈ socks, sock.avoid = false) : ∀ sock ∈ socks', sock.avoid = false := by
  intro sock mem
  have member : (sock.stop, sock.avoid) ∈ bounds socks' :=
    mem_map.mpr ⟨sock, mem, rfl⟩
  rw [same] at member
  obtain ⟨first, isFirst, eq⟩ := mem_map.mp member
  exact (congrArg Prod.snd eq).symm.trans (unavoided first isFirst)

theorem openSum_of_bounds (same : bounds socks' = bounds socks) (f : Nat → Nat) :
    openSum (fun sock => f sock.stop) socks' = openSum (fun sock => f sock.stop) socks := by
  have byBounds : ∀ list : List Sock, openSum (fun sock => f sock.stop) list =
      ((bounds list).map fun bound => if bound.2 then 0 else f bound.1).sum := by
    intro list
    rw [bounds, map_map]
    rfl
  rw [byBounds, byBounds, same]

theorem cyclicRounds_limit {n most cpus : Nat} (ok : ∀ sock ∈ socks, sock.Ok r bits)
    (level : Level r bits n socks) (le : n ≤ most)
    (left : st.cpus ≠ 0 → cpus = st.cpus + vpus * st.coreCnt)
    (counted : st.coreCnt = takenSum r bits socks)
    (enough : cpus ≤ vpus * openSum (fun sock => min (sock.avail r bits) most) socks)
    (result : cyclicRounds vpus bits rounds socks st = some (socks', st')) :
    ∀ sock ∈ socks', sock.taken r bits ≤ most := by
  induction rounds generalizing socks st n with
  | zero => simp [cyclicRounds] at result
  | succ rounds ih =>
    rw [cyclicRounds] at result
    dsimp only at result
    split_ifs at result with done stuck
    · cases result
      exact fun sock mem => (level.taken_le sock mem).trans le
    · have round := cyclicRound_round vpus st ok
      have accounts := round.accounts ok
      have room : n < most := by
        refine Nat.lt_of_le_of_ne le fun same => ?_
        rw [same] at level
        have all := left done
        rw [counted, level.takenSum] at all
        omega
      by_cases found : (cyclicRound vpus bits socks st).2.cpus = 0
      · have last : ∀ sock ∈ (cyclicRound vpus bits socks st).1, sock.taken r bits ≤ n + 1 :=
          round.taken_le ok level.taken_le
        have same : socks' = (cyclicRound vpus bits socks st).1 := by
          cases rounds with
          | zero => simp [cyclicRounds] at result
          | succ rounds =>
            rw [cyclicRounds, if_pos found] at result
            exact (congrArg Prod.fst (Option.some.inj result)).symm
        rw [same]
        exact fun sock mem => (last sock mem).trans room
      · refine ih (cyclicRound_ok ok) (round.level ok level found) room ?_ ?_ ?_ result
        · intro wanted
          rw [left done]
          exact (round.covered_eq wanted).symm
        · have sums := accounts.counted
          omega
        · refine enough.trans_eq (congrArg (vpus * ·) ?_)
          exact (openSum_of_bounds accounts.bounds_eq
            fun stop => min (Finset.Ico (stop - r.cores) stop ∩ bits).card most).symm

/-! ## How the rounds end -/

theorem cyclicRounds_ends (ok : ∀ sock ∈ socks, sock.Ok r bits) (enough : st.cpus < rounds)
    (more : Nat) :
    cyclicRounds vpus bits (rounds + more) socks st = cyclicRounds vpus bits rounds socks st := by
  induction rounds generalizing socks st with
  | zero => exact absurd enough (Nat.not_lt_zero _)
  | succ rounds ih =>
    rw [Nat.succ_add, cyclicRounds, cyclicRounds]
    dsimp only
    split_ifs with done stuck
    · rfl
    · rfl
    · refine ih (cyclicRound_ok ok) ?_
      have le := (cyclicRound_round vpus st ok).cpus_le
      omega

theorem cyclicRounds_accounts (ok : ∀ sock ∈ socks, sock.Ok r bits)
    (result : cyclicRounds vpus bits rounds socks st = some (socks', st')) :
    Accounts r vpus bits socks socks' st st' ∧ st'.cpus = 0 := by
  induction rounds generalizing socks st with
  | zero => simp [cyclicRounds] at result
  | succ rounds ih =>
    rw [cyclicRounds] at result
    dsimp only at result
    split_ifs at result with done stuck
    · cases result
      exact ⟨.refl _ _, done⟩
    · obtain ⟨accounts, last⟩ := ih (cyclicRound_ok ok) result
      exact ⟨((cyclicRound_round vpus st ok).accounts ok).trans accounts, last⟩

/-- What holds when the rounds are stuck. -/
structure Stuck (r : NodeRes) (vpus : Nat) (bits : Finset Nat) (socks socks' : List Sock)
    (st st' : Taken) : Prop where
  accounts : Accounts r vpus bits socks socks' st st'
  wanted : st'.cpus ≠ 0
  cores : st'.coreCnt + st'.cpus ⌈/⌉ vpus ≤ st.coreCnt + st.cpus ⌈/⌉ vpus
  empty : ∀ sock ∈ socks', sock.avoid = false → sock.taken r bits = sock.avail r bits

theorem cyclicRounds_none (pos : 0 < vpus) (ok : ∀ sock ∈ socks, sock.Ok r bits)
    (enough : st.cpus < rounds) (failed : cyclicRounds vpus bits rounds socks st = none) :
    ∃ socks' st', Stuck r vpus bits socks socks' st st' := by
  induction rounds generalizing socks st with
  | zero => exact absurd enough (Nat.not_lt_zero _)
  | succ rounds ih =>
    have round := cyclicRound_round vpus st ok
    rw [cyclicRounds] at failed
    dsimp only at failed
    split_ifs at failed with done stuck
    · refine ⟨socks, st, .refl _ _, done, le_rfl, fun sock mem open_ => ?_⟩
      exact ((round.stuck pos stuck done sock mem open_).taken true true).symm
    · have less := round.cpus_le
      obtain ⟨socks', st', last⟩ := ih (cyclicRound_ok ok) (by omega) failed
      refine ⟨socks', st', (round.accounts ok).trans last.accounts, last.wanted, ?_, last.empty⟩
      exact last.cores.trans (cyclicRound_charge st pos ok).1

/-! ## The cores that stay -/

/-- The cores before the cursors. -/
def keptBits (socks : List Sock) (bits : Finset Nat) : Finset Nat :=
  bits.filter fun j => ∀ sock ∈ socks, ¬(sock.start ≤ j ∧ j < sock.stop)

theorem finishSock_kept (apart : crType ≠ .socket) (sock : Sock) (found : Finset Nat × Nat) :
    finishSock crType r sock found = (found.1 \ Finset.Ico sock.start sock.stop, found.2) := by
  unfold finishSock
  dsimp only
  by_cases empty : sock.start = sock.stop
  · rw [if_pos empty, empty, Finset.Ico_self, Finset.sdiff_empty]
  · rw [if_neg empty, if_pos (Or.inl apart)]
    split_ifs with used
    · rw [Finset.inter_sdiff_self, Finset.card_empty, Nat.add_zero]
    · rfl

theorem finishSocks_kept (apart : crType ≠ .socket) (socks : List Sock) (found : Finset Nat × Nat) :
    socks.foldl (fun found sock => finishSock crType r sock found) found =
      (keptBits socks found.1, found.2) := by
  induction socks generalizing found with
  | nil => simp [keptBits]
  | cons sock rest ih =>
    rw [foldl_cons, ih, finishSock_kept apart]
    congr 1
    ext j
    simp only [keptBits, Finset.mem_filter, Finset.mem_sdiff, mem_Ico, forall_mem_cons]
    exact and_assoc

theorem getElem?_stop (stops : socks.map Sock.stop = (startSocks r).map Sock.stop) {sock : Sock}
    (here : socks[i]? = some sock) : i < r.sockets ∧ sock.stop = i * r.cores + r.cores := by
  have stop := congrArg (·[i]?) stops
  simp only [getElem?_map, here, Option.map_some, startSocks] at stop
  rcases Nat.lt_or_ge i r.sockets with mem | outside
  · rw [getElem?_range mem] at stop
    exact ⟨mem, Option.some.inj stop⟩
  · have length : (List.range r.sockets).length ≤ i := by rwa [length_range]
    rw [getElem?_eq_none length] at stop
    exact absurd stop (Option.some_ne_none _)

theorem length_of_stops (stops : socks.map Sock.stop = (startSocks r).map Sock.stop) :
    socks.length = r.sockets := by
  have length := congrArg List.length stops
  rwa [length_map, length_map, length_startSocks] at length

theorem div_cores (pos : 0 < r.cores) {j : Nat} :
    j / r.cores = i ↔ i * r.cores ≤ j ∧ j < i * r.cores + r.cores := by
  constructor
  · rintro rfl
    exact ⟨Nat.div_mul_le_self j r.cores, Nat.lt_div_mul_add pos⟩
  · rintro ⟨low, before⟩
    exact Nat.div_eq_of_lt_le low (by rwa [Nat.add_mul, Nat.one_mul])

theorem onSocket_keptBits (pos : 0 < r.cores) (ok : ∀ sock ∈ socks, sock.Ok r bits)
    (stops : socks.map Sock.stop = (startSocks r).map Sock.stop) {sock : Sock}
    (here : socks[i]? = some sock) :
    (onSocket r (keptBits socks bits) i).card = sock.taken r bits := by
  have inList := mem_of_getElem? here
  obtain ⟨_, stopEq⟩ := getElem?_stop stops here
  have inside := (ok sock inList).start_le
  congr 1
  ext j
  simp only [onSocket, keptBits, Finset.mem_filter, mem_inter, mem_Ico, div_cores pos]
  constructor
  · rintro ⟨⟨found, kept⟩, low, before⟩
    refine ⟨⟨by omega, Nat.lt_of_not_le fun passed => ?_⟩, found⟩
    exact kept sock inList ⟨passed, by omega⟩
  · rintro ⟨⟨low, before⟩, found⟩
    refine ⟨⟨found, fun other mem passed => ?_⟩, by omega, by omega⟩
    obtain ⟨k, otherHere⟩ := getElem?_of_mem mem
    obtain ⟨_, otherStop⟩ := getElem?_stop stops otherHere
    have base := (ok other mem).base_le
    have first : j / r.cores = k := (div_cores pos).mpr ⟨by omega, by omega⟩
    have second : j / r.cores = i := (div_cores pos).mpr ⟨by omega, by omega⟩
    rw [first.symm.trans second, here] at otherHere
    cases otherHere
    omega

theorem onSocket_bits (pos : 0 < r.cores) (bits : Finset Nat) (i : Nat) :
    (onSocket r bits i).card =
      Sock.avail r bits ⟨i * r.cores, i * r.cores + r.cores, false, false⟩ := by
  congr 1
  ext j
  simp only [onSocket, Finset.mem_filter, mem_inter, mem_Ico, div_cores pos,
    Nat.add_sub_cancel]
  exact and_comm

theorem card_keptBits (ok : ∀ sock ∈ socks, sock.Ok r bits)
    (stops : socks.map Sock.stop = (startSocks r).map Sock.stop)
    (mem : bits ⊆ Finset.range r.coreCnt) :
    (keptBits socks bits).card = takenSum r bits socks := by
  rcases Nat.eq_zero_or_pos r.cores with none_ | positive
  · rw [NodeRes.coreCnt, none_, Nat.mul_zero, Finset.range_zero, Finset.subset_empty] at mem
    subst mem
    rw [keptBits, Finset.filter_empty, Finset.card_empty, takenSum, sum_eq_zero]
    intro count member
    obtain ⟨sock, _, rfl⟩ := mem_map.mp member
    rw [Sock.taken, Finset.inter_empty, Finset.card_empty]
  · have subset : keptBits socks bits ⊆ Finset.range r.coreCnt :=
      (Finset.filter_subset _ _).trans mem
    rw [card_eq_sum_onSocket subset, takenSum, ← sum_getD, length_map, length_of_stops stops]
    refine Finset.sum_congr rfl fun i member => ?_
    have below : i < socks.length := by
      rw [length_of_stops stops]
      exact Finset.mem_range.mp member
    have here := getElem?_eq_getElem below
    rw [onSocket_keptBits positive ok stops here, getD_eq_getElem?_getD, getElem?_map,
      here, Option.map_some, Option.getD_some]

theorem sum_avail (pos : 0 < r.cores)
    (stops : socks.map Sock.stop = (startSocks r).map Sock.stop) (f : Nat → Nat) :
    (socks.map fun sock => f (sock.avail r bits)).sum =
      ∑ i ∈ Finset.range r.sockets, f (onSocket r bits i).card := by
  rw [← sum_getD, length_map, length_of_stops stops]
  refine Finset.sum_congr rfl fun i mem => ?_
  have below : i < socks.length := by
    rw [length_of_stops stops]
    exact Finset.mem_range.mp mem
  have here := getElem?_eq_getElem below
  obtain ⟨_, stopEq⟩ := getElem?_stop stops here
  rw [getD_eq_getElem?_getD, getElem?_map, here, Option.map_some, Option.getD_some,
    onSocket_bits pos, Sock.avail, Sock.avail, stopEq]

/-! ## One node -/

theorem prepareSocks_open (d : JobDetails) (r : NodeRes) (vpus : Nat) (bits : Finset Nat)
    (cpus : Nat) :
    (∀ sock ∈ (prepareSocks d r vpus bits cpus).1, sock.avoid = false) ∨
      (prepareSocks d r vpus bits cpus).2 = ⟨cpus, 0, 0⟩ ∧
        cpus ≤ openSum (Sock.capped r vpus bits (d.ntasksPerSocket * d.cpusPerTask))
          (prepareSocks d r vpus bits cpus).1 := by
  have unavoided : ∀ sock ∈ startSocks r, sock.avoid = false := by
    intro sock mem
    obtain ⟨s, _, rfl⟩ := mem_map.mp mem
    rfl
  unfold prepareSocks
  by_cases perSocket : (if d.ntasksPerSocket ≠ 0 then d.ntasksPerSocket else 0xffff) ≠ 0xffff
  · rw [if_pos perSocket]
    have given : d.ntasksPerSocket ≠ 0 := fun none_ => perSocket (if_neg (not_not.mpr none_))
    rw [if_pos given]
    rcases spareSocks_open d r vpus bits d.ntasksPerSocket cpus with all | enough
    · left
      rw [all]
      exact unavoided
    · exact Or.inr ⟨rfl, enough⟩
  · rw [if_neg perSocket]
    left
    split_ifs with several
    · exact unavoided_of_bounds (packSocks_accounts d vpus
        ⟨cpus, 0, d.cpusPerTask⟩ (startSocks_ok (r := r) bits)).bounds_eq unavoided
    · exact unavoided

/-- `core_cnt` at the end of `_cyclic_sync_core_bitmap` for a node. -/
def cyclicCoreCnt (d : JobDetails) (crType : CrType) (r : NodeRes) (share : NodeShare) :
    Option Nat :=
  let vpus := d.crCpusPerCore r
  let (socks, st) := prepareSocks d r vpus share.bits share.cpus
  (cyclicRounds vpus share.bits (share.cpus + 1) socks st).map fun (socks, st) =>
    (socks.foldl (fun found sock => finishSock crType r sock found) (share.bits, st.coreCnt)).2

/-- The cores suffice for the CPUs.  A task that has its cores to itself uses its last
core in part. -/
def EnoughCores (d : JobDetails) (vpus cores cpus : Nat) : Prop :=
  cpus = 0 ∨ 0 < vpus ∧ coresFor d vpus cpus ≤ cores

theorem openSum_le {f g : Sock → Nat} (le : ∀ sock, f sock ≤ g sock) (socks : List Sock) :
    openSum f socks ≤ openSum g socks := by
  refine sum_le_sum fun sock _ => ?_
  split_ifs
  · exact le_rfl
  · exact le sock

theorem openSum_mul (vpus : Nat) (f : Sock → Nat) (socks : List Sock) :
    openSum (fun sock => vpus * f sock) socks = vpus * openSum f socks := by
  unfold openSum
  rw [← sum_map_mul_left]
  congr 1
  refine map_congr_left fun sock _ => ?_
  split_ifs
  · exact (Nat.mul_zero vpus).symm
  · rfl

theorem card_le_openSum (stops : socks.map Sock.stop = (startSocks r).map Sock.stop)
    (unavoided : ∀ sock ∈ socks, sock.avoid = false) (mem : bits ⊆ Finset.range r.coreCnt) :
    bits.card ≤ openSum (Sock.avail r bits) socks := by
  rcases Nat.eq_zero_or_pos r.cores with none_ | positive
  · rw [NodeRes.coreCnt, none_, Nat.mul_zero, Finset.range_zero, Finset.subset_empty] at mem
    rw [mem, Finset.card_empty]
    exact Nat.zero_le _
  · rw [openSum_unavoided unavoided, card_eq_sum_onSocket mem]
    exact (sum_avail positive stops id).ge

theorem Stuck.openSum_le (stuck : Stuck r vpus bits socks socks' st st') :
    openSum (Sock.avail r bits) socks ≤ takenSum r bits socks' := by
  have same := openSum_of_bounds stuck.accounts.bounds_eq
    fun stop => (Finset.Ico (stop - r.cores) stop ∩ bits).card
  refine same.symm.trans_le (sum_le_sum fun sock mem => ?_)
  split_ifs with avoided
  · exact Nat.zero_le _
  · exact (stuck.empty sock mem (Bool.eq_false_of_not_eq_true avoided)).ge

/-- The cores of a node are missed only if they do not suffice. -/
theorem cyclicSyncNode_none {share : NodeShare} (mem : share.bits ⊆ Finset.range r.coreCnt)
    (failed : cyclicSyncNode d crType r share = none) :
    ¬EnoughCores d (d.crCpusPerCore r) share.bits.card share.cpus := by
  have rounds : cyclicRounds (d.crCpusPerCore r) share.bits (share.cpus + 1)
      (prepareSocks d r (d.crCpusPerCore r) share.bits share.cpus).1
      (prepareSocks d r (d.crCpusPerCore r) share.bits share.cpus).2 = none :=
    Option.map_eq_none_iff.mp failed
  have ok : ∀ sock ∈ (prepareSocks d r (d.crCpusPerCore r) share.bits share.cpus).1,
      sock.Ok r share.bits := prepareSocks_ok share.cpus
  have prepared := prepareSocks_prepared d r (d.crCpusPerCore r) share.bits share.cpus
  rintro (none_ | ⟨pos, enough⟩)
  · rw [cyclicRounds, if_pos (Nat.le_zero.mp (prepared.fewer.trans_eq none_))] at rounds
    exact Option.some_ne_none _ rounds
  · obtain ⟨socks', st', stuck⟩ := cyclicRounds_none pos ok
      (Nat.lt_succ_of_le prepared.fewer) rounds
    have counted := stuck.accounts.counted
    rw [prepared.counted, Nat.add_comm, Nat.add_left_cancel_iff] at counted
    have more := ceilDiv_pos pos stuck.wanted
    have all := stuck.openSum_le
    have charge := stuck.cores
    rcases prepareSocks_open d r (d.crCpusPerCore r) share.bits share.cpus with
      unavoided | ⟨whole, suffice⟩
    · have takes : share.cpus = 0 ∨ 0 < d.crCpusPerCore r := Or.inr pos
      have charged := (prepareSocks_charge d r share.bits takes).1
      have every := card_le_openSum prepared.stops unavoided mem
      omega
    · rw [whole] at charge
      dsimp only at charge
      have within : share.cpus ≤ d.crCpusPerCore r * st'.coreCnt := by
        rw [counted]
        refine (suffice.trans (openSum_le (fun sock => Nat.min_le_left _ _) _)).trans ?_
        rw [openSum_mul]
        exact Nat.mul_le_mul_left _ all
      have few := (ceilDiv_le_iff_le_mul pos).mpr within
      omega

/-- What a success without `CR_SOCKET` leaves of a node. -/
structure CyclicExact (d : JobDetails) (crType : CrType) (r : NodeRes) (share share' : NodeShare) :
    Prop where
  subset : share'.bits ⊆ share.bits
  counted : cyclicCoreCnt d crType r share = some share'.bits.card
  covers : share.cpus ≤ d.crCpusPerCore r * share'.bits.card
  /-- If the sockets have the CPUs within the limit of a socket, none has more. -/
  limit : d.ntasksPerSocket ≠ 0 → d.ntasksPerSocket ≠ 0xffff →
    share.cpus ≤ ∑ i ∈ Finset.range r.sockets,
      min (d.crCpusPerCore r * (onSocket r share.bits i).card) (d.ntasksPerSocket * d.cpusPerTask) →
    ∀ i, (onSocket r share'.bits i).card ≤ d.ntasksPerSocket * d.cpusPerTask ⌈/⌉ d.crCpusPerCore r

theorem capped_le (r : NodeRes) (vpus : Nat) (bits : Finset Nat) (cpusPerSocket : Nat) (sock : Sock) :
    sock.capped r vpus bits cpusPerSocket ≤
      vpus * min (sock.avail r bits) (cpusPerSocket ⌈/⌉ vpus) := by
  unfold Sock.capped
  rcases Nat.eq_zero_or_pos vpus with rfl | positive
  · rw [Nat.zero_mul, Nat.zero_mul]
    exact Nat.min_le_left _ _
  · rw [← Nat.mul_min_mul_left]
    exact min_le_min_left _ ((ceilDiv_le_iff_le_mul positive).mp le_rfl)

theorem prepareSocks_within {cpus : Nat} (limited : d.ntasksPerSocket ≠ 0)
    (limit : d.ntasksPerSocket ≠ 0xffff) (pos : 0 < r.cores)
    (enough : cpus ≤ ∑ i ∈ Finset.range r.sockets,
      min (vpus * (onSocket r bits i).card) (d.ntasksPerSocket * d.cpusPerTask)) :
    (prepareSocks d r vpus bits cpus).2 = ⟨cpus, 0, 0⟩ ∧
      cpus ≤ openSum (Sock.capped r vpus bits (d.ntasksPerSocket * d.cpusPerTask))
        (prepareSocks d r vpus bits cpus).1 := by
  have start : (prepareSocks d r vpus bits cpus).2 = ⟨cpus, 0, 0⟩ := by
    unfold prepareSocks
    rw [if_pos (by rwa [if_pos limited])]
  refine ⟨start, ?_⟩
  rcases prepareSocks_open d r vpus bits cpus with unavoided | ⟨_, suffice⟩
  · rw [openSum_unavoided unavoided]
    refine enough.trans_eq ?_
    exact (sum_avail pos (prepareSocks_prepared d r vpus bits cpus).stops
      fun cores => min (vpus * cores) (d.ntasksPerSocket * d.cpusPerTask)).symm
  · exact suffice

theorem onSocket_keptBits_le {most : Nat} (ok : ∀ sock ∈ socks, sock.Ok r bits)
    (stops : socks.map Sock.stop = (startSocks r).map Sock.stop)
    (mem : bits ⊆ Finset.range r.coreCnt) (pos : 0 < r.cores)
    (few : ∀ sock ∈ socks, sock.taken r bits ≤ most) (i : Nat) :
    (onSocket r (keptBits socks bits) i).card ≤ most := by
  cases here : socks[i]? with
  | some sock =>
    rw [onSocket_keptBits pos ok stops here]
    exact few sock (mem_of_getElem? here)
  | none =>
    have outside := getElem?_eq_none_iff.mp here
    rw [length_of_stops stops] at outside
    refine (Finset.card_eq_zero.mpr (Finset.filter_eq_empty_iff.mpr fun j member socket => ?_)).le.trans
      (Nat.zero_le _)
    have below := Finset.mem_range.mp (mem (Finset.mem_filter.mp member).1)
    rw [NodeRes.coreCnt, Nat.mul_comm] at below
    have within := Nat.div_lt_of_lt_mul below
    omega

theorem cyclicSyncNode_exact {share share' : NodeShare} (apart : crType ≠ .socket)
    (mem : share.bits ⊆ Finset.range r.coreCnt)
    (result : cyclicSyncNode d crType r share = some share') :
    CyclicExact d crType r share share' := by
  have some_ : ∃ found, cyclicRounds (d.crCpusPerCore r) share.bits (share.cpus + 1)
      (prepareSocks d r (d.crCpusPerCore r) share.bits share.cpus).1
      (prepareSocks d r (d.crCpusPerCore r) share.bits share.cpus).2 = some found ∧ _ = share' :=
    Option.map_eq_some_iff.mp result
  obtain ⟨⟨socks, st⟩, rounds, rfl⟩ := some_
  have ok : ∀ sock ∈ (prepareSocks d r (d.crCpusPerCore r) share.bits share.cpus).1,
      sock.Ok r share.bits := prepareSocks_ok share.cpus
  have prepared := prepareSocks_prepared d r (d.crCpusPerCore r) share.bits share.cpus
  obtain ⟨accounts, none_⟩ := cyclicRounds_accounts ok rounds
  have okEnd : ∀ sock ∈ socks, sock.Ok r share.bits := cyclicRounds_ok ok rounds
  have stops : socks.map Sock.stop = (startSocks r).map Sock.stop := by
    have first := congrArg (List.map Prod.fst) accounts.bounds_eq
    simp only [bounds, map_map] at first
    exact Eq.trans first prepared.stops
  have cores : st.coreCnt = (keptBits socks share.bits).card := by
    rw [card_keptBits okEnd stops mem]
    have counted := accounts.counted
    rw [prepared.counted] at counted
    omega
  dsimp only
  rw [finishSocks_kept apart]
  refine ⟨Finset.filter_subset _ _, ?_, ?_, ?_⟩
  · refine Option.map_eq_some_iff.mpr ⟨(socks, st), rounds, ?_⟩
    dsimp only
    rw [finishSocks_kept apart]
    exact cores
  · have covered := prepared.covered.trans accounts.covered
    rwa [none_, Nat.zero_add, cores] at covered
  · intro limited limit enough
    rcases Nat.eq_zero_or_pos r.cores with no | positive
    · rw [NodeRes.coreCnt, no, Nat.mul_zero, Finset.range_zero, Finset.subset_empty] at mem
      intro i
      rw [mem]
      exact Nat.zero_le _
    · obtain ⟨start, suffice⟩ := prepareSocks_within limited limit positive enough
      have level : Level r share.bits 0
          (prepareSocks d r (d.crCpusPerCore r) share.bits share.cpus).1 :=
        Level.start r share.bits (prepared.counted.symm.trans (by rw [start]))
      refine onSocket_keptBits_le okEnd stops mem positive ?_
      have whole : (prepareSocks d r (d.crCpusPerCore r) share.bits share.cpus).2.cpus ≠ 0 →
          share.cpus = (prepareSocks d r (d.crCpusPerCore r) share.bits share.cpus).2.cpus +
            d.crCpusPerCore r *
              (prepareSocks d r (d.crCpusPerCore r) share.bits share.cpus).2.coreCnt := by
        rw [start, Nat.mul_zero, Nat.add_zero]
        exact fun _ => rfl
      refine cyclicRounds_limit ok level (Nat.zero_le _) whole prepared.counted ?_ rounds
      rw [← openSum_mul]
      exact suffice.trans (openSum_le (capped_le r _ _ _) _)

/-! ## All nodes of a job -/

theorem syncNodes_none {sync : NodeShare → Option NodeShare} {shares : List NodeShare}
    (failed : syncNodes sync shares = none) : ∃ share ∈ shares, sync share = none := by
  induction shares with
  | nil => simp [syncNodes] at failed
  | cons share rest ih =>
    rw [syncNodes] at failed
    cases here : sync share with
    | none => exact ⟨share, mem_cons_self, here⟩
    | some share' =>
      cases more : syncNodes sync rest with
      | none =>
        obtain ⟨other, mem, missed⟩ := ih more
        exact ⟨other, mem_cons_of_mem _ mem, missed⟩
      | some rest' => simp [here, more] at failed

/-- `_cyclic_sync_core_bitmap` ends; it fails only on a node whose cores do not suffice,
and without `CR_SOCKET` a success is exact on each node. -/
theorem cyclic_sync_exact (table : Nat → NodeRes) (d : JobDetails) (crType : CrType)
    (shares : List NodeShare)
    (inside : ∀ share ∈ shares, share.bits ⊆ Finset.range (table share.node).coreCnt) :
    (∀ share ∈ shares, ∀ more,
      let r := table share.node
      let found := prepareSocks d r (d.crCpusPerCore r) share.bits share.cpus
      cyclicRounds (d.crCpusPerCore r) share.bits (share.cpus + 1 + more) found.1 found.2 =
        cyclicRounds (d.crCpusPerCore r) share.bits (share.cpus + 1) found.1 found.2) ∧
    (cyclicSyncCoreBitmap table d crType shares = none →
      ∃ share ∈ shares, ¬EnoughCores d (d.crCpusPerCore (table share.node)) share.bits.card
        share.cpus) ∧
    (crType ≠ .socket → ∀ shares', cyclicSyncCoreBitmap table d crType shares = some shares' →
      List.Forall₂ (fun share share' => share'.node = share.node ∧
        CyclicExact d crType (table share.node) share share') shares shares') := by
  refine ⟨?_, ?_, ?_⟩
  · intro share _ more
    exact cyclicRounds_ends (prepareSocks_ok (r := table share.node) share.cpus)
      (Nat.lt_succ_of_le (prepareSocks_prepared _ _ _ _ _).fewer) more
  · intro failed
    obtain ⟨share, member, missed⟩ := syncNodes_none failed
    exact ⟨share, member, cyclicSyncNode_none (inside share member) missed⟩
  · intro apart shares' result
    have synced := (forall₂_and_left shares shares').mpr ⟨inside, syncNodes_forall₂ result⟩
    refine synced.imp fun share share' found => ?_
    exact ⟨(cyclicSyncNode_follows found.2).node, cyclicSyncNode_exact apart found.1 found.2⟩

/-- Tasks of some CPUs, with limits for the tasks of a core and of a socket. -/
def limitedTasks (cpusPerTask ntasksPerCore ntasksPerSocket : Nat) : JobDetails where
  coreSpec := noVal16
  cpusPerTask := cpusPerTask
  minCpus := 2 * cpusPerTask
  minNodes := 1
  mcPtr := some ⟨noVal16, noVal16, ntasksPerCore, ntasksPerSocket, noVal16, 0⟩
  ntasksPerNode := 0
  numTasks := 2
  overcommit := false
  pnMinCpus := 1
  reqNodeBitmap := none
  shareRes := 0xfe
  taskDist := 1
  wholeNode := 0

/-- Two sockets of two cores for two tasks, one on each. -/
theorem cyclic_sync_exact_sockets :
    (∃ shares', cyclicSyncCoreBitmap (fun _ => ⟨4, 1, 2, 2, 1, 1, none⟩) (limitedTasks 1 0xffff 1)
        .core [⟨0, 2, {0, 1, 2, 3}⟩] = some shares' ∧
      List.Forall₂ (fun share share' => share'.node = share.node ∧
        CyclicExact (limitedTasks 1 0xffff 1) .core ⟨4, 1, 2, 2, 1, 1, none⟩ share share')
        [⟨0, 2, {0, 1, 2, 3}⟩] shares') := by
  refine ⟨_, rfl, ?_⟩
  exact (cyclic_sync_exact (fun _ => ⟨4, 1, 2, 2, 1, 1, none⟩) (limitedTasks 1 0xffff 1) .core
    [⟨0, 2, {0, 1, 2, 3}⟩] (by decide)).2.2 (by decide) _ rfl

/-- Two tasks of three CPUs with cores of their own miss six CPUs on three cores of two;
and with `CR_SOCKET` a socket for one task of one CPU is given with both cores. -/
theorem cyclic_sync_exact_fails :
    (cyclicSyncCoreBitmap (fun _ => ⟨6, 1, 1, 3, 2, 2, none⟩) (limitedTasks 3 1 0) .core
        [⟨0, 6, {0, 1, 2}⟩] = none ∧
      6 ≤ (limitedTasks 3 1 0).crCpusPerCore ⟨6, 1, 1, 3, 2, 2, none⟩ *
        ({0, 1, 2} : Finset Nat).card) ∧
    (cyclicSyncCoreBitmap (fun _ => ⟨4, 1, 2, 2, 1, 1, none⟩) (limitedTasks 1 0xffff 1) .socket
        [⟨0, 2, {0, 1, 2, 3}⟩]).map (List.map NodeShare.bits) = some [{0, 1, 2, 3}] ∧
    2 ≤ min (1 * 2) (1 * 1) + min (1 * 2) (1 * 1) := by
  decide

end SlurmSim.Select
