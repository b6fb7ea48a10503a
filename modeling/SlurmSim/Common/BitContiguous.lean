import SlurmSim.Common.BitSearch

/-!
# Contiguous bits

The searches for a number of contiguous bits.  That for set bits bounds the position it tests
by the last one at which a run may start, though it tests the position at which one ends.
-/

namespace SlurmSim.Common.Bitmap

open SlurmSim.Lib.Runs

/-! ## The searches -/

/-- The loop of the searches: `n` bits in a row that pass the test.  A position may break it. -/
def contiguous (test breaks : Nat → Bool) (n bound bit cnt : Nat) : Int :=
  if bit < bound then
    if test bit then
      if n ≤ cnt + 1 then bit - cnt else contiguous test breaks n bound (bit + 1) (cnt + 1)
    else if breaks bit then -1
    else contiguous test breaks n bound (bit + 1) 0
  else -1
termination_by bound - bit

/-- `bit_nffc` -/
def bitNffc (b : Bitstr) (n : Nat) : Int :=
  contiguous (fun bit => !bitTest b bit) (fun _ => false) n b.bits 0 0

/-- `bit_noc`; the sum of its arguments has 32 bits. -/
def bitNoc (b : Bitstr) (n seed : Nat) : Int :=
  let seed := if (b.bits : Int) ≤ (seed + n : Int).bmod (2 ^ 32) then b.bits else seed
  let value := contiguous (fun bit => !bitTest b bit) (fun _ => false) n b.bits seed 0
  if value = -1 then
    contiguous (fun bit => !bitTest b bit) (fun bit => decide (seed ≤ bit)) n b.bits 0 0
  else value

/-- `bit_nffs` -/
def bitNffs (b : Bitstr) (n : Nat) : Int :=
  contiguous (bitTest b) (fun _ => false) n (b.bits - n + 1) 0 0

/-! ## What a search finds -/

section Searches

variable {good : Nat → Prop} {test breaks : Nat → Bool} {n bound first bit start cnt : Nat}
  {value : Int}

/-- The first run that ends in time, or `-1` where the search ended. -/
def Finds (good : Nat → Prop) (breaks : Nat → Bool) (n bound first : Nat) (value : Int) : Prop :=
  (∃ p : Nat, value = p ∧ IsLeast {p | first ≤ p ∧ RunOn good p (p + n)} p ∧ p + n ≤ bound) ∨
    (value = -1 ∧ ∃ last start, Searched good n first last start ∧
      (bound ≤ last ∨ ¬good last ∧ breaks last = true))

theorem contiguous_finds (pos : 0 < n) (same : ∀ i < bound, test i = true ↔ good i)
    (counted : cnt + start = bit) (searched : Searched good n first bit start) :
    Finds good breaks n bound first (contiguous test breaks n bound bit cnt) := by
  fun_induction contiguous test breaks n bound bit cnt generalizing start with
  | case1 bit cnt more isGood long =>
    have short := searched.short
    have ends : start + n = bit + 1 := by omega
    have first := searched.found ((same bit more).mp isGood) ends
    exact .inl ⟨start, by omega, first, by omega⟩
  | case2 bit cnt more isGood short ih =>
    have next := searched.extend ((same bit more).mp isGood) (by omega)
    exact ih (by omega) next
  | case3 bit cnt more isBad isLast =>
    exact .inr ⟨rfl, bit, start, searched, .inr ⟨isBad ∘ (same bit more).mpr, isLast⟩⟩
  | case4 bit cnt more isBad _ ih =>
    exact ih (Nat.zero_add _) (searched.reset (isBad ∘ (same bit more).mpr) pos)
  | case5 bit cnt stops =>
    exact .inr ⟨rfl, bit, start, searched, .inl (not_lt.mp stops)⟩

theorem Finds.whole (finds : Finds good (fun _ => false) n bound first value) :
    (∃ p : Nat, value = p ∧ IsLeast {p | first ≤ p ∧ RunOn good p (p + n)} p ∧ p + n ≤ bound) ∨
      (value = -1 ∧ ∀ p, first ≤ p → p + n ≤ bound → ¬RunOn good p (p + n)) := by
  rcases finds with found | ⟨none, last, start, searched, ends | ⟨_, absurd⟩⟩
  · exact .inl found
  · exact .inr ⟨none, fun p after mem => searched.none p after (Nat.le_trans mem ends)⟩
  · cases absurd

end Searches

/-! ## Runs of a bitmap -/

/-- A run that is found: the first one, and `-1` only if there is none. -/
structure FirstRun (good : Nat → Prop) (n : Nat) (value : Int) : Prop where
  found : ∀ p : Nat, value = p ↔ IsLeast {p | RunOn good p (p + n)} p
  none : value = -1 ↔ ∀ p, ¬RunOn good p (p + n)

/-- Some run, and the first one from the seed on if that is not too near to the end. -/
structure SeedRun (good : Nat → Prop) (bits n seed : Nat) (value : Int) : Prop where
  some : ∀ p : Nat, value = p → RunOn good p (p + n)
  found : value = -1 ∨ ∃ p : Nat, value = p
  none : value = -1 ↔ ∀ p, ¬RunOn good p (p + n)
  seeded : seed + n < bits →
    ∀ p, IsLeast {p | seed ≤ p ∧ RunOn good p (p + n)} p → value = p

/-- The positions below the size whose bits are clear. -/
def IsClear (b : Bitstr) (i : Nat) : Prop :=
  i < b.bits ∧ bitTest b i = false

/-- The searches for contiguous bits find what they are for. -/
structure RunsFound (b : Bitstr) (n : Nat) : Prop where
  nffs : FirstRun (· ∈ members b) n (bitNffs b n)
  nffc : n < b.bits → FirstRun (IsClear b) n (bitNffc b n)
  noc : ∀ seed, SeedRun (IsClear b) b.bits n seed (bitNoc b n seed)

section Runs

variable {good : Nat → Prop} {b : Bitstr} {n bits p : Nat} {value : Int}

theorem run_inside (pos : 0 < n) (below : ∀ i, good i → i < bits)
    (run : RunOn good p (p + n)) : p + n ≤ bits := by
  have last := below (p + n - 1) (run _ (by omega) (by omega))
  omega

theorem firstRun_of_least (least : IsLeast {p | RunOn good p (p + n)} p) :
    FirstRun good n p where
  found := by
    intro q
    rw [Int.natCast_inj]
    exact ⟨fun same => same ▸ least, fun other => least.unique other⟩
  none := ⟨fun absurd => by omega, fun none => absurd least.1 (none p)⟩

theorem firstRun_of_none (none : ∀ p, ¬RunOn good p (p + n)) : FirstRun good n (-1) where
  found := fun q => ⟨fun absurd => by omega, fun least => absurd least.1 (none q)⟩
  none := ⟨fun _ => none, fun _ => rfl⟩

theorem test_clear (b : Bitstr) (i : Nat) (mem : i < b.bits) :
    (!bitTest b i) = true ↔ IsClear b i := by
  rw [IsClear, Bool.not_eq_true', and_iff_right mem]

theorem bitNffc_firstRun (pos : 0 < n) (b : Bitstr) :
    FirstRun (IsClear b) n (bitNffc b n) := by
  have finds := @contiguous_finds (IsClear b) _ (fun _ => false) n b.bits 0 0 0 0 pos
    (test_clear b) rfl (Searched.start_scan (IsClear b) pos 0)
  change Finds _ _ _ _ _ (bitNffc b n) at finds
  generalize bitNffc b n = value at finds
  rcases finds.whole with ⟨p, rfl, least, _⟩ | ⟨rfl, none⟩
  · simp only [Nat.zero_le, true_and] at least
    exact firstRun_of_least least
  · exact firstRun_of_none fun p run =>
      none p (Nat.zero_le p) (run_inside pos (fun _ clear => clear.1) run) run

theorem seed_kept {seed : Nat} (near : seed + n < bits) :
    (if (bits : Int) ≤ (seed + n : Int).bmod (2 ^ 32) then bits else seed) = seed := by
  have small : (seed + n : Int).bmod (2 ^ 32) ≤ seed + n := by
    rw [Int.bmod_def]
    split_ifs
    · omega
    · omega
  exact if_neg (by omega)

/-- The second search stops behind the seed, where the first one found no run. -/
theorem bitNoc_seedRun (pos : 0 < n) (b : Bitstr) (seed : Nat) :
    SeedRun (IsClear b) b.bits n seed (bitNoc b n seed) := by
  have mem : ∀ p, RunOn (IsClear b) p (p + n) → p + n ≤ b.bits := fun p =>
    run_inside pos fun _ clear => clear.1
  have kept := @seed_kept n b.bits seed
  rw [bitNoc]
  generalize (if (b.bits : Int) ≤ (seed + n : Int).bmod (2 ^ 32) then b.bits else seed) = from'
    at kept ⊢
  have before := @contiguous_finds (IsClear b) _ (fun _ => false) n b.bits from' from' from' 0
    pos (test_clear b) (Nat.zero_add _) (Searched.start_scan (IsClear b) pos from')
  have again := @contiguous_finds (IsClear b) _ (fun bit => decide (from' ≤ bit)) n b.bits 0 0 0 0
    pos (test_clear b) rfl (Searched.start_scan (IsClear b) pos 0)
  rcases before.whole with ⟨p, found, least, _⟩ | ⟨missing, none⟩
  · have some : (p : Int) ≠ -1 := by omega
    rw [found, if_neg some]
    constructor
    · intro q same
      exact Int.natCast_inj.mp same ▸ least.1.2
    · exact .inr ⟨p, rfl⟩
    · exact ⟨fun absurd => (some absurd).elim, fun none => absurd least.1.2 (none p)⟩
    · intro near q other
      rw [kept near] at least
      rw [least.unique other]
  · rw [missing, if_pos rfl]
    have seeded : seed + n < b.bits → ∀ p, seed ≤ p → ¬RunOn (IsClear b) p (p + n) := by
      intro near p after run
      exact none p (kept near ▸ after) (mem p run) run
    rcases again with ⟨p, found, least, _⟩ | ⟨missing, last, start, searched, ends⟩
    · have some : (p : Int) ≠ -1 := by omega
      rw [found]
      constructor
      · intro q same
        exact Int.natCast_inj.mp same ▸ least.1.2
      · exact .inr ⟨p, rfl⟩
      · exact ⟨fun absurd => (some absurd).elim, fun none => absurd least.1.2 (none p)⟩
      · intro near q other
        exact absurd other.1.2 (seeded near q other.1.1)
    · have noRun : ∀ p, ¬RunOn (IsClear b) p (p + n) := by
        intro p run
        by_cases passed : p + n ≤ last
        · exact searched.none p (Nat.zero_le p) passed run
        · rcases ends with whole | ⟨isBad, behind⟩
          · exact passed (Nat.le_trans (mem p run) whole)
          · have after := of_decide_eq_true behind
            by_cases covers : p ≤ last
            · exact isBad (run last covers (not_le.mp passed))
            · exact none p (by omega) (mem p run) run
      rw [missing]
      constructor
      · omega
      · exact .inl rfl
      · exact ⟨fun _ => noRun, fun _ => rfl⟩
      · intro near q other
        exact absurd other.1.2 (noRun q)

/-- The search for set bits passes over a run that ends too near to the end. -/
theorem bitNffs_firstRun_iff (pos : 0 < n) (fits : n ≤ b.bits) :
    FirstRun (· ∈ members b) n (bitNffs b n) ↔
      ∀ p, IsLeast {p | RunOn (· ∈ members b) p (p + n)} p → p + 2 * n ≤ b.bits + 1 := by
  have finds := @contiguous_finds (· ∈ members b) (bitTest b) (fun _ => false) n
    (b.bits - n + 1) 0 0 0 0 pos
    (fun i less => by rw [mem_members]; exact (and_iff_right (by omega)).symm) rfl
    (Searched.start_scan _ pos 0)
  change Finds _ _ _ _ _ (bitNffs b n) at finds
  generalize bitNffs b n = value at finds ⊢
  rcases finds.whole with ⟨p, rfl, least, inTime⟩ | ⟨rfl, none⟩
  · simp only [Nat.zero_le, true_and] at least
    refine ⟨fun _ q other => ?_, fun _ => firstRun_of_least least⟩
    have same := other.unique least
    omega
  · constructor
    · intro missing p least
      exact absurd least.1 (missing.none.mp rfl p)
    · intro inTime
      refine firstRun_of_none fun p run => ?_
      have least : IsLeast {p | RunOn (· ∈ members b) p (p + n)}
          (sInf {p | RunOn (· ∈ members b) p (p + n)}) :=
        ⟨Nat.sInf_mem ⟨p, run⟩, fun _ mem => Nat.sInf_le mem⟩
      have near := inTime _ least
      exact none _ (Nat.zero_le _) (by omega) least.1

end Runs

/-- All searches for contiguous bits are exact if and only if no run of set bits is missed
for its nearness to the end. -/
theorem contiguous_found_iff (b : Bitstr) (n : Nat) (positive : 0 < n) (fits : n ≤ b.bits) :
    RunsFound b n ↔
      ∀ p, IsLeast {p | RunOn (· ∈ members b) p (p + n)} p → p + 2 * n ≤ b.bits + 1 := by
  rw [← bitNffs_firstRun_iff positive fits]
  refine ⟨fun found => found.nffs, fun nffs => ⟨nffs, fun _ => ?_, fun seed => ?_⟩⟩
  · exact bitNffc_firstRun positive b
  · exact bitNoc_seedRun positive b seed

/-- Four bits that are all set. -/
def fourBits : Bitstr where
  bits := 4
  words := [0xf#64]
  length_words := rfl

theorem contiguous_found_iff_two :
    RunsFound fourBits 2 ↔
      ∀ p, IsLeast {p | RunOn (· ∈ members fourBits) p (p + 2)} p → p + 2 * 2 ≤ 4 + 1 :=
  contiguous_found_iff fourBits 2 (by decide) (by decide)

/-- Three of four set bits are not found. -/
theorem contiguous_missed : ¬∀ (b : Bitstr) (n : Nat), 0 < n → n ≤ b.bits → RunsFound b n := by
  intro finds
  have found := (finds fourBits 3 (by decide) (by decide)).nffs
  have missed : bitNffs fourBits 3 = -1 := by decide +kernel
  have set : ∀ i < 3, i ∈ members fourBits := by decide +kernel
  exact found.none.mp missed 0 fun i _ below => set i below

end SlurmSim.Common.Bitmap
