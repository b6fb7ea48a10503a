import Mathlib.Algebra.BigOperators.Group.List.Basic
import Mathlib.Algebra.GroupWithZero.Nat
import Mathlib.Data.List.Chain

/-!
# CPU arrays

The CPUs of the nodes of a job are kept a second time in runs of equal counts.  The
encoder is right for all arrays.  The decoder frees the array of CPUs and then reads from
it instead of from the values, so that it fills in zeros.
-/

namespace SlurmSim.Common.CpuArray

open List

/-- `NO_VAL` -/
def noVal : Nat := 0xfffffffe

/-- `cpus` of all hosts, and the entries of `cpu_array_value` and `cpu_array_reps`. -/
structure CpuArrays where
  cpus : List UInt16
  value : List UInt16
  reps : List Nat
deriving DecidableEq

/-! ## The encoder -/

structure Encoding where
  value : List UInt16
  reps : List Nat
  lastCpuCnt : Nat
  cpuCount : Int32

/-- One turn of the loop of `build_job_resources_cpu_array`. -/
def encodeHost (e : Encoding) (cpus : UInt16) : Encoding :=
  if cpus.toNat ≠ e.lastCpuCnt then
    ⟨e.value ++ [cpus], e.reps ++ [1], cpus.toNat, e.cpuCount + Int32.ofNat cpus.toNat⟩
  else
    { e with
      reps := e.reps.modify (e.reps.length - 1) (· + 1)
      cpuCount := e.cpuCount + Int32.ofNat cpus.toNat }

def encode (cpus : List UInt16) : Encoding := cpus.foldl encodeHost ⟨[], [], noVal, 0⟩

/-- `build_job_resources_cpu_array` -/
def buildJobResourcesCpuArray (job : CpuArrays) : Int32 × CpuArrays :=
  if job.cpus = [] then (0, job)
  else ((encode job.cpus).cpuCount,
    { job with value := (encode job.cpus).value, reps := (encode job.cpus).reps })

/-! ## The decoder -/

structure Decoding where
  cpuInx : Nat
  cpuCount : Int32
  cpus : List UInt16

/-- The inner loop of `build_job_resources_cpus_array`; `false` if the arrays are too long. -/
def decodeRun (nhosts i : Nat) : Nat → Decoding → Decoding × Bool
  | 0, d => (d, true)
  | left + 1, d =>
    if nhosts ≤ d.cpuInx then (d, false)
    else decodeRun nhosts i left
      ⟨d.cpuInx + 1, d.cpuCount + Int32.ofNat (d.cpus.getD i 0).toNat,
        d.cpus.set d.cpuInx (d.cpus.getD i 0)⟩

/-- The outer loop from entry `i` on. -/
def decodeRuns (nhosts : Nat) : List Nat → Nat → Decoding → Decoding × Bool
  | [], _, d => (d, true)
  | reps :: rest, i, d =>
    let (d, goesOn) := decodeRun nhosts i reps d
    if goesOn then decodeRuns nhosts rest (i + 1) d else (d, false)

/-- `build_job_resources_cpus_array` -/
def buildJobResourcesCpusArray (nhosts : Nat) (job : CpuArrays) : Int32 × CpuArrays :=
  if nhosts = 0 then (0, job)
  else if job.value = [] then (-1, job)
  else
    let (d, goesOn) := decodeRuns nhosts job.reps 0 ⟨0, 0, List.replicate nhosts 0⟩
    if goesOn then (if d.cpuInx < nhosts then -1 else d.cpuCount, { job with cpus := d.cpus })
    else (-1, { job with cpus := d.cpus })

/-! ## The runs of the encoder -/

/-- The counts that the runs stand for. -/
def expand (value : List UInt16) (reps : List Nat) : List UInt16 :=
  (value.zip reps).flatMap fun run => List.replicate run.2 run.1

theorem expand_append {value value' : List UInt16} {reps reps' : List Nat}
    (same : value.length = reps.length) :
    expand (value ++ value') (reps ++ reps') = expand value reps ++ expand value' reps' := by
  rw [expand, zip_append same, flatMap_append]
  rfl

/-- The runs stand for the counts that were read, no two neighbours are equal, and the
last run is that of the last count. -/
structure Encodes (cpus : List UInt16) (e : Encoding) : Prop where
  lengths : e.value.length = e.reps.length
  expand : expand e.value e.reps = cpus
  runs : e.value.IsChain (· ≠ ·)
  last : e.lastCpuCnt = (e.value.getLast?.map UInt16.toNat).getD noVal
  cpuCount : e.cpuCount = Int32.ofNat (cpus.map UInt16.toNat).sum

theorem toNat_ne_noVal (cpus : UInt16) : cpus.toNat ≠ noVal := by
  have bound := cpus.toNat_lt
  unfold noVal
  omega

theorem Encodes.host {cpus : List UInt16} {e : Encoding} (encodes : Encodes cpus e)
    (next : UInt16) : Encodes (cpus ++ [next]) (encodeHost e next) := by
  have count : e.cpuCount + Int32.ofNat next.toNat =
      Int32.ofNat ((cpus ++ [next]).map UInt16.toNat).sum := by
    rw [encodes.cpuCount, map_append, sum_append, Int32.ofNat_add]
    simp
  unfold encodeHost
  split_ifs with differs
  · refine ⟨by simp [encodes.lengths], ?_, ?_, by simp, count⟩
    · rw [expand_append encodes.lengths, encodes.expand]
      rfl
    · refine List.IsChain.append encodes.runs (isChain_singleton next) ?_
      intro last isLast first isFirst same
      rw [encodes.last, Option.mem_def.mp isLast] at differs
      rw [same, ← isFirst] at differs
      exact differs rfl
  · push Not at differs
    rcases eq_nil_or_concat e.value with none_ | ⟨value, last, valueEq⟩
    · rw [encodes.last, none_] at differs
      exact absurd differs (toNat_ne_noVal next)
    · rcases eq_nil_or_concat e.reps with none_ | ⟨reps, cnt, repsEq⟩
      · have lengths := encodes.lengths
        rw [none_, valueEq] at lengths
        simp at lengths
      · rw [concat_eq_append] at valueEq repsEq
        have sameLast : next = last := by
          rw [encodes.last, valueEq] at differs
          exact UInt16.toNat_inj.mp (by simpa using differs)
        have lengths : value.length = reps.length := by
          have both := encodes.lengths
          rw [valueEq, repsEq] at both
          simpa using both
        have grown : e.reps.modify (e.reps.length - 1) (· + 1) = reps ++ [cnt + 1] := by
          rw [repsEq, length_append, length_singleton, Nat.add_sub_cancel,
            modify_eq_take_cons_drop (by simp)]
          simp
        refine ⟨?_, ?_, encodes.runs, encodes.last, count⟩
        · rw [grown, valueEq]
          simp [lengths]
        · have before := encodes.expand
          rw [valueEq, repsEq, expand_append lengths] at before
          rw [grown, valueEq, expand_append lengths, ← before, append_assoc, sameLast]
          simp [CpuArray.expand, replicate_succ']

theorem encode_encodes (cpus : List UInt16) : Encodes cpus (encode cpus) := by
  induction cpus using List.reverseRecOn with
  | nil => exact ⟨rfl, rfl, isChain_nil, rfl, rfl⟩
  | append_singleton cpus next ih =>
    rw [encode, foldl_append]
    exact ih.host next

theorem sum_reps {value : List UInt16} : ∀ {reps : List Nat}, value.length = reps.length →
    (expand value reps).length = reps.sum := by
  induction value with
  | nil =>
    intro reps same
    rw [eq_nil_of_length_eq_zero same.symm]
    rfl
  | cons first rest ih =>
    intro reps same
    cases reps with
    | nil => cases same
    | cons cnt reps =>
      have lengths : rest.length = reps.length := Nat.succ.inj same
      have tail := ih lengths
      rw [expand] at tail ⊢
      rw [zip_cons_cons, flatMap_cons, length_append, length_replicate, tail, sum_cons]

/-! ## The zeros of the decoder -/

/-- Only zeros were read so far. -/
structure Zeros (nhosts : Nat) (d : Decoding) : Prop where
  cpus : d.cpus = List.replicate nhosts 0
  cpuCount : d.cpuCount = 0

theorem decodeRun_zeros {nhosts i left : Nat} : ∀ {d : Decoding}, Zeros nhosts d →
    d.cpuInx + left ≤ nhosts → Zeros nhosts (decodeRun nhosts i left d).1 ∧
      (decodeRun nhosts i left d).2 = true ∧
      (decodeRun nhosts i left d).1.cpuInx = d.cpuInx + left := by
  induction left with
  | zero =>
    intro d zeros _
    exact ⟨zeros, rfl, rfl⟩
  | succ left ih =>
    intro d zeros room
    have read : d.cpus.getD i 0 = 0 := by
      rw [zeros.cpus, getD_eq_getElem?_getD, getElem?_replicate]
      split_ifs <;> rfl
    have next : Zeros nhosts ⟨d.cpuInx + 1, d.cpuCount + Int32.ofNat (d.cpus.getD i 0).toNat,
        d.cpus.set d.cpuInx (d.cpus.getD i 0)⟩ := by
      refine ⟨?_, ?_⟩
      · rw [read, zeros.cpus, set_replicate_self]
      · rw [read, zeros.cpuCount]
        rfl
    obtain ⟨zeros', goesOn, inx⟩ := ih next (by dsimp only; omega)
    rw [decodeRun, if_neg (by omega)]
    exact ⟨zeros', goesOn, by rw [inx]; dsimp only; omega⟩

theorem decodeRuns_zeros {nhosts : Nat} {reps : List Nat} : ∀ {i : Nat} {d : Decoding},
    Zeros nhosts d → d.cpuInx + reps.sum ≤ nhosts → Zeros nhosts (decodeRuns nhosts reps i d).1 ∧
      (decodeRuns nhosts reps i d).2 = true ∧
      (decodeRuns nhosts reps i d).1.cpuInx = d.cpuInx + reps.sum := by
  induction reps with
  | nil =>
    intro i d zeros _
    exact ⟨zeros, rfl, rfl⟩
  | cons cnt rest ih =>
    intro i d zeros room
    rw [sum_cons] at room ⊢
    have fits : d.cpuInx + cnt ≤ nhosts := by omega
    obtain ⟨zeros', goesOn, inx⟩ := @decodeRun_zeros nhosts i cnt d zeros fits
    rw [decodeRuns]
    dsimp only
    rw [if_pos goesOn]
    obtain ⟨zeros'', goesOn', inx'⟩ := @ih (i + 1) _ zeros' (by omega)
    exact ⟨zeros'', goesOn', by omega⟩

/-- Whatever was encoded, the decoder fills in zeros. -/
theorem decode_encoded {job : CpuArrays} (some_ : job.cpus ≠ []) :
    (buildJobResourcesCpusArray job.cpus.length (buildJobResourcesCpuArray job).2).2.cpus =
        List.replicate job.cpus.length 0 ∧
      (buildJobResourcesCpusArray job.cpus.length (buildJobResourcesCpuArray job).2).1 = 0 := by
  have encodes := encode_encodes job.cpus
  have hosts : (encode job.cpus).reps.sum = job.cpus.length := by
    rw [← sum_reps encodes.lengths, encodes.expand]
  have values : (encode job.cpus).value ≠ [] := by
    intro none_
    have nothing := encodes.expand
    rw [none_] at nothing
    exact some_ nothing.symm
  have start : Zeros job.cpus.length ⟨0, 0, List.replicate job.cpus.length 0⟩ := ⟨rfl, rfl⟩
  obtain ⟨zeros, goesOn, inx⟩ := @decodeRuns_zeros job.cpus.length (encode job.cpus).reps 0 _ start
    (by dsimp only; omega)
  have encoded : (buildJobResourcesCpuArray job).2 =
      { job with value := (encode job.cpus).value, reps := (encode job.cpus).reps } := by
    rw [buildJobResourcesCpuArray, if_neg some_]
  rw [encoded, buildJobResourcesCpusArray, if_neg (mt eq_nil_of_length_eq_zero some_),
    if_neg values]
  dsimp only
  rw [if_pos goesOn, if_neg (by omega)]
  exact ⟨zeros.cpus, zeros.cpuCount⟩

/-! ## The round trip -/

/-- The encoder returns the total and the runs, and the decoder rebuilds the CPUs from
them and returns the same total. -/
def RoundTrips (job : CpuArrays) : Prop :=
  (buildJobResourcesCpuArray job).1.toInt = (job.cpus.map UInt16.toNat).sum ∧
    expand (buildJobResourcesCpuArray job).2.value (buildJobResourcesCpuArray job).2.reps =
      job.cpus ∧
    (buildJobResourcesCpuArray job).2.value.IsChain (· ≠ ·) ∧
    (buildJobResourcesCpusArray job.cpus.length (buildJobResourcesCpuArray job).2).2.cpus =
      job.cpus ∧
    (buildJobResourcesCpusArray job.cpus.length (buildJobResourcesCpuArray job).2).1 =
      (buildJobResourcesCpuArray job).1

instance (job : CpuArrays) : Decidable (RoundTrips job) := inferInstanceAs (Decidable (_ ∧ _))

/-- The round trip is that of arrays of zeros only. -/
theorem cpus_roundTrip_iff (job : CpuArrays) (some_ : job.cpus ≠ []) :
    RoundTrips job ↔ ∀ cpus ∈ job.cpus, cpus = 0 := by
  obtain ⟨decoded, total⟩ := decode_encoded some_
  have encodes := encode_encodes job.cpus
  have encoded : buildJobResourcesCpuArray job = ((encode job.cpus).cpuCount,
      { job with value := (encode job.cpus).value, reps := (encode job.cpus).reps }) := by
    rw [buildJobResourcesCpuArray, if_neg some_]
  constructor
  · rintro ⟨_, _, _, same, _⟩ cpus inside
    rw [decoded] at same
    rw [← same] at inside
    exact eq_of_mem_replicate inside
  · intro zero
    have zeros : job.cpus = List.replicate job.cpus.length 0 :=
      eq_replicate_iff.mpr ⟨rfl, zero⟩
    have sum : (job.cpus.map UInt16.toNat).sum = 0 := by
      rw [zeros]
      simp
    have count : (buildJobResourcesCpuArray job).1 = 0 := by
      rw [encoded]
      refine encodes.cpuCount.trans ?_
      rw [sum]
      rfl
    refine ⟨?_, ?_, ?_, decoded.trans zeros.symm, total.trans count.symm⟩
    · rw [count, sum]
      rfl
    · rw [encoded]
      exact encodes.expand
    · rw [encoded]
      exact encodes.runs

theorem cpus_roundTrip_zero : RoundTrips ⟨[0, 0], [], []⟩ :=
  (cpus_roundTrip_iff ⟨[0, 0], [], []⟩ (by decide)).mpr (by simp)

/-- Two nodes with two CPUs each are decoded as nodes without CPUs. -/
theorem cpus_roundTrip_fails : ¬RoundTrips ⟨[2, 2], [], []⟩ := by decide

end SlurmSim.Common.CpuArray
