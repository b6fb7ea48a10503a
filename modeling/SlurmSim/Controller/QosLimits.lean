import Mathlib.Data.List.Nodup
import Mathlib.Data.List.Range

/-!
# The limits that two QOSs impose

`_validate_tres_limits_for_qos` compares the TRES of a job with the Grp and the Max limits
of a QOS and writes the limits that it imposes to two arrays, which the call for the next
QOS reads.  Whether limits are there to be checked is told from the smaller one of both
kinds, here and in the arrays.
-/

namespace SlurmSim.Controller.QosLimits

open List

def infinite64 : UInt64 := 0xffffffffffffffff

/-- The mark of a TRES that a job does not request. -/
def noVal64 : UInt64 := 0xfffffffffffffffe

/-- The Grp and the Max limits of a QOS, or those imposed so far.  A caller that has no
Grp limits passes no array for them in both places. -/
structure Limits where
  grp : Option (Nat → UInt64)
  max : Nat → UInt64

namespace Limits

/-- `max_tres_limit` and `out_max_tres_limit` -/
def least (l : Limits) (withGrp : Bool) (i : Nat) : UInt64 :=
  match l.grp, withGrp with
  | some grp, true => if grp i < l.max i then grp i else l.max i
  | _, _ => l.max i

def setMax (l : Limits) (i : Nat) (limit : UInt64) : Limits :=
  { l with max := Function.update l.max i limit }

/-- A Grp limit is imposed where there was none. -/
def imposeGrp (l : Limits) (i : Nat) (limit : UInt64) : Limits :=
  { l with grp := l.grp.map fun grp =>
      if grp i = infinite64 then Function.update grp i limit else grp }

end Limits

/-- What a call reads besides the limits: `job_tres_array`, `divisor`, the TRES whose limits
an administrator has set, and `max_limit`. -/
structure Request where
  jobTres : Nat → UInt64
  divisor : UInt64
  adminSet : Nat → Bool
  maxLimit : Bool

namespace Request

variable (r : Request)

/-- `job_tres` -/
def share (i : Nat) : UInt64 := if r.divisor ≠ 0 then r.jobTres i / r.divisor else r.jobTres i

/-- The job keeps a limit. -/
def keeps (i : Nat) (limit : UInt64) : Bool :=
  if r.maxLimit then !decide (limit < r.share i) else !decide (r.share i < limit)

/-- One turn of the loop: the limits imposed and whether the job keeps them. -/
def validate (qos out : Limits) (i : Nat) : Limits × Bool :=
  if r.adminSet i ∨ out.least qos.grp.isSome i ≠ infinite64 ∨
      qos.least qos.grp.isSome i = infinite64 ∨ r.jobTres i = noVal64 then (out, true)
  else
    let out := out.setMax i (qos.max i)
    match out.grp, qos.grp with
    | some _, some grp => (out.imposeGrp i (grp i), r.keeps i (grp i) && r.keeps i (qos.max i))
    | _, _ => (out, r.keeps i (qos.max i))

/-- The loop over the TRES; `tres_pos` of a failed limit comes out. -/
def validateLoop (qos : Limits) : List Nat → Limits → Limits × Option Nat
  | [], out => (out, none)
  | i :: rest, out =>
    match r.validate qos out i with
    | (out, true) => validateLoop qos rest out
    | (out, false) => (out, some i)

end Request

/-- `_validate_tres_limits_for_qos` -/
def validateTresLimitsForQos (tresCount : Nat) (r : Request) (strictChecking : Bool)
    (qos out : Limits) : Limits × Option Nat :=
  if strictChecking then r.validateLoop qos (List.range tresCount) out else (out, none)

/-- The Grp and the Max limits of a QOS record. -/
structure Qos where
  grp : Nat → UInt64
  max : Nat → UInt64

namespace Qos

def limits (q : Qos) : Limits := ⟨some q.grp, q.max⟩

/-- Both limits of a TRES. -/
def pair (q : Qos) (i : Nat) : UInt64 × UInt64 := (q.grp i, q.max i)

end Qos

def noLimit : UInt64 × UInt64 := (infinite64, infinite64)

/-- No limit is imposed. -/
def unlimited : Qos := ⟨fun _ => infinite64, fun _ => infinite64⟩

/-- A request for the limits of a job that no administrator has set. -/
def request (jobTres : Nat → UInt64) (divisor : UInt64) : Request :=
  ⟨jobTres, divisor, fun _ => false, true⟩

/-- Both calls return true. -/
def Accepts (tresCount : Nat) (r : Request) (first second : Qos) : Prop :=
  let call := validateTresLimitsForQos tresCount r true
  (call first.limits unlimited.limits).2 = none ∧
    (call second.limits (call first.limits unlimited.limits).1).2 = none

/-- The first limit that is not infinite. -/
def firstFinite (first second : UInt64) : UInt64 := if first = infinite64 then second else first

/-- A job that both calls accept exceeds no first limit of either kind. -/
def ChecksBoth (tresCount : Nat) (jobTres : Nat → UInt64) (divisor : UInt64)
    (first second : Qos) : Prop :=
  Accepts tresCount (request jobTres divisor) first second →
    ∀ i < tresCount, jobTres i ≠ noVal64 →
      ¬firstFinite (first.grp i) (second.grp i) < (request jobTres divisor).share i ∧
        ¬firstFinite (first.max i) (second.max i) < (request jobTres divisor).share i

/-- A job exceeds a limit of the second QOS, and the first one has only a limit of the
other kind. -/
def Hidden (share : UInt64) (first second : UInt64 × UInt64) : Prop :=
  first.1 ≠ infinite64 ∧ first.2 = infinite64 ∧ second.2 < share ∨
    first.2 ≠ infinite64 ∧ first.1 = infinite64 ∧ second.1 < share

/-- A job exceeds one of two limits. -/
def Exceeds (share : UInt64) (limits : UInt64 × UInt64) : Prop :=
  limits.1 < share ∨ limits.2 < share

/-- The limits that are checked: those of the first QOS if it has any. -/
def checked (first second : UInt64 × UInt64) : UInt64 × UInt64 :=
  if first = noLimit then second else first

/-! ## One call -/

theorem not_infinite64_lt (n : UInt64) : ¬infinite64 < n := by
  have small := n.toNat_lt
  have top : infinite64.toNat = 2 ^ 64 - 1 := rfl
  rw [UInt64.lt_iff_toNat_lt]
  omega

theorem least_eq_infinite64 {q : Qos} {i : Nat} :
    q.limits.least true i = infinite64 ↔ q.pair i = noLimit := by
  have least : q.limits.least true i = if q.grp i < q.max i then q.grp i else q.max i := rfl
  rw [least, Qos.pair, noLimit, Prod.mk.injEq]
  by_cases less : q.grp i < q.max i
  · rw [if_pos less]
    refine ⟨fun same => absurd (same ▸ less) (not_infinite64_lt (q.max i)), fun both => both.1⟩
  · rw [if_neg less]
    refine ⟨fun same => ⟨?_, same⟩, fun both => both.2⟩
    have small := (q.grp i).toNat_lt
    have top : infinite64.toNat = 2 ^ 64 - 1 := rfl
    rw [same, UInt64.lt_iff_toNat_lt] at less
    exact UInt64.toNat_inj.mp (by omega)

namespace Qos

variable (q : Qos) (i : Nat) (limits : UInt64 × UInt64)

/-- The limits of one TRES are written. -/
def put : Qos := ⟨Function.update q.grp i limits.1, Function.update q.max i limits.2⟩

theorem pair_put_self : (q.put i limits).pair i = limits := by
  simp [put, pair]

theorem pair_put_of_ne {j : Nat} (other : j ≠ i) : (q.put i limits).pair j = q.pair j := by
  simp [put, pair, other]

end Qos

/-- The limits of `q` are imposed behind those of `out`. -/
def Imposes (jobTres : Nat → UInt64) (q out : Qos) (i : Nat) : Prop :=
  out.pair i = noLimit ∧ q.pair i ≠ noLimit ∧ jobTres i ≠ noVal64

section Call

variable {jobTres : Nat → UInt64} {divisor : UInt64} {q out first second : Qos} {i : Nat}

theorem validate_imposes (imposes : Imposes jobTres q out i) :
    (request jobTres divisor).validate q.limits out.limits i =
      ((out.put i (q.pair i)).limits, (request jobTres divisor).keeps i (q.pair i).1 &&
        (request jobTres divisor).keeps i (q.pair i).2) := by
  obtain ⟨outNone, own, asked⟩ := imposes
  have isSome : q.limits.grp.isSome = true := rfl
  rw [Request.validate, isSome, if_neg]
  · have noGrp : out.grp i = infinite64 := congrArg Prod.fst outNone
    simp [Limits.setMax, Limits.imposeGrp, Qos.limits, Qos.put, Qos.pair, noGrp]
  · rintro (admin | finite | ownNone | mark)
    · cases admin
    · exact finite (least_eq_infinite64.mpr outNone)
    · exact own (least_eq_infinite64.mp ownNone)
    · exact asked mark

theorem validate_skips (skips : ¬Imposes jobTres q out i) :
    (request jobTres divisor).validate q.limits out.limits i = (out.limits, true) := by
  have isSome : q.limits.grp.isSome = true := rfl
  rw [Request.validate, isSome, if_pos]
  by_contra checked
  simp only [not_or, ne_eq, not_not, least_eq_infinite64] at checked
  exact skips ⟨checked.2.1, checked.2.2.1, checked.2.2.2⟩

theorem keeps_iff {limits : UInt64 × UInt64} :
    ((request jobTres divisor).keeps i limits.1 && (request jobTres divisor).keeps i limits.2) =
      true ↔ ¬Exceeds ((request jobTres divisor).share i) limits := by
  have keep : ∀ limit, (request jobTres divisor).keeps i limit =
      !decide (limit < (request jobTres divisor).share i) := fun _ => rfl
  simp only [keep, Bool.and_eq_true, Bool.not_eq_true', decide_eq_false_iff_not, Exceeds, not_or]

/-- The loop ends when the job exceeds no limit that is imposed, with these limits in the
arrays. -/
theorem validateLoop_spec (jobTres : Nat → UInt64) (divisor : UInt64) (q out : Qos)
    {indices : List Nat} (nodup : indices.Nodup) :
    (((request jobTres divisor).validateLoop q.limits indices out.limits).2 = none ↔
      ∀ i ∈ indices, Imposes jobTres q out i →
        ¬Exceeds ((request jobTres divisor).share i) (q.pair i)) ∧
    (((request jobTres divisor).validateLoop q.limits indices out.limits).2 = none →
      ∃ after : Qos, ((request jobTres divisor).validateLoop q.limits indices out.limits).1 =
          after.limits ∧
        ∀ i, (i ∈ indices ∧ Imposes jobTres q out i → after.pair i = q.pair i) ∧
          (¬(i ∈ indices ∧ Imposes jobTres q out i) → after.pair i = out.pair i)) := by
  induction indices generalizing out with
  | nil => exact ⟨by simp [Request.validateLoop], fun _ => ⟨out, rfl, by simp⟩⟩
  | cons i rest ih =>
    obtain ⟨absent, nodup⟩ := nodup_cons.mp nodup
    by_cases imposes : Imposes jobTres q out i
    · have later : ∀ j ∈ rest, j ≠ i := fun j inside same => absent (same ▸ inside)
      have imposesLater : ∀ j ∈ rest,
          (Imposes jobTres q (out.put i (q.pair i)) j ↔ Imposes jobTres q out j) := by
        intro j inside
        rw [Imposes, Imposes, Qos.pair_put_of_ne _ _ _ (later j inside)]
      obtain ⟨ends, leaves⟩ := ih (out.put i (q.pair i)) nodup
      rw [Request.validateLoop, validate_imposes imposes]
      cases kept : (request jobTres divisor).keeps i (q.pair i).1 &&
          (request jobTres divisor).keeps i (q.pair i).2 with
      | false =>
        refine ⟨⟨fun ended => (nomatch ended), fun within => ?_⟩, fun ended => (nomatch ended)⟩
        have exceeds := keeps_iff.mpr (within i mem_cons_self imposes)
        exact absurd (kept.symm.trans exceeds) (by decide)
      | true =>
        refine ⟨ends.trans ⟨fun within j inside imposed => ?_, fun within j inside imposed =>
          within j (mem_cons_of_mem i inside) ((imposesLater j inside).mp imposed)⟩,
          fun ended => ?_⟩
        · rcases mem_cons.mp inside with rfl | inside
          · exact keeps_iff.mp kept
          · exact within j inside ((imposesLater j inside).mpr imposed)
        · obtain ⟨after, same, pairs⟩ := leaves ended
          refine ⟨after, same, fun j => ?_⟩
          by_cases own : j = i
          · subst own
            have written := (pairs j).2 fun both => absent both.1
            rw [Qos.pair_put_self] at written
            exact ⟨fun _ => written, fun skipped => absurd ⟨mem_cons_self, imposes⟩ skipped⟩
          · have others := pairs j
            rw [Qos.pair_put_of_ne _ _ _ own] at others
            refine ⟨fun both => others.1 ?_, fun skipped => others.2 fun both => skipped ?_⟩
            · have inside := (mem_cons.mp both.1).resolve_left own
              exact ⟨inside, (imposesLater j inside).mpr both.2⟩
            · exact ⟨mem_cons_of_mem i both.1, (imposesLater j both.1).mp both.2⟩
    · have step : (request jobTres divisor).validateLoop q.limits (i :: rest) out.limits =
          (request jobTres divisor).validateLoop q.limits rest out.limits := by
        rw [Request.validateLoop, validate_skips imposes]
      obtain ⟨ends, leaves⟩ := ih out nodup
      rw [step]
      refine ⟨ends.trans ⟨fun within j inside imposed => ?_, fun within j inside =>
        within j (mem_cons_of_mem i inside)⟩, fun ended => ?_⟩
      · rcases mem_cons.mp inside with rfl | inside
        · exact absurd imposed imposes
        · exact within j inside imposed
      · obtain ⟨after, same, pairs⟩ := leaves ended
        refine ⟨after, same, fun j => ?_⟩
        by_cases own : j = i
        · subst own
          exact ⟨fun both => absurd both.2 imposes, fun _ => (pairs j).2 fun both => absent both.1⟩
        · simpa [own] using pairs j

/-- Both calls return true exactly when the job exceeds no limit that is checked. -/
theorem accepts_iff {tresCount : Nat} :
    Accepts tresCount (request jobTres divisor) first second ↔
      ∀ i < tresCount, jobTres i ≠ noVal64 →
        ¬Exceeds ((request jobTres divisor).share i) (checked (first.pair i) (second.pair i)) := by
  have noLimits : ∀ share, ¬Exceeds share noLimit := fun share exceeds =>
    exceeds.elim (not_infinite64_lt share) (not_infinite64_lt share)
  obtain ⟨firstEnds, firstLeaves⟩ := validateLoop_spec jobTres divisor first unlimited
    (nodup_range (n := tresCount))
  have secondEnds := fun after => (validateLoop_spec jobTres divisor second after
    (nodup_range (n := tresCount))).1
  simp only [Accepts, validateTresLimitsForQos, if_true]
  constructor
  · rintro ⟨firstTrue, secondTrue⟩ i mem asked
    obtain ⟨after, same, pairs⟩ := firstLeaves firstTrue
    rw [same] at secondTrue
    rw [checked]
    split_ifs with none
    · have unset : after.pair i = noLimit := (pairs i).2 fun both => both.2.2.1 none
      by_cases own : second.pair i = noLimit
      · exact own ▸ noLimits _
      · exact (secondEnds after).mp secondTrue i (mem_range.mpr mem) ⟨unset, own, asked⟩
    · exact firstEnds.mp firstTrue i (mem_range.mpr mem) ⟨rfl, none, asked⟩
  · intro within
    have firstTrue := firstEnds.mpr fun i mem imposes => by
      have kept := within i (mem_range.mp mem) imposes.2.2
      rwa [checked, if_neg imposes.2.1] at kept
    obtain ⟨after, same, pairs⟩ := firstLeaves firstTrue
    refine ⟨firstTrue, same ▸ (secondEnds after).mpr fun i mem imposes => ?_⟩
    have kept := within i (mem_range.mp mem) imposes.2.2
    by_cases none : first.pair i = noLimit
    · rwa [checked, if_pos none] at kept
    · have written := (pairs i).1 ⟨mem, rfl, none, imposes.2.2⟩
      exact absurd (written.symm.trans imposes.1) none

/-- The calls check both kinds of limits exactly when no limit is hidden behind one of the
other kind, or some limit that is checked is exceeded. -/
theorem checksBoth_iff (tresCount : Nat) (jobTres : Nat → UInt64) (divisor : UInt64)
    (first second : Qos) : ChecksBoth tresCount jobTres divisor first second ↔
      (∃ i < tresCount, jobTres i ≠ noVal64 ∧
        Exceeds ((request jobTres divisor).share i) (checked (first.pair i) (second.pair i))) ∨
      ∀ i < tresCount, jobTres i ≠ noVal64 →
        ¬Hidden ((request jobTres divisor).share i) (first.pair i) (second.pair i) := by
  rw [ChecksBoth, accepts_iff]
  constructor
  · intro checks
    by_cases exceeded : ∃ i < tresCount, jobTres i ≠ noVal64 ∧
        Exceeds ((request jobTres divisor).share i) (checked (first.pair i) (second.pair i))
    · exact Or.inl exceeded
    · right
      intro i inside asked hidden
      obtain ⟨grp, max⟩ := checks (fun j below wanted exceeds =>
        exceeded ⟨j, below, wanted, exceeds⟩) i inside asked
      simp only [Hidden, Qos.pair] at hidden
      rcases hidden with ⟨_, none, more⟩ | ⟨_, none, more⟩
      · exact max (by rwa [firstFinite, if_pos none])
      · exact grp (by rwa [firstFinite, if_pos none])
  · rintro (⟨j, inside, asked, exceeds⟩ | shown) within i below wanted
    · exact absurd exceeds (within j inside asked)
    · have kept := not_or.mp (within i below wanted)
      have seen := shown i below wanted
      simp only [Hidden, Qos.pair, not_or, not_and] at seen
      simp only [checked, Qos.pair, noLimit, Prod.mk.injEq] at kept
      rw [firstFinite, firstFinite]
      split_ifs at kept ⊢ with grp max
      all_goals grind

end Call

/-- The first QOS has a Grp limit only, and the job exceeds the Max limit of the second. -/
theorem max_hidden_by_grp : ¬∀ tresCount jobTres divisor first second,
    ChecksBoth tresCount jobTres divisor first second := by
  intro checks
  have both := checks 1 (fun _ => 5) 0 ⟨fun _ => 10, fun _ => infinite64⟩
    ⟨fun _ => infinite64, fun _ => 3⟩ (by unfold Accepts; decide) 0 (by decide) (by decide)
  exact absurd both.2 (by decide)

end SlurmSim.Controller.QosLimits
