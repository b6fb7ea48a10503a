import SlurmSim.Reservation.Resv

/-!
# Recurring reservations

A recurring reservation moves to the next day of its class.  The number of days comes
from the weekday of the current time, which need not be that of the reservation.
-/

namespace SlurmSim.Reservation

/-- The seconds of a day. -/
def daySeconds : Int := 86400

/-- The day of an instant, at a fixed offset of local time. -/
def localDay (offset t : Int) : Int :=
  (t + offset) / daySeconds

/-- Local time at a fixed offset; the first day of 1970 was a Thursday. -/
def fixedZone (offset : Int) : Zone where
  wday := fun t => ((localDay offset t + 4) % 7).toNat
  addDays := fun t days => t + daySeconds * days

/-- The recurrences. -/
inductive Recurrence where
  | daily
  | weekday
  | weekend
  | weekly
  deriving DecidableEq, Repr

/-- The recurrence of a reservation. -/
def Resv.recurrence (resv : Resv) : Option Recurrence :=
  if resv.flags.timeFloat then none
  else if resv.flags.daily then some .daily
  else if resv.flags.weekday then some .weekday
  else if resv.flags.weekend then some .weekend
  else if resv.flags.weekly then some .weekly
  else none

/-- A weekday is in the class of a recurrence that starts on a weekday. -/
def Recurrence.OnDay (recurrence : Recurrence) (first wday : Nat) : Prop :=
  match recurrence with
  | .daily => True
  | .weekday => 1 ≤ wday ∧ wday ≤ 5
  | .weekend => wday = 0 ∨ wday = 6
  | .weekly => wday = first

instance (recurrence : Recurrence) (first wday : Nat) : Decidable (recurrence.OnDay first wday) := by
  cases recurrence
  · exact inferInstanceAs (Decidable True)
  · exact inferInstanceAs (Decidable (_ ∧ _))
  · exact inferInstanceAs (Decidable (_ ∨ _))
  · exact inferInstanceAs (Decidable (_ = _))

/-- The weekday of the current time gives the days to the next day of the class. -/
def Recurrence.Aligned (recurrence : Recurrence) (first today : Nat) : Prop :=
  match recurrence with
  | .daily => True
  | .weekday => (today = 5 ↔ first = 5) ∧ today ≠ 6
  | .weekend => first = 6 ∧ (today = 5 ∨ today = 6) ∨ first = 0 ∧ today = 0
  | .weekly => True

/-- Start and end move by the same days to the next day of the class. -/
structure MovesToNext (zone : Zone) (recurrence : Recurrence) (resv after : Resv) : Prop where
  moved : ∃ days : Nat, 0 < days ∧
    after.startTimeFirst = resv.startTimeFirst + daySeconds * days ∧
    after.startTime = resv.startTimeFirst + daySeconds * days ∧
    after.endTime = resv.endTime + daySeconds * days ∧
    ∀ skipped : Nat, 0 < skipped → skipped < days →
      ¬recurrence.OnDay (zone.wday resv.startTimeFirst)
        (zone.wday (resv.startTimeFirst + daySeconds * skipped))
  onDay : recurrence.OnDay (zone.wday resv.startTimeFirst) (zone.wday after.startTimeFirst)

/-- A recurring reservation that starts on a day of its class. -/
structure Recurs (zone : Zone) (recurrence : Recurrence) (resv : Resv) : Prop where
  holds : resv.recurrence = some recurrence
  onDay : recurrence.OnDay (zone.wday resv.startTimeFirst) (zone.wday resv.startTimeFirst)
  epoch : 0 ≤ resv.startTimeFirst
  ordered : resv.startTimeFirst < resv.endTime

instance (recurrence : Recurrence) (first today : Nat) :
    Decidable (recurrence.Aligned first today) := by
  cases recurrence
  · exact inferInstanceAs (Decidable True)
  · exact inferInstanceAs (Decidable (_ ∧ _))
  · exact inferInstanceAs (Decidable (_ ∨ _))
  · exact inferInstanceAs (Decidable True)

/-! ## Weekdays -/

section Zone

variable (offset : Int)

theorem wday_lt (t : Int) : (fixedZone offset).wday t < 7 := by
  simp only [fixedZone]
  omega

theorem wday_add (t : Int) (days : Nat) : (fixedZone offset).wday (t + daySeconds * days) =
    ((fixedZone offset).wday t + days) % 7 := by
  have moved : localDay offset (t + daySeconds * days) = localDay offset t + days := by
    rw [localDay, localDay, daySeconds]
    omega
  simp only [fixedZone, moved]
  omega

theorem advanceTime_fixed {t : Int} (epoch : 0 ≤ t) (days : Nat) :
    advanceTime (fixedZone offset) t days = t + daySeconds * days := by
  have later : t + daySeconds * days ≠ -1 := by
    rw [daySeconds]
    omega
  exact if_neg later

end Zone

/-! ## One advance -/

/-- The days of a recurrence, from the weekday of the current time. -/
def Recurrence.days (recurrence : Recurrence) (today : Nat) : Nat :=
  match recurrence with
  | .daily => 1
  | .weekday => if today = 5 then 3 else if today = 6 then 2 else 1
  | .weekend => if today = 0 then 6 else if today = 6 then 1 else 6 - today
  | .weekly => 7

theorem dayCnt_recurrence {resv : Resv} {recurrence : Recurrence} (today : Nat)
    (holds : resv.recurrence = some recurrence) :
    resv.flags.timeFloat = false ∧ dayCnt resv.flags today = recurrence.days today := by
  rw [Resv.recurrence] at holds
  rw [dayCnt]
  split_ifs at holds with float daily weekday weekend weekly
  all_goals
    obtain rfl := Option.some.inj holds
    simp [Recurrence.days, *]

/-- So many days lead from a day of the class to the next one. -/
def Recurrence.Next (recurrence : Recurrence) (first days : Nat) : Prop :=
  0 < days ∧ recurrence.OnDay first ((first + days) % 7) ∧
    ∀ skipped < days, 0 < skipped → ¬recurrence.OnDay first ((first + skipped) % 7)

instance (recurrence : Recurrence) (first days : Nat) : Decidable (recurrence.Next first days) :=
  inferInstanceAs (Decidable (_ ∧ _))

theorem next_iff_aligned (recurrence : Recurrence) : ∀ first < 7, ∀ today < 7,
    recurrence.OnDay first first →
      (recurrence.Next first (recurrence.days today) ↔ recurrence.Aligned first today) := by
  cases recurrence <;> decide

theorem days_pos (recurrence : Recurrence) : ∀ today < 7, 0 < recurrence.days today := by
  cases recurrence <;> decide

section Step

variable {offset now : Int} {newId : Option Nat} {recurrence : Recurrence} {resv : Resv}

theorem advanceResvTime_fixed (recurs : Recurs (fixedZone offset) recurrence resv) (now : Int)
    (newId : Option Nat) :
    ∃ days, days = recurrence.days ((fixedZone offset).wday now) ∧
    (advanceResvTime (fixedZone offset) now newId resv).recurrence = resv.recurrence ∧
    (advanceResvTime (fixedZone offset) now newId resv).startTimeFirst =
      resv.startTimeFirst + daySeconds * days ∧
    (advanceResvTime (fixedZone offset) now newId resv).startTime =
      resv.startTimeFirst + daySeconds * days ∧
    (advanceResvTime (fixedZone offset) now newId resv).endTime =
      resv.endTime + daySeconds * days := by
  obtain ⟨fixed, count⟩ := dayCnt_recurrence ((fixedZone offset).wday now) recurs.holds
  have positive := days_pos recurrence _ (wday_lt offset now)
  have endEpoch : 0 ≤ resv.endTime := le_trans recurs.epoch recurs.ordered.le
  refine ⟨_, rfl, ?_⟩
  have some_ : ¬recurrence.days ((fixedZone offset).wday now) = 0 := by omega
  have run : advanceResvTime (fixedZone offset) now newId resv = { resv with
        resvId := newId.getD resv.resvId
        startTime := resv.startTimeFirst +
          daySeconds * (recurrence.days ((fixedZone offset).wday now) : Nat)
        startTimePrev := resv.startTimeFirst +
          daySeconds * (recurrence.days ((fixedZone offset).wday now) : Nat)
        startTimeFirst := resv.startTimeFirst +
          daySeconds * (recurrence.days ((fixedZone offset).wday now) : Nat)
        endTime := resv.endTime +
          daySeconds * (recurrence.days ((fixedZone offset).wday now) : Nat) } := by
    rw [advanceResvTime, fixed, count, if_neg (by decide)]
    rw [if_neg some_, advanceTime_fixed offset recurs.epoch, advanceTime_fixed offset endEpoch]
  rw [run]
  exact ⟨rfl, rfl, rfl, rfl⟩

theorem movesToNext_iff (recurs : Recurs (fixedZone offset) recurrence resv) (now : Int)
    (newId : Option Nat) :
    MovesToNext (fixedZone offset) recurrence resv
      (advanceResvTime (fixedZone offset) now newId resv) ↔
    recurrence.Aligned ((fixedZone offset).wday resv.startTimeFirst)
      ((fixedZone offset).wday now) := by
  obtain ⟨days, same, -, first, start, ends⟩ := advanceResvTime_fixed recurs now newId
  rw [← next_iff_aligned recurrence _ (wday_lt offset _) _ (wday_lt offset now) recurs.onDay, ← same]
  constructor
  · rintro ⟨⟨moved, pos, first', -, -, skips⟩, onDay⟩
    obtain rfl : moved = days := by
      rw [first, daySeconds] at first'
      omega
    rw [first, wday_add] at onDay
    exact ⟨pos, onDay, fun skipped less some_ => wday_add offset _ skipped ▸ skips skipped some_ less⟩
  · rintro ⟨pos, onDay, skips⟩
    refine ⟨⟨days, pos, first, start, ends, fun skipped some_ less => ?_⟩, ?_⟩
    · rw [wday_add]
      exact skips skipped less some_
    · rw [first, wday_add]
      exact onDay

/-! ## Runs -/

/-- A property of every step of a run of advances, each with its instant and new id. -/
def EachAdvance (zone : Zone) (property : Int → Resv → Resv → Prop) :
    List (Int × Option Nat) → Resv → Prop
  | [], _ => True
  | (now, newId) :: rest, resv =>
    property now resv (advanceResvTime zone now newId resv) ∧
      EachAdvance zone property rest (advanceResvTime zone now newId resv)

theorem Recurrence.OnDay.self {first wday : Nat} (onDay : recurrence.OnDay first wday) :
    recurrence.OnDay wday wday := by
  cases recurrence with
  | daily => exact trivial
  | weekday => exact onDay
  | weekend => exact onDay
  | weekly => exact rfl

theorem MovesToNext.recurs (recurs : Recurs (fixedZone offset) recurrence resv)
    (right : MovesToNext (fixedZone offset) recurrence resv
      (advanceResvTime (fixedZone offset) now newId resv)) :
    Recurs (fixedZone offset) recurrence (advanceResvTime (fixedZone offset) now newId resv) := by
  obtain ⟨days, -, same, first, -, ends⟩ := advanceResvTime_fixed recurs now newId
  have epoch := recurs.epoch
  have ordered := recurs.ordered
  refine ⟨same.trans recurs.holds, right.onDay.self, ?_, ?_⟩
  · rw [first, daySeconds]
    omega
  · omega

/-- Each weekday of a current time is aligned with that of the reservation. -/
def AlignedAt (zone : Zone) (recurrence : Recurrence) (now : Int) (resv _ : Resv) : Prop :=
  recurrence.Aligned (zone.wday resv.startTimeFirst) (zone.wday now)

theorem eachAdvance_movesToNext (calls : List (Int × Option Nat))
    (recurs : Recurs (fixedZone offset) recurrence resv)
    (aligned : EachAdvance (fixedZone offset) (AlignedAt (fixedZone offset) recurrence) calls resv) :
    EachAdvance (fixedZone offset)
      (fun _ before after => MovesToNext (fixedZone offset) recurrence before after) calls resv := by
  induction calls generalizing resv with
  | nil => exact trivial
  | cons call calls ih =>
    have right := (movesToNext_iff recurs call.1 call.2).mpr aligned.1
    exact ⟨right, ih (right.recurs recurs) aligned.2⟩

end Step

/-- A reservation that starts on a day of its class moves to the next one exactly when the
weekday of the current time is aligned with that of its start, and a run of aligned
advances never leaves the class nor skips a day of it. -/
theorem advanceResvTime_moves_iff (offset : Int) (recurrence : Recurrence) (resv : Resv)
    (recurs : Recurs (fixedZone offset) recurrence resv) :
    (∀ now newId, MovesToNext (fixedZone offset) recurrence resv
        (advanceResvTime (fixedZone offset) now newId resv) ↔
      AlignedAt (fixedZone offset) recurrence now resv
        (advanceResvTime (fixedZone offset) now newId resv)) ∧
    ∀ calls, EachAdvance (fixedZone offset) (AlignedAt (fixedZone offset) recurrence) calls resv →
      EachAdvance (fixedZone offset)
        (fun _ before after => MovesToNext (fixedZone offset) recurrence before after) calls resv :=
  ⟨fun now newId => movesToNext_iff recurs now newId,
    fun calls aligned => eachAdvance_movesToNext calls recurs aligned⟩

/-- On working days, from a Thursday evening to the Friday morning. -/
def overnight : Resv :=
  ⟨"overnight", 1, ⟨false, true, false, false, false, false⟩, 82800, 82800, 82800, 90000,
    .minutes 120, none, none, true, false, none, none⟩

theorem overnight_recurs : Recurs (fixedZone 0) .weekday overnight :=
  ⟨rfl, by decide, by decide, by decide⟩

theorem advanceResvTime_moves_iff_overnight :
    MovesToNext (fixedZone 0) .weekday overnight
      (advanceResvTime (fixedZone 0) 345600 none overnight) :=
  ((advanceResvTime_moves_iff 0 .weekday overnight overnight_recurs).1 345600 none).mpr
    (show Recurrence.Aligned _ _ _ by decide)

/-- When it ends on the Friday it moves by three days, to a Sunday. -/
theorem advanceResvTime_moves_fails : ¬∀ (offset : Int) (recurrence : Recurrence) (resv : Resv),
    Recurs (fixedZone offset) recurrence resv →
    resv.endTime - resv.startTimeFirst < 7 * daySeconds →
    ∀ now newId, resv.endTime ≤ now → MovesToNext (fixedZone offset) recurrence resv
        (advanceResvTime (fixedZone offset) now newId resv) := by
  intro all
  have right := all 0 .weekday overnight overnight_recurs (by decide) 90000 none (by decide)
  exact absurd ((movesToNext_iff overnight_recurs 90000 none).mp right) (by decide)

end SlurmSim.Reservation
