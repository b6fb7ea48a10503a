import Mathlib.Algebra.Group.Nat.Defs
import Mathlib.Data.Finset.Basic

/-!
# Reservations

The record of a reservation, and the step that moves an expired recurring reservation to
its next time.  Local time enters through the weekday of an instant and through the
instant at the same local time some days later.
-/

namespace SlurmSim.Reservation

/-- `slurm_localtime_r` and `slurm_mktime`: the `tm_wday` of an instant, and the instant
with `tm_mday` moved by some days. -/
structure Zone where
  wday : Int → Nat
  addDays : Int → Nat → Int

/-- The flags of a reservation that are used here. -/
structure Flags where
  daily : Bool
  weekday : Bool
  weekend : Bool
  weekly : Bool
  timeFloat : Bool
  allNodes : Bool
  deriving DecidableEq, Repr

/-- `duration`, in minutes. -/
inductive Duration where
  | noVal
  | infinite
  | minutes (count : Nat)
  deriving DecidableEq, Repr

/-- `slurmctld_resv_t`, as far as it is used here; licenses are their names, and
`hasTres` tells whether `tres_str` is set. -/
structure Resv where
  name : String
  resvId : Nat
  flags : Flags
  startTime : Int
  startTimeFirst : Int
  startTimePrev : Int
  endTime : Int
  duration : Duration
  nodeBitmap : Option (Finset Nat)
  coreBitmap : Option (Finset Nat)
  fullNodes : Bool
  hasTres : Bool
  licenseList : Option (List String)
  resvWatts : Option Nat
  deriving DecidableEq

/-- `YEAR_SECONDS` -/
def yearSeconds : Nat := 365 * 24 * 60 * 60

/-- `start_relative` and `end_relative` of a reservation; a floating one stores its start
relative to the current time. -/
def Resv.relativePeriod (now : Int) (resv : Resv) : Int × Int :=
  if resv.flags.timeFloat then
    let start := resv.startTime + now
    match resv.duration with
    | .infinite => (start, start + yearSeconds)
    | .minutes (count + 1) => (start, start + ((count + 1) * 60 % 2 ^ 32 : Nat))
    | .minutes 0 | .noVal =>
      if resv.endTime < start then (resv.endTime, resv.endTime) else (start, resv.endTime)
  else (resv.startTimeFirst, resv.endTime)

section Advance

variable (zone : Zone)

/-- `_advance_time` -/
def advanceTime (resTime : Int) (dayCnt : Nat) : Int :=
  let moved := zone.addDays resTime dayCnt
  if moved = -1 then resTime + 24 * 60 * 60 else moved

/-- The days by which `_advance_resv_time` moves a reservation, from the weekday of the
current time. -/
def dayCnt (flags : Flags) (wday : Nat) : Nat :=
  if flags.daily then 1
  else if flags.weekday then if wday = 5 then 3 else if wday = 6 then 2 else 1
  else if flags.weekend then if wday = 0 then 6 else if wday = 6 then 1 else 6 - wday
  else if flags.weekly then 7
  else 0

/-- `_advance_resv_time`; a new id is used if there is one. -/
def advanceResvTime (now : Int) (newId : Option Nat) (resv : Resv) : Resv :=
  if resv.flags.timeFloat then resv
  else
    let days := dayCnt resv.flags (zone.wday now)
    if days = 0 then resv
    else
      let start := advanceTime zone resv.startTimeFirst days
      { resv with
        resvId := newId.getD resv.resvId
        startTime := start
        startTimePrev := start
        startTimeFirst := start
        endTime := advanceTime zone resv.endTime days }

/-- The check before each use: a reservation that has ended is moved. -/
def advanceIfEnded (now : Int) (newId : Option Nat) (resv : Resv) : Resv :=
  if resv.endTime ≤ now then advanceResvTime zone now newId resv else resv

end Advance

end SlurmSim.Reservation
