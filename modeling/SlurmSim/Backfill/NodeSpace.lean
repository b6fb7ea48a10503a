import SlurmSim.Backfill.Schedule
import SlurmSim.Lib.Chain

/-!
# The backfill node space table

The backfill scheduler keeps its plan in a table of time records linked by
slot numbers.  A reservation splits the record that holds its start, splits
the record that holds its end, removes its nodes from every record between
the two, and then merges at most one pair of neighbours with equal bitmaps.
Node bitmaps are the finite sets of their set bits, times are seconds.
-/

namespace SlurmSim.Backfill

/-- One slot of the table: `next` is the next record by time, zero at the end. -/
structure NodeSpaceMap extends Window where
  next : Nat
  deriving DecidableEq

/-- The slots and the number of slots handed out so far (`node_space_recs`). -/
structure NodeSpace where
  slot : Nat → NodeSpaceMap
  recs : Nat

namespace NodeSpace

/-- Slot zero terminates the list, so it is never a successor. -/
def link (t : NodeSpace) (j : Nat) : Option Nat :=
  if (t.slot j).next = 0 then none else some (t.slot j).next

def setSlot (t : NodeSpace) (j : Nat) (entry : NodeSpaceMap) : NodeSpace :=
  { t with slot := Function.update t.slot j entry }

/-- The table `_attempt_backfill` starts from: one record over the whole window. -/
def init (schedStart backfillWindow : Nat) (availNodeBitmap : Finset Nat) : NodeSpace where
  slot := fun _ => ⟨⟨schedStart, schedStart + backfillWindow, availNodeBitmap⟩, 0⟩
  recs := 1

/-- Cut record `j` at `time`; the later part goes to the next free slot. -/
def insertEntry (t : NodeSpace) (j time : Nat) : NodeSpace :=
  let old := t.slot j
  let i := t.recs
  let t := t.setSlot i ⟨⟨time, old.endTime, old.availBitmap⟩, old.next⟩
  let t := t.setSlot j { old with endTime := time, next := i }
  { t with recs := i + 1 }

/-- The inner loop of `_add_reservation`: place the end behind record `j`. -/
def placeEnd (endReserve : Nat) : Nat → NodeSpace → Nat → NodeSpace
  | 0, t, _ => t
  | fuel + 1, t, j =>
    let j := (t.slot j).next
    if j = 0 then t
    else if endReserve < (t.slot j).endTime then t.insertEntry j endReserve
    else if endReserve = (t.slot j).endTime then t
    else placeEnd endReserve fuel t j

/-- The first loop of `_add_reservation`: place the start, then the end. -/
def placeStart (startTime endReserve : Nat) : Nat → NodeSpace → Nat → NodeSpace
  | 0, t, _ => t
  | fuel + 1, t, j =>
    if startTime < (t.slot j).endTime then
      placeEnd endReserve (fuel + 1) (t.insertEntry j startTime) j
    else if (t.slot j).endTime = startTime then
      placeEnd endReserve fuel t j
    else if (t.slot j).next = 0 then t
    else placeStart startTime endReserve fuel t (t.slot j).next

/-- The second loop: remove the nodes from the records inside the interval. -/
def andRange (startTime endReserve : Nat) (resBitmap : Finset Nat) :
    Nat → NodeSpace → Nat → NodeSpace
  | 0, t, _ => t
  | fuel + 1, t, j =>
    let old := t.slot j
    let t :=
      if startTime ≤ old.beginTime ∧ old.endTime ≤ endReserve then
        t.setSlot j { old with availBitmap := old.availBitmap ∩ resBitmap }
      else t
    if endReserve ≤ old.beginTime ∨ old.next = 0 then t
    else andRange startTime endReserve resBitmap fuel t old.next

/-- The last loop: drop one record whose bitmap equals that of its predecessor. -/
def dropIdentical : Nat → NodeSpace → Nat → NodeSpace
  | 0, t, _ => t
  | fuel + 1, t, i =>
    let j := (t.slot i).next
    if j = 0 then t
    else if (t.slot i).availBitmap ≠ (t.slot j).availBitmap then dropIdentical fuel t j
    else t.setSlot i { t.slot i with endTime := (t.slot j).endTime, next := (t.slot j).next }

/-- The start of a reservation, not before the begin of record zero. -/
def clampedStart (t : NodeSpace) (startTime : UInt32) : Nat :=
  max startTime.toNat (t.slot 0).beginTime

/-- `_add_reservation`: the start is clamped to the begin of record zero.
No loop visits more records than there are slots in use. -/
def addReservation (t : NodeSpace) (startTime endReserve : UInt32)
    (resBitmap : Finset Nat) : NodeSpace :=
  let start := (UInt32.ofNat (t.clampedStart startTime)).toNat
  let placed := placeStart start endReserve.toNat t.recs t 0
  let reserved := andRange start endReserve.toNat resBitmap placed.recs placed 0
  dropIdentical reserved.recs reserved 0

/-- The records in list order. -/
def windows (t : NodeSpace) : List Window :=
  go t.recs 0
where
  go : Nat → Nat → List Window
  | 0, _ => []
  | fuel + 1, j =>
    (t.slot j).toWindow :: if (t.slot j).next = 0 then [] else go fuel (t.slot j).next

/-- The nodes the table holds available at an instant. -/
def availAt (t : NodeSpace) (time : Nat) : Option (Finset Nat) :=
  Backfill.availAt t.windows time

end NodeSpace

/-- The arguments of one call of `_add_reservation`. -/
structure Reservation where
  startTime : UInt32
  endReserve : UInt32
  resBitmap : Finset Nat

namespace NodeSpace

def reserveOne (t : NodeSpace) (r : Reservation) : NodeSpace :=
  t.addReservation r.startTime r.endReserve r.resBitmap

/-- The calls one backfill cycle makes: it ends at the table size limit. -/
def reserveAll (maxBackfillJobCnt : Nat) : NodeSpace → List Reservation → NodeSpace
  | t, [] => t
  | t, r :: rs =>
    if maxBackfillJobCnt ≤ t.recs then t
    else reserveAll maxBackfillJobCnt (t.reserveOne r) rs

end NodeSpace

/-- The records `cells` are linked by `next` from slot zero, at most one per
slot in use, contiguous over the window and of positive length. -/
structure Linked (t : NodeSpace) (first last : Nat) (cells : List Nat) : Prop where
  chain : Lib.Chain t.link (some 0) cells
  inUse : ∀ j ∈ cells, j < t.recs
  contiguous : Contiguous first last (cells.map fun j => (t.slot j).toWindow)
  positive : Positive (cells.map fun j => (t.slot j).toWindow)

/-- A table whose records, linked from slot zero, tile the window. -/
def WellFormed (t : NodeSpace) (first last : Nat) : Prop :=
  ∃ cells, Linked t first last cells

end SlurmSim.Backfill
