import Mathlib.Data.Rat.Floor
import SlurmSim.Lib.Qsort

/-!
# Energy projections of the multifactor plugin

The part of the priority plugin that chooses a frequency for every partition of
a job and reorders the partition list by energy and time. The arithmetic of the
C doubles and the energy library are parameters: the library is a function of
the module and the trace it is run on.
-/

namespace SlurmSim.Priority

open SlurmSim.Lib

/-- The operations on C doubles that the plugin uses. -/
class Double (D : Type) extends Add D, Sub D, Mul D, Div D where
  ofNat : Nat → D
  lt : D → D → Bool
  isZero : D → Bool
  ceilToUInt32 : D → Nat
  dblMax : D

/-- Doubles read as exact rationals. -/
instance : Double ℚ where
  ofNat n := n
  lt a b := decide (a < b)
  isZero a := decide (a = 0)
  ceilToUInt32 a := ⌈a⌉.toNat % 2 ^ 32
  dblMax := (2 ^ 53 - 1) * 2 ^ 971

open Double

variable {D : Type} [Double D]

/-- `MIN` of `macros.h`. -/
def minDouble (a b : D) : D := if lt a b then a else b

/-- The weight `1.5f` of the run time. -/
def runtimeWeight : D := ofNat 3 / ofNat 2

structure Part where
  name : String
  deriving DecidableEq

/-- `energy_info_t`, without `job_ptr`, which only the dependency path sets, and
without `time_proportion`, which is read at index 0 only. -/
structure EnergyInfo (D : Type) where
  part : Part
  bestFreq : D
  bestValue : D
  bestEnergy : D
  defEnergy : D
  bestTime : Nat
  bestDuration : Nat
  realBestEnergy : D
  realDefEnergy : D

/-- The record as `xmalloc` leaves it, with its partition set. -/
def EnergyInfo.blank (part : Part) : EnergyInfo D where
  part := part
  bestFreq := ofNat 0
  bestValue := ofNat 0
  bestEnergy := ofNat 0
  defEnergy := ofNat 0
  bestTime := 0
  bestDuration := 0
  realBestEnergy := ofNat 0
  realDefEnergy := ofNat 0

/-! ## Comparing two projections -/

/-- Positive when the first projection is the better one. Energy and time are
taken relative to the smaller of the two. -/
def fcmpEnergyValues (a b : EnergyInfo D) : D :=
  let minE := minDouble b.bestEnergy a.bestEnergy
  let minR : D := ofNat (min b.bestTime a.bestTime)
  let aE := a.bestEnergy / minE
  let bE := b.bestEnergy / minE
  let aR := ofNat a.bestTime / minR * runtimeWeight
  let bR := ofNat b.bestTime / minR * runtimeWeight
  bE + bR - aE - aR

/-- The comparator given to `qsort`: the truth value of `fcmpEnergyValues > 0`. -/
def cmpEnergyValues (a b : EnergyInfo D) : Int :=
  if lt (ofNat 0) (fcmpEnergyValues a b) then 1 else 0

/-- The list of partitions is rebuilt from the end of the sorted array. -/
def rebuildPartList (infos : List (EnergyInfo D)) : List Part :=
  (qsort cmpEnergyValues infos).reverse.map EnergyInfo.part

/-! ## One projection -/

/-- The deterministic functions of the energy library. An array is a function of
its index, `nFreqs` is its length. -/
structure EnergyLib (D : Type) where
  nModules : Nat
  machineName : Nat → Option String
  nFreqs : Nat → Nat
  nFreqs_pos : ∀ iModule, 0 < nFreqs iModule
  frequenciesRange : Nat → Nat → D
  energyProjection : Nat → List D → Nat → D
  timeProjection : Nat → List D → Nat → D

/-- The model of an application on one module. The first field is its time. -/
structure AppModel (D : Type) where
  moduleId : Nat
  timeParameter : D
  fields : List D

structure AppInfo (D : Type) where
  appId : Nat
  models : List (AppModel D)

/-- The weights and tables that the plugin was set up with. -/
structure EnergyConfig (D : Type) where
  lib : EnergyLib D
  apps : List (AppInfo D)
  useEnergyPrediction : Bool

/-- What one partition is given in the arrays of the job record. -/
structure EnergyChoice (D : Type) where
  bestFreq : D
  bestTimeLimit : Nat
  bestDuration : Nat
  bestEnergy : D
  defEnergy : D
  bestValue : D
  realBestEnergy : D
  realDefEnergy : D

/-- The array slots as `xmalloc` leaves them. -/
def EnergyChoice.blank : EnergyChoice D where
  bestFreq := ofNat 0
  bestTimeLimit := 0
  bestDuration := 0
  bestEnergy := ofNat 0
  defEnergy := ofNat 0
  bestValue := ofNat 0
  realBestEnergy := ofNat 0
  realDefEnergy := ofNat 0

/-- The fields of a multi-partition job that the energy decision reads and
writes. The choice at an index belongs to the partition at that index. -/
structure Job (D : Type) where
  directSetPrio : Bool
  priority : Nat
  minNodes : Option Nat
  appId : Nat
  timeLimit : Nat
  duration : Nat
  partPtrList : List Part
  choices : List (EnergyChoice D)

/-- One step of the scan for the smallest entry that is not zero. -/
def searchMinStep (v : Nat → D) (minI i : Nat) : Nat :=
  if lt (v i) (v minI) && !isZero (v i) then i else minI

def searchMin (v : Nat → D) (size : Nat) : Nat :=
  (List.range size).foldl (searchMinStep v) 0

/-- `find_app_model`: the first model of the module. -/
def findAppModel (app : AppInfo D) (modelId : Nat) : Option (AppModel D) :=
  app.models.find? fun model => modelId = model.moduleId

/-- `get_i_module`: the first machine of the name, `nModules` when there is none. -/
def getIModule (lib : EnergyLib D) (partName : String) : Nat :=
  (List.range lib.nModules).findIdx fun iModule => lib.machineName iModule = some partName

/-- The entry of the array that the frequency is chosen by. -/
def jobProjection (e r : Nat → D) (minE minR k : Nat) : D :=
  if isZero (e k) then dblMax
  else
    let relE := e k / e minE
    let relR := runtimeWeight * r k / r minR
    relE * relE + relR * relR

/-- The part of `get_best_projection` after the model of the application was
found. `reference` is the `time_proportion` at index 0. -/
def projectModel (config : EnergyConfig D) (model : AppModel D) (iModule : Nat) (reference : D)
    (job : Job D) (part : Part) : EnergyInfo D :=
  let lib := config.lib
  let trace := ofNat job.timeLimit * ofNat 60 * model.timeParameter / reference :: model.fields
  let nFreqs := lib.nFreqs iModule
  let fRange := lib.frequenciesRange iModule
  let e := lib.energyProjection iModule trace
  let r := lib.timeProjection iModule trace
  let fI := searchMin
    (jobProjection e r (searchMin e nFreqs) (searchMin r nFreqs)) nFreqs
  let last := nFreqs - 1
  let timeDiff : D := ofNat job.duration / (ofNat job.timeLimit * ofNat 60)
  { part := part
    bestFreq := if config.useEnergyPrediction then fRange fI else fRange last
    bestValue := jobProjection e r (searchMin e nFreqs) (searchMin r nFreqs) fI
    bestEnergy := e fI
    defEnergy := e last
    bestTime := ceilToUInt32 (r (if config.useEnergyPrediction then fI else last) / ofNat 60)
    bestDuration := ceilToUInt32 (r (if config.useEnergyPrediction then fI else last) * timeDiff)
    realBestEnergy := e fI * timeDiff
    realDefEnergy := e last * timeDiff }

/-- `get_best_projection` at index `idx` of the array. Returned are the
`time_proportion` at index 0 and the record at `idx`, which stays blank when the
application has no model for the module. -/
def getBestProjection (config : EnergyConfig D) (app : AppInfo D) (iModule : Nat)
    (timeProportion : D) (idx : Nat) (job : Job D) (part : Part) : D × EnergyInfo D :=
  match findAppModel app iModule with
  | none => (timeProportion, EnergyInfo.blank part)
  | some model =>
    let reference := if idx = 0 then model.timeParameter else timeProportion
    (reference, projectModel config model iModule reference job part)

/-! ## The decision for all partitions -/

/-- The loop over the partitions: those without a machine are skipped. -/
def projectParts (config : EnergyConfig D) (app : AppInfo D) (job : Job D) :
    List Part → Nat → D → List (EnergyInfo D)
  | [], _, _ => []
  | part :: rest, j, timeProportion =>
    let iModule := getIModule config.lib part.name
    if config.lib.nModules ≤ iModule then projectParts config app job rest j timeProportion
    else
      let (timeProportion, info) :=
        getBestProjection config app iModule timeProportion j job part
      info :: projectParts config app job rest (j + 1) timeProportion

/-- The slots of one partition of the list. -/
def chooseFor (config : EnergyConfig D) (minNodes : Nat) (infos : List (EnergyInfo D))
    (part : Part) : EnergyChoice D :=
  match infos.find? fun info => info.part = part with
  | none => EnergyChoice.blank
  | some info =>
    { bestFreq := info.bestFreq
      bestTimeLimit := info.bestTime
      bestDuration := info.bestDuration
      bestEnergy :=
        if config.useEnergyPrediction then info.bestEnergy * ofNat minNodes else ofNat 0
      defEnergy := info.defEnergy * ofNat minNodes
      bestValue := if config.useEnergyPrediction then info.bestValue else ofNat 0
      realBestEnergy := if config.useEnergyPrediction then info.realBestEnergy else ofNat 0
      realDefEnergy := info.realDefEnergy }

/-- What `_get_priority_internal` does to the partition list and the energy
arrays of a multi-partition job. There is no result when the application of the
job is not in the table: its entry is read through a null pointer. -/
def getPriorityInternal (config : EnergyConfig D) (job : Job D) : Option (Job D) :=
  if job.directSetPrio && 0 < job.priority then some job
  else
    match job.minNodes with
    | none => some job
    | some minNodes =>
      match config.apps.find? fun app => app.appId = job.appId with
      | none => none
      | some app =>
        let infos := projectParts config app job job.partPtrList 0 (ofNat 0)
        let sorted := qsort cmpEnergyValues infos
        let parts :=
          if config.useEnergyPrediction then rebuildPartList infos else job.partPtrList
        some { job with
          partPtrList := parts
          choices := parts.map (chooseFor config minNodes sorted) }

end SlurmSim.Priority
