import SlurmSim.Hostlist.Parse

/-!
# Host lists

The slots below `nranges` of the array of ranges and the number of hosts. A slot without a
range is `NULL` or points to a range that has been destroyed. Operations are `none` where
the program stops: at a failed assertion, or where it reads through such a slot.
-/

namespace SlurmSim.Hostlist

open SlurmSim.Common.Bitmap

/-- `struct hostlist` with the slots below `nranges`. -/
structure HostList where
  hr : List (Option HostRange)
  nhosts : Int
deriving DecidableEq, Repr

namespace HostList

/-- `hostlist_new` -/
def new : HostList :=
  ⟨[], 0⟩

/-- A range is stored in the next slot. -/
def append (hl : HostList) (hr : HostRange) : HostList :=
  ⟨hl.hr ++ [some hr.copy], toInt32 (hl.nhosts + hr.count)⟩

/-- `hostlist_push_range`: the list and the range afterwards. -/
def pushRange (hl : HostList) (hr : HostRange) : Option (HostList × HostRange) :=
  match hl.hr.getLast? with
  | none => some (hl.append hr, hr)
  | some none => none
  | some (some tail) =>
    if tail.hi = ulongSub hr.lo 1 ∧ tail.prefixCmp hr = 0 then
      match tail.widthCombine hr with
      | some (tail, hr) =>
        some (⟨hl.hr.dropLast ++ [some { tail with hi := hr.hi }],
          toInt32 (hl.nhosts + hr.count)⟩, hr)
      | none => some (hl.append hr, hr)
    else some (hl.append hr, hr)

/-- The loop of `hostlist_push_list`: the list, and the slots that are pushed afterwards. -/
def pushSlots : HostList → List (Option HostRange) →
    Option (HostList × List (Option HostRange))
  | hl, [] => some (hl, [])
  | _, none :: _ => none
  | hl, some hr :: slots =>
    (hl.pushRange hr).bind fun first =>
      (pushSlots first.1 slots).map fun rest => (rest.1, some first.2 :: rest.2)

/-- `hostlist_push_list` -/
def pushList (h1 h2 : HostList) : Option (HostList × HostList) :=
  (h1.pushSlots h2.hr).map fun lists => (lists.1, ⟨lists.2, h2.nhosts⟩)

/-- `hostlist_create`; `none` is `NULL`. -/
def create (str : Name) : Option HostList :=
  (parse str).bind fun ranges => (new.pushSlots (ranges.map some)).map Prod.fst

/-- `hostlist_push` -/
def push (hl : HostList) (hosts : Name) : Option HostList :=
  match create hosts with
  | none => some hl
  | some added => (hl.pushList added).map Prod.fst

/-- `hostlist_push_host` -/
def pushHost (hl : HostList) (str : Name) : Option HostList :=
  (hl.pushRange (pushedHost str)).map Prod.fst

/-- `hostlist_copy` -/
def copy (hl : HostList) : Option HostList :=
  (hl.hr.mapM fun slot : Option HostRange => slot.map fun hr => some hr.copy).map fun slots => ⟨slots, hl.nhosts⟩

/-- `hostlist_pop`: the host and the list. -/
def pop (hl : HostList) : Option (Option Name × HostList) :=
  if 0 < hl.nhosts then
    match hl.hr.getLast? with
    | none => none
    | some none => none
    | some (some hr) =>
      let (host, hr) := hr.pop
      some (host, ⟨hl.hr.dropLast ++ if hr.empty then [] else [some hr],
        toInt32 (hl.nhosts - 1)⟩)
  else some (none, hl)

/-- `hostlist_shift` -/
def shift (hl : HostList) : Option (Option Name × HostList) :=
  if 0 < hl.nhosts then
    match hl.hr with
    | [] => none
    | none :: _ => none
    | some hr :: slots =>
      let (host, hr) := hr.shift
      some (host, ⟨(if hr.empty then [] else [some hr]) ++ slots, toInt32 (hl.nhosts - 1)⟩)
  else some (none, hl)

/-- The slot holds a range of one bracketed list with the given one. -/
def inBlock (hr : HostRange) (slot : Option HostRange) : Bool :=
  slot.any hr.withinRange

/-- `hostlist_pop_range`: the list whose text is returned, and what is left. -/
def popRange (hl : HostList) : Option (Option HostList × HostList) :=
  match hl.hr.getLast? with
  | none => some (none, hl)
  | some none => none
  | some (some tail) =>
    let front := hl.hr.dropLast.rdropWhile (inBlock tail)
    let block := hl.hr.dropLast.rtakeWhile (inBlock tail) ++ [some tail]
    (new.pushSlots block).map fun pushed =>
      let hltmp := pushed.1
      (some hltmp,
        ⟨(front ++ List.replicate block.length none).take (hl.hr.length - hltmp.hr.length),
          toInt32 (hl.nhosts - hltmp.nhosts)⟩)

/-- `hostlist_shift_range` -/
def shiftRange (hl : HostList) : Option (Option HostList × HostList) :=
  match hl.hr with
  | [] => some (none, hl)
  | none :: _ => none
  | some first :: slots =>
    let block := some first :: slots.takeWhile (inBlock first)
    (new.pushSlots block).map fun pushed =>
      let hltmp := pushed.1
      (some hltmp,
        ⟨List.replicate (block.length - hltmp.hr.length) none ++
            slots.dropWhile (inBlock first),
          toInt32 (hl.nhosts - hltmp.nhosts)⟩)

/-- `hostlist_pop_range_values`: the values of `lo` and `hi` unless it returns `0`. -/
def popRangeValues (hl : HostList) : Option (Nat × Nat) × HostList :=
  match hl.hr.getLast? with
  | none => (none, hl)
  | some none => (some (0, 0), hl)
  | some (some tail) =>
    (some (tail.lo, tail.hi), ⟨hl.hr.dropLast, toInt32 (hl.nhosts - tail.count)⟩)

/-- The loop of `hostlist_delete_nth` from a slot on. -/
def deleteNthSlots (n : Int) : Int → List (Option HostRange) → Option (List (Option HostRange))
  | _, [] => some []
  | _, none :: _ => none
  | count, some hr :: slots =>
    let numInRange := toInt32 hr.count
    if n ≤ numInRange - 1 + count then
      if hr.singlehost then some slots
      else
        (hr.deleteHost ((hr.lo + n - count) % 2 ^ 64).toNat).map fun parts =>
          match parts.2 with
          | some upper => some parts.1 :: some upper.copy :: slots
          | none => if parts.1.empty then slots else some parts.1 :: slots
    else (deleteNthSlots n (count + numInRange) slots).map (some hr :: ·)

/-- `hostlist_delete_nth` -/
def deleteNth (hl : HostList) (n : Int) : Option HostList :=
  if 0 ≤ n ∧ n ≤ hl.nhosts then
    (deleteNthSlots n 0 hl.hr).map fun slots => ⟨slots, toInt32 (hl.nhosts - 1)⟩
  else none

/-- The loop of `hostlist_find` from a slot on. -/
def findSlots : Hostname → Int → List (Option HostRange) →
    Option (Int × List (Option HostRange))
  | _, _, [] => some (-1, [])
  | _, _, none :: _ => none
  | hn, count, some hr :: slots =>
    let (found, hr, hn) := hnWithin hr hn
    if found then
      let ret := if hn.suffix.isSome then count + hn.num - hr.lo else count
      some (toInt32 ret, some hr :: slots)
    else (findSlots hn (toInt32 (count + hr.count)) slots).map fun answer =>
      (answer.1, some hr :: answer.2)

/-- `hostlist_find`: the position and the list afterwards. -/
def find (hl : HostList) (hostname : Name) : Option (Int × HostList) :=
  (findSlots (hostnameCreate hostname) 0 hl.hr).map fun answer =>
    (answer.1, ⟨answer.2, hl.nhosts⟩)

/-- `hostlist_delete_host` -/
def deleteHost (hl : HostList) (hostname : Name) : Option (Int × HostList) :=
  (hl.find hostname).bind fun answer =>
    if 0 ≤ answer.1 then (answer.2.deleteNth answer.1).map fun hl => (1, hl)
    else some (0, answer.2)

/-- `hostlist_pop` until it returns `NULL`. -/
def drain : Nat → HostList → Option (List Name)
  | 0, _ => some []
  | fuel + 1, hl =>
    hl.pop.bind fun popped =>
      match popped.1 with
      | none => some []
      | some host => (drain fuel popped.2).map (host :: ·)

/-- `hostlist_delete_host` of one host after the other: how many were found. -/
def deleteHosts : HostList → List Name → Option (Int × HostList)
  | hl, [] => some (0, hl)
  | hl, host :: hosts =>
    (hl.deleteHost host).bind fun first =>
      (deleteHosts first.2 hosts).map fun rest => (first.1 + rest.1, rest.2)

/-- `hostlist_delete`; the list that is drained has `nhosts` hosts. -/
def delete (hl : HostList) (hosts : Name) : Option (Int × HostList) :=
  match create hosts with
  | none => some (0, hl)
  | some hltmp => (drain (hltmp.nhosts.toNat + 1) hltmp).bind hl.deleteHosts

end HostList

end SlurmSim.Hostlist
