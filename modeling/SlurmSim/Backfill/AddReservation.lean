import Mathlib.Data.Finset.Card
import SlurmSim.Backfill.NodeSpace

/-!
# Reservations in the node space table

Each loop of `_add_reservation` edits a sublist of the table in place.  An
edit keeps every record outside that sublist and takes new records from fresh
slots, so it carries over to the list of windows.
-/

namespace SlurmSim.Backfill

open Lib List

namespace NodeSpace

/-- The windows of a list of slots. -/
def view (t : NodeSpace) (cells : List Nat) : List Window :=
  cells.map fun j => (t.slot j).toWindow

@[simp]
theorem view_nil (t : NodeSpace) : t.view [] = [] := rfl

@[simp]
theorem view_cons (t : NodeSpace) (j : Nat) (cells : List Nat) :
    t.view (j :: cells) = (t.slot j).toWindow :: t.view cells := rfl

theorem view_congr {t u : NodeSpace} {cells : List Nat}
    (same : ∀ j ∈ cells, u.slot j = t.slot j) : u.view cells = t.view cells :=
  map_congr_left fun j mem => by rw [same j mem]

/-- `u` is `t` with the sublist `cells` that starts at slot `j` replaced by
`replaced`, which also starts at slot `j`. -/
structure Edit (t u : NodeSpace) (j : Nat) (cells replaced : List Nat) : Prop where
  chain : Chain u.link (some j) replaced
  inUse : ∀ i ∈ replaced, i < u.recs
  fresh : ∀ i ∈ replaced, i ∈ cells ∨ t.recs ≤ i
  frame : ∀ i, i < t.recs → i ∉ cells → u.slot i = t.slot i
  grow : t.recs ≤ u.recs

namespace Edit

variable {t u : NodeSpace} {j : Nat} {cells replaced : List Nat}

theorem refl (chain : Chain t.link (some j) cells) (inUse : ∀ i ∈ cells, i < t.recs) :
    Edit t t j cells cells :=
  ⟨chain, inUse, fun _ mem => Or.inl mem, fun _ _ _ => rfl, le_rfl⟩

theorem cons {i : Nat} (edit : Edit t u j cells replaced)
    (chain : Chain t.link (some i) (i :: cells)) (linked : t.link i = some j)
    (inUse : i < t.recs) : Edit t u i (i :: cells) (i :: replaced) ∧ u.slot i = t.slot i := by
  have absent : i ∉ cells := (nodup_cons.mp chain.nodup).1
  have same := edit.frame i inUse absent
  refine ⟨⟨.cons ?_, ?_, ?_, ?_, edit.grow⟩, same⟩
  · rw [link, same, ← link, linked]
    exact edit.chain
  · intro k mem
    rcases mem_cons.mp mem with rfl | later
    · exact Nat.lt_of_lt_of_le inUse edit.grow
    · exact edit.inUse k later
  · intro k mem
    rcases mem_cons.mp mem with rfl | later
    · exact Or.inl mem_cons_self
    · exact (edit.fresh k later).imp_left (mem_cons_of_mem _)
  · intro k bound outside
    exact edit.frame k bound fun mem => outside (mem_cons_of_mem _ mem)

end Edit

variable {t : NodeSpace} {j : Nat}

theorem link_eq_none : t.link j = none ↔ (t.slot j).next = 0 := by
  unfold link
  split <;> simp_all

theorem link_eq_some (linked : (t.slot j).next ≠ 0) :
    t.link j = some (t.slot j).next := if_neg linked

theorem chain_tail_cases {rest : List Nat} (chain : Chain t.link (some j) (j :: rest)) :
    ((t.slot j).next = 0 ∧ rest = []) ∨
      ∃ more, (t.slot j).next ≠ 0 ∧ rest = (t.slot j).next :: more ∧
        t.link j = some (t.slot j).next ∧ Chain t.link (some (t.slot j).next) rest := by
  obtain ⟨_, tail⟩ := Chain.cons_iff.mp chain
  by_cases ended : (t.slot j).next = 0
  · rw [link_eq_none.mpr ended] at tail
    cases tail
    exact Or.inl ⟨ended, rfl⟩
  · have linked := link_eq_some ended
    rw [linked] at tail
    cases tail with
    | @cons _ more tail =>
      exact Or.inr ⟨more, ended, rfl, linked, .cons tail⟩

section Loops

variable {t : NodeSpace} {j : Nat} {rest : List Nat}

theorem insertEntry_edit (time : Nat) (chain : Chain t.link (some j) (j :: rest))
    (inUse : ∀ i ∈ j :: rest, i < t.recs) :
    Edit t (t.insertEntry j time) j (j :: rest) (j :: t.recs :: rest) ∧
      (t.insertEntry j time).view (j :: t.recs :: rest) =
        { (t.slot j).toWindow with endTime := time } ::
          { (t.slot j).toWindow with beginTime := time } :: t.view rest := by
  obtain ⟨absent, _⟩ := nodup_cons.mp chain.nodup
  have jLt := inUse j mem_cons_self
  have slotJ : (t.insertEntry j time).slot j =
      { t.slot j with endTime := time, next := t.recs } := by
    simp [insertEntry, setSlot]
  have slotNew : (t.insertEntry j time).slot t.recs =
      ⟨⟨time, (t.slot j).endTime, (t.slot j).availBitmap⟩, (t.slot j).next⟩ := by
    simp [insertEntry, setSlot, Function.update_of_ne (Nat.ne_of_gt jLt)]
  have slotOther : ∀ i, i ≠ j → i ≠ t.recs → (t.insertEntry j time).slot i = t.slot i := by
    intro i notJ notNew
    simp [insertEntry, setSlot, Function.update_of_ne notJ, Function.update_of_ne notNew]
  have restSame : ∀ i ∈ rest, (t.insertEntry j time).slot i = t.slot i := by
    intro i mem
    refine slotOther i ?_ (Nat.ne_of_lt (inUse i (mem_cons_of_mem _ mem)))
    rintro rfl
    exact absent mem
  have newLink : (t.insertEntry j time).link t.recs = t.link j := by
    rw [link, slotNew, link]
  have jLink : (t.insertEntry j time).link j = some t.recs := by
    rw [link_eq_some] <;> rw [slotJ]
    exact Nat.ne_of_gt (Nat.zero_lt_of_lt jLt)
  refine ⟨⟨.cons ?_, ?_, ?_, ?_, Nat.le_succ _⟩, ?_⟩
  · rw [jLink]
    refine .cons ?_
    rw [newLink]
    refine (Chain.cons_iff.mp chain).2.congr fun i mem => ?_
    rw [link, restSame i mem, ← link]
  · intro i mem
    change i < t.recs + 1
    rcases mem_cons.mp mem with rfl | later
    · omega
    · rcases mem_cons.mp later with rfl | later
      · omega
      · have := inUse i (mem_cons_of_mem _ later)
        omega
  · intro i mem
    simp only [mem_cons] at mem ⊢
    rcases mem with rfl | rfl | later
    · exact Or.inl (Or.inl rfl)
    · exact Or.inr le_rfl
    · exact Or.inl (Or.inr later)
  · intro i bound outside
    refine slotOther i ?_ (Nat.ne_of_lt bound)
    rintro rfl
    exact outside mem_cons_self
  · rw [view_cons, view_cons, view_congr restSame, slotJ, slotNew]

variable {fuel : Nat}

/-- Placing the end edits the records behind `j` and nothing else. -/
theorem placeEnd_edit (endReserve : Nat) (chain : Chain t.link (some j) (j :: rest))
    (inUse : ∀ i ∈ j :: rest, i < t.recs) (enough : rest.length ≤ fuel) :
    ∃ replaced, Edit t (placeEnd endReserve fuel t j) j (j :: rest) (j :: replaced) ∧
      (placeEnd endReserve fuel t j).slot j = t.slot j ∧
      (placeEnd endReserve fuel t j).view replaced = splitEnd endReserve (t.view rest) ∧
      (placeEnd endReserve fuel t j).recs ≤ t.recs + 1 := by
  induction fuel generalizing j rest with
  | zero =>
    obtain rfl : rest = [] := length_eq_zero_iff.mp (Nat.le_zero.mp enough)
    exact ⟨[], .refl chain inUse, rfl, rfl, Nat.le_succ _⟩
  | succ fuel ih =>
    have tailInUse : ∀ i ∈ rest, i < t.recs :=
      fun i member => inUse i (mem_cons_of_mem _ member)
    have jLt := inUse j mem_cons_self
    rw [placeEnd]
    rcases chain_tail_cases chain with ⟨ended, rfl⟩ | ⟨more, open_, rfl, linked, tail⟩
    · rw [if_pos ended]
      exact ⟨[], .refl chain inUse, rfl, rfl, Nat.le_succ _⟩
    · rw [if_neg open_, view_cons, splitEnd]
      by_cases mem : endReserve < (t.slot (t.slot j).next).endTime
      · rw [if_pos mem, if_pos mem]
        obtain ⟨edit, viewEq⟩ := insertEntry_edit endReserve tail tailInUse
        obtain ⟨whole, same⟩ := edit.cons chain linked jLt
        exact ⟨_, whole, same, viewEq, le_rfl⟩
      · rw [if_neg mem, if_neg mem]
        by_cases meets : endReserve = (t.slot (t.slot j).next).endTime
        · rw [if_pos meets, if_pos meets]
          exact ⟨_, .refl chain inUse, rfl, rfl, Nat.le_succ _⟩
        · rw [if_neg meets, if_neg meets]
          obtain ⟨replaced, edit, headSame, viewEq, recsLe⟩ :=
            ih tail tailInUse (by simpa using enough)
          obtain ⟨whole, same⟩ := edit.cons chain linked jLt
          exact ⟨_, whole, same, by rw [view_cons, viewEq, headSame], recsLe⟩

/-- Placing the start and the end is `splitStart` on the windows. -/
theorem placeStart_edit (startTime endReserve : Nat) (chain : Chain t.link (some j) (j :: rest))
    (inUse : ∀ i ∈ j :: rest, i < t.recs) (enough : (j :: rest).length ≤ fuel) :
    ∃ replaced, Edit t (placeStart startTime endReserve fuel t j) j (j :: rest) replaced ∧
      (placeStart startTime endReserve fuel t j).view replaced =
        splitStart startTime endReserve (t.view (j :: rest)) ∧
      (placeStart startTime endReserve fuel t j).recs ≤ t.recs + 2 := by
  induction fuel generalizing j rest with
  | zero => simp at enough
  | succ fuel ih =>
    have jLt := inUse j mem_cons_self
    have tailInUse : ∀ i ∈ rest, i < t.recs :=
      fun i member => inUse i (mem_cons_of_mem _ member)
    have restLe : rest.length ≤ fuel := by simpa using enough
    rw [placeStart, view_cons, splitStart]
    by_cases mem : startTime < (t.slot j).endTime
    · rw [if_pos mem, if_pos mem]
      obtain ⟨cut, cutView⟩ := insertEntry_edit startTime chain inUse
      have fuelEnough : (t.recs :: rest).length ≤ fuel + 1 := by simpa using restLe
      obtain ⟨replaced, edit, headSame, viewEq, recsLe⟩ :=
        placeEnd_edit endReserve cut.chain cut.inUse fuelEnough
      rw [view_cons] at cutView
      have headEq := (List.cons.inj cutView).1
      have tailEq := (List.cons.inj cutView).2
      refine ⟨_, ⟨edit.chain, edit.inUse, ?_, ?_, ?_⟩, ?_, recsLe⟩
      · intro i member
        rcases edit.fresh i member with old | new
        · exact cut.fresh i old
        · exact Or.inr (Nat.le_trans cut.grow new)
      · intro i bound outside
        have stillOutside : i ∉ j :: t.recs :: rest := by
          intro member
          rcases cut.fresh i member with old | new
          · exact outside old
          · omega
        rw [edit.frame i (Nat.lt_of_lt_of_le bound cut.grow) stillOutside,
          cut.frame i bound outside]
      · exact Nat.le_trans cut.grow edit.grow
      · rw [view_cons, headSame, headEq, viewEq, tailEq]
    · rw [if_neg mem, if_neg mem]
      by_cases meets : (t.slot j).endTime = startTime
      · rw [if_pos meets, if_pos meets]
        obtain ⟨replaced, edit, headSame, viewEq, recsLe⟩ :=
          placeEnd_edit endReserve chain inUse restLe
        exact ⟨_, edit, by rw [view_cons, headSame, viewEq], Nat.le_succ_of_le recsLe⟩
      · rw [if_neg meets, if_neg meets]
        rcases chain_tail_cases chain with ⟨ended, rfl⟩ | ⟨more, open_, rfl, linked, tail⟩
        · rw [if_pos ended]
          exact ⟨_, .refl chain inUse, rfl, Nat.le_add_right _ _⟩
        · rw [if_neg open_]
          obtain ⟨replaced, edit, viewEq, recsLe⟩ := ih tail tailInUse restLe
          obtain ⟨whole, same⟩ := edit.cons chain linked jLt
          exact ⟨_, whole, by rw [view_cons, viewEq, same], recsLe⟩

/-- Removing the nodes changes bitmaps only, and is `reserve` on the windows. -/
theorem andRange_spec (startTime endReserve : Nat) (resBitmap : Finset Nat)
    (chain : Chain t.link (some j) (j :: rest)) (enough : (j :: rest).length ≤ fuel) :
    (andRange startTime endReserve resBitmap fuel t j).recs = t.recs ∧
      (andRange startTime endReserve resBitmap fuel t j).link = t.link ∧
      (∀ i, i ∉ j :: rest → (andRange startTime endReserve resBitmap fuel t j).slot i = t.slot i) ∧
      (andRange startTime endReserve resBitmap fuel t j).view (j :: rest) =
        reserve startTime endReserve resBitmap (t.view (j :: rest)) := by
  induction fuel generalizing t j rest with
  | zero => simp at enough
  | succ fuel ih =>
    obtain ⟨absent, _⟩ := nodup_cons.mp chain.nodup
    have restLe : rest.length ≤ fuel := by simpa using enough
    have covered_eq : ∃ bitmap, (if startTime ≤ (t.slot j).beginTime ∧
          (t.slot j).endTime ≤ endReserve then
          t.setSlot j { t.slot j with availBitmap := (t.slot j).availBitmap ∩ resBitmap }
          else t) = t.setSlot j { t.slot j with availBitmap := bitmap } ∧
        (if startTime ≤ (t.slot j).beginTime ∧ (t.slot j).endTime ≤ endReserve then
          { (t.slot j).toWindow with availBitmap := (t.slot j).availBitmap ∩ resBitmap }
          else (t.slot j).toWindow) = { (t.slot j).toWindow with availBitmap := bitmap } := by
      split_ifs
      · exact ⟨_, rfl, rfl⟩
      · exact ⟨(t.slot j).availBitmap, by simp [setSlot], rfl⟩
    obtain ⟨bitmap, writeEq, windowEq⟩ := covered_eq
    rw [andRange, writeEq, view_cons t, reserve, windowEq]
    have slotJ : (t.setSlot j { t.slot j with availBitmap := bitmap }).slot j =
        { t.slot j with availBitmap := bitmap } := Function.update_self ..
    have slotOther : ∀ i, i ≠ j →
        (t.setSlot j { t.slot j with availBitmap := bitmap }).slot i = t.slot i :=
      fun i other => Function.update_of_ne other ..
    have linkEq : (t.setSlot j { t.slot j with availBitmap := bitmap }).link = t.link := by
      funext i
      by_cases here : i = j
      · rw [here, link, slotJ, link]
      · rw [link, slotOther i here, link]
    have restSame : ∀ i ∈ rest,
        (t.setSlot j { t.slot j with availBitmap := bitmap }).slot i = t.slot i := by
      intro i mem
      refine slotOther i ?_
      rintro rfl
      exact absent mem
    have stop : (t.setSlot j { t.slot j with availBitmap := bitmap }).view (j :: rest) =
        { (t.slot j).toWindow with availBitmap := bitmap } :: t.view rest := by
      rw [view_cons, slotJ, view_congr restSame]
    have outsideSame : ∀ i, i ∉ j :: rest →
        (t.setSlot j { t.slot j with availBitmap := bitmap }).slot i = t.slot i := by
      intro i outside
      refine slotOther i ?_
      rintro rfl
      exact outside mem_cons_self
    by_cases past : endReserve ≤ (t.slot j).beginTime
    · rw [if_pos (Or.inl past), if_pos past]
      exact ⟨rfl, linkEq, outsideSame, stop⟩
    · rw [if_neg past]
      rcases chain_tail_cases chain with ⟨ended, rfl⟩ | ⟨more, open_, restEq, linked, tail⟩
      · rw [if_pos (Or.inr ended)]
        exact ⟨rfl, linkEq, outsideSame, stop⟩
      · rw [if_neg (by simp [past, open_])]
        subst restEq
        rw [← linkEq] at tail
        obtain ⟨recsEq, sameLink, frame, viewEq⟩ := ih tail restLe
        refine ⟨recsEq, sameLink.trans linkEq, ?_, ?_⟩
        · intro i outside
          rw [frame i fun mem => outside (mem_cons_of_mem _ mem), outsideSame i outside]
        · rw [view_cons, viewEq, frame j absent, slotJ, view_congr restSame]

/-- Dropping one identical record is `mergeOne` on the windows. -/
theorem dropIdentical_edit (chain : Chain t.link (some j) (j :: rest))
    (inUse : ∀ i ∈ j :: rest, i < t.recs) (enough : (j :: rest).length ≤ fuel) :
    ∃ replaced, Edit t (dropIdentical fuel t j) j (j :: rest) replaced ∧
      (dropIdentical fuel t j).view replaced = mergeOne (t.view (j :: rest)) ∧
      (dropIdentical fuel t j).recs = t.recs := by
  induction fuel generalizing j rest with
  | zero => simp at enough
  | succ fuel ih =>
    have jLt := inUse j mem_cons_self
    have tailInUse : ∀ i ∈ rest, i < t.recs :=
      fun i mem => inUse i (mem_cons_of_mem _ mem)
    have restLe : rest.length ≤ fuel := by simpa using enough
    rw [dropIdentical]
    rcases chain_tail_cases chain with ⟨ended, rfl⟩ | ⟨more, open_, rfl, linked, tail⟩
    · rw [if_pos ended]
      exact ⟨_, .refl chain inUse, by simp [mergeOne], rfl⟩
    · rw [if_neg open_]
      by_cases equal : (t.slot j).availBitmap = (t.slot (t.slot j).next).availBitmap
      · rw [if_neg (not_not.mpr equal), view_cons, view_cons, mergeOne, if_pos equal]
        obtain ⟨absent, _⟩ := nodup_cons.mp chain.nodup
        have moreSame : ∀ i ∈ more, i ≠ j := by
          rintro i mem rfl
          exact absent (mem_cons_of_mem _ mem)
        have slotOther : ∀ entry, ∀ i, i ≠ j → (t.setSlot j entry).slot i = t.slot i :=
          fun entry i other => Function.update_of_ne other ..
        have slotJ : ∀ entry, (t.setSlot j entry).slot j = entry :=
          fun entry => Function.update_self ..
        refine ⟨j :: more, ⟨.cons ?_, ?_, ?_, ?_, le_rfl⟩, ?_, rfl⟩
        · rw [link, slotJ, ← link]
          refine (Chain.cons_iff.mp tail).2.congr fun i mem => ?_
          rw [link, slotOther _ i (moreSame i mem), ← link]
        · intro i mem
          refine inUse i ?_
          exact cons_subset_cons _ (subset_cons_self _ _) mem
        · intro i mem
          exact Or.inl (cons_subset_cons _ (subset_cons_self _ _) mem)
        · intro i _ outside
          refine slotOther _ i ?_
          rintro rfl
          exact outside mem_cons_self
        · rw [view_cons, slotJ]
          refine congrArg _ (view_congr fun i mem => ?_)
          exact slotOther _ i (moreSame i mem)
      · rw [if_pos equal]
        obtain ⟨replaced, edit, viewEq, recsEq⟩ := ih tail tailInUse restLe
        obtain ⟨whole, same⟩ := edit.cons chain linked jLt
        refine ⟨_, whole, ?_, recsEq⟩
        rw [view_cons, viewEq, same, view_cons t j, view_cons t (t.slot j).next, mergeOne,
          if_neg equal]

end Loops

section Windows

variable {t : NodeSpace} {cells : List Nat}

theorem length_le_recs {start : Option Nat} (chain : Chain t.link start cells)
    (inUse : ∀ i ∈ cells, i < t.recs) : cells.length ≤ t.recs := by
  have subset : cells.toFinset ⊆ Finset.range t.recs := by
    intro i mem
    exact Finset.mem_range.mpr (inUse i (mem_toFinset.mp mem))
  have counted := Finset.card_le_card subset
  rwa [toFinset_card_of_nodup chain.nodup, Finset.card_range] at counted

theorem windows_go_eq {j fuel : Nat} {rest : List Nat}
    (chain : Chain t.link (some j) (j :: rest)) (enough : (j :: rest).length ≤ fuel) :
    windows.go t fuel j = t.view (j :: rest) := by
  induction fuel generalizing j rest with
  | zero => simp at enough
  | succ fuel ih =>
    rw [windows.go, view_cons]
    rcases chain_tail_cases chain with ⟨ended, rfl⟩ | ⟨more, open_, rfl, linked, tail⟩
    · rw [if_pos ended, view_nil]
    · rw [if_neg open_, ih tail (by simpa using enough)]

theorem windows_eq_view (chain : Chain t.link (some 0) cells)
    (inUse : ∀ i ∈ cells, i < t.recs) : t.windows = t.view cells := by
  have enough := length_le_recs chain inUse
  cases chain with
  | cons tail => exact windows_go_eq (.cons tail) enough

end Windows

/-- The table after a reservation holds the windows of `reserveWindows`, from the start in
32 bits. -/
theorem addReservation_edit {t : NodeSpace} {cells : List Nat} (startTime endReserve : UInt32)
    (resBitmap : Finset Nat) (chain : Chain t.link (some 0) cells)
    (inUse : ∀ i ∈ cells, i < t.recs) :
    ∃ replaced, Chain (t.addReservation startTime endReserve resBitmap).link (some 0) replaced ∧
      (∀ i ∈ replaced, i < (t.addReservation startTime endReserve resBitmap).recs) ∧
      (t.addReservation startTime endReserve resBitmap).view replaced =
        reserveWindows (UInt32.ofNat (t.clampedStart startTime)).toNat endReserve.toNat resBitmap
          (t.view cells) ∧
      (t.addReservation startTime endReserve resBitmap).recs ≤ t.recs + 2 := by
  have enough := length_le_recs chain inUse
  rw [addReservation]
  cases chain with
  | @cons _ rest tail =>
    obtain ⟨placed, placing, placedView, placedRecs⟩ :=
      placeStart_edit (UInt32.ofNat (t.clampedStart startTime)).toNat endReserve.toNat (.cons tail)
        inUse enough
    have placedEnough := length_le_recs placing.chain placing.inUse
    have placedChain := placing.chain
    cases placedChain with
    | @cons _ placedRest placedTail =>
      obtain ⟨recsEq, linkEq, _, reservedView⟩ :=
        andRange_spec (UInt32.ofNat (t.clampedStart startTime)).toNat endReserve.toNat resBitmap
          (.cons placedTail) placedEnough
      have reservedChain := placing.chain
      rw [← linkEq] at reservedChain
      have reservedInUse := placing.inUse
      rw [← recsEq] at reservedInUse
      obtain ⟨kept, dropping, keptView, keptRecs⟩ :=
        dropIdentical_edit reservedChain reservedInUse (length_le_recs reservedChain reservedInUse)
      refine ⟨kept, dropping.chain, dropping.inUse, ?_, ?_⟩
      · rw [keptView, reservedView, placedView, reserveWindows]
      · rw [keptRecs, recsEq]
        exact placedRecs

/-- The table after a reservation holds the windows of `reserveWindows`. -/
theorem addReservation_refines {t : NodeSpace} {cells : List Nat} {startTime endReserve : UInt32}
    (resBitmap : Finset Nat) (chain : Chain t.link (some 0) cells)
    (inUse : ∀ i ∈ cells, i < t.recs) (fits : t.clampedStart startTime < endReserve.toNat) :
    ∃ replaced, Chain (t.addReservation startTime endReserve resBitmap).link (some 0) replaced ∧
      (∀ i ∈ replaced, i < (t.addReservation startTime endReserve resBitmap).recs) ∧
      (t.addReservation startTime endReserve resBitmap).view replaced =
        reserveWindows (t.clampedStart startTime) endReserve.toNat resBitmap (t.view cells) ∧
      (t.addReservation startTime endReserve resBitmap).recs ≤ t.recs + 2 := by
  have startEq : (UInt32.ofNat (t.clampedStart startTime)).toNat = t.clampedStart startTime :=
    UInt32.toNat_ofNat_of_lt (Nat.lt_trans fits endReserve.toNat_lt)
  obtain ⟨replaced, keptChain, keptInUse, keptView, keptRecs⟩ :=
    addReservation_edit startTime endReserve resBitmap chain inUse
  rw [startEq] at keptView
  exact ⟨replaced, keptChain, keptInUse, keptView, keptRecs⟩

end NodeSpace

/-! ## One reservation -/

section Reservation

variable {t : NodeSpace} {first last : Nat} {cells : List Nat}

theorem Linked.beginTime_eq (linked : Linked t first last cells) :
    (t.slot 0).beginTime = first := by
  obtain ⟨chain, _, tiles, _⟩ := linked
  cases chain with
  | cons tail => exact tiles.1

theorem WellFormed.contiguous (wellFormed : WellFormed t first last) :
    Contiguous first last t.windows := by
  obtain ⟨cells, linked⟩ := wellFormed
  rw [NodeSpace.windows_eq_view linked.chain linked.inUse]
  exact linked.contiguous

theorem Linked.addReservation (linked : Linked t first last cells)
    {startTime endReserve : UInt32} (resBitmap : Finset Nat)
    (fits : t.clampedStart startTime < endReserve.toNat) :
    WellFormed (t.addReservation startTime endReserve resBitmap) first last ∧
      (t.addReservation startTime endReserve resBitmap).recs ≤ t.recs + 2 ∧
      ∀ time, (t.addReservation startTime endReserve resBitmap).availAt time =
        if t.clampedStart startTime ≤ time ∧ time < endReserve.toNat then
          (t.availAt time).map (· ∩ resBitmap)
        else t.availAt time := by
  have clamped : first ≤ t.clampedStart startTime := by
    rw [← linked.beginTime_eq]
    exact Nat.le_max_right _ _
  obtain ⟨replaced, chain, inUse, viewEq, recsLe⟩ :=
    NodeSpace.addReservation_refines resBitmap linked.chain linked.inUse fits
  refine ⟨⟨replaced, chain, inUse, ?_, ?_⟩, recsLe, fun time => ?_⟩
  · rw [NodeSpace.view] at viewEq
    rw [viewEq]
    exact reserveWindows_contiguous linked.contiguous clamped fits
  · rw [NodeSpace.view] at viewEq
    rw [viewEq]
    exact reserveWindows_positive linked.contiguous linked.positive clamped fits
  · rw [NodeSpace.availAt, NodeSpace.windows_eq_view chain inUse, viewEq, NodeSpace.availAt,
      NodeSpace.windows_eq_view linked.chain linked.inUse]
    exact reserveWindows_availAt linked.contiguous clamped fits time

end Reservation

/-! ## Every run of reservations -/

section Run

theorem init_wellFormed (schedStart : Nat) {backfillWindow : Nat}
    (availNodeBitmap : Finset Nat) (window : 0 < backfillWindow) :
    WellFormed (NodeSpace.init schedStart backfillWindow availNodeBitmap)
      schedStart (schedStart + backfillWindow) := by
  refine ⟨[0], ?_, ?_, ?_, ?_⟩
  · exact .cons .nil
  · intro j mem
    rw [mem_singleton.mp mem]
    exact Nat.zero_lt_one
  · exact ⟨rfl, Nat.le_add_right _ _, rfl⟩
  · intro w mem
    rw [mem_singleton.mp mem]
    exact Nat.lt_add_of_pos_right window

theorem init_availAt {schedStart backfillWindow time : Nat} (availNodeBitmap : Finset Nat)
    (lower : schedStart ≤ time) (upper : time < schedStart + backfillWindow) :
    (NodeSpace.init schedStart backfillWindow availNodeBitmap).availAt time =
      some availNodeBitmap := by
  have covered : (NodeSpace.init schedStart backfillWindow availNodeBitmap).windows =
      [⟨schedStart, schedStart + backfillWindow, availNodeBitmap⟩] := rfl
  rw [NodeSpace.availAt, covered, availAt_cons, if_pos ⟨lower, upper⟩]

/-- The nodes left at an instant once every reservation over it has taken its own. -/
def scheduledAt (schedStart time : Nat) (availNodeBitmap : Finset Nat)
    (requests : List Reservation) : Finset Nat :=
  requests.foldl (fun nodes r =>
    if max r.startTime.toNat schedStart ≤ time ∧ time < r.endReserve.toNat then
      nodes ∩ r.resBitmap
    else nodes) availNodeBitmap

theorem reserve_run {first last : Nat} (requests : List Reservation)
    (fits : ∀ r ∈ requests, max r.startTime.toNat first < r.endReserve.toNat)
    {t : NodeSpace} (wellFormed : WellFormed t first last) :
    WellFormed (requests.foldl NodeSpace.reserveOne t) first last ∧
      ∀ time nodes, t.availAt time = some nodes →
        (requests.foldl NodeSpace.reserveOne t).availAt time =
          some (scheduledAt first time nodes requests) := by
  induction requests generalizing t with
  | nil => exact ⟨wellFormed, fun _ _ here => here⟩
  | cons r requests ih =>
    obtain ⟨cells, linked⟩ := wellFormed
    have clampEq : t.clampedStart r.startTime = max r.startTime.toNat first := by
      rw [NodeSpace.clampedStart, linked.beginTime_eq]
    have fitsHere : t.clampedStart r.startTime < r.endReserve.toNat := by
      rw [clampEq]
      exact fits r mem_cons_self
    obtain ⟨stepped, _, avail⟩ := linked.addReservation r.resBitmap fitsHere
    obtain ⟨kept, schedule⟩ :=
      ih (fun later mem => fits later (mem_cons_of_mem _ mem)) stepped
    refine ⟨kept, fun time nodes here => ?_⟩
    rw [foldl_cons, scheduledAt, foldl_cons]
    refine schedule time _ ?_
    have stepEq := avail time
    rw [clampEq, here] at stepEq
    refine stepEq.trans ?_
    split_ifs <;> rfl

/-- Stopping at the table size limit cuts the run short and bounds the table. -/
theorem reserveAll_eq_take {maxBackfillJobCnt : Nat} {first last : Nat}
    (requests : List Reservation)
    (fits : ∀ r ∈ requests, max r.startTime.toNat first < r.endReserve.toNat)
    {t : NodeSpace} (wellFormed : WellFormed t first last)
    (bound : t.recs ≤ maxBackfillJobCnt + 1) :
    (∃ n, NodeSpace.reserveAll maxBackfillJobCnt t requests =
        (requests.take n).foldl NodeSpace.reserveOne t) ∧
      (NodeSpace.reserveAll maxBackfillJobCnt t requests).recs ≤ maxBackfillJobCnt + 1 := by
  induction requests generalizing t with
  | nil => exact ⟨⟨0, rfl⟩, bound⟩
  | cons r requests ih =>
    rw [NodeSpace.reserveAll]
    split_ifs with full
    · exact ⟨⟨0, rfl⟩, bound⟩
    · obtain ⟨cells, linked⟩ := wellFormed
      have fitsHere : t.clampedStart r.startTime < r.endReserve.toNat := by
        rw [NodeSpace.clampedStart, linked.beginTime_eq]
        exact fits r mem_cons_self
      obtain ⟨stepped, recsLe, _⟩ := linked.addReservation r.resBitmap fitsHere
      have steppedBound : (t.reserveOne r).recs ≤ maxBackfillJobCnt + 1 := by
        have : (t.reserveOne r).recs ≤ t.recs + 2 := recsLe
        omega
      obtain ⟨⟨n, cutEq⟩, recsBound⟩ :=
        ih (fun later mem => fits later (mem_cons_of_mem _ mem)) stepped steppedBound
      exact ⟨⟨n + 1, cutEq⟩, recsBound⟩

end Run

/-- `_add_reservation` keeps the table well formed over its window, takes at most
two slots and reserves exactly the clamped interval; so does every run of calls
from the initial record, which stays inside the slots the cycle allocates. -/
theorem addReservation_schedule :
    (∀ (t : NodeSpace) (first last : Nat), WellFormed t first last →
      ∀ (startTime endReserve : UInt32) (resBitmap : Finset Nat),
      t.clampedStart startTime < endReserve.toNat →
      WellFormed (t.addReservation startTime endReserve resBitmap) first last ∧
      (t.addReservation startTime endReserve resBitmap).recs ≤ t.recs + 2 ∧
      ∀ time, first ≤ time → time < last → ∃ nodes, t.availAt time = some nodes ∧
          (t.addReservation startTime endReserve resBitmap).availAt time =
            some (if t.clampedStart startTime ≤ time ∧ time < endReserve.toNat then
              nodes ∩ resBitmap else nodes)) ∧
    (∀ (schedStart backfillWindow : Nat) (availNodeBitmap : Finset Nat)
      (requests : List Reservation), 0 < backfillWindow →
      (∀ r ∈ requests, max r.startTime.toNat schedStart < r.endReserve.toNat) →
      WellFormed (requests.foldl NodeSpace.reserveOne
        (NodeSpace.init schedStart backfillWindow availNodeBitmap))
        schedStart (schedStart + backfillWindow) ∧
      (∀ time, schedStart ≤ time → time < schedStart + backfillWindow →
        (requests.foldl NodeSpace.reserveOne
          (NodeSpace.init schedStart backfillWindow availNodeBitmap)).availAt time =
          some (scheduledAt schedStart time availNodeBitmap requests)) ∧
      ∀ maxBackfillJobCnt, (∃ n, NodeSpace.reserveAll maxBackfillJobCnt
            (NodeSpace.init schedStart backfillWindow availNodeBitmap) requests =
          (requests.take n).foldl NodeSpace.reserveOne
            (NodeSpace.init schedStart backfillWindow availNodeBitmap)) ∧
        (NodeSpace.reserveAll maxBackfillJobCnt
          (NodeSpace.init schedStart backfillWindow availNodeBitmap) requests).recs ≤
            2 * maxBackfillJobCnt + 1) := by
  constructor
  · intro t first last wellFormed startTime endReserve resBitmap fits
    obtain ⟨cells, linked⟩ := wellFormed
    obtain ⟨kept, recsLe, avail⟩ := linked.addReservation resBitmap fits
    refine ⟨kept, recsLe, fun time lower upper => ?_⟩
    have covered : (t.availAt time).isSome := by
      rw [NodeSpace.availAt, NodeSpace.windows_eq_view linked.chain linked.inUse]
      exact linked.contiguous.availAt_isSome lower upper
    obtain ⟨nodes, here⟩ := Option.isSome_iff_exists.mp covered
    refine ⟨nodes, here, ?_⟩
    rw [avail, here]
    split_ifs <;> rfl
  · intro schedStart backfillWindow availNodeBitmap requests window fits
    have start := init_wellFormed schedStart availNodeBitmap window
    obtain ⟨kept, schedule⟩ := reserve_run requests fits start
    refine ⟨kept, fun time lower upper => ?_, fun maxBackfillJobCnt => ?_⟩
    · exact schedule time _ (init_availAt availNodeBitmap lower upper)
    · obtain ⟨cut, bound⟩ := reserveAll_eq_take requests fits start
        (show (NodeSpace.init schedStart backfillWindow availNodeBitmap).recs ≤
          maxBackfillJobCnt + 1 from Nat.le_add_left _ _)
      refine ⟨cut, Nat.le_trans bound ?_⟩
      omega

/-- A reservation inside the window of the initial record, and one that starts before it. -/
theorem addReservation_schedule_two_requests :
    let t := NodeSpace.init 1000 60 {0, 1}
    let requests : List Reservation := [⟨1010, 1020, {1}⟩, ⟨960, 1040, {0}⟩]
    (t.addReservation 1010 1020 {1}).recs ≤ 3 ∧
      WellFormed (requests.foldl NodeSpace.reserveOne t) 1000 1060 ∧
      (requests.foldl NodeSpace.reserveOne t).availAt 1030 = some {0} ∧
      (requests.foldl NodeSpace.reserveOne t).availAt 1050 = some {0, 1} ∧
      (NodeSpace.reserveAll 2 t requests).recs ≤ 5 := by
  have fits : ∀ r ∈ ([⟨1010, 1020, {1}⟩, ⟨960, 1040, {0}⟩] : List Reservation),
      max r.startTime.toNat 1000 < r.endReserve.toNat := by decide
  obtain ⟨one, run⟩ := addReservation_schedule
  obtain ⟨_, recsLe, _⟩ := one (NodeSpace.init 1000 60 {0, 1}) 1000 1060
    (init_wellFormed 1000 {0, 1} (by decide)) 1010 1020 {1} (by decide)
  obtain ⟨kept, schedule, sized⟩ := run 1000 60 {0, 1} _ (by decide) fits
  refine ⟨recsLe, kept, ?_, ?_, (sized 2).2⟩
  · rw [schedule 1030 (by decide) (by decide)]
    decide
  · rw [schedule 1050 (by decide) (by decide)]
    decide

end SlurmSim.Backfill
