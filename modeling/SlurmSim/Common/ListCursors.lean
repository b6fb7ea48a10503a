import Mathlib.Order.Nat
import SlurmSim.Common.Lists

/-!
# A list as a sequence with cursors

A linked list stands for the sequence of its nodes.  An iterator stands for two
places in it: the pointer it keeps and the node it comes to next.  Insertions and
deletions move these places, and the repair of the iterators follows them.
-/

namespace SlurmSim.Common.Lists

open List
open Option (bind_eq_bind bind_some)

variable {A I α : Type}

/-! ## Places in a sequence -/

/-- The address of the pointer to the node with an index. -/
def slotAt (nodes : List A) : Nat → Slot A
  | 0 => .head
  | k + 1 => (nodes[k]?).elim .head .next

section Places

variable {nodes : List A} {a c d : Nat} {p : A}

theorem slotAt_succ {q : A} (here : nodes[c]? = some q) : slotAt nodes (c + 1) = .next q := by
  rw [slotAt, here]
  rfl

theorem slotAt_ne_next (absent : p ∉ nodes) : slotAt nodes c ≠ .next p := by
  cases c with
  | zero => exact fun impossible => nomatch impossible
  | succ k =>
    rw [slotAt]
    cases here : nodes[k]? with
    | none => exact fun impossible => nomatch impossible
    | some q =>
      rintro ⟨⟩
      exact absent (mem_of_getElem? here)

theorem getElem?_eq_iff (distinct : nodes.Nodup) (first : c ≤ nodes.length)
    (second : d ≤ nodes.length) : nodes[c]? = nodes[d]? ↔ c = d := by
  refine ⟨fun same => ?_, fun same => by rw [same]⟩
  rcases Nat.lt_or_eq_of_le first with mem | atEnd
  · exact (getElem?_inj mem distinct).mp same
  · rw [atEnd, getElem?_eq_none le_rfl] at same
    have outside := getElem?_eq_none_iff.mp same.symm
    omega

theorem slotAt_eq_iff (distinct : nodes.Nodup) (first : c ≤ nodes.length)
    (second : d ≤ nodes.length) : slotAt nodes c = slotAt nodes d ↔ c = d := by
  refine ⟨fun same => ?_, fun same => by rw [same]⟩
  cases c with
  | zero =>
    cases d with
    | zero => rfl
    | succ d =>
      rw [slotAt_succ (getElem?_eq_getElem second)] at same
      cases same
  | succ c =>
    rw [slotAt_succ (getElem?_eq_getElem first)] at same
    cases d with
    | zero => cases same
    | succ d =>
      rw [slotAt_succ (getElem?_eq_getElem second), Slot.next.injEq] at same
      have index : nodes[c]? = nodes[d]? := by
        rw [getElem?_eq_getElem first, getElem?_eq_getElem second, same]
      rw [(getElem?_eq_iff distinct (by omega) (by omega)).mp index]

theorem slotAt_insertIdx_of_le (before : c ≤ a) :
    slotAt (nodes.insertIdx a p) c = slotAt nodes c := by
  cases c with
  | zero => rfl
  | succ k => rw [slotAt, slotAt, getElem?_insertIdx, if_pos (Nat.lt_of_succ_le before)]

theorem slotAt_insertIdx_self (mem : a ≤ nodes.length) :
    slotAt (nodes.insertIdx a p) (a + 1) = .next p := by
  refine slotAt_succ ?_
  rw [getElem?_insertIdx, if_neg (Nat.lt_irrefl a), if_pos rfl, if_pos mem]

theorem slotAt_insertIdx_of_gt (behind : a < c) :
    slotAt (nodes.insertIdx a p) (c + 1) = slotAt nodes c := by
  obtain ⟨k, rfl⟩ : ∃ k, c = k + 1 := ⟨c - 1, by omega⟩
  rw [slotAt, slotAt, getElem?_insertIdx, if_neg (by omega), if_neg (by omega)]
  rfl

theorem slotAt_eraseIdx_of_le (before : c ≤ a) :
    slotAt (nodes.eraseIdx a) c = slotAt nodes c := by
  cases c with
  | zero => rfl
  | succ k => rw [slotAt, slotAt, getElem?_eraseIdx, if_pos (Nat.lt_of_succ_le before)]

theorem slotAt_eraseIdx_of_gt (behind : a < c) :
    slotAt (nodes.eraseIdx a) c = slotAt nodes (c + 1) := by
  obtain ⟨k, rfl⟩ : ∃ k, c = k + 1 := ⟨c - 1, by omega⟩
  rw [slotAt, slotAt, getElem?_eraseIdx, if_neg (by omega)]

end Places

/-! ## Cursors -/

/-- The places of an iterator: the pointer at `prev` leads to the node `slot`, and
`pos` is the node `index`. -/
structure Cursor where
  slot : Nat
  index : Nat
deriving DecidableEq

namespace Cursor

/-- The last node that the iterator returned is there, or it is gone. -/
def Fits (cursor : Cursor) (n : Nat) : Prop :=
  cursor.index ≤ n ∧ (cursor.index = cursor.slot ∨ cursor.index = cursor.slot + 1)

/-- A new node at an index. -/
def insertAt (a : Nat) (cursor : Cursor) : Cursor :=
  if a ≤ cursor.slot then ⟨cursor.slot + 1, cursor.index + 1⟩ else cursor

/-- The node at an index goes away. -/
def eraseAt (a : Nat) (cursor : Cursor) : Cursor where
  slot := if a < cursor.slot then cursor.slot - 1 else if cursor.index = a then a else cursor.slot
  index := if a < cursor.index then cursor.index - 1 else cursor.index

/-- The iterator comes to the next node. -/
def advance (n : Nat) (cursor : Cursor) : Cursor where
  slot := if cursor.index = cursor.slot then cursor.slot else cursor.slot + 1
  index := if cursor.index < n then cursor.index + 1 else cursor.index

variable {cursor : Cursor} {a n : Nat}

theorem Fits.insertAt (fits : cursor.Fits n) : (cursor.insertAt a).Fits (n + 1) := by
  unfold Fits Cursor.insertAt at *
  split_ifs
  · simp only
    omega
  · omega

theorem Fits.eraseAt (fits : cursor.Fits n) (mem : a < n) :
    (cursor.eraseAt a).Fits (n - 1) := by
  unfold Fits Cursor.eraseAt at *
  simp only
  split_ifs <;> omega

theorem Fits.advance (fits : cursor.Fits n) : (cursor.advance n).Fits n := by
  unfold Fits Cursor.advance at *
  simp only
  split_ifs <;> omega

end Cursor

/-- The iterator is at the places of the cursor. -/
structure Marks (nodes : List A) (cursor : Cursor) (i : ListIterator A I) : Prop where
  fits : cursor.Fits nodes.length
  pos : i.pos = nodes[cursor.index]?
  prev : i.prev = slotAt nodes cursor.slot

theorem Marks.slot_le {nodes : List A} {cursor : Cursor} {i : ListIterator A I}
    (marks : Marks nodes cursor i) : cursor.slot ≤ nodes.length := by
  obtain ⟨bound, same | next⟩ := marks.fits
  · omega
  · omega

section Repair

variable [DecidableEq A] {nodes : List A} {cursor : Cursor} {i : ListIterator A I} {a : Nat} {p : A}

theorem Marks.create (marks : Marks nodes cursor i) (distinct : nodes.Nodup)
    (mem : a ≤ nodes.length) :
    Marks (nodes.insertIdx a p) (cursor.insertAt a)
      (repairCreate (slotAt nodes a) p nodes[a]? i) := by
  have slotLe := marks.slot_le
  obtain ⟨fits, pos, prev⟩ := marks
  have newFits : (cursor.insertAt a).Fits (nodes.insertIdx a p).length := by
    rw [length_insertIdx_of_le_length mem p]
    exact fits.insertAt
  obtain ⟨bound, near⟩ := fits
  have prevIff : i.prev = slotAt nodes a ↔ cursor.slot = a := by
    rw [prev, slotAt_eq_iff distinct slotLe mem]
  have posIff : i.pos = nodes[a]? ↔ cursor.index = a := by
    rw [pos, getElem?_eq_iff distinct bound mem]
  unfold repairCreate
  by_cases atSlot : cursor.slot = a
  · have moved : cursor.insertAt a = ⟨cursor.slot + 1, cursor.index + 1⟩ := if_pos atSlot.ge
    rw [if_pos (prevIff.mpr atSlot)]
    rw [moved] at newFits ⊢
    refine ⟨newFits, ?_, ?_⟩
    · change i.pos = (nodes.insertIdx a p)[cursor.index + 1]?
      rw [getElem?_insertIdx, if_neg (by omega), if_neg (by omega)]
      exact pos
    · rw [atSlot]
      exact (slotAt_insertIdx_self mem).symm
  rw [if_neg (prevIff.not.mpr atSlot)]
  by_cases atPos : cursor.index = a
  · have moved : cursor.insertAt a = cursor := if_neg (by omega)
    rw [if_pos (posIff.mpr atPos)]
    rw [moved] at newFits ⊢
    refine ⟨newFits, ?_, ?_⟩
    · rw [atPos, getElem?_insertIdx, if_neg (Nat.lt_irrefl a), if_pos rfl, if_pos mem]
    · exact prev.trans (slotAt_insertIdx_of_le (by omega)).symm
  rw [if_neg (posIff.not.mpr atPos)]
  rcases Nat.lt_or_ge cursor.slot a with before | behind
  · have moved : cursor.insertAt a = cursor := if_neg (by omega)
    rw [moved] at newFits ⊢
    refine ⟨newFits, ?_, ?_⟩
    · rw [pos, getElem?_insertIdx, if_pos (by omega)]
    · exact prev.trans (slotAt_insertIdx_of_le (by omega)).symm
  · have moved : cursor.insertAt a = ⟨cursor.slot + 1, cursor.index + 1⟩ := if_pos behind
    rw [moved] at newFits ⊢
    refine ⟨newFits, ?_, ?_⟩
    · change i.pos = (nodes.insertIdx a p)[cursor.index + 1]?
      rw [getElem?_insertIdx, if_neg (by omega), if_neg (by omega)]
      exact pos
    · exact prev.trans (slotAt_insertIdx_of_gt (by omega)).symm

theorem Marks.destroy (marks : Marks nodes cursor i) (distinct : nodes.Nodup)
    (here : nodes[a]? = some p) :
    Marks (nodes.eraseIdx a) (cursor.eraseAt a)
      (repairDestroy (slotAt nodes a) p nodes[a + 1]? i) := by
  have slotLe := marks.slot_le
  have mem : a < nodes.length := (List.getElem?_eq_some_iff.mp here).1
  obtain ⟨fits, pos, prev⟩ := marks
  have newFits : (cursor.eraseAt a).Fits (nodes.eraseIdx a).length := by
    rw [List.length_eraseIdx_of_lt mem]
    exact fits.eraseAt mem
  obtain ⟨bound, near⟩ := fits
  have posIff : i.pos = some p ↔ cursor.index = a := by
    rw [pos, ← here, getElem?_eq_iff distinct bound mem.le]
  have prevIff : i.prev = .next p ↔ cursor.slot = a + 1 := by
    rw [prev, ← slotAt_succ here, slotAt_eq_iff distinct slotLe mem]
  unfold repairDestroy
  by_cases atPos : cursor.index = a
  · have moved : cursor.eraseAt a = ⟨a, a⟩ := by
      unfold Cursor.eraseAt
      rw [if_neg (by omega), if_pos atPos, if_neg (by omega), atPos]
    rw [if_pos (posIff.mpr atPos)]
    rw [moved] at newFits ⊢
    refine ⟨newFits, ?_, ?_⟩
    · rw [getElem?_eraseIdx, if_neg (Nat.lt_irrefl a)]
    · exact (slotAt_eraseIdx_of_le le_rfl).symm
  rw [if_neg (posIff.not.mpr atPos)]
  by_cases atSlot : cursor.slot = a + 1
  · have moved : cursor.eraseAt a = ⟨a, cursor.index - 1⟩ := by
      unfold Cursor.eraseAt
      rw [if_pos (by omega), if_pos (by omega), atSlot]
      rfl
    rw [if_pos (prevIff.mpr atSlot)]
    rw [moved] at newFits ⊢
    refine ⟨newFits, ?_, ?_⟩
    · change i.pos = (nodes.eraseIdx a)[cursor.index - 1]?
      rw [getElem?_eraseIdx, if_neg (by omega), Nat.sub_add_cancel (by omega)]
      exact pos
    · exact (slotAt_eraseIdx_of_le le_rfl).symm
  rw [if_neg (prevIff.not.mpr atSlot)]
  rcases Nat.lt_or_ge a cursor.index with behind | before
  · have index : (cursor.eraseAt a).index = cursor.index - 1 := if_pos behind
    refine ⟨newFits, ?_, ?_⟩
    · rw [index, getElem?_eraseIdx, if_neg (by omega), Nat.sub_add_cancel (by omega)]
      exact pos
    · rcases Nat.lt_or_ge a cursor.slot with later | same
      · have slot : (cursor.eraseAt a).slot = cursor.slot - 1 := if_pos later
        rw [slot, slotAt_eraseIdx_of_gt (by omega), Nat.sub_add_cancel (by omega)]
        exact prev
      · have slot : (cursor.eraseAt a).slot = cursor.slot := by
          unfold Cursor.eraseAt
          rw [if_neg (by omega), if_neg atPos]
        rw [slot, slotAt_eraseIdx_of_le same]
        exact prev
  · have moved : cursor.eraseAt a = cursor := by
      unfold Cursor.eraseAt
      rw [if_neg (by omega), if_neg atPos, if_neg (by omega)]
    rw [moved] at newFits ⊢
    refine ⟨newFits, ?_, ?_⟩
    · rw [pos, getElem?_eraseIdx, if_pos (by omega)]
    · rw [slotAt_eraseIdx_of_le (by omega)]
      exact prev

end Repair

/-! ## Memory -/

section Memory

variable [DecidableEq A] {l : XList A I α} {pp s : Slot A} {value : Option A} {p : A}

/-- A pointer that can be read can be written, and nothing else changes. -/
theorem store_spec (readable : (l.load pp).isSome) (value : Option A) :
    ∃ after, l.store pp value = some after ∧
      (∀ s, after.load s = if s = pp then some value else l.load s) ∧
      (∀ p, (after.memory p).isSome = (l.memory p).isSome) ∧
      after.tail = l.tail ∧ after.iNext = l.iNext ∧ after.count = l.count := by
  cases pp with
  | head =>
    refine ⟨{ l with head := value }, rfl, ?_, fun _ => rfl, rfl, rfl, rfl⟩
    intro s
    cases s with
    | head => rfl
    | next q => rfl
  | next p =>
    cases here : l.memory p with
    | none =>
      simp [XList.load, here] at readable
    | some node =>
      refine ⟨{ l with memory := Function.update l.memory p (some { node with next := value }) },
        ?_, ?_, ?_, rfl, rfl, rfl⟩
      · simp [XList.store, here]
      · intro s
        cases s with
        | head => rfl
        | next q =>
          by_cases same : q = p
          · subst same
            simp [XList.load]
          · simp [XList.load, same]
      · intro q
        by_cases same : q = p
        · subst same
          simp [here]
        · simp [same]

theorem load_place (l : XList A I α) (p : A) (node : ListNode A α) (s : Slot A) :
    (l.place p node).load s = if s = .next p then some node.next else l.load s := by
  cases s with
  | head => rfl
  | next q =>
    by_cases same : q = p
    · subst same
      simp [XList.load, XList.place]
    · simp [XList.load, XList.place, same]

theorem load_listNodeFree (l : XList A I α) (other : s ≠ .next p) :
    (l.listNodeFree p).load s = l.load s := by
  cases s with
  | head => rfl
  | next q =>
    have ne : q ≠ p := by
      rintro rfl
      exact other rfl
    simp [XList.load, XList.listNodeFree, ne]

omit [DecidableEq A] in
theorem load_congr {l' : XList A I α} (head : l'.head = l.head) (memory : l'.memory = l.memory)
    (s : Slot A) : l'.load s = l.load s := by
  cases s with
  | head => exact congrArg some head
  | next p => exact congrArg (fun memory => (memory p).map (·.next)) memory

end Memory

/-- The list has these nodes, each linked to the next, and no others. -/
structure Holds (l : XList A I α) (nodes : List A) : Prop where
  distinct : nodes.Nodup
  links : ∀ c ≤ nodes.length, l.load (slotAt nodes c) = some nodes[c]?
  allocated : ∀ p, (l.memory p).isSome ↔ p ∈ nodes
  tail : l.tail = slotAt nodes nodes.length
  count : l.count = Int32.ofNat nodes.length

/-- Every iterator of the list is at its cursor. -/
def AllMark (l : XList A I α) (nodes : List A) (cursor : I → Cursor) : Prop :=
  ∀ i ∈ l.iNext, Marks nodes (cursor i.self) i

theorem asserted_of_marks [DecidableEq A] {l : XList A I α} {nodes : List A} {cursor : Cursor}
    {i : ListIterator A I}
    (links : ∀ c ≤ nodes.length, l.load (slotAt nodes c) = some nodes[c]?)
    (marks : Marks nodes cursor i) : l.asserted i = some i := by
  have slotLe := marks.slot_le
  obtain ⟨⟨bound, near⟩, pos, prev⟩ := marks
  have here := links cursor.slot slotLe
  rw [← prev] at here
  unfold XList.asserted
  rw [here, bind_eq_bind, bind_some]
  by_cases same : i.pos = nodes[cursor.slot]?
  · rw [if_pos same]
  rw [if_neg same]
  rcases near with atSlot | next
  · rw [atSlot] at pos
    exact absurd pos same
  · have mem : cursor.slot < nodes.length := by omega
    have node := getElem?_eq_getElem mem
    have follow := links (cursor.slot + 1) mem
    rw [slotAt_succ node] at follow
    rw [node, bind_eq_bind, bind_some, follow, bind_some, if_pos (next ▸ pos)]

theorem mapM_eq_some {β γ : Type} {f : β → Option γ} {g : β → γ} {list : List β}
    (all : ∀ x ∈ list, f x = some (g x)) : list.mapM f = some (list.map g) := by
  induction list with
  | nil => rfl
  | cons x list ih =>
    rw [mapM_cons, all x mem_cons_self, ih fun y later => all y (mem_cons_of_mem x later)]
    rfl

/-! ## The two changes of a list -/

section Changes

variable [DecidableEq A] {l : XList A I α} {nodes : List A} {cursor : I → Cursor} {a : Nat}

omit [DecidableEq A] in
theorem nodup_insertIdx {p : A} (distinct : nodes.Nodup) (absent : p ∉ nodes)
    (inside : a ≤ nodes.length) : (nodes.insertIdx a p).Nodup := by
  have same := perm_insertIdx p nodes inside
  exact same.nodup_iff.mpr (nodup_cons.mpr ⟨absent, distinct⟩)

theorem links_insertIdx {after : XList A I α} {p : A} (distinct : nodes.Nodup) (absent : p ∉ nodes)
    (mem : a ≤ nodes.length)
    (links : ∀ c ≤ nodes.length, l.load (slotAt nodes c) = some nodes[c]?)
    (written : ∀ s, after.load s = if s = slotAt nodes a then some (some p)
      else if s = .next p then some nodes[a]? else l.load s) :
    ∀ c ≤ (nodes.insertIdx a p).length,
      after.load (slotAt (nodes.insertIdx a p) c) = some (nodes.insertIdx a p)[c]? := by
  intro c bound
  rw [length_insertIdx_of_le_length mem] at bound
  rw [written]
  rcases Nat.lt_trichotomy c a with before | rfl | behind
  · have other : slotAt nodes c ≠ slotAt nodes a := by
      rw [Ne, slotAt_eq_iff distinct (by omega) mem]
      omega
    rw [slotAt_insertIdx_of_le before.le, if_neg other, if_neg (slotAt_ne_next absent),
      getElem?_insertIdx, if_pos before, links c (by omega)]
  · rw [slotAt_insertIdx_of_le le_rfl, if_pos rfl, getElem?_insertIdx,
      if_neg (Nat.lt_irrefl c), if_pos rfl, if_pos mem]
  · obtain ⟨d, rfl⟩ : ∃ d, c = d + 1 := ⟨c - 1, by omega⟩
    have shifted : (nodes.insertIdx a p)[d + 1]? = nodes[d]? := by
      rw [getElem?_insertIdx, if_neg (by omega), if_neg (by omega)]
      rfl
    rw [shifted]
    rcases Nat.lt_or_eq_of_le (Nat.le_of_lt_succ behind) with later | rfl
    · have other : slotAt nodes d ≠ slotAt nodes a := by
        rw [Ne, slotAt_eq_iff distinct (by omega) mem]
        omega
      rw [slotAt_insertIdx_of_gt later, if_neg other, if_neg (slotAt_ne_next absent),
        links d (by omega)]
    · rw [slotAt_insertIdx_self mem, if_neg (slotAt_ne_next absent).symm, if_pos rfl]

omit [DecidableEq A] in
theorem tail_insertIdx {p : A} (inside : a ≤ nodes.length) :
    (if nodes[a]? = none then .next p else slotAt nodes nodes.length) =
      slotAt (nodes.insertIdx a p) (nodes.length + 1) := by
  split_ifs with atEnd
  · have last : a = nodes.length := by
      have := getElem?_eq_none_iff.mp atEnd
      omega
    rw [← last, slotAt_insertIdx_self inside]
  · have before : a < nodes.length := by
      by_contra outside
      exact atEnd (getElem?_eq_none (Nat.not_lt.mp outside))
    rw [slotAt_insertIdx_of_gt before]

variable (cursor) in
theorem mapM_asserted {iters : List (ListIterator A I)}
    {repair : ListIterator A I → ListIterator A I}
    (links : ∀ c ≤ nodes.length, l.load (slotAt nodes c) = some nodes[c]?)
    (moved : ∀ i ∈ iters, Marks nodes (cursor i.self) (repair i)) :
    iters.mapM (fun i => l.asserted (repair i)) = some (iters.map repair) :=
  mapM_eq_some fun i present => asserted_of_marks links (moved i present)

variable (cursor) in
omit [DecidableEq A] in
theorem allMark_map {repair : ListIterator A I → ListIterator A I}
    (self : ∀ i, (repair i).self = i.self)
    (moved : ∀ i ∈ l.iNext, Marks nodes (cursor i.self) (repair i)) :
    ∀ i ∈ l.iNext.map repair, Marks nodes (cursor i.self) i := by
  intro i present
  obtain ⟨j, inside, rfl⟩ := mem_map.mp present
  rw [self]
  exact moved j inside

omit [DecidableEq A] in
theorem map_self_map {repair : ListIterator A I → ListIterator A I}
    (self : ∀ i, (repair i).self = i.self) (iters : List (ListIterator A I)) :
    (iters.map repair).map (·.self) = iters.map (·.self) := by
  rw [map_map]
  exact map_congr_left fun i _ => self i

theorem repairCreate_self (pp : Slot A) (p : A) (next : Option A) (i : ListIterator A I) :
    (repairCreate pp p next i).self = i.self := by
  unfold repairCreate
  split_ifs <;> rfl

theorem repairDestroy_self (pp : Slot A) (p : A) (next : Option A) (i : ListIterator A I) :
    (repairDestroy pp p next i).self = i.self := by
  unfold repairDestroy
  split_ifs <;> rfl

variable {p : A}

/-- A node is created where a pointer was, and the iterators move with the nodes. -/
theorem listNodeCreate_spec (holds : Holds l nodes) (marks : AllMark l nodes cursor)
    (mem : a ≤ nodes.length) (x : α) (unused : l.memory p = none) :
    ∃ after, listNodeCreate l (slotAt nodes a) x p = some after ∧
      Holds after (nodes.insertIdx a p) ∧
      AllMark after (nodes.insertIdx a p) (fun i => (cursor i).insertAt a) ∧
      after.iNext.map (·.self) = l.iNext.map (·.self) := by
  obtain ⟨distinct, links, allocated, tail, count⟩ := holds
  have absent : p ∉ nodes := by
    rw [← allocated, unused]
    exact Bool.false_ne_true
  have length := length_insertIdx_of_le_length mem p
  let placed := l.place p ⟨x, nodes[a]?⟩
  let tailed := if nodes[a]? = none then { placed with tail := .next p } else placed
  have sameRest : tailed.head = placed.head ∧ tailed.memory = placed.memory ∧
      tailed.iNext = l.iNext ∧ tailed.count = l.count ∧
      tailed.tail = if nodes[a]? = none then .next p else l.tail := by
    unfold tailed
    split_ifs <;> exact ⟨rfl, rfl, rfl, rfl, rfl⟩
  obtain ⟨sameHead, samePlaced, sameNext, placedCount, placedTail⟩ := sameRest
  have sameLoad : ∀ s, tailed.load s = placed.load s := load_congr sameHead samePlaced
  have readable : (tailed.load (slotAt nodes a)).isSome := by
    rw [sameLoad, load_place, if_neg (slotAt_ne_next absent), links a mem]
    rfl
  obtain ⟨stored, stores, loads, memory, sameTail, sameIters, sameCount⟩ :=
    store_spec readable (some p)
  let counted := { stored with count := stored.count + 1 }
  have countedLinks : ∀ c ≤ (nodes.insertIdx a p).length,
      counted.load (slotAt (nodes.insertIdx a p) c) = some (nodes.insertIdx a p)[c]? := by
    refine links_insertIdx distinct absent mem links fun s => ?_
    have sameStored : counted.load s = stored.load s := load_congr rfl rfl s
    rw [sameStored, loads, sameLoad, load_place]
  have moved : ∀ i ∈ l.iNext, Marks (nodes.insertIdx a p) ((cursor i.self).insertAt a)
      (repairCreate (slotAt nodes a) p nodes[a]? i) :=
    fun i present => (marks i present).create distinct mem
  have repaired : counted.iNext.mapM (fun i =>
      counted.asserted (repairCreate (slotAt nodes a) p nodes[a]? i)) =
      some (l.iNext.map (repairCreate (slotAt nodes a) p nodes[a]?)) := by
    rw [show counted.iNext = l.iNext from sameIters.trans sameNext]
    exact mapM_asserted (fun i => (cursor i).insertAt a) countedLinks moved
  refine ⟨{ counted with iNext := l.iNext.map (repairCreate (slotAt nodes a) p nodes[a]?) },
    ?_, ⟨nodup_insertIdx distinct absent mem, ?_, ?_, ?_, ?_⟩,
    allMark_map (fun i => (cursor i).insertAt a) (repairCreate_self _ p _) moved,
    map_self_map (repairCreate_self _ p _) l.iNext⟩
  · unfold listNodeCreate
    simp only [links a mem, bind_eq_bind, bind_some]
    rw [stores, bind_some]
    rw [repaired, bind_some]
  · intro c bound
    rw [← countedLinks c bound]
    exact load_congr rfl rfl _
  · intro q
    rw [memory, samePlaced, mem_insertIdx mem, ← allocated]
    by_cases same : q = p
    · subst same
      simp [placed, XList.place]
    · simp [placed, XList.place, same]
  · rw [sameTail, placedTail, tail, length]
    exact tail_insertIdx mem
  · change stored.count + 1 = _
    rw [sameCount, placedCount, count, length, Int32.ofNat_add]
    rfl

theorem links_eraseIdx {after : XList A I α} (distinct : nodes.Nodup) (here : nodes[a]? = some p)
    (links : ∀ c ≤ nodes.length, l.load (slotAt nodes c) = some nodes[c]?)
    (written : ∀ s, after.load s = if s = slotAt nodes a then some nodes[a + 1]? else l.load s) :
    ∀ c ≤ (nodes.eraseIdx a).length,
      after.load (slotAt (nodes.eraseIdx a) c) = some (nodes.eraseIdx a)[c]? := by
  have mem : a < nodes.length := (List.getElem?_eq_some_iff.mp here).1
  intro c bound
  rw [List.length_eraseIdx_of_lt mem] at bound
  rw [written, List.getElem?_eraseIdx]
  rcases Nat.lt_trichotomy c a with before | rfl | behind
  · have other : slotAt nodes c ≠ slotAt nodes a := by
      rw [Ne, slotAt_eq_iff distinct (by omega) mem.le]
      omega
    rw [slotAt_eraseIdx_of_le before.le, if_neg other, if_pos before, links c (by omega)]
  · rw [slotAt_eraseIdx_of_le le_rfl, if_pos rfl, if_neg (Nat.lt_irrefl c)]
  · have other : slotAt nodes (c + 1) ≠ slotAt nodes a := by
      rw [Ne, slotAt_eq_iff distinct (by omega) mem.le]
      omega
    rw [slotAt_eraseIdx_of_gt behind, if_neg other, if_neg (by omega), links (c + 1) (by omega)]

theorem slotAt_eraseIdx_ne {c : Nat} (distinct : nodes.Nodup) (here : nodes[a]? = some p) :
    slotAt (nodes.eraseIdx a) c ≠ .next p := by
  obtain ⟨mem, same⟩ := List.getElem?_eq_some_iff.mp here
  refine slotAt_ne_next ?_
  rw [← distinct.erase_getElem a mem, same]
  exact distinct.not_mem_erase

theorem listNodeDestroy_end (holds : Holds l nodes) :
    listNodeDestroy l (slotAt nodes nodes.length) = some (l, none) := by
  unfold listNodeDestroy
  rw [holds.links _ le_rfl, getElem?_eq_none le_rfl]
  rfl

omit [DecidableEq A] in
theorem tail_eraseIdx (inside : a < nodes.length) :
    (if nodes[a + 1]? = none then slotAt nodes a else slotAt nodes nodes.length) =
      slotAt (nodes.eraseIdx a) (nodes.length - 1) := by
  split_ifs with atEnd
  · have last : a + 1 = nodes.length := by
      have := getElem?_eq_none_iff.mp atEnd
      omega
    rw [← last, Nat.add_sub_cancel, slotAt_eraseIdx_of_le le_rfl]
  · have before : a + 1 < nodes.length := by
      by_contra outside
      exact atEnd (getElem?_eq_none (Nat.not_lt.mp outside))
    rw [slotAt_eraseIdx_of_gt (by omega), Nat.sub_add_cancel (by omega)]

/-- The node that a pointer leads to is destroyed, and the iterators move with the
others. -/
theorem listNodeDestroy_spec (holds : Holds l nodes) (marks : AllMark l nodes cursor)
    (here : nodes[a]? = some p) :
    ∃ after v, listNodeDestroy l (slotAt nodes a) = some (after, some v) ∧
      Holds after (nodes.eraseIdx a) ∧
      AllMark after (nodes.eraseIdx a) (fun i => (cursor i).eraseAt a) ∧
      after.iNext.map (·.self) = l.iNext.map (·.self) := by
  obtain ⟨distinct, links, allocated, tail, count⟩ := holds
  have mem : a < nodes.length := (List.getElem?_eq_some_iff.mp here).1
  have length := List.length_eraseIdx_of_lt mem
  obtain ⟨node, atNode⟩ := Option.isSome_iff_exists.mp
    ((allocated p).mpr (List.mem_of_getElem? here))
  have next : node.next = nodes[a + 1]? := by
    have follow := links (a + 1) mem
    rw [slotAt_succ here, XList.load, atNode] at follow
    exact Option.some.inj follow
  have readable : (l.load (slotAt nodes a)).isSome := by
    rw [links a mem.le]
    rfl
  obtain ⟨stored, stores, loads, memory, sameTail, sameIters, sameCount⟩ :=
    store_spec readable nodes[a + 1]?
  let tailed := if nodes[a + 1]? = none then { stored with tail := slotAt nodes a } else stored
  let counted := { tailed with count := tailed.count - 1 }
  have sameRest : counted.head = stored.head ∧ counted.memory = stored.memory ∧
      counted.iNext = stored.iNext ∧ counted.count = stored.count - 1 ∧
      counted.tail = if nodes[a + 1]? = none then slotAt nodes a else stored.tail := by
    unfold counted tailed
    split_ifs <;> exact ⟨rfl, rfl, rfl, rfl, rfl⟩
  obtain ⟨sameHead, sameMemory, sameNext, storedCount, storedTail⟩ := sameRest
  have countedLinks : ∀ c ≤ (nodes.eraseIdx a).length,
      counted.load (slotAt (nodes.eraseIdx a) c) = some (nodes.eraseIdx a)[c]? := by
    refine links_eraseIdx distinct here links fun s => ?_
    rw [← loads s]
    exact load_congr sameHead sameMemory s
  have moved : ∀ i ∈ l.iNext, Marks (nodes.eraseIdx a) ((cursor i.self).eraseAt a)
      (repairDestroy (slotAt nodes a) p nodes[a + 1]? i) :=
    fun i present => (marks i present).destroy distinct here
  have repaired : counted.iNext.mapM (fun i =>
      counted.asserted (repairDestroy (slotAt nodes a) p nodes[a + 1]? i)) =
      some (l.iNext.map (repairDestroy (slotAt nodes a) p nodes[a + 1]?)) := by
    rw [sameNext.trans sameIters]
    exact mapM_asserted (fun i => (cursor i).eraseAt a) countedLinks moved
  refine ⟨({ counted with
    iNext := l.iNext.map (repairDestroy (slotAt nodes a) p nodes[a + 1]?) }).listNodeFree p,
    node.data, ?_, ⟨distinct.sublist (eraseIdx_sublist _ _), ?_, ?_, ?_, ?_⟩, ?_,
    map_self_map (repairDestroy_self _ p _) l.iNext⟩
  · unfold listNodeDestroy
    simp only [links a mem.le, here, atNode, next, stores, bind_eq_bind, bind_some]
    rw [repaired, bind_some]
  · intro c bound
    rw [load_listNodeFree _ (slotAt_eraseIdx_ne distinct here), ← countedLinks c bound]
    exact load_congr rfl rfl _
  · intro q
    obtain ⟨mem, same⟩ := List.getElem?_eq_some_iff.mp here
    rw [← distinct.erase_getElem a mem, same, distinct.mem_erase_iff, ← allocated, ← memory,
      ← sameMemory]
    by_cases isNode : q = p
    · subst isNode
      simp [XList.listNodeFree]
    · simp [XList.listNodeFree, isNode]
  · rw [storedTail, sameTail, tail, length]
    exact tail_eraseIdx mem
  · rw [storedCount, sameCount, count, length, Int32.ofNat_sub _ _ (by omega)]
    rfl
  · exact allMark_map (fun i => (cursor i).eraseAt a) (repairDestroy_self _ p _) moved

/-- An iterator returns the node it is at and comes to the next one. -/
theorem listNext_spec [DecidableEq I] {place : Cursor} {i : ListIterator A I}
    (holds : Holds l nodes) (marks : Marks nodes place i) :
    listNext l i = some (l.setIterator ⟨i.self, nodes[(place.advance nodes.length).index]?,
      slotAt nodes (place.advance nodes.length).slot⟩, nodes[place.index]?) := by
  have slotLe := marks.slot_le
  obtain ⟨⟨bound, near⟩, pos, prev⟩ := marks
  have here := holds.links place.slot slotLe
  rw [← prev] at here
  have newPos : l.posAfter i = some nodes[(place.advance nodes.length).index]? := by
    unfold XList.posAfter Cursor.advance
    rw [pos]
    rcases Nat.lt_or_eq_of_le bound with mem | atEnd
    · have node := getElem?_eq_getElem mem
      have follow := holds.links (place.index + 1) mem
      rw [slotAt_succ node] at follow
      simp only [node, if_pos mem, follow]
    · simp only [getElem?_eq_none atEnd.ge, if_neg (Nat.not_lt.mpr atEnd.ge)]
  have newPrev : l.prevAfter i = some (slotAt nodes (place.advance nodes.length).slot) := by
    unfold XList.prevAfter Cursor.advance
    rw [here, bind_some, pos, prev]
    simp only [Ne, getElem?_eq_iff holds.distinct slotLe bound]
    rcases near with same | next
    · rw [if_neg (not_not.mpr same.symm), if_pos same]
    · have mem : place.slot < nodes.length := by omega
      have node := getElem?_eq_getElem mem
      rw [if_pos (by omega), if_neg (by omega), slotAt_succ node, node]
      rfl
  unfold listNext
  rw [newPos, newPrev, pos]
  rfl

end Changes

end SlurmSim.Common.Lists
