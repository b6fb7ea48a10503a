import Mathlib.Data.List.Perm.Subperm
import SlurmSim.Common.ListCursors
import SlurmSim.Lib.Chain

/-!
# Runs of a list with iterators

Elements come and go while any number of iterators move along the list.  Every node
gets a name of its own when it is created, so that the history of an iterator can
say which elements it has returned.
-/

namespace SlurmSim.Common.Lists

open SlurmSim.Lib
open List (filter_congr filter_filter getElem?_eq_getElem length_map mem_map nodup_nil
  not_mem_nil)
open Function (update update_of_ne update_self)
open Option (bind_eq_bind bind_some isNone_iff_eq_none some.inj)

variable {A I α : Type}

/-! ## Histories -/

/-- The elements of the list when the iterator was created, the elements it has
returned until it first returned `NULL`, and whether it has. -/
structure History where
  created : List Nat
  returned : List Nat
  ended : Bool

/-- What a call of `list_next` returns. -/
def History.next (h : History) (element : Option Nat) : History :=
  if h.ended then h
  else match element with
    | some e => { h with returned := h.returned ++ [e] }
    | none => { h with ended := true }

/-- The elements that were there when the iterator was created and still are. -/
def History.stays (h : History) (now : List Nat) : List Nat :=
  h.created.filter (· ∈ now)

/-- What the iterator returned of the elements that stay is, in the order of the list,
the first part of them; all of them once it has returned `NULL`. -/
structure History.Delivers (h : History) (now : List Nat) : Prop where
  order : h.stays now = now.filter (· ∈ h.created)
  soFar : h.returned.filter (· ∈ h.stays now) <+: h.stays now
  all : h.ended = true → h.returned.filter (· ∈ h.stays now) = h.stays now

/-- The elements in front of the place of an iterator, or all when it has ended. -/
def History.passed (h : History) (now : List Nat) (index : Nat) : List Nat :=
  if h.ended then now else now.take index

/-- The invariant of a history, with the place of its iterator and the number of names
given so far. -/
structure History.Tracks (h : History) (now : List Nat) (index used : Nat) : Prop where
  createdOld : ∀ e ∈ h.created, e < used
  returnedOld : ∀ e ∈ h.returned, e < used
  order : h.created.filter (· ∈ now) = now.filter (· ∈ h.created)
  passes : h.returned.filter (fun e => e ∈ h.created ∧ e ∈ now) =
    (h.passed now index).filter (· ∈ h.created)

theorem filter_insertIdx {p : Nat → Bool} {e : Nat} (rejected : p e = false) (list : List Nat)
    (a : Nat) : (list.insertIdx a e).filter p = list.filter p := by
  induction list generalizing a with
  | nil =>
    cases a with
    | zero => simp [rejected]
    | succ a => rfl
  | cons x list ih =>
    cases a with
    | zero => simp [rejected]
    | succ a =>
      rw [List.insertIdx_succ_cons, List.filter_cons, List.filter_cons, ih a]

theorem take_succ_insertIdx {e : Nat} {a index : Nat} (before : a ≤ index) (list : List Nat) :
    (list.insertIdx a e).take (index + 1) = (list.take index).insertIdx a e := by
  induction list generalizing a index with
  | nil =>
    cases a with
    | zero => simp
    | succ a => simp
  | cons x list ih =>
    cases a with
    | zero => simp
    | succ a =>
      obtain ⟨k, rfl⟩ : ∃ k, index = k + 1 := ⟨index - 1, by omega⟩
      rw [List.insertIdx_succ_cons, List.take_succ_cons, List.take_succ_cons,
        List.insertIdx_succ_cons, ih (by omega)]

namespace History.Tracks

variable {h : History} {now : List Nat} {cursor : Cursor} {used a : Nat}

theorem delivers {index : Nat} (tracks : h.Tracks now index used) : h.Delivers now := by
  obtain ⟨-, -, order, passes⟩ := tracks
  have stays : h.returned.filter (· ∈ h.stays now) =
      h.returned.filter (fun e => e ∈ h.created ∧ e ∈ now) := by
    simp [History.stays]
  refine ⟨order, ?_, ?_⟩
  · rw [stays, passes, History.stays, order, History.passed]
    split_ifs
    · exact List.prefix_rfl
    · exact (List.take_prefix _ _).filter _
  · intro ended
    rw [stays, passes, History.stays, order, History.passed, if_pos ended]

theorem insert (tracks : h.Tracks now cursor.index used) (fits : cursor.Fits now.length)
    (mem : a ≤ now.length) :
    h.Tracks (now.insertIdx a used) (cursor.insertAt a).index (used + 1) := by
  obtain ⟨createdOld, returnedOld, order, passes⟩ := tracks
  obtain ⟨bound, near⟩ := fits
  have newCreated : used ∉ h.created := fun old => Nat.lt_irrefl _ (createdOld used old)
  have rejected : decide (used ∈ h.created) = false := decide_eq_false newCreated
  have sameMember : ∀ e ∈ h.created, (e ∈ now.insertIdx a used ↔ e ∈ now) := by
    intro e old
    have different : e ≠ used := (createdOld e old).ne
    rw [List.mem_insertIdx mem, or_iff_right different]
  refine ⟨fun e old => Nat.lt_succ_of_lt (createdOld e old),
    fun e old => Nat.lt_succ_of_lt (returnedOld e old), ?_, ?_⟩
  · rw [filter_insertIdx rejected, ← order]
    exact filter_congr fun e old => decide_eq_decide.mpr (sameMember e old)
  · have sameReturned : h.returned.filter (fun e => e ∈ h.created ∧ e ∈ now.insertIdx a used) =
        h.returned.filter (fun e => e ∈ h.created ∧ e ∈ now) :=
      filter_congr fun e _ => decide_eq_decide.mpr (and_congr_right (sameMember e))
    rw [sameReturned, passes]
    unfold History.passed Cursor.insertAt
    split_ifs with ended before
    · exact (filter_insertIdx rejected _ _).symm
    · rw [take_succ_insertIdx (by omega), filter_insertIdx rejected]
    · rw [List.take_insertIdx_eq_take_of_le _ _ _ _ (by omega)]

theorem eraseIdx_eq_filter {e : Nat} (distinct : now.Nodup) (here : now[a]? = some e) :
    now.eraseIdx a = now.filter (· ≠ e) := by
  obtain ⟨mem, same⟩ := List.getElem?_eq_some_iff.mp here
  rw [← distinct.erase_getElem a mem, same, distinct.erase_eq_filter]
  simp [bne, beq_eq_decide]

theorem take_eraseIdx {e : Nat} (distinct : now.Nodup) (here : now[a]? = some e) (index : Nat) :
    (now.eraseIdx a).take (if a < index then index - 1 else index) =
      (now.take index).filter (· ≠ e) := by
  split_ifs with before
  · have mem : (now.take index)[a]? = some e := by
      rw [List.getElem?_take, if_pos before, here]
    rw [← eraseIdx_eq_filter (distinct.sublist (List.take_sublist _ _)) mem]
    refine List.ext_getElem? fun k => ?_
    simp only [List.getElem?_take, List.getElem?_eraseIdx]
    split_ifs <;> first | rfl | omega
  · rw [List.take_eraseIdx_eq_take_of_le _ _ _ (by omega)]
    refine (List.filter_eq_self.mpr fun x member => decide_eq_true ?_).symm
    rintro rfl
    obtain ⟨k, mem, same⟩ := List.getElem_of_mem member
    rw [List.getElem_take] at same
    rw [List.length_take] at mem
    have index : k = a := by
      refine (List.getElem?_inj (by omega) distinct).mp ?_
      rw [here, getElem?_eq_getElem (by omega), same]
    omega

theorem erase {e : Nat} (tracks : h.Tracks now cursor.index used) (distinct : now.Nodup)
    (here : now[a]? = some e) : h.Tracks (now.eraseIdx a) (cursor.eraseAt a).index used := by
  obtain ⟨createdOld, returnedOld, order, passes⟩ := tracks
  have left := eraseIdx_eq_filter distinct here
  have mem : ∀ x, x ∈ now.eraseIdx a ↔ x ∈ now ∧ x ≠ e := by
    intro x
    rw [left, List.mem_filter, decide_eq_true_iff]
  refine ⟨createdOld, returnedOld, ?_, ?_⟩
  · have first : h.created.filter (· ∈ now.eraseIdx a) =
        (h.created.filter (· ∈ now)).filter (· ≠ e) := by
      simp [mem, and_comm]
    rw [first, order, left, filter_filter, filter_filter]
    exact filter_congr fun x _ => Bool.and_comm _ _
  · have first : h.returned.filter (fun x => x ∈ h.created ∧ x ∈ now.eraseIdx a) =
        (h.returned.filter (fun x => x ∈ h.created ∧ x ∈ now)).filter (· ≠ e) := by
      rw [filter_filter]
      refine filter_congr fun x _ => ?_
      simp only [mem, ← Bool.decide_and]
      exact decide_eq_decide.mpr ⟨fun all => ⟨all.2.2, all.1, all.2.1⟩,
        fun all => ⟨all.2.1, all.2.2, all.1⟩⟩
    have second : h.passed (now.eraseIdx a) (cursor.eraseAt a).index =
        (h.passed now cursor.index).filter (· ≠ e) := by
      unfold History.passed
      split_ifs
      · exact left
      · exact take_eraseIdx distinct here cursor.index
    rw [first, passes, second, filter_filter, filter_filter]
    exact filter_congr fun x _ => Bool.and_comm _ _

theorem next (tracks : h.Tracks now cursor.index used) (fits : cursor.Fits now.length)
    (old : ∀ e ∈ now, e < used) :
    (h.next now[cursor.index]?).Tracks now (cursor.advance now.length).index used := by
  obtain ⟨createdOld, returnedOld, order, passes⟩ := tracks
  unfold History.next Cursor.advance
  by_cases ended : h.ended = true
  · rw [if_pos ended]
    unfold History.passed at passes
    rw [if_pos ended] at passes
    refine ⟨createdOld, returnedOld, order, ?_⟩
    rw [History.passed, if_pos ended]
    exact passes
  rw [if_neg ended]
  unfold History.passed at passes
  rw [if_neg ended] at passes
  by_cases mem : cursor.index < now.length
  · have here := getElem?_eq_getElem mem
    simp only [here, if_pos mem]
    have present := List.getElem_mem mem
    refine ⟨createdOld, ?_, order, ?_⟩
    · intro e member
      rcases List.mem_append.mp member with before | last
      · exact returnedOld e before
      · rw [List.mem_singleton.mp last]
        exact old _ present
    · rw [History.passed, if_neg ended, ← List.take_append_getElem mem, List.filter_append,
        List.filter_append, ← passes]
      congr 1
      refine filter_congr fun e member => ?_
      rw [List.mem_singleton] at member
      simp [member]
  · have atEnd : cursor.index = now.length := by
      have bound := fits.1
      omega
    simp only [List.getElem?_eq_none (Nat.not_lt.mp mem), if_neg mem]
    refine ⟨createdOld, returnedOld, order, ?_⟩
    rw [History.passed, if_pos rfl, passes, atEnd, List.take_length]

end History.Tracks

/-! ## Worlds -/

/-- A list, the names of its nodes, the number of names given so far, and the
histories of the iterators. -/
structure World (A I α : Type) where
  list : XList A I α
  names : A → Nat
  used : Nat
  history : I → History

/-- A call of the list module.  New nodes come with the block they are put in. -/
inductive Event (A I α : Type) where
  | append (x : α) (p : A)
  | prepend (x : α) (p : A)
  | push (x : α) (p : A)
  | pop
  | insert (i : I) (x : α) (p : A)
  | remove (i : I)
  | deleteAll (f : α → Bool)
  | flush
  | next (i : I)
  | iteratorCreate (i : I)
  | iteratorDestroy (i : I)

namespace World

/-- The iterators of the list. -/
def iterators (w : World A I α) : List I :=
  w.list.iNext.map (·.self)

/-- The names of the nodes along the links. -/
def elements (w : World A I α) : List Nat :=
  (walk (fun p => (w.list.memory p).bind (·.next)) w.used w.list.head).map w.names

/-- A new node has been put into the list. -/
def named [DecidableEq A] (w : World A I α) (list : XList A I α) (p : A) : World A I α :=
  { w with
    list := list
    names := update w.names p w.used
    used := w.used + 1 }

end World

/-- New nodes are put into blocks that are not in use, and calls are made with
iterators of the list. -/
def Enabled (w : World A I α) : Event A I α → Prop
  | .append _ p => w.list.memory p = none
  | .prepend _ p => w.list.memory p = none
  | .push _ p => w.list.memory p = none
  | .pop => True
  | .insert i _ p => i ∈ w.iterators ∧ w.list.memory p = none
  | .remove i => i ∈ w.iterators
  | .deleteAll _ => True
  | .flush => True
  | .next i => i ∈ w.iterators
  | .iteratorCreate i => i ∉ w.iterators
  | .iteratorDestroy i => i ∈ w.iterators

section Steps

variable [DecidableEq A] [DecidableEq I]

/-- One call. It has no result when it reads memory that is not allocated or an assertion
fails. -/
def step (w : World A I α) : Event A I α → Option (World A I α)
  | .append x p => (listAppend w.list x p).map (w.named · p)
  | .prepend x p => (listPrepend w.list x p).map (w.named · p)
  | .push x p => (listPush w.list x p).map (w.named · p)
  | .pop => (listPop w.list).map fun (list, _) => { w with list := list }
  | .insert i x p => do
      let it ← w.list.iterator i
      (listInsert w.list it x p).map (w.named · p)
  | .remove i => do
      let it ← w.list.iterator i
      (listRemove w.list it).map fun (list, _) => { w with list := list }
  | .deleteAll f => (listDeleteAll (w.used + 1) w.list f).map fun (list, _) =>
    { w with list := list }
  | .flush => (listFlush (w.used + 1) w.list).map fun (list, _) => { w with list := list }
  | .next i => do
      let it ← w.list.iterator i
      (listNext w.list it).map fun (list, p) => { w with
        list := list
        history := update w.history i ((w.history i).next (p.map w.names)) }
  | .iteratorCreate i => some { w with
      list := listIteratorCreate w.list i
      history := update w.history i ⟨w.elements, [], false⟩ }
  | .iteratorDestroy i => some { w with list := listIteratorDestroy w.list i }

/-- The worlds that a new list comes to. -/
inductive Reachable : World A I α → Prop where
  | start (names : A → Nat) (used : Nat) (history : I → History) :
      Reachable ⟨listCreate, names, used, history⟩
  | step {w after : World A I α} {event : Event A I α} (reached : Reachable w)
      (enabled : Enabled w event) (taken : step w event = some after) : Reachable after

end Steps

/-! ## The invariant -/

/-- The list has the nodes, its iterators are at their cursors, and their histories
agree with these places. -/
structure Sound (w : World A I α) (nodes : List A) (cursor : I → Cursor) : Prop where
  holds : Holds w.list nodes
  marks : AllMark w.list nodes cursor
  selves : w.iterators.Nodup
  distinct : (nodes.map w.names).Nodup
  old : ∀ p ∈ nodes, w.names p < w.used
  tracks : ∀ i ∈ w.iterators,
    (w.history i).Tracks (nodes.map w.names) (cursor i).index w.used

/-- Some entries go away, one after the other, and the cursors with them. -/
inductive Erases {β : Type} : List β → (I → Cursor) → List β → (I → Cursor) → Prop
  | refl (entries : List β) (cursor : I → Cursor) : Erases entries cursor entries cursor
  | erase {entries entries' : List β} {cursor cursor' : I → Cursor} {a : Nat}
      (inside : a < entries.length)
      (rest : Erases (entries.eraseIdx a) (fun i => (cursor i).eraseAt a) entries' cursor') :
      Erases entries cursor entries' cursor'

theorem Erases.map {β γ : Type} (f : β → γ) {entries entries' : List β}
    {cursor cursor' : I → Cursor} (erases : Erases entries cursor entries' cursor') :
    Erases (entries.map f) cursor (entries'.map f) cursor' := by
  induction erases with
  | refl entries cursor => exact .refl _ _
  | erase mem _ ih =>
    rw [← List.eraseIdx_map] at ih
    exact .erase (by rwa [length_map]) ih

/-- One element with a new name came in, or some elements went away, and the cursors moved
with them. -/
inductive Rearranged (now : List Nat) (used : Nat) (cursor : I → Cursor) :
    List Nat → Nat → (I → Cursor) → Prop
  | inserted {a : Nat} (inside : a ≤ now.length) :
      Rearranged now used cursor (now.insertIdx a used) (used + 1) fun i => (cursor i).insertAt a
  | erased {now' : List Nat} {cursor' : I → Cursor} (erases : Erases now cursor now' cursor') :
      Rearranged now used cursor now' used cursor'

namespace Sound

variable {w : World A I α} {nodes : List A} {cursor : I → Cursor} {a : Nat}

theorem start (names : A → Nat) (used : Nat) (history : I → History) :
    Sound (⟨listCreate, names, used, history⟩ : World A I α) [] fun _ => ⟨0, 0⟩ := by
  refine ⟨⟨nodup_nil, ?_, ?_, rfl, rfl⟩, ?_, nodup_nil, nodup_nil, ?_, ?_⟩
  · intro c bound
    obtain rfl : c = 0 := Nat.le_zero.mp bound
    rfl
  · simp [listCreate]
  · exact fun i impossible => absurd impossible not_mem_nil
  · exact fun p impossible => absurd impossible not_mem_nil
  · exact fun i impossible => absurd impossible not_mem_nil

theorem fits (sound : Sound w nodes cursor) {i : I} (present : i ∈ w.iterators) :
    (cursor i).Fits (nodes.map w.names).length := by
  obtain ⟨it, mem, rfl⟩ := mem_map.mp present
  rw [length_map]
  exact (sound.marks it mem).fits

theorem length_le (sound : Sound w nodes cursor) : nodes.length ≤ w.used := by
  have mem : nodes.map w.names ⊆ List.range w.used := by
    intro e member
    obtain ⟨p, present, rfl⟩ := mem_map.mp member
    exact List.mem_range.mpr (sound.old p present)
  have bound := (List.subperm_of_subset sound.distinct mem).length_le
  rwa [length_map, List.length_range] at bound

theorem chain (sound : Sound w nodes cursor) :
    Chain (fun p => (w.list.memory p).bind (·.next)) w.list.head nodes := by
  have fromIndex : ∀ behind c, nodes.drop c = behind →
      Chain (fun p => (w.list.memory p).bind (·.next)) nodes[c]? behind := by
    intro behind
    induction behind with
    | nil =>
      intro c ends
      rw [List.getElem?_eq_none (List.drop_eq_nil_iff.mp ends)]
      exact .nil
    | cons p behind ih =>
      intro c starts
      have here : nodes[c]? = some p := by
        rw [← List.head?_drop, starts]
        rfl
      have mem : c < nodes.length := (List.getElem?_eq_some_iff.mp here).1
      have link := sound.holds.links (c + 1) mem
      rw [slotAt_succ here] at link
      obtain ⟨node, atNode, next⟩ := Option.map_eq_some_iff.mp link
      have rest : nodes.drop (c + 1) = behind := by
        rw [← List.tail_drop, starts]
        rfl
      rw [here]
      refine .cons ?_
      rw [atNode, bind_some, next]
      exact ih (c + 1) rest
  have first : w.list.head = nodes[0]? :=
    some.inj (sound.holds.links 0 (Nat.zero_le _))
  rw [first]
  exact fromIndex nodes 0 rfl

theorem elements_eq (sound : Sound w nodes cursor) : w.elements = nodes.map w.names := by
  rw [World.elements, sound.chain.walk_eq sound.length_le]

section Operations

variable [DecidableEq A]

theorem create (sound : Sound w nodes cursor) (mem : a ≤ nodes.length) (x : α) {p : A}
    (unused : w.list.memory p = none) :
    ∃ after, listNodeCreate w.list (slotAt nodes a) x p = some after ∧
      (Sound (w.named after p) (nodes.insertIdx a p) fun i => (cursor i).insertAt a) ∧
      (nodes.insertIdx a p).map (w.named after p).names =
        (nodes.map w.names).insertIdx a w.used := by
  obtain ⟨after, created, holds, marks, selves⟩ :=
    listNodeCreate_spec sound.holds sound.marks mem x unused
  have absent : p ∉ nodes := by
    rw [← sound.holds.allocated, unused]
    exact Bool.false_ne_true
  have sameNames : ∀ q ∈ nodes, (w.named after p).names q = w.names q := by
    intro q present
    refine update_of_ne ?_ _ _
    rintro rfl
    exact absent present
  have names : (nodes.insertIdx a p).map (w.named after p).names =
      (nodes.map w.names).insertIdx a w.used := by
    rw [List.map_insertIdx, List.map_congr_left sameNames]
    congr 1
    exact update_self ..
  have insideNames : a ≤ (nodes.map w.names).length := by rwa [length_map]
  have newName : w.used ∉ nodes.map w.names := by
    intro member
    obtain ⟨q, present, same⟩ := mem_map.mp member
    exact (sound.old q present).ne same
  have sameIterators : (w.named after p).iterators = w.iterators := selves
  refine ⟨after, created, ⟨holds, marks, ?_, ?_, ?_, ?_⟩, names⟩
  · rw [sameIterators]
    exact sound.selves
  · rw [names]
    exact nodup_insertIdx sound.distinct newName insideNames
  · intro q present
    rcases (List.mem_insertIdx mem).mp present with rfl | other
    · change update w.names q w.used q < w.used + 1
      rw [update_self]
      exact Nat.lt_succ_self _
    · rw [sameNames q other]
      exact Nat.lt_succ_of_lt (sound.old q other)
  · intro i present
    rw [sameIterators] at present
    rw [names]
    exact (sound.tracks i present).insert (sound.fits present) insideNames

theorem destroy (sound : Sound w nodes cursor) (inside : a < nodes.length) :
    ∃ after v, listNodeDestroy w.list (slotAt nodes a) = some (after, some v) ∧
      Sound { w with list := after } (nodes.eraseIdx a) fun i => (cursor i).eraseAt a := by
  have here := getElem?_eq_getElem inside
  obtain ⟨after, v, destroyed, holds, marks, selves⟩ :=
    listNodeDestroy_spec sound.holds sound.marks here
  have name : (nodes.map w.names)[a]? = some (w.names nodes[a]) := by
    rw [List.getElem?_map, here]
    rfl
  have left : (nodes.eraseIdx a).map w.names = (nodes.map w.names).eraseIdx a :=
    (List.eraseIdx_map ..).symm
  have sameIterators : World.iterators { w with list := after } = w.iterators := selves
  refine ⟨after, v, destroyed, holds, marks, ?_, ?_, ?_, ?_⟩
  · rw [sameIterators]
    exact sound.selves
  · exact sound.distinct.sublist ((List.eraseIdx_sublist _ _).map _)
  · exact fun q present => sound.old q ((List.eraseIdx_sublist _ _).mem present)
  · intro i present
    rw [sameIterators] at present
    simp only [left]
    exact (sound.tracks i present).erase sound.distinct name

theorem destroyAt (sound : Sound w nodes cursor) (mem : a ≤ nodes.length) :
    ∃ after v nodes' cursor', listNodeDestroy w.list (slotAt nodes a) = some (after, v) ∧
      Sound { w with list := after } nodes' cursor' ∧ Erases nodes cursor nodes' cursor' := by
  rcases Nat.lt_or_eq_of_le mem with before | rfl
  · obtain ⟨after, v, destroyed, soundAfter⟩ := sound.destroy before
    exact ⟨after, some v, _, _, destroyed, soundAfter, .erase before (.refl _ _)⟩
  · exact ⟨w.list, none, nodes, cursor, listNodeDestroy_end sound.holds, sound, .refl _ _⟩

/-- The loop over the list from a pointer on, with as many turns as there are nodes. -/
theorem deleteLoop (f : α → Bool) (turns : Nat) (sound : Sound w nodes cursor)
    (mem : a ≤ nodes.length) (enough : nodes.length - a < turns) (n : Nat) :
    ∃ after deleted nodes' cursor',
      Lists.deleteLoop f turns w.list (slotAt nodes a) n = some (after, deleted) ∧
      Sound { w with list := after } nodes' cursor' ∧ Erases nodes cursor nodes' cursor' := by
  induction turns generalizing w nodes cursor a n with
  | zero => exact absurd enough (Nat.not_lt_zero _)
  | succ turns ih =>
    rw [Lists.deleteLoop, sound.holds.links a mem]
    rcases Nat.lt_or_eq_of_le mem with before | rfl
    · have here := getElem?_eq_getElem before
      obtain ⟨node, atNode⟩ := Option.isSome_iff_exists.mp
        ((sound.holds.allocated _).mpr (List.getElem_mem before))
      rw [here]
      simp only [bind_eq_bind, bind_some, atNode]
      split_ifs with chosen
      · obtain ⟨after, v, destroyed, soundAfter⟩ := sound.destroy before
        have length := List.length_eraseIdx_of_lt before
        obtain ⟨last, deleted, nodes', cursor', done, soundLast, erases⟩ :=
          @ih { w with list := after } _ _ a soundAfter (by omega) (by omega) (n + 1)
        rw [slotAt_eraseIdx_of_le le_rfl] at done
        refine ⟨last, deleted, nodes', cursor', ?_, soundLast, .erase before erases⟩
        rw [destroyed, bind_some]
        exact done
      · obtain ⟨last, deleted, nodes', cursor', done, soundLast, erases⟩ :=
          @ih w nodes cursor (a + 1) sound before (by omega) n
        rw [slotAt_succ here] at done
        exact ⟨last, deleted, nodes', cursor', done, soundLast, erases⟩
    · rw [List.getElem?_eq_none le_rfl]
      exact ⟨w.list, n, nodes, cursor, rfl, sound, .refl _ _⟩

theorem flushLoop (turns : Nat) (sound : Sound w nodes cursor) (enough : nodes.length < turns)
    (n : Nat) : ∃ after deleted nodes' cursor',
      Lists.flushLoop turns w.list n = some (after, deleted) ∧
      Sound { w with list := after } nodes' cursor' ∧ Erases nodes cursor nodes' cursor' := by
  induction turns generalizing w nodes cursor n with
  | zero => exact absurd enough (Nat.not_lt_zero _)
  | succ turns ih =>
    have first := sound.holds.links 0 (Nat.zero_le _)
    rw [slotAt] at first
    rw [Lists.flushLoop, first]
    rcases Nat.eq_zero_or_pos nodes.length with empty | before
    · rw [List.getElem?_eq_none empty.le]
      exact ⟨w.list, n, nodes, cursor, rfl, sound, .refl _ _⟩
    · obtain ⟨after, v, destroyed, soundAfter⟩ := sound.destroy before
      have length := List.length_eraseIdx_of_lt before
      obtain ⟨last, deleted, nodes', cursor', done, soundLast, erases⟩ :=
        @ih { w with list := after } _ _ soundAfter (by omega) (n + 1)
      rw [slotAt] at destroyed
      refine ⟨last, deleted, nodes', cursor', ?_, soundLast, .erase before erases⟩
      rw [getElem?_eq_getElem before]
      simp only [bind_eq_bind, bind_some, destroyed]
      exact done

end Operations

section Iterators

variable [DecidableEq I]

theorem iterator (sound : Sound w nodes cursor) {i : I} (present : i ∈ w.iterators) :
    ∃ it, w.list.iterator i = some it ∧ it.self = i ∧ it ∈ w.list.iNext ∧
      Marks nodes (cursor i) it := by
  obtain ⟨known, mem, same⟩ := mem_map.mp present
  have found : (w.list.iNext.find? (·.self = i)).isSome :=
    List.find?_isSome.mpr ⟨known, mem, decide_eq_true same⟩
  obtain ⟨it, isIt⟩ := Option.isSome_iff_exists.mp found
  have self : it.self = i := by
    simpa using List.find?_some isIt
  have member := List.mem_of_find?_eq_some isIt
  refine ⟨it, isIt, self, member, ?_⟩
  have marks := sound.marks it member
  rwa [self] at marks

theorem iteratorDestroy (sound : Sound w nodes cursor) (i : I) :
    Sound { w with list := listIteratorDestroy w.list i } nodes cursor := by
  have fewer : (listIteratorDestroy w.list i).iNext.Sublist w.list.iNext :=
    List.eraseP_sublist
  have iterators : (World.iterators { w with list := listIteratorDestroy w.list i }).Sublist
      w.iterators := fewer.map _
  obtain ⟨⟨distinctNodes, links, allocated, tail, count⟩, marks, selves, distinct, old, tracks⟩ := sound
  refine ⟨⟨distinctNodes, ?_, allocated, tail, count⟩, ?_, selves.sublist iterators, distinct, old, ?_⟩
  · intro c bound
    rw [← links c bound]
    cases slotAt nodes c <;> rfl
  · exact fun it inside => marks it (fewer.mem inside)
  · exact fun other inside => tracks other (iterators.mem inside)

theorem iteratorCreate (sound : Sound w nodes cursor) {i : I} (absent : i ∉ w.iterators) :
    Sound { w with
      list := listIteratorCreate w.list i
      history := update w.history i ⟨w.elements, [], false⟩ } nodes
      (update cursor i ⟨0, 0⟩) := by
  have elements := sound.elements_eq
  have other : ∀ j ∈ w.iterators, j ≠ i := by
    rintro j present rfl
    exact absent present
  have first : w.list.head = nodes[0]? :=
    some.inj (sound.holds.links 0 (Nat.zero_le _))
  obtain ⟨⟨distinctNodes, links, allocated, tail, count⟩, marks, selves, distinct, old, tracks⟩ := sound
  refine ⟨⟨distinctNodes, ?_, allocated, tail, count⟩, ?_, List.nodup_cons.mpr ⟨absent, selves⟩,
    distinct, old, ?_⟩
  · intro c bound
    rw [← links c bound]
    cases slotAt nodes c <;> rfl
  · intro it mem
    rcases List.mem_cons.mp mem with rfl | older
    · rw [update_self]
      exact ⟨⟨Nat.zero_le _, Or.inl rfl⟩, first, rfl⟩
    · rw [update_of_ne (other _ (List.mem_map_of_mem older))]
      exact marks it older
  · intro j present
    rcases List.mem_cons.mp present with rfl | older
    · simp only [update_self, elements]
      refine ⟨?_, fun e impossible => absurd impossible not_mem_nil, ?_, ?_⟩
      · intro e member
        obtain ⟨p, here, rfl⟩ := mem_map.mp member
        exact old p here
      · rfl
      · rfl
    · simp only [update_of_ne (other j older)]
      exact tracks j older

variable [DecidableEq A]

theorem next (sound : Sound w nodes cursor) {i : I} (present : i ∈ w.iterators)
    {it : ListIterator A I} (self : it.self = i) (marks : Marks nodes (cursor i) it) :
    ∃ after p, listNext w.list it = some (after, p) ∧ Sound { w with
      list := after
      history := update w.history i ((w.history i).next (p.map w.names)) } nodes
      (update cursor i ((cursor i).advance nodes.length)) := by
  have fits := sound.fits present
  have tracked := (sound.tracks i present).next fits fun e member => by
    obtain ⟨p, here, rfl⟩ := mem_map.mp member
    exact sound.old p here
  rw [length_map] at fits tracked
  obtain ⟨⟨distinctNodes, links, allocated, tail, count⟩, allMark, selves, distinct, old, tracks⟩ :=
    id sound
  let moved : ListIterator A I := ⟨it.self, nodes[((cursor i).advance nodes.length).index]?,
    slotAt nodes ((cursor i).advance nodes.length).slot⟩
  have sameSelves : (w.list.setIterator moved).iNext.map (·.self) = w.iterators := by
    change (w.list.iNext.map _).map _ = _
    rw [List.map_map]
    refine List.map_congr_left fun other _ => ?_
    simp only [Function.comp_apply]
    split_ifs with same
    · exact same.symm
    · rfl
  refine ⟨_, _, listNext_spec sound.holds marks, ⟨distinctNodes, ?_, allocated, tail, count⟩, ?_,
    ?_, distinct, old, ?_⟩
  · intro c bound
    rw [← links c bound]
    cases slotAt nodes c <;> rfl
  · intro other mem
    obtain ⟨before, member, rfl⟩ := mem_map.mp mem
    split_ifs with same
    · rw [self, update_self]
      exact ⟨fits.advance, rfl, rfl⟩
    · rw [self] at same
      rw [update_of_ne same]
      exact allMark before member
  · exact Eq.mpr (congrArg List.Nodup sameSelves) selves
  · intro j mem
    have known : j ∈ w.iterators := Eq.mp (congrArg (j ∈ ·) sameSelves) mem
    by_cases same : j = i
    · subst same
      simp only [update_self]
      rw [List.getElem?_map] at tracked
      exact tracked
    · simp only [update_of_ne same]
      exact tracks j known

/-- Every call but those that move or create an iterator puts an element into the list or
takes some out of it. -/
theorem rearrange (sound : Sound w nodes cursor) {event : Event A I α} (enabled : Enabled w event)
    (plain : ∀ i, event ≠ .next i ∧ event ≠ .iteratorCreate i) :
    ∃ after nodes' cursor', Lists.step w event = some after ∧ Sound after nodes' cursor' ∧
      Rearranged (nodes.map w.names) w.used cursor (nodes'.map after.names) after.used cursor' := by
  have first : slotAt nodes 0 = .head := rfl
  have inserted {after : XList A I α} {a : Nat} {p : A} (mem : a ≤ nodes.length)
      (names : (nodes.insertIdx a p).map (w.named after p).names =
        (nodes.map w.names).insertIdx a w.used) :
      Rearranged (nodes.map w.names) w.used cursor
        ((nodes.insertIdx a p).map (w.named after p).names) (w.used + 1)
        fun i => (cursor i).insertAt a := by
    rw [names]
    exact .inserted (by rwa [length_map])
  cases event with
  | append x p =>
    obtain ⟨after, created, soundAfter, names⟩ := sound.create le_rfl x enabled
    rw [← sound.holds.tail] at created
    exact ⟨_, _, _, congrArg (Option.map (w.named · p)) created, soundAfter, inserted le_rfl names⟩
  | prepend x p =>
    obtain ⟨after, created, soundAfter, names⟩ := sound.create (Nat.zero_le _) x enabled
    exact ⟨_, _, _, congrArg (Option.map (w.named · p)) created, soundAfter,
      inserted (Nat.zero_le _) names⟩
  | push x p =>
    obtain ⟨after, created, soundAfter, names⟩ := sound.create (Nat.zero_le _) x enabled
    exact ⟨_, _, _, congrArg (Option.map (w.named · p)) created, soundAfter,
      inserted (Nat.zero_le _) names⟩
  | pop =>
    obtain ⟨after, v, nodes', cursor', destroyed, soundAfter, erases⟩ :=
      sound.destroyAt (Nat.zero_le _)
    refine ⟨_, nodes', cursor', ?_, soundAfter, .erased (erases.map w.names)⟩
    rw [Lists.step, listPop, ← first, destroyed]
    rfl
  | insert i x p =>
    obtain ⟨present, unused⟩ := enabled
    obtain ⟨it, found, -, -, marks⟩ := sound.iterator present
    obtain ⟨after, created, soundAfter, names⟩ := sound.create marks.slot_le x unused
    refine ⟨_, _, _, ?_, soundAfter, inserted marks.slot_le names⟩
    rw [Lists.step, found, bind_eq_bind, bind_some, listInsert, marks.prev, created]
    rfl
  | remove i =>
    obtain ⟨it, found, -, -, marks⟩ := sound.iterator enabled
    rw [Lists.step, found, bind_eq_bind, bind_some, listRemove, marks.prev,
      sound.holds.links _ marks.slot_le, bind_eq_bind, bind_some]
    split_ifs
    · obtain ⟨after, v, nodes', cursor', destroyed, soundAfter, erases⟩ :=
        sound.destroyAt marks.slot_le
      refine ⟨_, nodes', cursor', ?_, soundAfter, .erased (erases.map w.names)⟩
      rw [destroyed]
      rfl
    · exact ⟨w, nodes, cursor, rfl, sound, .erased (.refl _ _)⟩
  | deleteAll f =>
    obtain ⟨after, deleted, nodes', cursor', done, soundAfter, erases⟩ :=
      sound.deleteLoop f (w.used + 1) (Nat.zero_le _) (Nat.lt_succ_of_le sound.length_le) 0
    refine ⟨_, nodes', cursor', ?_, soundAfter, .erased (erases.map w.names)⟩
    rw [Lists.step, listDeleteAll, ← first, done]
    rfl
  | flush =>
    obtain ⟨after, deleted, nodes', cursor', done, soundAfter, erases⟩ :=
      sound.flushLoop (w.used + 1) (Nat.lt_succ_of_le sound.length_le) 0
    refine ⟨_, nodes', cursor', ?_, soundAfter, .erased (erases.map w.names)⟩
    rw [Lists.step, listFlush, done]
    rfl
  | next i => exact absurd rfl (plain i).1
  | iteratorCreate i => exact absurd rfl (plain i).2
  | iteratorDestroy i =>
    exact ⟨_, nodes, cursor, rfl, sound.iteratorDestroy i, .erased (.refl _ _)⟩

theorem step (sound : Sound w nodes cursor) {event : Event A I α} (enabled : Enabled w event) :
    ∃ after nodes' cursor', Lists.step w event = some after ∧ Sound after nodes' cursor' := by
  have other (plain : ∀ i, event ≠ .next i ∧ event ≠ .iteratorCreate i) :
      ∃ after nodes' cursor', Lists.step w event = some after ∧ Sound after nodes' cursor' := by
    obtain ⟨after, nodes', cursor', stepped, soundAfter, -⟩ := sound.rearrange enabled plain
    exact ⟨after, nodes', cursor', stepped, soundAfter⟩
  cases event with
  | next i =>
    obtain ⟨it, found, self, -, marks⟩ := sound.iterator enabled
    obtain ⟨after, p, moved, soundAfter⟩ := sound.next enabled self marks
    refine ⟨_, nodes, _, ?_, soundAfter⟩
    rw [Lists.step, found, bind_eq_bind, bind_some, moved]
    rfl
  | iteratorCreate i => exact ⟨_, nodes, _, rfl, sound.iteratorCreate enabled⟩
  | append | prepend | push | pop | insert | remove | deleteAll | flush | iteratorDestroy =>
    exact other fun i => ⟨nofun, nofun⟩

end Iterators

end Sound

/-! ## Every run -/

section Runs

variable [DecidableEq A] [DecidableEq I]

theorem Reachable.sound {w : World A I α} (reached : Reachable w) :
    ∃ nodes cursor, Sound w nodes cursor := by
  induction reached with
  | start names used history => exact ⟨[], _, Sound.start names used history⟩
  | step reached enabled taken ih =>
    obtain ⟨nodes, cursor, sound⟩ := ih
    obtain ⟨after, nodes', cursor', stepped, soundAfter⟩ := sound.step enabled
    rw [taken] at stepped
    cases stepped
    exact ⟨nodes', cursor', soundAfter⟩

/-- The address of the `next` field of the last node, or of `head`. -/
def lastSlot (nodes : List A) : Slot A :=
  (nodes.getLast?).elim .head .next

omit [DecidableEq A] in
theorem slotAt_length (nodes : List A) : slotAt nodes nodes.length = lastSlot nodes := by
  cases length : nodes.length with
  | zero =>
    rw [List.eq_nil_of_length_eq_zero length]
    rfl
  | succ k => rw [slotAt, lastSlot, List.getLast?_eq_getElem?, length, Nat.add_sub_cancel]

/-- In every world that a list comes to: following the links gives its nodes, which it
counts, with the pointer to the end behind the last; every iterator meets the assertion and
has returned, of the elements that were there when it was created and stay, each once and in
order; and no call reads memory that is gone or fails an assertion. -/
theorem list_iterators (w : World A I α) (reached : Reachable w) :
    ∃ nodes, Chain (fun p => (w.list.memory p).bind (·.next)) w.list.head nodes ∧
      w.list.count = Int32.ofNat nodes.length ∧ w.list.tail = lastSlot nodes ∧
      (∀ it ∈ w.list.iNext, w.list.asserted it = some it ∧
        (w.history it.self).Delivers (nodes.map w.names)) ∧
      ∀ event, Enabled w event → ∃ after, step w event = some after := by
  obtain ⟨nodes, cursor, sound⟩ := reached.sound
  refine ⟨nodes, sound.chain, sound.holds.count, ?_, ?_, ?_⟩
  · rw [sound.holds.tail, slotAt_length]
  · intro it present
    refine ⟨asserted_of_marks sound.holds.links (sound.marks it present), ?_⟩
    exact (sound.tracks it.self (List.mem_map_of_mem present)).delivers
  · intro event enabled
    obtain ⟨after, -, -, stepped, -⟩ := sound.step enabled
    exact ⟨after, stepped⟩

instance (w : World A I α) (event : Event A I α) : Decidable (Enabled w event) :=
  match event with
  | .append _ p => decidable_of_iff (w.list.memory p).isNone isNone_iff_eq_none
  | .prepend _ p => decidable_of_iff (w.list.memory p).isNone isNone_iff_eq_none
  | .push _ p => decidable_of_iff (w.list.memory p).isNone isNone_iff_eq_none
  | .pop => .isTrue trivial
  | .insert i _ p => decidable_of_iff (i ∈ w.iterators ∧ (w.list.memory p).isNone)
      (and_congr_right fun _ => isNone_iff_eq_none)
  | .remove i => inferInstanceAs (Decidable (i ∈ w.iterators))
  | .deleteAll _ => .isTrue trivial
  | .flush => .isTrue trivial
  | .next i => inferInstanceAs (Decidable (i ∈ w.iterators))
  | .iteratorCreate i => inferInstanceAs (Decidable (i ∉ w.iterators))
  | .iteratorDestroy i => inferInstanceAs (Decidable (i ∈ w.iterators))

/-- Several calls, one after the other. -/
def run (w : World A I α) : List (Event A I α) → Option (World A I α)
  | [] => some w
  | event :: rest =>
    if Enabled w event then (step w event).bind fun after => run after rest else none

theorem Reachable.run {w after : World A I α} {events : List (Event A I α)}
    (reached : Reachable w) (ran : run w events = some after) : Reachable after := by
  induction events generalizing w with
  | nil => exact some.inj ran ▸ reached
  | cons event rest ih =>
    rw [Lists.run] at ran
    split_ifs at ran with enabled
    obtain ⟨next, taken, ranRest⟩ := Option.bind_eq_some_iff.mp ran
    exact ih (reached.step enabled taken) ranRest

/-- Two iterators over three elements. One deletes the element that both returned last, the
other inserts one in its place, and a fourth element comes to the end. -/
def nested : List (Event Nat Nat Nat) :=
  [.append 10 0, .append 20 1, .append 30 2, .iteratorCreate 0, .iteratorCreate 1, .next 0, .next 1,
    .remove 1, .insert 0 15 0, .next 0, .deleteAll (· = 30), .append 40 2, .next 0, .next 0]

/-- The first iterator returned what stays of the three elements, and then `NULL`. -/
theorem list_iterators_nested :
    ∃ w : World Nat Nat Nat, Reachable w ∧
      ((w.elements, (w.history 0).returned), (w.history 0).created, (w.history 0).ended) =
        (([3, 1, 4], [0, 1]), [0, 1, 2], true) ∧
      ∃ nodes, Chain (fun p => (w.list.memory p).bind (·.next)) w.list.head nodes ∧
        w.list.count = Int32.ofNat nodes.length ∧ w.list.tail = lastSlot nodes ∧
        (∀ it ∈ w.list.iNext, w.list.asserted it = some it ∧
          (w.history it.self).Delivers (nodes.map w.names)) ∧
        ∀ event, Enabled w event → ∃ after, step w event = some after := by
  have ran : (run (⟨listCreate, id, 0, fun _ => ⟨[], [], false⟩⟩ : World Nat Nat Nat) nested).map
      (fun w => ((w.elements, (w.history 0).returned), (w.history 0).created,
        (w.history 0).ended)) = some (([3, 1, 4], [0, 1]), [0, 1, 2], true) := by
    decide +kernel
  obtain ⟨w, ranTo, shown⟩ := Option.map_eq_some_iff.mp ran
  have reached := (Reachable.start id 0 fun _ => ⟨[], [], false⟩).run ranTo
  exact ⟨w, reached, shown, list_iterators w reached⟩

end Runs

end SlurmSim.Common.Lists
