import Mathlib.Algebra.Order.Group.Nat

/-!
# A depth-first search with a bounded number of calls

A search goes through a list of items.  An item may be what is looked for, or it
may have a list of its own, which is searched before the next item.  All the
calls of one search share a counter; a call that finds the counter at the bound
gives up.
-/

namespace SlurmSim.Lib

open List

/-- A chain of lists, each of an item of the one before, that ends at a hit. -/
inductive Leads {ι : Type} (hit : ι → Prop) (below : ι → List ι → Prop) : List ι → Prop where
  | here {list : List ι} {item : ι} (inside : item ∈ list) (found : hit item) :
      Leads hit below list
  | next {list sub : List ι} {item : ι} (inside : item ∈ list) (down : below item sub)
      (more : Leads hit below sub) : Leads hit below list

namespace BoundedSearch

variable {ι : Type} (hit : ι → Bool) (below : ι → Option (List ι)) (bound : Nat)

/-- The loop over one list.  `call` searches the list of an item. -/
def walk (call : List ι → Nat → Option (Bool × Nat)) : List ι → Nat → Option (Bool × Nat)
  | [], counter => some (false, counter)
  | item :: rest, counter =>
    if hit item then some (true, counter)
    else
      match below item with
      | none => walk call rest counter
      | some sub =>
        match call sub counter with
        | none => none
        | some (true, counter) => some (true, counter)
        | some (false, counter) => walk call rest counter

/-- The search, with the depth of the recursion as fuel; `none` if that runs out. -/
def search : Nat → List ι → Nat → Option (Bool × Nat)
  | 0, _, _ => none
  | fuel + 1, list, counter =>
    if bound ≤ counter then some (false, counter + 1)
    else walk hit below (search fuel) list (counter + 1)

variable {hit below bound}

/-! ## The search ends -/

variable {call : List ι → Nat → Option (Bool × Nat)} {list : List ι} {counter last fuel : Nat}

theorem walk_total {low : Nat}
    (total : ∀ list counter, low ≤ counter → ∃ found last, call list counter = some (found, last) ∧ counter ≤ last)
    (list : List ι) (counter : Nat) (above : low ≤ counter) :
    ∃ found last, walk hit below call list counter = some (found, last) ∧ counter ≤ last := by
  induction list generalizing counter with
  | nil => exact ⟨false, counter, rfl, le_rfl⟩
  | cons item rest ih =>
    unfold walk
    cases isHit : hit item with
    | true => exact ⟨true, counter, rfl, le_rfl⟩
    | false =>
      cases down : below item with
      | none => exact ih counter above
      | some sub =>
        obtain ⟨found, last, called, grown⟩ := total sub counter above
        cases found with
        | true => exact ⟨true, last, by simp [called], grown⟩
        | false =>
          obtain ⟨found, final, walked, more⟩ := ih last (above.trans grown)
          exact ⟨found, final, by simpa [called] using walked, grown.trans more⟩

theorem search_total (fuel : Nat) (list : List ι) (counter : Nat)
    (enough : bound < fuel + counter) (pos : 0 < fuel) :
    ∃ found last, search hit below bound fuel list counter = some (found, last) ∧
      counter < last := by
  induction fuel generalizing list counter with
  | zero => exact absurd pos (lt_irrefl 0)
  | succ fuel ih =>
    unfold search
    split_ifs with full
    · exact ⟨false, counter + 1, rfl, Nat.lt_succ_self counter⟩
    · have total : ∀ sub count, counter + 1 ≤ count →
          ∃ found last, search hit below bound fuel sub count = some (found, last) ∧
            count ≤ last := by
        intro sub count later
        obtain ⟨found, last, called, grown⟩ := ih sub count (by omega) (by omega)
        exact ⟨found, last, called, grown.le⟩
      exact walk_total total list (counter + 1) le_rfl

/-! ## What it finds -/

theorem walk_sound
    (sound : ∀ list counter last, call list counter = some (true, last) →
      Leads (hit · = true) (below · = some ·) list)
    (walked : walk hit below call list counter = some (true, last)) :
    Leads (hit · = true) (below · = some ·) list := by
  induction list generalizing counter with
  | nil => simp [walk] at walked
  | cons item rest ih =>
    unfold walk at walked
    have later : Leads (hit · = true) (below · = some ·) rest →
        Leads (hit · = true) (below · = some ·) (item :: rest) := by
      intro leads
      cases leads with
      | here mem found => exact .here (mem_cons_of_mem _ mem) found
      | next mem down more => exact .next (mem_cons_of_mem _ mem) down more
    cases isHit : hit item with
    | true => exact .here mem_cons_self isHit
    | false =>
      cases down : below item with
      | none => exact later (ih (by simpa [isHit, down] using walked))
      | some sub =>
        cases called : call sub counter with
        | none => simp [isHit, down, called] at walked
        | some result =>
          obtain ⟨found, count⟩ := result
          cases found with
          | true => exact .next mem_cons_self down (sound sub counter count called)
          | false => exact later (ih (by simpa [isHit, down, called] using walked))

theorem search_sound (searched : search hit below bound fuel list counter = some (true, last)) :
    Leads (hit · = true) (below · = some ·) list := by
  induction fuel generalizing list counter last with
  | zero => simp [search] at searched
  | succ fuel ih =>
    unfold search at searched
    split_ifs at searched with full
    · simp at searched
    · exact walk_sound (fun _ _ _ => ih) searched

theorem walk_grows
    (grows : ∀ list counter found last, call list counter = some (found, last) → counter ≤ last)
    {found : Bool} (walked : walk hit below call list counter = some (found, last)) :
    counter ≤ last := by
  induction list generalizing counter with
  | nil =>
    have same : false = found ∧ counter = last := by simpa [walk] using walked
    exact same.2.le
  | cons item rest ih =>
    unfold walk at walked
    cases isHit : hit item with
    | true =>
      have same : true = found ∧ counter = last := by simpa [isHit] using walked
      exact same.2.le
    | false =>
      cases down : below item with
      | none => exact ih (by simpa [isHit, down] using walked)
      | some sub =>
        cases called : call sub counter with
        | none => simp [isHit, down, called] at walked
        | some result =>
          obtain ⟨result, count⟩ := result
          have grown := grows sub counter result count called
          cases result with
          | true =>
            have same : true = found ∧ count = last := by
              simpa [isHit, down, called] using walked
            exact same.2 ▸ grown
          | false => exact grown.trans (ih (by simpa [isHit, down, called] using walked))

theorem search_grows {found : Bool}
    (searched : search hit below bound fuel list counter = some (found, last)) :
    counter ≤ last := by
  induction fuel generalizing list counter last found with
  | zero => simp [search] at searched
  | succ fuel ih =>
    unfold search at searched
    split_ifs at searched with full
    · have same : false = found ∧ counter + 1 = last := by simpa using searched
      omega
    · have grown := walk_grows (fun _ _ _ _ => ih) searched
      omega

theorem walk_complete
    (grows : ∀ list counter found last, call list counter = some (found, last) → counter ≤ last)
    (complete : ∀ list counter last, call list counter = some (false, last) → last ≤ bound →
      ¬Leads (hit · = true) (below · = some ·) list)
    (walked : walk hit below call list counter = some (false, last)) (within : last ≤ bound) :
    (∀ item ∈ list, hit item = false) ∧ ∀ item ∈ list, ∀ sub,
      below item = some sub → ¬Leads (hit · = true) (below · = some ·) sub := by
  induction list generalizing counter with
  | nil => exact ⟨by simp, by simp⟩
  | cons item rest ih =>
    unfold walk at walked
    cases isHit : hit item with
    | true => simp [isHit] at walked
    | false =>
      cases down : below item with
      | none =>
        obtain ⟨misses, nothing⟩ := ih (by simpa [isHit, down] using walked)
        refine ⟨forall_mem_cons.mpr ⟨isHit, misses⟩, forall_mem_cons.mpr ⟨?_, nothing⟩⟩
        simp [down]
      | some sub =>
        cases called : call sub counter with
        | none => simp [isHit, down, called] at walked
        | some result =>
          obtain ⟨found, count⟩ := result
          cases found with
          | true => simp [isHit, down, called] at walked
          | false =>
            have onward : walk hit below call rest count = some (false, last) := by
              simpa [isHit, down, called] using walked
            obtain ⟨misses, nothing⟩ := ih onward
            refine ⟨forall_mem_cons.mpr ⟨isHit, misses⟩, forall_mem_cons.mpr ⟨?_, nothing⟩⟩
            intro other isSub
            rw [down, Option.some.injEq] at isSub
            exact isSub ▸ complete sub counter count called ((walk_grows grows onward).trans within)

theorem search_complete (searched : search hit below bound fuel list counter = some (false, last))
    (within : last ≤ bound) : ¬Leads (hit · = true) (below · = some ·) list := by
  induction fuel generalizing list counter last with
  | zero => simp [search] at searched
  | succ fuel ih =>
    unfold search at searched
    split_ifs at searched with full
    · have same : counter + 1 = last := by simpa using searched
      omega
    · obtain ⟨misses, nothing⟩ := walk_complete (fun _ _ _ _ => search_grows)
        (fun _ _ _ => ih) searched within
      intro leads
      cases leads with
      | here mem found => simp [misses _ mem] at found
      | next mem down more => exact nothing _ mem _ down more

end BoundedSearch

end SlurmSim.Lib
