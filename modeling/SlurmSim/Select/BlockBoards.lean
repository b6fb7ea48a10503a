import SlurmSim.Lib.Largest
import SlurmSim.Select.DistTasks

/-!
# The best-fit boards

`_block_sync_core_bitmap` looks at all combinations of as few boards as can hold the
required cores, and takes one whose largest sockets reach them first.
-/

namespace SlurmSim.Select

open SlurmSim.Lib List

/-! ## Reaching a number -/

theorem countUpTo_le {reqCores k : Nat} {counts : List Nat} {count : Nat} (some_ : 1 ≤ k)
    (enough : reqCores ≤ count + (counts.take k).sum) : countUpTo reqCores counts count ≤ k := by
  induction counts generalizing count k with
  | nil => exact some_
  | cons cores rest ih =>
    rw [countUpTo]
    split_ifs with reached
    · exact some_
    · obtain ⟨k, rfl⟩ := Nat.exists_eq_add_of_le' some_
      rw [take_succ_cons, sum_cons] at enough
      rcases Nat.eq_zero_or_pos k with rfl | more
      · exact absurd enough reached
      · exact Nat.succ_le_succ (ih more (by omega))

theorem countUpTo_reaches {reqCores : Nat} {counts : List Nat} {count : Nat} (some_ : counts ≠ [])
    (enough : reqCores ≤ count + counts.sum) :
    countUpTo reqCores counts count ≤ counts.length ∧
      reqCores ≤ count + (counts.take (countUpTo reqCores counts count)).sum := by
  induction counts generalizing count with
  | nil => exact absurd rfl some_
  | cons cores rest ih =>
    rw [sum_cons] at enough
    rw [countUpTo]
    split_ifs with reached
    · exact ⟨Nat.succ_le_succ (Nat.zero_le _), reached⟩
    · have more : rest ≠ [] := by
        rintro rfl
        exact reached enough
      have left : reqCores ≤ count + cores + rest.sum := by omega
      obtain ⟨few, reaches⟩ := ih more left
      rw [take_succ_cons, sum_cons, length_cons]
      exact ⟨Nat.succ_le_succ few, by omega⟩

section Sorted

variable {f : Nat → Nat} {list : List Nat}

theorem sortDescending_map (f : Nat → Nat) (list : List Nat) :
    sortDescending (list.map f) = (list.insertionSort fun i j => f i ≥ f j).map f :=
  (map_insertionSort _ _ f list fun _ _ _ _ => Iff.rfl).symm

theorem pairwise_insertionSort (f : Nat → Nat) (list : List Nat) :
    (list.insertionSort fun i j => f i ≥ f j).Pairwise fun i j => f j ≤ f i := by
  exact List.pairwise_insertionSort (fun i j => f i ≥ f j) list

theorem toFinset_insertionSort (f : Nat → Nat) (list : List Nat) :
    (list.insertionSort fun i j => f i ≥ f j).toFinset = list.toFinset :=
  toFinset_eq_of_perm _ _ (perm_insertionSort _ list)

theorem sum_take_sort (nodup : list.Nodup) (k : Nat) :
    ((sortDescending (list.map f)).take k).sum =
      ∑ i ∈ ((list.insertionSort fun i j => f i ≥ f j).take k).toFinset, f i := by
  have sorted : ((list.insertionSort fun i j => f i ≥ f j).take k).Nodup :=
    ((perm_insertionSort _ list).nodup_iff.mpr nodup).sublist (take_sublist _ _)
  rw [sortDescending_map, ← map_take, sum_toFinset f sorted]

theorem countUpTo_le_card {reqCores : Nat} (nodup : list.Nodup) {places : Finset Nat}
    (mem : places ⊆ list.toFinset) (some_ : places.Nonempty)
    (enough : reqCores ≤ ∑ i ∈ places, f i) :
    countUpTo reqCores (sortDescending (list.map f)) 0 ≤ places.card := by
  refine countUpTo_le (Finset.card_pos.mpr some_) ?_
  rw [Nat.zero_add, sum_take_sort nodup]
  have top := IsTop.take (pairwise_insertionSort f list) places.card
  rw [toFinset_insertionSort] at top
  refine enough.trans (top.sum_le mem ?_)
  have sorted : ((list.insertionSort fun i j => f i ≥ f j).take places.card).Nodup :=
    ((perm_insertionSort _ list).nodup_iff.mpr nodup).sublist (take_sublist _ _)
  have few : places.card ≤ list.length :=
    (Finset.card_le_card mem).trans_eq (toFinset_card_of_nodup nodup)
  rw [toFinset_card_of_nodup sorted, length_take, length_insertionSort, Nat.min_eq_left few]

theorem exists_countUpTo {reqCores : Nat} (nodup : list.Nodup) (some_ : list ≠ [])
    (enough : reqCores ≤ (list.map f).sum) :
    ∃ places ⊆ list.toFinset, places.card = countUpTo reqCores (sortDescending (list.map f)) 0 ∧
      reqCores ≤ ∑ i ∈ places, f i := by
  have perm : (sortDescending (list.map f)).Perm (list.map f) := perm_insertionSort _ _
  have sortedSome : sortDescending (list.map f) ≠ [] := by
    intro none_
    rw [none_] at perm
    exact some_ (map_eq_nil_iff.mp perm.symm.eq_nil)
  have total : reqCores ≤ 0 + (sortDescending (list.map f)).sum := by
    rwa [Nat.zero_add, perm.sum_eq]
  obtain ⟨few, reaches⟩ := countUpTo_reaches sortedSome total
  rw [perm.length_eq, length_map] at few
  rw [Nat.zero_add, sum_take_sort nodup] at reaches
  refine ⟨_, ?_, ?_, reaches⟩
  · rw [← toFinset_insertionSort f list]
    exact (IsTop.take (pairwise_insertionSort f list) _).subset
  · have sorted := ((perm_insertionSort (fun i j => f i ≥ f j) list).nodup_iff.mpr
      nodup).sublist (take_sublist (countUpTo reqCores (sortDescending (list.map f)) 0) _)
    rw [toFinset_card_of_nodup sorted, length_take, length_insertionSort, Nat.min_eq_left few]

end Sorted

/-! ## Combinations -/

theorem genCombs_sound {n k low : Nat} {comb : List Nat} (mem : comb ∈ genCombs n k low) :
    comb.length = k ∧ comb.Nodup ∧ ∀ b ∈ comb, low ≤ b ∧ b < low + n := by
  induction n generalizing k low comb with
  | zero =>
    cases k with
    | zero =>
      rw [genCombs, mem_singleton] at mem
      subst mem
      simp
    | succ k => simp [genCombs] at mem
  | succ n ih =>
    cases k with
    | zero =>
      rw [genCombs, mem_singleton] at mem
      subst mem
      simp
    | succ k =>
      rw [genCombs, mem_append] at mem
      rcases mem with first | others
      · obtain ⟨rest, inRest, rfl⟩ := mem_map.mp first
        obtain ⟨length, nodup, bounds⟩ := ih inRest
        refine ⟨congrArg (· + 1) length, nodup_cons.mpr ⟨fun again => ?_, nodup⟩, ?_⟩
        · have above := (bounds low again).1
          omega
        · intro b member
          rcases mem_cons.mp member with rfl | later
          · omega
          · have bound := bounds b later
            omega
      · obtain ⟨length, nodup, bounds⟩ := ih others
        refine ⟨length, nodup, fun b member => ?_⟩
        have bound := bounds b member
        omega

theorem exists_genCombs {n k low : Nat} {set : Finset Nat} (card : set.card = k)
    (bounds : ∀ b ∈ set, low ≤ b ∧ b < low + n) :
    ∃ comb ∈ genCombs n k low, comb.toFinset = set := by
  induction n generalizing k low set with
  | zero =>
    have empty : set = ∅ := Finset.eq_empty_of_forall_notMem fun b member => by
      have bound := bounds b member
      omega
    subst empty
    subst card
    exact ⟨[], mem_singleton.mpr rfl, rfl⟩
  | succ n ih =>
    cases k with
    | zero =>
      rw [Finset.card_eq_zero.mp card]
      exact ⟨[], mem_singleton.mpr rfl, rfl⟩
    | succ k =>
      by_cases first : low ∈ set
      · have fewer : (set.erase low).card = k := by
          rw [Finset.card_erase_of_mem first, card, Nat.add_sub_cancel]
        have later : ∀ b ∈ set.erase low, low + 1 ≤ b ∧ b < low + 1 + n := by
          intro b member
          obtain ⟨other, inSet⟩ := Finset.mem_erase.mp member
          have bound := bounds b inSet
          omega
        obtain ⟨comb, mem, same⟩ := ih fewer later
        refine ⟨low :: comb, ?_, ?_⟩
        · exact mem_append_left _ (mem_map_of_mem mem)
        · rw [toFinset_cons, same, Finset.insert_erase first]
      · have later : ∀ b ∈ set, low + 1 ≤ b ∧ b < low + 1 + n := by
          intro b member
          have bound := bounds b member
          have other : b ≠ low := fun same => first (same ▸ member)
          omega
        obtain ⟨comb, mem, same⟩ := ih card later
        refine ⟨comb, ?_, same⟩
        exact mem_append_right _ mem

/-! ## Sockets of boards -/

variable {r : NodeRes} {reqCores : Nat} {count : Nat → Nat}

/-- The sockets are spread evenly over at most eight boards. -/
structure Boarded (r : NodeRes) : Prop where
  some_ : 1 ≤ r.boards
  few : r.boards ≤ 8
  even : r.boards ∣ r.sockets
  sockets : 1 ≤ r.sockets

/-- The sockets of some boards. -/
def socketsOn (r : NodeRes) (boards : Finset Nat) : Finset Nat :=
  (Finset.range r.sockets).filter (· / sockPerBrd r ∈ boards)

namespace Boarded

theorem boardsNb_eq (boarded : Boarded r) : boardsNb r = r.boards :=
  if_neg (Nat.not_lt_of_le boarded.few)

theorem sockPerBrd_mul (boarded : Boarded r) : r.boards * sockPerBrd r = r.sockets := by
  have le : boardsNb r ≤ r.sockets := by
    rw [boarded.boardsNb_eq]
    exact Nat.le_of_dvd boarded.sockets boarded.even
  rw [sockPerBrd, if_pos le, boarded.boardsNb_eq]
  exact Nat.mul_div_cancel' boarded.even

theorem sockPerBrd_pos (boarded : Boarded r) : 0 < sockPerBrd r := by
  refine Nat.pos_of_ne_zero fun none_ => ?_
  have sockets := boarded.sockPerBrd_mul
  rw [none_, Nat.mul_zero] at sockets
  exact absurd boarded.sockets (by omega)

variable {boards : List Nat}

theorem mem_boardSockets (boarded : Boarded r) {s : Nat} :
    s ∈ boardSockets r boards ↔ s / sockPerBrd r ∈ boards := by
  have positive := boarded.sockPerBrd_pos
  simp only [boardSockets, mem_flatMap, mem_map, mem_range]
  constructor
  · rintro ⟨b, mem, i, below, rfl⟩
    rw [Nat.mul_comm, Nat.mul_add_div positive, Nat.div_eq_of_lt below, Nat.add_zero]
    exact mem
  · intro mem
    refine ⟨_, mem, s % sockPerBrd r, Nat.mod_lt s positive, ?_⟩
    exact Nat.div_add_mod' s (sockPerBrd r)

theorem toFinset_boardSockets (boarded : Boarded r) (mem : ∀ b ∈ boards, b < r.boards) :
    (boardSockets r boards).toFinset = socketsOn r boards.toFinset := by
  ext s
  rw [mem_toFinset, boarded.mem_boardSockets, socketsOn, Finset.mem_filter, Finset.mem_range,
    mem_toFinset]
  refine ⟨fun member => ⟨?_, member⟩, And.right⟩
  rw [← boarded.sockPerBrd_mul]
  exact (Nat.div_lt_iff_lt_mul boarded.sockPerBrd_pos).mp (mem _ member)

theorem nodup_boardSockets (boarded : Boarded r) (nodup : boards.Nodup) :
    (boardSockets r boards).Nodup := by
  have positive := boarded.sockPerBrd_pos
  refine nodup_flatMap.mpr ⟨fun b _ => ?_, ?_⟩
  · exact List.Nodup.map (fun _ _ same => Nat.add_left_cancel same) nodup_range
  · refine nodup.imp fun {b b'} ne => ?_
    intro s first second
    obtain ⟨i, below, rfl⟩ := mem_map.mp first
    obtain ⟨j, below', same⟩ := mem_map.mp second
    have quotient := congrArg (· / sockPerBrd r) same
    simp only [Nat.mul_comm _ (sockPerBrd r), Nat.mul_add_div positive,
      Nat.div_eq_of_lt (mem_range.mp below), Nat.div_eq_of_lt (mem_range.mp below'),
      Nat.add_zero] at quotient
    exact ne quotient.symm

end Boarded

theorem boardsCoreCnt_eq (r : NodeRes) (count : Nat → Nat) (b : Nat) :
    boardsCoreCnt r count b =
      ∑ s ∈ (Finset.range r.sockets).filter (· / sockPerBrd r = b), count s := by
  have nodup : ((List.range r.sockets).filter (· / sockPerBrd r = b)).Nodup :=
    nodup_range.filter _
  rw [boardsCoreCnt, ← sum_toFinset count nodup]
  congr 1
  ext s
  simp

theorem sum_socketsOn (r : NodeRes) (count : Nat → Nat) (boards : Finset Nat) :
    ∑ s ∈ socketsOn r boards, count s = ∑ b ∈ boards, boardsCoreCnt r count b := by
  have maps : ∀ s ∈ socketsOn r boards, s / sockPerBrd r ∈ boards :=
    fun s mem => (Finset.mem_filter.mp mem).2
  rw [← Finset.sum_fiberwise_of_maps_to maps]
  refine Finset.sum_congr rfl fun b member => ?_
  rw [boardsCoreCnt_eq]
  refine Finset.sum_congr ?_ fun _ _ => rfl
  ext s
  simp only [socketsOn, Finset.mem_filter]
  constructor
  · rintro ⟨⟨mem, _⟩, same⟩
    exact ⟨mem, same⟩
  · rintro ⟨mem, rfl⟩
    exact ⟨⟨mem, member⟩, rfl⟩

/-! ## The best combination -/

/-- The sockets of some boards that reach the required cores. -/
def socketsNeeded (r : NodeRes) (reqCores : Nat) (count : Nat → Nat) (boards : List Nat) : Nat :=
  countUpTo reqCores (sortDescending ((boardSockets r boards).map count)) 0

theorem exists_eligible (boards : 1 ≤ boardsNb r)
    (enough : reqCores ≤ ((List.range (boardsNb r)).map (boardsCoreCnt r count)).sum) :
    ∃ comb ∈ genCombs (boardsNb r) (countUpTo reqCores
      (sortDescending ((List.range (boardsNb r)).map (boardsCoreCnt r count))) 0) 0,
      reqCores ≤ (comb.map (boardsCoreCnt r count)).sum := by
  have some_ : List.range (boardsNb r) ≠ [] := by
    intro none_
    rw [range_eq_nil] at none_
    omega
  obtain ⟨places, mem, card, reaches⟩ := exists_countUpTo nodup_range some_ enough
  have bounds : ∀ b ∈ places, 0 ≤ b ∧ b < 0 + boardsNb r := by
    intro b member
    have below := mem member
    rw [mem_toFinset, mem_range] at below
    omega
  obtain ⟨comb, isComb, same⟩ := exists_genCombs card bounds
  refine ⟨comb, isComb, ?_⟩
  rw [← sum_toFinset _ (genCombs_sound isComb).2.1, same]
  exact reaches

theorem bestSockets_ne_none (boards : 1 ≤ boardsNb r)
    (enough : reqCores ≤ ((List.range (boardsNb r)).map (boardsCoreCnt r count)).sum) :
    bestSockets r reqCores count ≠ none := by
  obtain ⟨comb, isComb, reaches⟩ := exists_eligible boards enough
  unfold bestSockets
  rw [ne_eq, Option.map_eq_none_iff, head?_eq_none_iff]
  intro none_
  exact filter_eq_nil_iff.mp none_ comb isComb (decide_eq_true reaches)

theorem foldl_betterComb (eligible : List (List Nat)) (best : List Nat × Nat × Nat)
    (counted : socketsNeeded r reqCores count best.1 ≤ best.2.1) :
    ((eligible.foldl (betterComb r reqCores count) best).1 = best.1 ∨
        (eligible.foldl (betterComb r reqCores count) best).1 ∈ eligible) ∧
      socketsNeeded r reqCores count (eligible.foldl (betterComb r reqCores count) best).1 ≤
        (eligible.foldl (betterComb r reqCores count) best).2.1 ∧
      (eligible.foldl (betterComb r reqCores count) best).2.1 ≤ best.2.1 ∧
      ∀ boards ∈ eligible, (eligible.foldl (betterComb r reqCores count) best).2.1 ≤
        socketsNeeded r reqCores count boards := by
  induction eligible generalizing best with
  | nil => exact ⟨Or.inl rfl, counted, le_rfl, by simp⟩
  | cons boards rest ih =>
    rw [foldl_cons]
    generalize step : betterComb r reqCores count best boards = next
    have one : (next.1 = best.1 ∨ next.1 = boards) ∧
        socketsNeeded r reqCores count next.1 ≤ next.2.1 ∧ next.2.1 ≤ best.2.1 ∧
        next.2.1 ≤ socketsNeeded r reqCores count boards := by
      rw [← step]
      unfold betterComb
      dsimp only
      rw [← socketsNeeded.eq_def]
      split_ifs with better
      · exact ⟨Or.inr rfl, le_rfl, by dsimp only; omega, le_rfl⟩
      · exact ⟨Or.inl rfl, counted, le_rfl, by omega⟩
    obtain ⟨chosen, countedNext, less, here⟩ := one
    obtain ⟨found, countedLast, lessLast, others⟩ := ih next countedNext
    refine ⟨?_, countedLast, lessLast.trans less, ?_⟩
    · rcases found with same | later
      · rw [same]
        rcases chosen with first | isHere
        · exact Or.inl first
        · exact Or.inr (isHere ▸ mem_cons_self)
      · exact Or.inr (mem_cons_of_mem _ later)
    · exact forall_mem_cons.mpr ⟨lessLast.trans here, others⟩

/-- The sockets that the cores are selected from. -/
structure BestBoards (r : NodeRes) (reqCores : Nat) (count : Nat → Nat) (boards : Finset Nat)
    (sockets : List Nat) : Prop where
  inside : boards ⊆ Finset.range r.boards
  nodup : sockets.Nodup
  toFinset : sockets.toFinset = socketsOn r boards
  enough : reqCores ≤ ∑ s ∈ socketsOn r boards, count s
  fewest : ∀ others ⊆ Finset.range r.boards,
    reqCores ≤ ∑ s ∈ socketsOn r others, count s → boards.card ≤ others.card
  /-- Some of the sockets suffice, and no fewer on as many boards. -/
  least : ∃ places ⊆ socketsOn r boards, reqCores ≤ ∑ s ∈ places, count s ∧
    ∀ others ⊆ Finset.range r.boards, others.card = boards.card →
      ∀ some_ ⊆ socketsOn r others, reqCores ≤ ∑ s ∈ some_, count s → places.card ≤ some_.card

theorem length_boardSockets (r : NodeRes) (boards : List Nat) :
    (boardSockets r boards).length = boards.length * sockPerBrd r := by
  induction boards with
  | nil => rw [length_nil, Nat.zero_mul]; rfl
  | cons b rest ih =>
    rw [boardSockets, flatMap_cons, length_append, ← boardSockets, ih, length_map,
      length_range, length_cons, Nat.succ_mul, Nat.add_comm]

theorem Boarded.socketsOn_range (boarded : Boarded r) :
    socketsOn r (Finset.range r.boards) = Finset.range r.sockets := by
  refine Finset.filter_true_of_mem fun s mem => Finset.mem_range.mpr ?_
  rw [Finset.mem_range, ← boarded.sockPerBrd_mul] at mem
  exact (Nat.div_lt_iff_lt_mul boarded.sockPerBrd_pos).mpr mem

theorem nonempty_of_reaches {places : Finset Nat} {f : Nat → Nat} (pos : 0 < reqCores)
    (reaches : reqCores ≤ ∑ i ∈ places, f i) : places.Nonempty := by
  rw [Finset.nonempty_iff_ne_empty]
  rintro rfl
  rw [Finset.sum_empty] at reaches
  omega

/-- Boards that are compared: as many as are needed, with enough cores on their sockets. -/
structure Eligible (r : NodeRes) (reqCores : Nat) (count : Nat → Nat) (bMin : Nat)
    (boards : List Nat) : Prop where
  nodup : boards.Nodup
  length : boards.length = bMin
  below : ∀ b ∈ boards, b < r.boards
  some_ : boardSockets r boards ≠ []
  reaches : reqCores ≤ ((boardSockets r boards).map count).sum

variable {bMin : Nat} {boards : List Nat}

theorem Boarded.eligible (boarded : Boarded r) (pos : 0 < reqCores)
    (isComb : boards ∈ genCombs (boardsNb r) bMin 0)
    (reaches : reqCores ≤ (boards.map (boardsCoreCnt r count)).sum) :
    Eligible r reqCores count bMin boards := by
  obtain ⟨length, nodup, bounds⟩ := genCombs_sound isComb
  have boardsEq := boarded.boardsNb_eq
  have below : ∀ b ∈ boards, b < r.boards := by
    intro b mem
    have bound := bounds b mem
    omega
  have reachesThere : reqCores ≤ ((boardSockets r boards).map count).sum := by
    rw [← sum_toFinset count (boarded.nodup_boardSockets nodup),
      boarded.toFinset_boardSockets below, sum_socketsOn, sum_toFinset _ nodup]
    exact reaches
  refine ⟨nodup, length, below, ?_, reachesThere⟩
  intro none_
  rw [none_, map_nil, sum_nil] at reachesThere
  omega

namespace Eligible

theorem exists_places (eligible : Eligible r reqCores count bMin boards) (boarded : Boarded r) :
    ∃ places ⊆ socketsOn r boards.toFinset, places.card = socketsNeeded r reqCores count boards ∧
      reqCores ≤ ∑ s ∈ places, count s := by
  rw [← boarded.toFinset_boardSockets eligible.below]
  exact exists_countUpTo (boarded.nodup_boardSockets eligible.nodup) eligible.some_ eligible.reaches

theorem socketsNeeded_le (eligible : Eligible r reqCores count bMin boards)
    (boarded : Boarded r) : socketsNeeded r reqCores count boards ≤ bMin * sockPerBrd r := by
  obtain ⟨places, mem, card, _⟩ := eligible.exists_places boarded
  rw [← boarded.toFinset_boardSockets eligible.below] at mem
  rw [← card, ← eligible.length, ← length_boardSockets]
  exact (Finset.card_le_card mem).trans (toFinset_card_le _)

end Eligible

theorem Boarded.exists_comb (boarded : Boarded r) (pos : 0 < reqCores) {others : Finset Nat}
    (inBoards : others ⊆ Finset.range r.boards) (card : others.card = bMin) {sockets : Finset Nat}
    (onOthers : sockets ⊆ socketsOn r others) (enough : reqCores ≤ ∑ s ∈ sockets, count s) :
    ∃ comb ∈ genCombs (boardsNb r) bMin 0, reqCores ≤ (comb.map (boardsCoreCnt r count)).sum ∧
      socketsNeeded r reqCores count comb ≤ sockets.card := by
  have boardsEq := boarded.boardsNb_eq
  have bounds : ∀ b ∈ others, 0 ≤ b ∧ b < 0 + boardsNb r := by
    intro b mem
    have bound := Finset.mem_range.mp (inBoards mem)
    omega
  obtain ⟨comb, isComb, same⟩ := exists_genCombs card bounds
  have reaches : reqCores ≤ (comb.map (boardsCoreCnt r count)).sum := by
    rw [← sum_toFinset _ (genCombs_sound isComb).2.1, same, ← sum_socketsOn]
    exact enough.trans (Finset.sum_le_sum_of_subset onOthers)
  have eligible := boarded.eligible pos isComb reaches
  have toFinset := boarded.toFinset_boardSockets eligible.below
  rw [same] at toFinset
  exact ⟨comb, isComb, reaches, countUpTo_le_card (boarded.nodup_boardSockets eligible.nodup)
    (toFinset ▸ onOthers) (nonempty_of_reaches pos enough) enough⟩

theorem bestSockets_best (boarded : Boarded r) (pos : 0 < reqCores)
    (enough : reqCores ≤ ∑ s ∈ Finset.range r.sockets, count s) :
    ∃ boards sockets, bestSockets r reqCores count = some sockets ∧
      BestBoards r reqCores count boards sockets := by
  have boardsEq := boarded.boardsNb_eq
  have total : reqCores ≤ ((List.range (boardsNb r)).map (boardsCoreCnt r count)).sum := by
    rw [← sum_toFinset _ nodup_range, toFinset_range, boardsEq, ← sum_socketsOn,
      boarded.socketsOn_range]
    exact enough
  obtain ⟨comb, isComb, combEnough⟩ := exists_eligible (boardsEq.symm ▸ boarded.some_) total
  unfold bestSockets
  dsimp only
  generalize bMinEq : countUpTo reqCores
    (sortDescending ((List.range (boardsNb r)).map (boardsCoreCnt r count))) 0 = bMin at isComb ⊢
  generalize eligibleEq : (genCombs (boardsNb r) bMin 0).filter (fun boards =>
    reqCores ≤ (boards.map (boardsCoreCnt r count)).sum) = eligible
  have isEligible : ∀ boards, boards ∈ eligible ↔ boards ∈ genCombs (boardsNb r) bMin 0 ∧
      reqCores ≤ (boards.map (boardsCoreCnt r count)).sum := by
    intro boards
    rw [← eligibleEq, mem_filter, decide_eq_true_iff]
  have reach : ∀ boards ∈ eligible, Eligible r reqCores count bMin boards := by
    intro boards member
    obtain ⟨isComb, reaches⟩ := (isEligible boards).mp member
    exact boarded.eligible pos isComb reaches
  cases eligible with
  | nil => exact absurd ((isEligible comb).mpr ⟨isComb, combEnough⟩) not_mem_nil
  | cons first rest =>
    obtain ⟨chosen, last, _, least⟩ := foldl_betterComb (first :: rest)
      (first, bMin * sockPerBrd r, bMin * sockPerBrd r * r.cores)
      ((reach first mem_cons_self).socketsNeeded_le boarded)
    rw [head?_cons, Option.map_some]
    generalize List.foldl (betterComb r reqCores count)
      (first, bMin * sockPerBrd r, bMin * sockPerBrd r * r.cores) (first :: rest) = best
      at chosen last least ⊢
    have isBest : best.1 ∈ first :: rest := by
      rcases chosen with same | later
      · rw [same]
        exact mem_cons_self
      · exact later
    have found := reach best.1 isBest
    have toFinset := boarded.toFinset_boardSockets found.below
    have card : best.1.toFinset.card = bMin :=
      (toFinset_card_of_nodup found.nodup).trans found.length
    refine ⟨best.1.toFinset, _, rfl, ?_, boarded.nodup_boardSockets found.nodup, toFinset, ?_, ?_,
      ?_⟩
    · exact fun b member => Finset.mem_range.mpr (found.below b (mem_toFinset.mp member))
    · rw [← toFinset, sum_toFinset count (boarded.nodup_boardSockets found.nodup)]
      exact found.reaches
    · intro others mem enoughThere
      rw [sum_socketsOn] at enoughThere
      rw [card, ← bMinEq]
      refine countUpTo_le_card nodup_range ?_ (nonempty_of_reaches pos enoughThere) enoughThere
      rw [toFinset_range, boardsEq]
      exact mem
    · obtain ⟨places, mem, cardPlaces, reachesPlaces⟩ := found.exists_places boarded
      refine ⟨places, mem, reachesPlaces, ?_⟩
      intro others inBoards cardOthers sockets onOthers enoughThere
      rw [card] at cardOthers
      obtain ⟨comb', isComb', reaches', few⟩ :=
        boarded.exists_comb pos inBoards cardOthers onOthers enoughThere
      calc places.card = socketsNeeded r reqCores count best.1 := cardPlaces
        _ ≤ best.2.1 := last
        _ ≤ socketsNeeded r reqCores count comb' :=
            least comb' ((isEligible comb').mpr ⟨isComb', reaches'⟩)
        _ ≤ sockets.card := few

end SlurmSim.Select
