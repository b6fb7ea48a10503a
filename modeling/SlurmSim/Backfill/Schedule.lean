import Mathlib.Data.Finset.Basic

/-!
# Availability schedules

The meaning of the backfill table: a list of windows that tile a span of time,
read as the set of nodes available at each instant.  The list operations here
are the table's editing steps without the slots.
-/

namespace SlurmSim.Backfill

/-- A half-open span of time with the nodes that are available during it. -/
structure Window where
  beginTime : Nat
  endTime : Nat
  availBitmap : Finset Nat
  deriving DecidableEq

/-- The bitmap of the first window that covers an instant. -/
def availAt (ws : List Window) (time : Nat) : Option (Finset Nat) :=
  (ws.find? fun w => w.beginTime ≤ time ∧ time < w.endTime).map Window.availBitmap

/-- Consecutive windows meet, from `first` to `last`. -/
def Contiguous : Nat → Nat → List Window → Prop
  | first, last, [] => first = last
  | first, last, w :: ws =>
    w.beginTime = first ∧ w.beginTime ≤ w.endTime ∧ Contiguous w.endTime last ws

/-- Every window has positive length. -/
def Positive (ws : List Window) : Prop :=
  ∀ w ∈ ws, w.beginTime < w.endTime

/-- No window has `time` strictly inside. -/
def Aligned (time : Nat) (ws : List Window) : Prop :=
  ∀ w ∈ ws, w.endTime ≤ time ∨ time ≤ w.beginTime

theorem availAt_cons (w : Window) (ws : List Window) (time : Nat) :
    availAt (w :: ws) time =
      if w.beginTime ≤ time ∧ time < w.endTime then some w.availBitmap
      else availAt ws time := by
  unfold availAt
  rw [List.find?_cons]
  by_cases mem : w.beginTime ≤ time ∧ time < w.endTime
  · simp [mem]
  · simp [mem]

variable {ws : List Window} {time first last : Nat}

theorem positive_cons {w : Window} :
    Positive (w :: ws) ↔ w.beginTime < w.endTime ∧ Positive ws := by
  simp [Positive]

theorem aligned_cons {w : Window} :
    Aligned time (w :: ws) ↔ (w.endTime ≤ time ∨ time ≤ w.beginTime) ∧ Aligned time ws := by
  simp [Aligned]

theorem Contiguous.availAt_of_lt (tiles : Contiguous first last ws) (early : time < first) :
    availAt ws time = none := by
  induction ws generalizing first with
  | nil => rfl
  | cons w ws ih =>
    obtain ⟨beginEq, ordered, rest⟩ := tiles
    rw [availAt_cons, if_neg (by omega)]
    exact ih rest (by omega)

theorem Contiguous.first_le (tiles : Contiguous first last ws) : ∀ w ∈ ws, first ≤ w.beginTime := by
  induction ws generalizing first with
  | nil => simp
  | cons w ws ih =>
    obtain ⟨beginEq, ordered, rest⟩ := tiles
    intro v mem
    rcases List.mem_cons.mp mem with rfl | later
    · exact Nat.le_of_eq beginEq.symm
    · have := ih rest v later
      omega

theorem Contiguous.availAt_isSome (tiles : Contiguous first last ws) (lower : first ≤ time)
    (upper : time < last) : (availAt ws time).isSome := by
  induction ws generalizing first with
  | nil =>
    have : first = last := tiles
    omega
  | cons w ws ih =>
    obtain ⟨beginEq, ordered, rest⟩ := tiles
    rw [availAt_cons]
    split
    · rfl
    · exact ih rest (by omega)

/-! ## Splitting -/

/-- Place the end of a reservation: cut the window that holds it. -/
def splitEnd (endReserve : Nat) : List Window → List Window
  | [] => []
  | w :: ws =>
    if endReserve < w.endTime then
      { w with endTime := endReserve } :: { w with beginTime := endReserve } :: ws
    else if endReserve = w.endTime then w :: ws
    else w :: splitEnd endReserve ws

/-- Place the start of a reservation, then its end behind it. -/
def splitStart (startTime endReserve : Nat) : List Window → List Window
  | [] => []
  | w :: ws =>
    if startTime < w.endTime then
      { w with endTime := startTime } ::
        splitEnd endReserve ({ w with beginTime := startTime } :: ws)
    else if w.endTime = startTime then w :: splitEnd endReserve ws
    else w :: splitStart startTime endReserve ws

section SplitEnd

variable {endReserve first last : Nat} {ws : List Window}

theorem splitEnd_contiguous (tiles : Contiguous first last ws)
    (after : first ≤ endReserve) : Contiguous first last (splitEnd endReserve ws) := by
  induction ws generalizing first with
  | nil => exact tiles
  | cons w ws ih =>
    obtain ⟨beginEq, ordered, rest⟩ := tiles
    rw [splitEnd]
    split_ifs with mem meets
    · exact ⟨beginEq, by simp only; omega, rfl, by simp only; omega, rest⟩
    · exact ⟨beginEq, ordered, rest⟩
    · exact ⟨beginEq, ordered, ih rest (by omega)⟩

theorem splitEnd_positive (tiles : Contiguous first last ws) (pos : Positive ws)
    (after : first < endReserve) : Positive (splitEnd endReserve ws) := by
  induction ws generalizing first with
  | nil => exact pos
  | cons w ws ih =>
    obtain ⟨beginEq, ordered, rest⟩ := tiles
    obtain ⟨here, later⟩ := positive_cons.mp pos
    rw [splitEnd]
    split_ifs with mem meets
    · refine positive_cons.mpr ⟨by simp only; omega, positive_cons.mpr ⟨mem, later⟩⟩
    · exact pos
    · exact positive_cons.mpr ⟨here, ih rest later (by omega)⟩

theorem splitEnd_aligned (tiles : Contiguous first last ws) :
    Aligned endReserve (splitEnd endReserve ws) := by
  induction ws generalizing first with
  | nil => simp [splitEnd, Aligned]
  | cons w ws ih =>
    obtain ⟨beginEq, ordered, rest⟩ := tiles
    have behind : endReserve ≤ w.endTime → Aligned endReserve ws := by
      intro reached v member
      have := rest.first_le v member
      omega
    rw [splitEnd]
    split_ifs with mem meets
    · exact aligned_cons.mpr ⟨Or.inl le_rfl,
        aligned_cons.mpr ⟨Or.inr le_rfl, behind (Nat.le_of_lt mem)⟩⟩
    · exact aligned_cons.mpr ⟨Or.inl (Nat.le_of_eq meets.symm), behind (Nat.le_of_eq meets)⟩
    · exact aligned_cons.mpr ⟨Or.inl (by omega), ih rest⟩

theorem splitEnd_availAt (tiles : Contiguous first last ws) (after : first ≤ endReserve)
    (time : Nat) : availAt (splitEnd endReserve ws) time = availAt ws time := by
  induction ws generalizing first with
  | nil => rfl
  | cons w ws ih =>
    obtain ⟨beginEq, ordered, rest⟩ := tiles
    rw [splitEnd]
    split_ifs with mem meets
    · simp only [availAt_cons]
      by_cases early : time < endReserve
      · by_cases started : w.beginTime ≤ time
        · rw [if_pos ⟨started, early⟩, if_pos ⟨started, by omega⟩]
        · rw [if_neg (by omega), if_neg (by omega), if_neg (by omega)]
      · rw [if_neg (by omega)]
        by_cases late : time < w.endTime
        · rw [if_pos ⟨by omega, late⟩, if_pos ⟨by omega, late⟩]
        · rw [if_neg (by omega), if_neg (by omega)]
    · rfl
    · rw [availAt_cons, availAt_cons, ih rest (by omega)]

end SplitEnd

section SplitStart

variable {startTime endReserve first last : Nat} {ws : List Window}

theorem splitStart_contiguous (tiles : Contiguous first last ws)
    (clamped : first ≤ startTime) (nonempty : startTime < endReserve) :
    Contiguous first last (splitStart startTime endReserve ws) := by
  induction ws generalizing first with
  | nil => exact tiles
  | cons w ws ih =>
    obtain ⟨beginEq, ordered, rest⟩ := tiles
    rw [splitStart]
    split_ifs with mem meets
    · refine ⟨beginEq, by simp only; omega, splitEnd_contiguous ?_ (Nat.le_of_lt nonempty)⟩
      exact ⟨rfl, Nat.le_of_lt mem, rest⟩
    · exact ⟨beginEq, ordered, splitEnd_contiguous rest (by omega)⟩
    · exact ⟨beginEq, ordered, ih rest (by omega)⟩

theorem splitStart_positive (tiles : Contiguous first last ws) (pos : Positive ws)
    (later : first < startTime) (nonempty : startTime < endReserve) :
    Positive (splitStart startTime endReserve ws) := by
  induction ws generalizing first with
  | nil => exact pos
  | cons w ws ih =>
    obtain ⟨beginEq, ordered, rest⟩ := tiles
    obtain ⟨here, behind⟩ := positive_cons.mp pos
    rw [splitStart]
    split_ifs with mem meets
    · have tail : Contiguous startTime last ({ w with beginTime := startTime } :: ws) :=
        ⟨rfl, Nat.le_of_lt mem, rest⟩
      refine positive_cons.mpr ⟨by simp only; omega, splitEnd_positive tail ?_ nonempty⟩
      exact positive_cons.mpr ⟨mem, behind⟩
    · exact positive_cons.mpr ⟨here, splitEnd_positive rest behind (by omega)⟩
    · exact positive_cons.mpr ⟨here, ih rest behind (by omega)⟩

/-- After the split neither the start nor the end lies strictly inside a window. -/
theorem splitStart_aligned (tiles : Contiguous first last ws) (clamped : first ≤ startTime)
    (nonempty : startTime < endReserve) :
    Aligned startTime (splitStart startTime endReserve ws) ∧
      Aligned endReserve (splitStart startTime endReserve ws) := by
  induction ws generalizing first with
  | nil => exact ⟨by simp [splitStart, Aligned], by simp [splitStart, Aligned]⟩
  | cons w ws ih =>
    obtain ⟨beginEq, ordered, rest⟩ := tiles
    have behind : ∀ {vs : List Window} {from_ : Nat}, Contiguous from_ last vs →
        startTime ≤ from_ → Aligned startTime vs := by
      intro vs from_ tail reached v member
      have := tail.first_le v member
      omega
    rw [splitStart]
    split_ifs with mem meets
    · have tail : Contiguous startTime last ({ w with beginTime := startTime } :: ws) :=
        ⟨rfl, Nat.le_of_lt mem, rest⟩
      have cut := splitEnd_contiguous tail (Nat.le_of_lt nonempty)
      exact ⟨aligned_cons.mpr ⟨Or.inl le_rfl, behind cut le_rfl⟩,
        aligned_cons.mpr ⟨Or.inl (Nat.le_of_lt nonempty), splitEnd_aligned tail⟩⟩
    · have cut := splitEnd_contiguous rest (show w.endTime ≤ endReserve by omega)
      exact ⟨aligned_cons.mpr ⟨Or.inl (Nat.le_of_eq meets), behind cut (Nat.le_of_eq meets.symm)⟩,
        aligned_cons.mpr ⟨Or.inl (by omega), splitEnd_aligned rest⟩⟩
    · obtain ⟨atStart, atEnd⟩ := ih rest (by omega)
      exact ⟨aligned_cons.mpr ⟨Or.inl (by omega), atStart⟩,
        aligned_cons.mpr ⟨Or.inl (by omega), atEnd⟩⟩

theorem splitStart_availAt (tiles : Contiguous first last ws) (clamped : first ≤ startTime)
    (nonempty : startTime < endReserve) (time : Nat) :
    availAt (splitStart startTime endReserve ws) time = availAt ws time := by
  induction ws generalizing first with
  | nil => rfl
  | cons w ws ih =>
    obtain ⟨beginEq, ordered, rest⟩ := tiles
    rw [splitStart]
    split_ifs with mem meets
    · have tail : Contiguous startTime last ({ w with beginTime := startTime } :: ws) :=
        ⟨rfl, Nat.le_of_lt mem, rest⟩
      rw [availAt_cons, splitEnd_availAt tail (Nat.le_of_lt nonempty), availAt_cons, availAt_cons]
      simp only
      by_cases early : time < startTime
      · by_cases started : w.beginTime ≤ time
        · rw [if_pos ⟨started, early⟩, if_pos ⟨started, by omega⟩]
        · rw [if_neg (by omega), if_neg (by omega), if_neg (by omega)]
      · rw [if_neg (by omega)]
        by_cases late : time < w.endTime
        · rw [if_pos ⟨by omega, late⟩, if_pos ⟨by omega, late⟩]
        · rw [if_neg (by omega), if_neg (by omega)]
    · rw [availAt_cons, availAt_cons, splitEnd_availAt rest (by omega)]
    · rw [availAt_cons, availAt_cons, ih rest (by omega)]

theorem splitStart_at_first {w : Window} (tiles : Contiguous first last (w :: ws))
    (pos : Positive (w :: ws)) (nonempty : first < endReserve) :
    ∃ v vs, splitStart first endReserve (w :: ws) = { w with endTime := first } :: v :: vs ∧
      v.beginTime = first ∧ v.endTime ≤ endReserve ∧
      v.availBitmap = w.availBitmap ∧ Positive (v :: vs) := by
  obtain ⟨beginEq, ordered, rest⟩ := tiles
  obtain ⟨here, behind⟩ := positive_cons.mp pos
  have mem : first < w.endTime := by omega
  have tail : Contiguous first last ({ w with beginTime := first } :: ws) :=
    ⟨rfl, Nat.le_of_lt mem, rest⟩
  have cut := splitEnd_positive tail (positive_cons.mpr ⟨mem, behind⟩) nonempty
  rw [splitStart, if_pos mem]
  rw [splitEnd] at cut ⊢
  split_ifs at cut ⊢ with before meets
  · exact ⟨_, _, rfl, rfl, le_rfl, rfl, cut⟩
  · exact ⟨_, _, rfl, rfl, Nat.le_of_eq meets.symm, rfl, cut⟩
  · exact ⟨_, _, rfl, rfl, Nat.le_of_not_lt before, rfl, cut⟩

end SplitStart

/-! ## Removing nodes -/

/-- Intersect with `resBitmap` the windows inside the interval. -/
def reserve (startTime endReserve : Nat) (resBitmap : Finset Nat) :
    List Window → List Window
  | [] => []
  | w :: ws =>
    (if startTime ≤ w.beginTime ∧ w.endTime ≤ endReserve then
      { w with availBitmap := w.availBitmap ∩ resBitmap } else w) ::
      if endReserve ≤ w.beginTime then ws
      else reserve startTime endReserve resBitmap ws

section Reserve

variable {startTime endReserve first last : Nat} {resBitmap : Finset Nat} {ws : List Window}

theorem reserve_contiguous (tiles : Contiguous first last ws) :
    Contiguous first last (reserve startTime endReserve resBitmap ws) := by
  induction ws generalizing first with
  | nil => exact tiles
  | cons w ws ih =>
    obtain ⟨beginEq, ordered, rest⟩ := tiles
    rw [reserve]
    split_ifs
    · exact ⟨beginEq, ordered, rest⟩
    · exact ⟨beginEq, ordered, ih rest⟩
    · exact ⟨beginEq, ordered, rest⟩
    · exact ⟨beginEq, ordered, ih rest⟩

theorem reserve_positive (pos : Positive ws) :
    Positive (reserve startTime endReserve resBitmap ws) := by
  induction ws with
  | nil => exact pos
  | cons w ws ih =>
    obtain ⟨here, behind⟩ := positive_cons.mp pos
    rw [reserve]
    split_ifs
    · exact positive_cons.mpr ⟨here, behind⟩
    · exact positive_cons.mpr ⟨here, ih behind⟩
    · exact positive_cons.mpr ⟨here, behind⟩
    · exact positive_cons.mpr ⟨here, ih behind⟩

/-- On aligned windows exactly the instants of the interval lose the nodes. -/
theorem reserve_availAt (tiles : Contiguous first last ws)
    (atStart : Aligned startTime ws) (atEnd : Aligned endReserve ws) (time : Nat) :
    availAt (reserve startTime endReserve resBitmap ws) time =
      if startTime ≤ time ∧ time < endReserve then (availAt ws time).map (· ∩ resBitmap)
      else availAt ws time := by
  induction ws generalizing first with
  | nil => simp [reserve, availAt]
  | cons w ws ih =>
    obtain ⟨beginEq, ordered, rest⟩ := tiles
    obtain ⟨startHere, startBehind⟩ := aligned_cons.mp atStart
    obtain ⟨endHere, endBehind⟩ := aligned_cons.mp atEnd
    have tailEq : availAt (if endReserve ≤ w.beginTime then ws
          else reserve startTime endReserve resBitmap ws) time =
        if startTime ≤ time ∧ time < endReserve then (availAt ws time).map (· ∩ resBitmap)
        else availAt ws time := by
      by_cases past : endReserve ≤ w.beginTime
      · rw [if_pos past]
        by_cases mem : startTime ≤ time ∧ time < endReserve
        · rw [if_pos mem, rest.availAt_of_lt (by omega)]
          rfl
        · rw [if_neg mem]
      · rw [if_neg past]
        exact ih rest startBehind endBehind
    rw [reserve, availAt_cons, availAt_cons, tailEq]
    by_cases covered : startTime ≤ w.beginTime ∧ w.endTime ≤ endReserve
    · rw [if_pos covered]
      by_cases here : w.beginTime ≤ time ∧ time < w.endTime
      · rw [if_pos here, if_pos here, if_pos (by omega)]
        rfl
      · rw [if_neg here, if_neg here]
    · rw [if_neg covered]
      by_cases here : w.beginTime ≤ time ∧ time < w.endTime
      · rw [if_pos here, if_pos here, if_neg (by omega)]
      · rw [if_neg here, if_neg here]

end Reserve

/-! ## Merging -/

/-- Merge the first pair of neighbours with equal bitmaps. -/
def mergeOne : List Window → List Window
  | w :: v :: ws =>
    if w.availBitmap = v.availBitmap then { w with endTime := v.endTime } :: ws
    else w :: mergeOne (v :: ws)
  | ws => ws

section MergeOne

variable {first last : Nat} {ws : List Window}

theorem mergeOne_contiguous (tiles : Contiguous first last ws) :
    Contiguous first last (mergeOne ws) := by
  induction ws using mergeOne.induct generalizing first with
  | case1 w v ws equal =>
    obtain ⟨beginEq, ordered, beginEq', ordered', rest⟩ := tiles
    rw [mergeOne, if_pos equal]
    exact ⟨beginEq, by simp only; omega, rest⟩
  | case2 w v ws ne ih =>
    obtain ⟨beginEq, ordered, rest⟩ := tiles
    rw [mergeOne, if_neg ne]
    exact ⟨beginEq, ordered, ih rest⟩
  | case3 ws short =>
    rw [mergeOne]
    · exact tiles
    · exact short

theorem mergeOne_positive (tiles : Contiguous first last ws) (pos : Positive ws) :
    Positive (mergeOne ws) := by
  induction ws using mergeOne.induct generalizing first with
  | case1 w v ws equal =>
    obtain ⟨beginEq, ordered, beginEq', ordered', rest⟩ := tiles
    obtain ⟨here, behind⟩ := positive_cons.mp pos
    rw [mergeOne, if_pos equal]
    exact positive_cons.mpr ⟨by simp only; omega, (positive_cons.mp behind).2⟩
  | case2 w v ws ne ih =>
    obtain ⟨beginEq, ordered, rest⟩ := tiles
    obtain ⟨here, behind⟩ := positive_cons.mp pos
    rw [mergeOne, if_neg ne]
    exact positive_cons.mpr ⟨here, ih rest behind⟩
  | case3 ws short =>
    rw [mergeOne]
    · exact pos
    · exact short

theorem mergeOne_availAt (tiles : Contiguous first last ws) (time : Nat) :
    availAt (mergeOne ws) time = availAt ws time := by
  induction ws using mergeOne.induct generalizing first with
  | case1 w v ws equal =>
    obtain ⟨beginEq, ordered, beginEq', ordered', rest⟩ := tiles
    rw [mergeOne, if_pos equal, availAt_cons, availAt_cons, availAt_cons]
    simp only
    by_cases early : time < w.endTime
    · by_cases started : w.beginTime ≤ time
      · rw [if_pos ⟨started, by omega⟩, if_pos ⟨started, early⟩]
      · rw [if_neg (by omega), if_neg (by omega), if_neg (by omega)]
    · rw [if_neg (show ¬(w.beginTime ≤ time ∧ time < w.endTime) by omega)]
      by_cases late : time < v.endTime
      · rw [if_pos ⟨by omega, late⟩, if_pos ⟨by omega, late⟩, equal]
      · rw [if_neg (by omega), if_neg (by omega)]
  | case2 w v ws ne ih =>
    obtain ⟨beginEq, ordered, rest⟩ := tiles
    rw [mergeOne, if_neg ne, availAt_cons, availAt_cons, ih rest]
  | case3 ws short =>
    rw [mergeOne]
    exact short

end MergeOne

/-! ## A whole reservation -/

/-- The three passes of a reservation on the list of windows. -/
def reserveWindows (startTime endReserve : Nat) (resBitmap : Finset Nat)
    (ws : List Window) : List Window :=
  mergeOne (reserve startTime endReserve resBitmap (splitStart startTime endReserve ws))

section ReserveWindows

variable {startTime endReserve first last : Nat} {resBitmap : Finset Nat} {ws : List Window}

theorem reserveWindows_contiguous (tiles : Contiguous first last ws)
    (clamped : first ≤ startTime) (nonempty : startTime < endReserve) :
    Contiguous first last (reserveWindows startTime endReserve resBitmap ws) :=
  mergeOne_contiguous (reserve_contiguous (splitStart_contiguous tiles clamped nonempty))

theorem reserveWindows_positive (tiles : Contiguous first last ws) (pos : Positive ws)
    (clamped : first ≤ startTime) (nonempty : startTime < endReserve) :
    Positive (reserveWindows startTime endReserve resBitmap ws) := by
  rcases Nat.lt_or_eq_of_le clamped with later | rfl
  · exact mergeOne_positive (reserve_contiguous (splitStart_contiguous tiles clamped nonempty))
      (reserve_positive (splitStart_positive tiles pos later nonempty))
  · cases ws with
    | nil => simp [reserveWindows, splitStart, reserve, mergeOne, Positive]
    | cons w ws =>
      obtain ⟨v, vs, splitEq, beginEq, endLe, bitmapEq, cut⟩ :=
        splitStart_at_first tiles pos nonempty
      obtain ⟨wBegin, _, _⟩ := tiles
      obtain ⟨here, behind⟩ := positive_cons.mp cut
      have tail : Positive (reserve first endReserve resBitmap vs) := reserve_positive behind
      rw [reserveWindows, splitEq, reserve, if_pos ⟨Nat.le_of_eq wBegin.symm,
        Nat.le_of_lt nonempty⟩, if_neg (by simp only; omega), reserve,
        if_pos ⟨Nat.le_of_eq beginEq.symm, endLe⟩, if_neg (by omega), mergeOne,
        if_pos (by rw [bitmapEq])]
      exact positive_cons.mpr ⟨by simp only; omega, tail⟩

theorem reserveWindows_availAt (tiles : Contiguous first last ws)
    (clamped : first ≤ startTime) (nonempty : startTime < endReserve) (time : Nat) :
    availAt (reserveWindows startTime endReserve resBitmap ws) time =
      if startTime ≤ time ∧ time < endReserve then (availAt ws time).map (· ∩ resBitmap)
      else availAt ws time := by
  have cut := splitStart_contiguous tiles clamped nonempty
  obtain ⟨atStart, atEnd⟩ := splitStart_aligned tiles clamped nonempty
  rw [reserveWindows, mergeOne_availAt (reserve_contiguous cut),
    reserve_availAt cut atStart atEnd, splitStart_availAt tiles clamped nonempty]

end ReserveWindows

end SlurmSim.Backfill
