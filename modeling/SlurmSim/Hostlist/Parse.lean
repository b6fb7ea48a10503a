import SlurmSim.Hostlist.Hostname

/-!
# Reading host lists

The text of a host list is cut into tokens, and every token into the ranges that are pushed
onto the list, in this order.
-/

namespace SlurmSim.Hostlist

open List
open Option (bind_eq_some_iff map_eq_some_iff some.inj)

/-! ## Tokens -/

/-- The separators of `hostlist_create`. -/
def isSep (c : Char) : Bool :=
  c = '\t' ∨ c = ',' ∨ c = ' '

/-- `strchr` from a position on. -/
def strchr (str : Name) (start : Nat) (c : Char) : Option Nat :=
  ((str.drop start).findIdx? (· = c)).map (start + ·)

/-- The first separator from a position on, or the end. -/
def skipTok (str : Name) (start : Nat) : Nat :=
  start + ((str.drop start).takeWhile fun c => !isSep c).length

variable {str : Name} {range : Range} {ranges : List Range}

theorem strchr_spec {start i : Nat} {c : Char} (found : strchr str start c = some i) :
    start ≤ i ∧ ∃ mem : i < str.length, str[i] = c := by
  rw [strchr, map_eq_some_iff] at found
  obtain ⟨j, found, rfl⟩ := found
  obtain ⟨mem, here, -⟩ := findIdx?_eq_some_iff_getElem.mp found
  rw [length_drop] at mem
  rw [getElem_drop, decide_eq_true_iff] at here
  exact ⟨by omega, by omega, here⟩

theorem lt_skipTok {str : Name} {i : Nat} (mem : i < str.length) (token : isSep str[i] = false) :
    i < skipTok str i := by
  rw [skipTok, drop_eq_getElem_cons mem, takeWhile_cons, token]
  simp

/-- The loop of `_next_tok`: where the token ends. -/
def tokEnd (tok : Name) (parse str : Nat) : Nat :=
  match strchr tok parse '[' with
  | none => str
  | some openBracket =>
    if str < openBracket then str
    else
      match closing : strchr tok parse ']' with
      | none => str
      | some closeBracket =>
        if closeBracket < openBracket then str
        else if closeBracket < str then tokEnd tok (closeBracket + 1) str
        else tokEnd tok parse (skipTok tok closeBracket)
termination_by (tok.length - parse) + (tok.length + 1 - str)
decreasing_by
  · obtain ⟨le, inside, -⟩ := strchr_spec closing
    omega
  · obtain ⟨-, inside, here⟩ := strchr_spec closing
    have beyond := lt_skipTok inside (by rw [here]; decide)
    omega

theorem le_tokEnd (tok : Name) (parse str : Nat) : str ≤ tokEnd tok parse str := by
  fun_induction tokEnd tok parse str with
  | case1 => exact le_rfl
  | case2 => exact le_rfl
  | case3 => exact le_rfl
  | case4 => exact le_rfl
  | case5 parse str openBracket _ _ closeBracket closing _ _ ih => exact ih
  | case6 parse str openBracket _ _ closeBracket closing _ _ ih =>
    obtain ⟨-, mem, here⟩ := strchr_spec closing
    have beyond := lt_skipTok mem (by rw [here]; decide)
    omega

/-- `_next_tok` until no token is left. -/
def tokens (str : Name) : List Name :=
  match h : str.dropWhile isSep with
  | [] => []
  | c :: rest =>
    let tok := c :: rest
    let last := tokEnd tok 0 (skipTok tok 0)
    tok.take last :: tokens (tok.drop last)
termination_by str.length
decreasing_by
  have shorter := (dropWhile_sublist isSep (l := str)).length_le
  have token : isSep c = false := by
    have := head?_dropWhile_not isSep str
    rw [h] at this
    simpa using this
  have beyond := @lt_skipTok (c :: rest) 0 (by simp) token
  have last := le_tokEnd (c :: rest) 0 (skipTok (c :: rest) 0)
  rw [h] at shorter
  rw [length_drop]
  simp only [length_cons] at shorter ⊢
  omega

/-! ## Ranges -/

/-- `MAX_RANGE` -/
def maxRange : Nat := 64 * 1024

/-- `MAX_RANGES` -/
def maxRanges : Nat := 64 * 1024

/-- `MAX_PREFIX_CNT` -/
def maxPrefixCnt : Nat := 64 * 1024

/-- `struct _range` -/
structure Range where
  lo : Nat
  hi : Nat
  width : Nat
deriving DecidableEq, Repr

/-- The two sides of the first occurrence of a character, if there is one. -/
def cutAt (c : Char) (str : Name) : Option (Name × Name) :=
  if c ∈ str then some (str.takeWhile (· ≠ c), (str.dropWhile (· ≠ c)).tail) else none

/-- The two sides of the last occurrence of a character, if there is one. -/
def cutAtLast (c : Char) (str : Name) : Option (Name × Name) :=
  if c ∈ str then some ((str.rdropWhile (· ≠ c)).dropLast, str.rtakeWhile (· ≠ c)) else none

/-- The checks of `_parse_single_range` on the two numbers; `rest` is what `strtoul` has left. -/
def Range.check (range : Range) (rest : Name) : Option Range :=
  if rest ≠ [] then none
  else if range.hi < range.lo then none
  else if maxRange < ulongAdd (ulongSub range.hi range.lo) 1 then none
  else some range

/-- `_parse_single_range` behind the split at the dash: what is before and behind it. -/
def parseBounds (str : Name) (p : Option Name) : Option Range :=
  if p.any fun p => p.head? = some '-' then none
  else
    let (lo, q) := strtoul str
    if q = str then none
    else
      match p with
      | none | some [] => Range.check ⟨lo, lo, str.length⟩ q
      | some (c :: p) =>
        let (hi, q) := strtoul (c :: p)
        if q = c :: p then none else Range.check ⟨lo, hi, str.length⟩ q

/-- `_parse_single_range` -/
def parseSingleRange (str : Name) : Option Range :=
  if 'x' ∈ str then none
  else
    match cutAt '-' str with
    | none => parseBounds str none
    | some (str, p) => parseBounds str (some p)

/-- The pieces between commas. -/
def pieces (str : Name) : List Name :=
  str.splitOn ','

/-- `_parse_range_list` -/
def parseRangeList (str : Name) : Option (List Range) :=
  if maxRanges < (pieces str).length then none
  else (pieces str).mapM parseSingleRange

/-- `hostlist_push_hr` of every range behind a prefix. -/
def prefixed (hostPrefix : Name) (ranges : List Range) : List HostRange :=
  ranges.map fun range => HostRange.create hostPrefix range.lo range.hi range.width

/-- `hostlist_push_host` -/
def pushedHost (str : Name) : HostRange :=
  let hn := hostnameCreate str
  match hn.suffix with
  | some suffix => HostRange.create hn.hostPrefix hn.num hn.num suffix.length
  | none => HostRange.createSingle str

/-- The loop of `_push_range_list` over the ranges in its prefix: what is pushed, and whether
the loop came to its end. `none` is a loop without end. -/
def prefixLoop (push : Nat → Nat → Option (List HostRange)) :
    Nat → List Range → Option (List HostRange × Bool)
  | _, [] => some ([], true)
  | prefixCnt, range :: ranges =>
    let prefixCnt := ulongAdd prefixCnt (ulongAdd (ulongSub range.hi range.lo) 1)
    if maxPrefixCnt < prefixCnt then some ([], false)
    else if range.hi = 2 ^ 64 - 1 then none
    else
      ((List.range' range.lo (range.hi + 1 - range.lo)).mapM (push range.width)).bind fun here =>
        (prefixLoop push prefixCnt ranges).map fun more => (here.flatten ++ more.1, more.2)

theorem cutAtLast_spec {c : Char} {front back : Name} (cut : cutAtLast c str = some (front, back)) :
    str = front ++ c :: back ∧ c ∉ back := by
  rw [cutAtLast] at cut
  split_ifs at cut with mem
  obtain ⟨rfl, rfl⟩ := Prod.mk.inj (some.inj cut)
  have whole : str.rdropWhile (· ≠ c) ++ str.rtakeWhile (· ≠ c) = str :=
    rdropWhile_append_rtakeWhile
  have nonempty : str.rdropWhile (· ≠ c) ≠ [] := by
    rw [Ne, rdropWhile_eq_nil_iff]
    intro all
    have := all c mem
    simp at this
  have last := rdropWhile_last_not _ _ nonempty
  rw [decide_eq_true_iff, not_not] at last
  refine ⟨?_, ?_⟩
  · conv_lhs => rw [← whole, ← dropLast_append_getLast nonempty]
    rw [append_assoc, singleton_append, last]
  · intro mem
    have := mem_rtakeWhile_imp mem
    simp at this

theorem count_newPrefix {hostPrefix tmpPrefix p body q : Name} (number : Name)
    (digits : Digits number) (opening : cutAtLast '[' (hostPrefix.take 1023) = some (tmpPrefix, p))
    (closing : cutAtLast ']' p = some (body, q)) :
    ((tmpPrefix ++ number ++ q).take 1023).count '[' < hostPrefix.count '[' := by
  obtain ⟨whole, none⟩ := cutAtLast_spec opening
  obtain ⟨inner, -⟩ := cutAtLast_spec closing
  have numbers : number.count '[' = 0 :=
    count_eq_zero.mpr fun mem => absurd (digits _ mem) (by decide)
  have behind : q.count '[' = 0 := by
    apply count_eq_zero.mpr
    intro mem
    apply none
    rw [inner]
    exact mem_append_right _ (mem_cons_of_mem _ mem)
  calc ((tmpPrefix ++ number ++ q).take 1023).count '['
      ≤ (tmpPrefix ++ number ++ q).count '[' := (take_sublist _ _).count_le '['
    _ = tmpPrefix.count '[' := by rw [count_append, count_append, numbers, behind]; rfl
    _ < (tmpPrefix ++ '[' :: p).count '[' := by
        rw [count_append, count_cons_self]
        omega
    _ ≤ hostPrefix.count '[' := by
        rw [← whole]
        exact (take_sublist _ _).count_le '['

/-- `_push_range_list`: what is pushed, and whether it succeeds. -/
def pushRangeList (hostPrefix : Name) (ranges : List Range) : Option (List HostRange × Bool) :=
  match opening : cutAtLast '[' (hostPrefix.take 1023) with
  | none => some (prefixed hostPrefix ranges, true)
  | some (tmpPrefix, p) =>
    match closing : cutAtLast ']' p with
    | none => some (prefixed hostPrefix ranges, true)
    | some (p, q) =>
      match parseRangeList p with
      | none => some ([], false)
      | some prefixRange =>
        prefixLoop (fun width j =>
          let newPrefix := (tmpPrefix ++ numText width j ++ q).take 1023
          if '[' ∈ tmpPrefix then (pushRangeList newPrefix ranges).map (·.1)
          else some (prefixed newPrefix ranges)) 0 prefixRange
termination_by hostPrefix.count '['
decreasing_by
  exact count_newPrefix _ (digits_numText width j) opening closing

/-- One token of `_hostlist_create_bracketed`; `none` is an error. -/
def parseTok (tok : Name) : Option (List HostRange) :=
  match cutAtLast '[' tok with
  | none => some [pushedHost tok]
  | some (hostPrefix, p) =>
    match cutAt ']' p with
    | none => some [pushedHost (if hostPrefix ≠ [] then hostPrefix ++ [']'] else p)]
    | some (body, q) =>
      if q = [] ∨ q.head? = some ',' then
        (parseRangeList body).bind fun ranges =>
          (pushRangeList hostPrefix ranges).bind fun pushed =>
            if pushed.2 then some pushed.1 else none
      else none

/-- The ranges that `hostlist_create` pushes; `none` is an error. -/
def parse (str : Name) : Option (List HostRange) :=
  ((tokens str).mapM parseTok).map List.flatten

/-! ## What is pushed -/

/-- A range as the text gives it is proper unless it ends with the largest number. -/
def Sane (hr : HostRange) : Prop :=
  hr.hi < 2 ^ 64 - 1 → HostRange.Proper hr

theorem sane_create (hostPrefix : Name) {lo hi : Nat} (width : Nat) (le : lo ≤ hi) :
    Sane (HostRange.create hostPrefix lo hi width) :=
  fun bounded => ⟨fun single => absurd single Bool.false_ne_true, fun _ => le, bounded⟩

theorem sane_pushedHost (str : Name) : Sane (pushedHost str) := by
  intro bounded
  by_cases plain : str.rtakeWhile Char.isDigit = []
  · have single : pushedHost str = HostRange.createSingle str := by
      rw [pushedHost, hostnameCreate_plain plain]
    rw [single]
    exact ⟨fun _ => ⟨rfl, plain⟩, fun ranged => absurd ranged.symm Bool.false_ne_true,
      Nat.sub_pos_of_lt (Nat.one_lt_two_pow (by decide))⟩
  · have suffix := (hostnameCreate_splitAt plain).suffix
    rw [pushedHost] at bounded ⊢
    simp only [suffix] at bounded ⊢
    exact sane_create _ _ le_rfl bounded

theorem check_le {result : Range} {rest : Name} (ok : range.check rest = some result) :
    result.lo ≤ result.hi := by
  rw [Range.check] at ok
  split_ifs at ok with _ order
  rw [← some.inj ok]
  omega

theorem parseBounds_le {p : Option Name} (ok : parseBounds str p = some range) :
    range.lo ≤ range.hi := by
  simp only [parseBounds] at ok
  split at ok
  · contradiction
  split at ok
  · contradiction
  split at ok
  · exact check_le ok
  · exact check_le ok
  split at ok
  · contradiction
  · exact check_le ok

theorem parseSingleRange_le (ok : parseSingleRange str = some range) : range.lo ≤ range.hi := by
  rw [parseSingleRange] at ok
  split at ok
  · contradiction
  split at ok
  · exact parseBounds_le ok
  · exact parseBounds_le ok

theorem mem_of_mapM {α β : Type} {f : α → Option β} {xs : List α} {ys : List β}
    (all : xs.mapM f = some ys) : ∀ y ∈ ys, ∃ x ∈ xs, f x = some y := by
  induction xs generalizing ys with
  | nil =>
    obtain rfl := some.inj all
    intro y mem
    exact absurd mem not_mem_nil
  | cons x xs ih =>
    rw [mapM_cons] at all
    obtain ⟨z, here, all⟩ := bind_eq_some_iff.mp all
    obtain ⟨zs, rest, all⟩ := bind_eq_some_iff.mp all
    obtain rfl := some.inj all
    intro y mem
    rcases mem_cons.mp mem with rfl | mem
    · exact ⟨x, mem_cons_self, here⟩
    · obtain ⟨x', mem, value⟩ := ih rest y mem
      exact ⟨x', mem_cons_of_mem x mem, value⟩

theorem parseRangeList_le (ok : parseRangeList str = some ranges) :
    ∀ range ∈ ranges, range.lo ≤ range.hi := by
  rw [parseRangeList] at ok
  split_ifs at ok
  intro range mem
  obtain ⟨piece, -, ok⟩ := mem_of_mapM ok range mem
  exact parseSingleRange_le ok

theorem sane_prefixed (hostPrefix : Name) (le : ∀ range ∈ ranges, range.lo ≤ range.hi) :
    ∀ hr ∈ prefixed hostPrefix ranges, Sane hr := by
  intro hr mem
  obtain ⟨range, isRange, rfl⟩ := mem_map.mp mem
  exact sane_create _ _ (le range isRange)

theorem sane_prefixLoop {push : Nat → Nat → Option (List HostRange)}
    (sane : ∀ width j pushed, push width j = some pushed → ∀ hr ∈ pushed, Sane hr)
    (ranges : List Range) (prefixCnt : Nat) {result : List HostRange × Bool}
    (done : prefixLoop push prefixCnt ranges = some result) : ∀ hr ∈ result.1, Sane hr := by
  induction ranges generalizing prefixCnt result with
  | nil =>
    obtain rfl := some.inj done
    exact fun hr mem => absurd mem not_mem_nil
  | cons range ranges ih =>
    simp only [prefixLoop] at done
    split_ifs at done
    · obtain rfl := some.inj done
      exact fun hr mem => absurd mem not_mem_nil
    · obtain ⟨here, all, done⟩ := bind_eq_some_iff.mp done
      obtain ⟨more, rest, rfl⟩ := map_eq_some_iff.mp done
      intro hr mem
      rcases mem_append.mp mem with mem | mem
      · obtain ⟨pushed, isPushed, mem⟩ := mem_flatten.mp mem
        obtain ⟨j, -, value⟩ := mem_of_mapM all pushed isPushed
        exact sane range.width j pushed value hr mem
      · exact ih _ rest hr mem

theorem sane_pushRangeList (hostPrefix : Name) (le : ∀ range ∈ ranges, range.lo ≤ range.hi)
    {result : List HostRange × Bool} (done : pushRangeList hostPrefix ranges = some result) :
    ∀ hr ∈ result.1, Sane hr := by
  fun_induction pushRangeList hostPrefix ranges generalizing result with
  | case1 hostPrefix =>
    obtain rfl := some.inj done
    exact sane_prefixed hostPrefix le
  | case2 hostPrefix =>
    obtain rfl := some.inj done
    exact sane_prefixed hostPrefix le
  | case3 hostPrefix =>
    obtain rfl := some.inj done
    exact fun hr mem => absurd mem not_mem_nil
  | case4 hostPrefix tmpPrefix p opening body q closing prefixRange _ ih =>
    refine sane_prefixLoop ?_ prefixRange 0 done
    intro width j pushed value
    split_ifs at value
    · obtain ⟨inner, nested, rfl⟩ := map_eq_some_iff.mp value
      exact ih width j nested
    · obtain rfl := some.inj value
      exact sane_prefixed _ le

theorem sane_parseTok {tok : Name} {pushed : List HostRange} (ok : parseTok tok = some pushed) :
    ∀ hr ∈ pushed, Sane hr := by
  rw [parseTok] at ok
  split at ok
  · obtain rfl := some.inj ok
    exact forall_mem_singleton.mpr (sane_pushedHost tok)
  split at ok
  · obtain rfl := some.inj ok
    exact forall_mem_singleton.mpr (sane_pushedHost _)
  split_ifs at ok
  obtain ⟨ranges, isRanges, ok⟩ := bind_eq_some_iff.mp ok
  obtain ⟨result, done, ok⟩ := bind_eq_some_iff.mp ok
  split_ifs at ok
  obtain rfl := some.inj ok
  exact sane_pushRangeList _ (parseRangeList_le isRanges) done

theorem sane_parse {pushed : List HostRange} (ok : parse str = some pushed) :
    ∀ hr ∈ pushed, Sane hr := by
  obtain ⟨all, isAll, rfl⟩ := map_eq_some_iff.mp ok
  intro hr mem
  obtain ⟨here, isHere, mem⟩ := mem_flatten.mp mem
  obtain ⟨tok, -, ok⟩ := mem_of_mapM isAll here isHere
  exact sane_parseTok ok hr mem

end SlurmSim.Hostlist
