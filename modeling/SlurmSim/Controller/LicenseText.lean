import SlurmSim.Controller.LicenseRuns

/-!
# License strings

`_build_license_string` prints every record through a buffer of 128 bytes, and
`_build_license_list` reads the counts as signed numbers of 32 bits.  A list survives its
string exactly when every record does.
-/

namespace SlurmSim.Controller.Licenses

open List SlurmSim.Common.Bitmap SlurmSim.Hostlist SlurmSim.Lib.Numerals
open Option (bind_eq_bind bind_eq_some_iff some.inj some_inj)

/-- A list reads back from its string: each name once with the sum of its counts, the same
names and totals after a second reading, and after any two merges. -/
structure RoundTrips (text : List Char) (list : List License) : Prop where
  distinct : (list.map License.name).Nodup
  sums : ∃ pairs, textPairs (some text) = some pairs ∧
    (∀ name, name ∈ list.map License.name ↔ name ∈ pairs.map Prod.fst) ∧
    ∀ name, asked pairs name < 2 ^ 32 → held list name = asked pairs name
  again : ∃ again, buildLicenseList (buildLicenseString (some list)) = (again, true) ∧
    (stock (entries again)).Perm (stock list)
  merged : ∀ before, (stock (entries
    (licenseJobMerge (licenseJobMerge ⟨some text, before⟩)).licenseList)).Perm (stock list)

/-- What a string asks for: every name with its sum of 32 bits, the last new name first. -/
def requested (pairs : List (List Char × Nat)) : List (List Char × Nat) :=
  (pairs.map Prod.fst).reverse.dedup.map fun name => (name, asked pairs name % 2 ^ 32)

/-- The record behind `sep` characters fits into the buffer and its total into 31 bits; a
total of 0 may be cut off, and one of 1 together with its mark. -/
def Fits (sep : Nat) (license : List Char × Nat) : Prop :=
  license.2 < 2 ^ 31 ∧ sep + license.1.length + (decimal license.2).length < 127 ∨
    sep + license.1.length = 126 ∧ license.2 = 0 ∨
    sep + license.1.length = 127 ∧ license.2 = 1

/-- The records fit, all but the first behind a comma. -/
def AllFit : List (List Char × Nat) → Prop
  | [] => True
  | first :: rest => Fits 0 first ∧ ∀ license ∈ rest, Fits 1 license

/-! ## One record -/

/-- A printed record without its separator. -/
def printed (sep : Nat) (entry : License) : List Char :=
  (entry.name ++ '*' :: decimal entry.total).take (127 - sep)

/-- What is left of a number in the buffer. -/
def printedNum (sep : Nat) (entry : License) : Option (List Char) :=
  if 127 ≤ sep + entry.name.length then none
  else some ((decimal entry.total).take (126 - sep - entry.name.length))

theorem splitToken_unmarked {name : List Char} (clean : Clean name) :
    splitToken name = some (name, none) := by
  induction name with
  | nil => rfl
  | cons c rest ih =>
    obtain ⟨space, -, -, colon, star⟩ := clean c mem_cons_self
    have tail := ih fun d mem => clean d (mem_cons_of_mem c mem)
    simp [splitToken, space, colon, star, tail]

variable {sep : Nat} {entry : License} {list : List License}

theorem parseToken_cut (clean : Clean entry.name) : parseToken (printed sep entry) =
    (tokenNum (printedNum sep entry)).map fun num => (entry.name.take (127 - sep), num) := by
  rw [printedNum]
  split_ifs with long
  · have cut : printed sep entry = entry.name.take (127 - sep) :=
      take_append_of_le_length (by omega)
    rw [cut, parseToken, splitToken_unmarked fun c mem => clean c (mem_of_mem_take mem)]
  · have whole : printed sep entry = entry.name ++
        '*' :: (decimal entry.total).take (126 - sep - entry.name.length) := by
      have size : 127 - sep = entry.name.length + (126 - sep - entry.name.length + 1) := by omega
      rw [printed, size, take_length_add_append, take_succ_cons]
    have name : entry.name.take (127 - sep) = entry.name := take_of_length_le (by omega)
    rw [whole, parseToken, splitToken_printed clean, name]

theorem textValue_decimal (n : Nat) : textValue (decimal n) = n := by
  rw [decimal_eq, textValue_numText]

theorem textValue_take_lt {n k : Nat} (pos : 0 < k) (cut : k < (decimal n).length) :
    textValue ((decimal n).take k) < n := by
  have small : ∀ digit ∈ ((decimal n).take k).map fun c => c.toNat - 48, digit < 10 := by
    intro digit mem
    obtain ⟨c, isIn, rfl⟩ := mem_map.mp mem
    have top : c.toNat ≤ 57 := (digits_decimal n c (mem_of_mem_take isIn)).2
    omega
  have value := read_lt_pow (by decide) small
  rw [length_map, length_take, min_eq_left (le_of_lt cut)] at value
  refine lt_of_lt_of_le value (Nat.le_of_not_lt fun below => ?_)
  have length := length_numeral_le (by decide) pos below
  rw [decimal, length_map] at cut
  omega

theorem tokenNum_digits {text : List Char} (nonempty : text ≠ [])
    (digits : ∀ c ∈ text, '0' ≤ c ∧ c ≤ '9') (small : textValue text < 2 ^ 32) :
    tokenNum (some text) = if textValue text < 2 ^ 31 then some (textValue text) else none := by
  have value : readOn 10 0 (text.map fun c => c.toNat - 48) = textValue text := rfl
  have read : strtol text = ((textValue text : Int), []) := by
    rw [strtol_digits nonempty digits, value, min_eq_left (by omega)]
  simp only [tokenNum, read]
  generalize textValue text = value at small
  by_cases low : value < 2 ^ 31
  · have same : toInt32 value = value := by
      rw [toInt32]
      omega
    have pos : ¬(value : Int) < 0 := by omega
    simp only [same, ne_eq, not_true_eq_false, pos, or_self, if_false, if_pos low,
      Int.toNat_natCast]
  · have negative : toInt32 value < 0 := by
      rw [toInt32]
      omega
    rw [if_pos (Or.inr negative), if_neg low]

theorem tokenNum_printedNum (small : entry.total < 2 ^ 32) (short : sep + entry.name.length ≤ 127) :
    tokenNum (printedNum sep entry) = some entry.total ↔ Fits sep (entry.name, entry.total) := by
  have some_ : 0 < (decimal entry.total).length := by
    rw [decimal, length_map]
    exact length_pos_of_ne_nil (numeral_ne_nil 10 entry.total)
  simp only [printedNum, Fits]
  by_cases full : sep + entry.name.length = 127
  · rw [if_pos (by omega)]
    have one : tokenNum none = some entry.total ↔ 1 = entry.total := some_inj
    rw [one]
    omega
  · rw [if_neg (by omega)]
    by_cases marked : sep + entry.name.length = 126
    · have cut : 126 - sep - entry.name.length = 0 := by omega
      have zero : tokenNum (some []) = some entry.total ↔ 0 = entry.total := some_inj
      rw [cut, take_zero, zero]
      omega
    · by_cases whole : (decimal entry.total).length ≤ 126 - sep - entry.name.length
      · rw [take_of_length_le whole, tokenNum_digits (ne_nil_of_length_pos some_)
          (digits_decimal _) (by rwa [textValue_decimal]), textValue_decimal]
        split_ifs with low
        · exact iff_of_true rfl (Or.inl ⟨low, by omega⟩)
        · exact iff_of_false (by simp) (by omega)
      · have less := textValue_take_lt (n := entry.total) (k := 126 - sep - entry.name.length)
          (by omega) (by omega)
        have nonempty : (decimal entry.total).take (126 - sep - entry.name.length) ≠ [] := by
          refine ne_nil_of_length_pos ?_
          rw [length_take]
          omega
        rw [tokenNum_digits nonempty (fun c mem => digits_decimal _ c (mem_of_mem_take mem))
          (by omega)]
        refine iff_of_false (fun same => ?_) (by omega)
        split_ifs at same
        rw [some_inj] at same
        omega

theorem reads_iff (clean : Clean entry.name) (small : entry.total < 2 ^ 32) (sepLe : sep ≤ 1) :
    parseToken (printed sep entry) = some (entry.name, entry.total) ↔
      Fits sep (entry.name, entry.total) := by
  rw [parseToken_cut clean, Option.map_eq_some_iff]
  by_cases short : sep + entry.name.length ≤ 127
  · rw [take_of_length_le (by omega), ← tokenNum_printedNum small short]
    exact ⟨fun ⟨num, read, same⟩ => (Prod.mk.inj same).2 ▸ read, fun read => ⟨_, read, rfl⟩⟩
  · refine iff_of_false (fun ⟨num, _, same⟩ => ?_) (by simp only [Fits]; omega)
    have length := congrArg List.length (Prod.mk.inj same).1
    rw [length_take] at length
    omega

/-! ## The whole list -/

/-- What is printed for the records of a list. -/
def pieces : List License → List (List Char)
  | [] => []
  | first :: rest => printed 0 first :: rest.map (printed 1)

theorem tokens_piece (clean : Clean entry.name) (sepLe : sep ≤ 1) :
    tokens (printed sep entry) = [printed sep entry] := by
  have nonempty : printed sep entry ≠ [] := by
    refine ne_nil_of_length_pos ?_
    rw [printed, length_take, length_append, length_cons]
    omega
  have plain : ∀ c ∈ printed sep entry, decide (c = ',' ∨ c = ';') = false := fun c mem =>
    record_plain clean entry.total c (mem_of_mem_take mem)
  rw [tokens, splitOnP_eq_singleton plain]
  simp [nonempty]

theorem textPairs_pieces (clean : ∀ entry ∈ list, Clean entry.name) :
    textPairs (buildLicenseString (some list)) = (pieces list).mapM parseToken := by
  cases list with
  | nil => rfl
  | cons first rest =>
    obtain ⟨firstClean, restClean⟩ := forall_mem_cons.mp clean
    have others : ∀ before : List Char, tokens (before ++ rest.flatMap (licenseText [','])) =
        tokens before ++ rest.map (printed 1) := by
      clear clean
      induction rest with
      | nil => simp
      | cons entry rest ih =>
        intro before
        obtain ⟨own, others⟩ := forall_mem_cons.mp restClean
        have piece : licenseText [','] entry = ',' :: printed 1 entry := rfl
        rw [flatMap_cons, piece, ← append_assoc, ih others, tokens_append,
          tokens_piece own le_rfl, append_assoc]
        rfl
    have piece : licenseText [] first = printed 0 first := rfl
    rw [buildLicenseString, piece, textPairs, others, tokens_piece firstClean (Nat.zero_le 1)]
    rfl

theorem mapM_printed_iff (clean : ∀ entry ∈ list, Clean entry.name)
    (small : ∀ entry ∈ list, entry.total < 2 ^ 32) (sepLe : sep ≤ 1) :
    (list.map (printed sep)).mapM parseToken = some (stock list) ↔
      ∀ license ∈ stock list, Fits sep license := by
  induction list with
  | nil => exact iff_of_true rfl (by simp [stock])
  | cons entry rest ih =>
    obtain ⟨ownClean, restClean⟩ := forall_mem_cons.mp clean
    obtain ⟨ownSmall, restSmall⟩ := forall_mem_cons.mp small
    have head : stock (entry :: rest) = (entry.name, entry.total) :: stock rest := rfl
    rw [head, map_cons, mapM_cons, forall_mem_cons, ← ih restClean restSmall,
      ← reads_iff ownClean ownSmall sepLe]
    simp only [bind_eq_bind, bind_eq_some_iff]
    constructor
    · rintro ⟨pair, read, others, readRest, same⟩
      obtain ⟨rfl, rfl⟩ := cons.inj (some.inj same)
      exact ⟨read, readRest⟩
    · exact fun both => ⟨_, both.1, _, both.2, rfl⟩

theorem mapM_pieces_iff (clean : ∀ entry ∈ list, Clean entry.name)
    (small : ∀ entry ∈ list, entry.total < 2 ^ 32) :
    (pieces list).mapM parseToken = some (stock list) ↔ AllFit (stock list) := by
  cases list with
  | nil => exact iff_of_true rfl trivial
  | cons first rest =>
    obtain ⟨ownClean, restClean⟩ := forall_mem_cons.mp clean
    obtain ⟨ownSmall, restSmall⟩ := forall_mem_cons.mp small
    have head : stock (first :: rest) = (first.name, first.total) :: stock rest := rfl
    rw [head, pieces, mapM_cons, AllFit, ← mapM_printed_iff restClean restSmall le_rfl,
      ← reads_iff ownClean ownSmall (Nat.zero_le 1)]
    simp only [bind_eq_bind, bind_eq_some_iff]
    constructor
    · rintro ⟨pair, read, others, readRest, same⟩
      obtain ⟨rfl, rfl⟩ := cons.inj (some.inj same)
      exact ⟨read, readRest⟩
    · exact fun both => ⟨_, both.1, _, both.2, rfl⟩

variable {texts : List (List Char)} {pairs : List (List Char × Nat)}

theorem prefix_of_mapM (valid : texts.mapM parseToken = some pairs)
    (cut : Forall₂ (fun text (entry : License) => ∃ sep, text = printed sep entry) texts list)
    (clean : ∀ entry ∈ list, Clean entry.name) :
    Forall₂ (· <+: ·) (pairs.map Prod.fst) (list.map License.name) := by
  induction cut generalizing pairs with
  | nil =>
    obtain rfl : [] = pairs := by simpa using valid
    exact Forall₂.nil
  | @cons text entry texts rest isCut _ ih =>
    obtain ⟨sep, rfl⟩ := isCut
    obtain ⟨ownClean, restClean⟩ := forall_mem_cons.mp clean
    simp only [mapM_cons, bind_eq_bind, bind_eq_some_iff] at valid
    obtain ⟨pair, read, others, readRest, same⟩ := valid
    obtain rfl := some.inj same
    rw [parseToken_cut ownClean] at read
    obtain ⟨num, _, rfl⟩ := Option.map_eq_some_iff.mp read
    exact Forall₂.cons ( take_prefix _ _) (ih readRest restClean)

/-- Beginnings with as many characters in total are whole. -/
theorem eq_of_prefixes {short long : List (List Char)} (prefixes : Forall₂ (· <+: ·) short long)
    (same : (long.map length).sum ≤ (short.map length).sum) : short = long := by
  have le : ∀ {short long : List (List Char)}, Forall₂ (· <+: ·) short long →
      (short.map length).sum ≤ (long.map length).sum := by
    intro short long prefixes
    induction prefixes with
    | nil => exact le_rfl
    | cons start _ ih => exact Nat.add_le_add start.length_le ih
  induction prefixes with
  | nil => rfl
  | cons start others ih =>
    have own := start.length_le
    have rest := le others
    simp only [map_cons, sum_cons] at same
    rw [ih (by omega), start.eq_of_length (by omega)]

theorem mem_stock {name : List Char} {total : Nat} (distinct : (list.map License.name).Nodup) :
    (name, total) ∈ stock list ↔ name ∈ list.map License.name ∧ held list name = total := by
  constructor
  · intro mem
    obtain ⟨entry, isIn, same⟩ := mem_map.mp mem
    obtain ⟨rfl, rfl⟩ := Prod.mk.inj same
    exact ⟨mem_map_of_mem isIn, held_of_mem distinct isIn⟩
  · rintro ⟨mem, rfl⟩
    obtain ⟨entry, isIn, rfl⟩ := mem_map.mp mem
    exact mem_map.mpr ⟨entry, isIn, by rw [held_of_mem distinct isIn]⟩

theorem nodup_stock (distinct : (list.map License.name).Nodup) : (stock list).Nodup := by
  have firsts : (stock list).map Prod.fst = list.map License.name := by simp [stock]
  exact Nodup.of_map Prod.fst (firsts ▸ distinct)

theorem buildLicenseList_of_textPairs {licenses : Option (List Char)}
    (valid : textPairs licenses = some pairs) :
    ∃ again, buildLicenseList licenses = (again, true) ∧ Lists (entries again) pairs := by
  have lists := buildLicenseList_lists valid
  refine ⟨_, ?_, lists⟩
  rcases licenses with - | ⟨- | ⟨c, text⟩⟩
  · rfl
  · rfl
  · obtain ⟨after, built, _⟩ := buildLoop_lists Lists.nil valid
    simp only [buildLicenseList, built]

theorem again_of_allFit (distinct : (list.map License.name).Nodup)
    (clean : ∀ entry ∈ list, Clean entry.name) (small : ∀ entry ∈ list, entry.total < 2 ^ 32)
    (fits : AllFit (stock list)) : ∃ again, buildLicenseList (buildLicenseString (some list)) =
      (again, true) ∧ (stock (entries again)).Perm (stock list) := by
  have read := (textPairs_pieces clean).trans ((mapM_pieces_iff clean small).mpr fits)
  obtain ⟨again, built, lists⟩ := buildLicenseList_of_textPairs read
  refine ⟨again, built, ?_⟩
  rw [perm_ext_iff_of_nodup (nodup_stock lists.distinct) (nodup_stock distinct)]
  rintro ⟨name, total⟩
  have firsts : (stock list).map Prod.fst = list.map License.name := by simp [stock]
  have same : name ∈ list.map License.name → held (entries again) name = held list name := by
    intro mem
    obtain ⟨entry, isIn, rfl⟩ := mem_map.mp mem
    rw [lists.total, asked_stock distinct, held_of_mem distinct isIn,
      Nat.mod_eq_of_lt (small entry isIn)]
  rw [mem_stock lists.distinct, mem_stock distinct, lists.names, firsts]
  exact and_congr_right fun mem => by rw [same mem]

theorem stock_firsts (list : List License) :
    (stock list).map Prod.fst = list.map License.name := by
  simp [stock]

theorem asked_of_mem {pair : List Char × Nat} (distinct : (pairs.map Prod.fst).Nodup)
    (mem : pair ∈ pairs) : asked pairs pair.1 = pair.2 := by
  let records := pairs.map fun pair => (⟨pair.1, pair.2, 0⟩ : License)
  have names : records.map License.name = pairs.map Prod.fst := map_map
  have same : stock records = pairs := map_map.trans (map_id _)
  have own : (⟨pair.1, pair.2, 0⟩ : License) ∈ records := mem_map_of_mem mem
  rw [← names] at distinct
  rw [← same, asked_stock distinct]
  exact held_of_mem distinct own

theorem mapM_lt (valid : texts.mapM parseToken = some pairs) : ∀ pair ∈ pairs, pair.2 < 2 ^ 32 := by
  induction texts generalizing pairs with
  | nil =>
    obtain rfl : [] = pairs := by simpa using valid
    exact fun _ none => nomatch none
  | cons text texts ih =>
    simp only [mapM_cons, bind_eq_bind, bind_eq_some_iff] at valid
    obtain ⟨pair, read, others, readRest, same⟩ := valid
    obtain rfl := some.inj same
    exact forall_mem_cons.mpr ⟨parseToken_lt read, ih readRest⟩

theorem pieces_cut (list : List License) :
    Forall₂ (fun text (entry : License) => ∃ sep, text = printed sep entry) (pieces list) list := by
  cases list with
  | nil => exact Forall₂.nil
  | cons first rest =>
    refine Forall₂.cons ⟨0, rfl⟩ ?_
    rw [forall₂_map_left_iff]
    exact forall₂_same.mpr fun _ _ => ⟨1, rfl⟩

theorem allFit_of_again (distinct : (list.map License.name).Nodup)
    (clean : ∀ entry ∈ list, Clean entry.name) (small : ∀ entry ∈ list, entry.total < 2 ^ 32)
    {again : Option (List License)}
    (built : buildLicenseList (buildLicenseString (some list)) = (again, true))
    (same : (stock (entries again)).Perm (stock list)) : AllFit (stock list) := by
  obtain ⟨pairs, valid⟩ := textPairs_of_valid (congrArg Prod.snd built)
  have lists := buildLicenseList_lists valid
  rw [built] at lists
  rw [textPairs_pieces clean] at valid
  have prefixes := prefix_of_mapM valid (pieces_cut list) clean
  have sameNames := same.map Prod.fst
  rw [stock_firsts, stock_firsts] at sameNames
  have namesPerm : ((entries again).map License.name).Perm (pairs.map Prod.fst) := by
    refine (subperm_of_subset lists.distinct fun name => (lists.names name).mp).perm_of_length_le ?_
    rw [prefixes.length_eq, sameNames.length_eq]
  have lengths := ((namesPerm.symm.trans sameNames).map length).sum_eq
  have names := eq_of_prefixes prefixes lengths.ge
  have values : ∀ pair ∈ pairs, pair.2 = held list pair.1 := by
    intro pair mem
    have isIn : pair.1 ∈ (entries again).map License.name :=
      (lists.names pair.1).mpr (mem_map_of_mem mem)
    have total := lists.total pair.1
    rw [asked_of_mem (names ▸ distinct) mem,
      Nat.mod_eq_of_lt (mapM_lt valid pair mem)] at total
    have own := same.mem_iff.mp ((mem_stock lists.distinct).mpr ⟨isIn, total⟩)
    exact ((mem_stock distinct).mp own).2.symm
  have ofNames : ∀ pairs : List (List Char × Nat), (∀ pair ∈ pairs, pair.2 = held list pair.1) →
      pairs = (pairs.map Prod.fst).map fun name => (name, held list name) := by
    intro pairs own
    rw [map_map]
    exact (map_id pairs).symm.trans
      (map_congr_left fun pair mem => Prod.ext rfl (own pair mem))
  have stockValues : ∀ pair ∈ stock list, pair.2 = held list pair.1 :=
    fun pair mem => ((mem_stock distinct).mp mem).2.symm
  have read : pairs = stock list := by
    rw [ofNames pairs values, names, ← stock_firsts]
    exact (ofNames (stock list) stockValues).symm
  exact (mapM_pieces_iff clean small).mp (read ▸ valid)

/-! ## The list of a string -/

theorem names_addLicense (distinct : (list.map License.name).Nodup) (token : List Char × Nat) :
    (addLicense list token).map License.name = (token.1 :: list.map License.name).dedup := by
  rw [addLicense]
  by_cases known : token.1 ∈ list.map License.name
  · rw [dedup_cons_of_mem known, distinct.dedup]
    split
    · exact names_adjust (License.addTotal_name token.2)
    · rename_i absent
      exact absurd known (findLicense_eq_none.mp absent)
  · rw [dedup_cons_of_notMem known, distinct.dedup, findLicense_eq_none.mpr known]
    rfl

theorem names_buildLoop {after : List License} (distinct : (list.map License.name).Nodup)
    (valid : texts.mapM parseToken = some pairs) (built : buildLoop texts list = some after) :
    after.map License.name = ((pairs.map Prod.fst).reverse ++ list.map License.name).dedup := by
  induction texts generalizing list pairs with
  | nil =>
    obtain rfl : [] = pairs := by simpa using valid
    obtain rfl := some.inj built
    exact distinct.dedup.symm
  | cons text texts ih =>
    simp only [mapM_cons, bind_eq_bind, bind_eq_some_iff] at valid
    obtain ⟨pair, read, others, readRest, same⟩ := valid
    obtain rfl := some.inj same
    rw [buildLoop, read] at built
    have names := names_addLicense distinct pair
    rw [ih (names ▸ nodup_dedup _) readRest built, names, map_cons, reverse_cons, append_assoc,
      dedup_append, dedup_idem, ← dedup_append]
    rfl

theorem stock_eq_requested (lists : Lists list pairs)
    (names : list.map License.name = (pairs.map Prod.fst).reverse.dedup) :
    stock list = requested pairs := by
  rw [requested, ← names, map_map]
  refine map_congr_left fun entry mem => Prod.ext rfl ?_
  rw [← held_of_mem lists.distinct mem]
  exact lists.total entry.name

theorem buildLicenseList_some {text : List Char}
    (built : buildLicenseList (some text) = (some list, true)) :
    ∃ pairs, textPairs (some text) = some pairs ∧ Lists list pairs ∧ stock list = requested pairs ∧
      (∀ entry ∈ list, Clean entry.name) ∧ ∀ entry ∈ list, entry.total < 2 ^ 32 := by
  obtain ⟨pairs, valid⟩ := textPairs_of_valid (congrArg Prod.snd built)
  have ofText := buildLicenseList_lists valid
  rw [built] at ofText
  have lists : Lists list pairs := ofText
  have loop : buildLoop (tokens text) [] = some list := by
    cases text with
    | nil => cases built
    | cons c rest =>
      simp only [buildLicenseList] at built
      split at built
      · cases built
      · rename_i after loop
        rw [loop]
        exact congrArg Prod.fst built
  have names := names_buildLoop (by exact nodup_nil) valid loop
  rw [map_nil, append_nil] at names
  refine ⟨pairs, valid, lists, stock_eq_requested lists names, fun entry mem => ?_,
    fun entry mem => ?_⟩
  · obtain ⟨pair, isIn, same⟩ := mem_map.mp ((lists.names entry.name).mp (mem_map_of_mem mem))
    exact same ▸ textPairs_clean valid pair isIn
  · rw [← held_of_mem lists.distinct mem, lists.total]
    exact Nat.mod_lt _ (by decide)

end SlurmSim.Controller.Licenses
