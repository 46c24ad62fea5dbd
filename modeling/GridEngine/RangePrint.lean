import GridEngine.RangeParse

/-!
# Printing range lists

`range_list_print_to_string` writes every range with `range_to_dstring`: one id, two ids, or the
ends with a step. The ids are `u_long32` but are written with `"%d"`, so an id from `2 ^ 31` on
gets a minus. `range_parse_from_string` takes a leading minus for a range that begins with 1 and
then wants a colon, but behind another minus it reads the number and casts it back.
-/

namespace GridEngine
open Segments

/-- `"%d"`. -/
def formatD (z : ℤ) : List Char :=
  if z < 0 then '-' :: Nat.toDigits 10 z.natAbs else Nat.toDigits 10 z.natAbs

/-- `sge_u32` is `"%d"`. -/
def sgeU32 (n : ℕ) : List Char := formatD (toInt n)

/-- `range_to_dstring`. -/
def rangeToDstring (start «end» : ℕ) (step : ℤ) (dynTaskrangeStr : List Char)
    (ignoreStep useCommaAsSeparator printAlwaysAsRange : Bool) : List Char :=
  let toChar := if useCommaAsSeparator then ',' else '-'
  let stepChar := if useCommaAsSeparator then ',' else ':'
  let dynTaskrangeStr :=
    if dynTaskrangeStr.length > 0 then dynTaskrangeStr ++ [','] else dynTaskrangeStr
  let tail :=
    if start = «end» ∧ !printAlwaysAsRange then sgeU32 start
    else if start = «end» ∧ printAlwaysAsRange then sgeU32 start ++ toChar :: sgeU32 «end»
    else if toULong32 (start + step) = «end» then sgeU32 start ++ ',' :: sgeU32 «end»
    else if ignoreStep then sgeU32 start ++ toChar :: sgeU32 «end»
    else sgeU32 start ++ toChar :: (sgeU32 «end» ++ stepChar :: formatD step)
  dynTaskrangeStr ++ tail

/-- `range_list_print_to_string`. -/
def rangeListPrintToString (thisList : Option (List Range)) (string : List Char)
    (ignoreStep commaAsSeparator printAlwaysAsRange : Bool) : List Char :=
  match thisList with
  | some l =>
      l.foldl (fun string r => rangeToDstring r.min r.max (toInt r.step) string ignoreStep
        commaAsSeparator printAlwaysAsRange) string
  | none => string ++ "UNDEFINED".toList

/-- A range that ends on its step grid and whose next id is still a word. -/
structure Range.Unwrapped (r : Range) : Prop where
  max_mem : r.max ∈ r.ids
  step_pos : 1 ≤ r.step
  next_lt : r.max + r.step < 2 ^ 32

/-- A list with ranges that follow each other without overlap. -/
structure Ascending (l : List Range) : Prop where
  ne_nil : l ≠ []
  ranges : ∀ r ∈ l, r.Unwrapped
  sorted : l.Pairwise (fun a b => a.max < b.min)

namespace Range
variable (r : Range)

/-- The comma separated parts of a printed range. -/
def parts : List (List Char) :=
  if r.min = r.max then [sgeU32 r.min]
  else if r.min + r.step = r.max then [sgeU32 r.min, sgeU32 r.max]
  else [sgeU32 r.min ++ '-' :: (sgeU32 r.max ++ ':' :: sgeU32 r.step)]

/-- What the parts of a printed range are read as. -/
def readBack : List Range :=
  if r.min = r.max then [⟨r.min, r.min, 1⟩]
  else if r.min + r.step = r.max then [⟨r.min, r.min, 1⟩, ⟨r.max, r.max, 1⟩]
  else [⟨r.min, r.max, r.step⟩]

/-- No part begins with a minus. -/
def Readable : Prop :=
  r.min < 2 ^ 31 ∧ (r.max < 2 ^ 31 ∨ (r.min ≠ r.max ∧ r.min + r.step ≠ r.max))

end Range

section Numbers
variable {n m s : ℕ} {rest : List Char} {c : Char}

theorem sgeU32_eq (hn : n < 2 ^ 31) : sgeU32 n = (Decimal.ofNat n hn).digits := by
  rw [sgeU32, toInt_eq hn, formatD, if_neg (by omega), Int.natAbs_natCast]
  rfl

theorem sgeU32_large (hn : 2 ^ 31 ≤ n) (hlt : n < 2 ^ 32) :
    sgeU32 n = '-' :: Nat.toDigits 10 (2 ^ 32 - n) := by
  rw [sgeU32, toInt_large hn hlt, formatD, if_pos (by omega), Int.natAbs_neg, Int.natAbs_natCast]

theorem digits_plain {n : ℕ} : ∀ c ∈ Nat.toDigits 10 n, c ≠ ',' := fun _ hc =>
  (isDigit_plain (Nat.isDigit_of_mem_toDigits (by norm_num) (by norm_num) hc)).2.2.2

theorem sgeU32_plain : sgeU32 n ≠ [] ∧ ∀ c ∈ sgeU32 n, c ≠ ',' := by
  unfold sgeU32 formatD
  split_ifs with h
  · refine ⟨nofun, fun c hc => ?_⟩
    rcases List.mem_cons.mp hc with rfl | hc
    · decide
    · exact digits_plain c hc
  · exact ⟨Nat.toDigits_ne_nil, digits_plain⟩

/-- A negative number is read up to the first character that is no digit. -/
theorem strtol_minus (hn : n < 2 ^ 32) (hrest : ∀ c ∈ rest.head?, c.isDigit = false) :
    strtol ('-' :: (Nat.toDigits 10 n ++ rest)) = (-(n : ℤ), rest) := by
  have hdigits : ∀ c ∈ Nat.toDigits 10 n, c.isDigit = true := fun c hc =>
    Nat.isDigit_of_mem_toDigits (by norm_num) (by norm_num) hc
  obtain ⟨htake, hdrop⟩ := takeWhile_digits hdigits hrest
  have hmax : max (-2 ^ 63) (-((Nat.ofDigitChars 10 (Nat.toDigits 10 n) 0 : ℕ) : ℤ)) = -n := by
    rw [Nat.ofDigitChars_ten_toDigits]
    omega
  rw [strtol, List.dropWhile_cons_of_neg (by decide)]
  simp only [readSign, htake, hdrop, Nat.toDigits_ne_nil, if_false, if_true, hmax]

theorem strtol_sgeU32 (hn : n < 2 ^ 32) (hrest : ∀ c ∈ rest.head?, c.isDigit = false) :
    ∃ z, strtol (sgeU32 n ++ rest) = (z, rest) ∧ toULong32 z = n := by
  by_cases hsmall : n < 2 ^ 31
  · refine ⟨n, ?_, toULong32_eq hn⟩
    rw [sgeU32_eq hsmall, strtol_digits hrest, Decimal.ofNat_value]
  · refine ⟨-((2 ^ 32 - n : ℕ) : ℤ), ?_, ?_⟩
    · rw [sgeU32_large (not_lt.mp hsmall) hn, List.cons_append, strtol_minus (by omega) hrest]
    · unfold toULong32
      omega

end Numbers

/-- `strtod` reads the digits of a small number. -/
def ReadsDecimals (strtod : List Char → ℚ × List Char) : Prop :=
  ∀ n < 2 ^ 31, strtod (Nat.toDigits 10 n) = ((n : ℚ), [])

variable (strtod : List Char → ℚ × List Char)

section Parts
variable {n m s : ℕ} {t : List Char}

theorem rangeParseFromString_single (hn : n < 2 ^ 31) :
    rangeParseFromString strtod (sgeU32 n) true false = (some ⟨n, n, 1⟩, []) := by
  have hread := @rangeParseFromString_text strtod (.single (.ofNat n hn))
  rw [RangeSpec.text, RangeSpec.range, Decimal.ofNat_value] at hread
  rw [sgeU32_eq hn, hread]

/-- A part that begins with a minus is refused, because a colon has to stand behind its end. -/
theorem rangeParseFromString_minus :
    (rangeParseFromString strtod ('-' :: t) true false).1 = none := by
  have hlower : ('-' :: t).map Char.toLower ≠ "undefined".toList := fun heq =>
    absurd (List.cons.inj heq).1 (by decide)
  rw [rangeParseFromString, if_neg hlower]
  simp only [List.head?_cons, List.tail_cons, if_true, true_and, Bool.false_eq_true, if_false]
  by_cases ht : t = []
  · rw [if_pos ht]
  · rw [if_neg ht]
    by_cases hzero : toULong32 (strtol t).1 = 0 ∧ t = (strtol t).2
    · rw [if_pos hzero]
    · have htrailer : (strtol t).2 ≠ [] ∨ (strtol t).2.head? ≠ some ':' := by
        by_cases hrest : (strtol t).2 = []
        · exact .inr (by simp [hrest])
        · exact .inl hrest
      rw [if_neg hzero, if_pos one_ne_zero, if_pos htrailer]

theorem parseStep_digits (hstrtod : ReadsDecimals strtod) (hpos : 1 ≤ s) (hs : s < 2 ^ 31) :
    parseStep strtod n m (sgeU32 s) = setRange n m s := by
  have hread : strtod (sgeU32 s) = ((s : ℚ), []) := by
    rw [sgeU32_eq hs]
    exact hstrtod s hs
  have hcast : toULong32 ((s : ℚ).floor) = s := by
    rw [← Int.cast_natCast, Rat.floor_intCast, toULong32_eq (by omega)]
  have hlt : (0 : ℚ) < s := by exact_mod_cast hpos
  have hexact : ¬ ((1 : ℚ) / 10 ^ 12 < s - s ∨ (s = 0 ∧ sgeU32 s = [])) := by
    rw [sub_self, not_or]
    exact ⟨by norm_num, fun h => sgeU32_plain.1 h.2⟩
  rw [parseStep, hread]
  simp only [hcast, if_pos hlt, if_neg hexact, ne_eq, not_true, if_false]

theorem parseEnd_stepped (hstrtod : ReadsDecimals strtod) (hm : m < 2 ^ 32) (hpos : 1 ≤ s)
    (hs : s < 2 ^ 31) :
    parseEnd strtod n (sgeU32 m ++ ':' :: sgeU32 s) true false = setRange n m s := by
  obtain ⟨z, hz, hcast⟩ := @strtol_sgeU32 m (':' :: sgeU32 s) hm (by simp)
  have hne : sgeU32 m ++ ':' :: sgeU32 s ≠ ':' :: sgeU32 s := by
    simp [(@sgeU32_plain m).1]
  rw [parseEnd, if_neg (by simp)]
  simp only [hz, hcast, hne, and_false, if_false, List.head?_cons, List.tail_cons, true_and,
    reduceCtorEq, false_or, not_true, if_true, parseStep_digits strtod hstrtod hpos hs]

theorem rangeParseFromString_stepped (hstrtod : ReadsDecimals strtod) (hn : n < 2 ^ 31)
    (hm : m < 2 ^ 32) (hle : n ≤ m) (hpos : 1 ≤ s) (hs : s < 2 ^ 31) :
    rangeParseFromString strtod (sgeU32 n ++ '-' :: (sgeU32 m ++ ':' :: sgeU32 s)) true false =
      (some ⟨n, m, s⟩, []) := by
  generalize hrest : '-' :: (sgeU32 m ++ ':' :: sgeU32 s) = rest
  have hread : strtol (sgeU32 n ++ rest) = ((n : ℤ), rest) := by
    rw [sgeU32_eq hn, strtol_digits (by simp [← hrest]), Decimal.ofNat_value]
  obtain ⟨c, hhead, hc⟩ : ∃ c, (sgeU32 n ++ rest).head? = some c ∧ c.isDigit = true := by
    obtain ⟨c, hhead, hc⟩ := (Decimal.ofNat n hn).head
    exact ⟨c, by rw [sgeU32_eq hn, List.head?_append, hhead, Option.some_or], hc⟩
  have hminus : (sgeU32 n ++ rest).head? ≠ some '-' := by
    rw [hhead]
    exact fun heq => (isDigit_plain hc).2.1 (Option.some.inj heq)
  have hne : sgeU32 n ++ rest ≠ rest := by
    simp [(@sgeU32_plain n).1]
  have hbegin : rest.head? = some '-' := by
    rw [← hrest, List.head?_cons]
  have hnil : rest ≠ [] := by
    rw [← hrest]
    exact nofun
  have hend : parseEnd strtod n rest.tail true false = (some ⟨n, m, s⟩, []) := by
    rw [← hrest, List.tail_cons, parseEnd_stepped strtod hstrtod hm hpos hs, setRange,
      if_neg (by omega)]
  rw [rangeParseFromString, if_neg (digit_ne_undefined hc hhead)]
  simp only [hminus, if_false, zero_ne_one, false_and, hread, toULong32_eq (by omega : n < 2 ^ 32),
    hne, and_false, ne_eq, not_true, hnil, hbegin, true_or, hend]

end Parts

/-- A part that is refused makes the parse fail, or it is the only one. -/
theorem parseTokens_refused {us : List (List Char)}
    (h : ∃ u ∈ us, (rangeParseFromString strtod u true false).1 = none) (first : Bool)
    (rl : Option (List Range)) (answers : List String) :
    (parseTokens strtod false true false first false rl answers us).1 = false ∨
      (first = true ∧ (parseTokens strtod false true false first false rl answers us).2.1 = rl) := by
  induction us generalizing first rl answers with
  | nil =>
      obtain ⟨u, hu, -⟩ := h
      exact absurd hu List.not_mem_nil
  | cons u us ih =>
      rw [parseTokens, Bool.and_false]
      simp only [Bool.false_eq_true, if_false]
      rcases hread : rangeParseFromString strtod u true false with ⟨_ | r, errors⟩
      · cases first with
        | false => exact .inl rfl
        | true =>
            cases us with
            | nil => exact .inr ⟨rfl, rfl⟩
            | cons v us =>
                left
                rfl
      · obtain ⟨v, hv, hnone⟩ := h
        rcases List.mem_cons.mp hv with rfl | hv
        · rw [hread] at hnone
          cases hnone
        · rcases ih ⟨v, hv, hnone⟩ false (some (expandRangeList r rl)) (answers ++ errors) with
            hfail | ⟨hfirst, -⟩
          · exact .inl hfail
          · cases hfirst

section RoundTrip
variable {l : List Range} {r : Range}

/-- The parse of the printed list succeeds with the ids of the list. -/
def RoundTrips (l : List Range) : Prop :=
  ∃ out answers, rangeListParseFromString strtod none []
      (rangeListPrintToString (some l) [] false false false) false true false =
      (true, out, answers) ∧
    ids (out.getD []) = ids l

theorem joined_append {us vs : List (List Char)} (hus : us ≠ []) (hvs : vs ≠ []) :
    joined (us ++ vs) = joined us ++ ',' :: joined vs := by
  obtain ⟨v, vs, rfl⟩ := List.exists_cons_of_ne_nil hvs
  induction us with
  | nil => exact absurd rfl hus
  | cons u us ih =>
      cases us with
      | nil => rfl
      | cons w us =>
          rw [List.cons_append, List.cons_append, joined, ← List.cons_append,
            ih (List.cons_ne_nil w us), joined, List.append_assoc, List.cons_append]

theorem joined_ne_nil {us : List (List Char)} (h : ∀ u ∈ us, u ≠ []) (hus : us ≠ []) :
    joined us ≠ [] := by
  obtain ⟨u, us, rfl⟩ := List.exists_cons_of_ne_nil hus
  have hu := h u (by simp)
  cases us with
  | nil => exact hu
  | cons v us =>
      rw [joined]
      simp

namespace Range

theorem Unwrapped.le (h : r.Unwrapped) : r.min ≤ r.max := (segment_le h.max_mem).1

theorem Unwrapped.step_lt (h : r.Unwrapped) (hne : r.min ≠ r.max)
    (hpair : r.min + r.step ≠ r.max) : r.step < 2 ^ 31 := by
  obtain ⟨k, hk⟩ := h.max_mem.1
  have hnext := h.next_lt
  rcases k with _ | _ | k
  · omega
  · omega
  · have hmul : (k + 1 + 1) * r.step = k * r.step + 2 * r.step := by ring
    omega

theorem parts_ne : r.parts ≠ [] := by
  unfold parts
  split_ifs <;> exact nofun

theorem parts_plain : ∀ u ∈ r.parts, u ≠ [] ∧ ∀ c ∈ u, c ≠ ',' := by
  intro u hu
  unfold parts at hu
  split_ifs at hu
  · obtain rfl := List.mem_singleton.mp hu
    exact sgeU32_plain
  · rcases List.mem_cons.mp hu with rfl | hu
    · exact sgeU32_plain
    · obtain rfl := List.mem_singleton.mp hu
      exact sgeU32_plain
  · obtain rfl := List.mem_singleton.mp hu
    constructor
    · simp
    · intro c hc
      simp only [List.mem_append, List.mem_cons] at hc
      rcases hc with hc | rfl | hc | rfl | hc
      · exact sgeU32_plain.2 c hc
      · decide
      · exact sgeU32_plain.2 c hc
      · decide
      · exact sgeU32_plain.2 c hc

theorem Unwrapped.print (h : r.Unwrapped) (string : List Char) :
    rangeToDstring r.min r.max (toInt r.step) string false false false =
      (if string.length > 0 then string ++ [','] else string) ++ joined r.parts := by
  have hle := h.le
  have hnext := h.next_lt
  have hsum : toULong32 (r.min + toInt r.step) = r.min + r.step := by
    unfold toULong32 toInt
    split_ifs <;> omega
  unfold rangeToDstring parts
  rw [hsum]
  by_cases hne : r.min = r.max
  · simp [hne, joined]
  · by_cases hpair : r.min + r.step = r.max
    · simp [hne, hpair, joined]
    · simp [hne, hpair, joined, sgeU32]

theorem print_joined {us : List (List Char)} (hus : ∀ u ∈ us, u ≠ [])
    (hl : ∀ r ∈ l, r.Unwrapped) :
    rangeListPrintToString (some l) (joined us) false false false =
      joined (us ++ l.flatMap parts) := by
  induction l generalizing us with
  | nil => simp [rangeListPrintToString]
  | cons r l ih =>
      have hstep : rangeToDstring r.min r.max (toInt r.step) (joined us) false false false =
          joined (us ++ r.parts) := by
        rw [(hl r (by simp)).print]
        by_cases hnil : us = []
        · rw [hnil]
          rfl
        · rw [if_pos (List.length_pos_iff.mpr (joined_ne_nil hus hnil)), joined_append hnil parts_ne]
          simp
      have hparts : ∀ u ∈ us ++ r.parts, u ≠ [] := by
        intro u hu
        rcases List.mem_append.mp hu with hu | hu
        · exact hus u hu
        · exact (parts_plain u hu).1
      have htail := ih hparts (fun q hq => hl q (by simp [hq]))
      rw [rangeListPrintToString, List.foldl_cons, hstep, List.flatMap_cons, ← List.append_assoc,
        ← htail]
      rfl

theorem Unwrapped.read (hstrtod : ReadsDecimals strtod) (h : r.Unwrapped) (hread : r.Readable) :
    List.Forall₂ (fun u q => rangeParseFromString strtod u true false = (some q, []))
      r.parts r.readBack := by
  obtain ⟨hmin, hmax⟩ := hread
  have hle := h.le
  have hnext := h.next_lt
  unfold parts readBack
  split_ifs with hne hpair
  · exact .cons (rangeParseFromString_single strtod hmin) .nil
  · have hlt : r.max < 2 ^ 31 := by
      rcases hmax with hlt | ⟨-, hpair'⟩
      · exact hlt
      · exact absurd hpair hpair'
    exact .cons (rangeParseFromString_single strtod hmin)
      (.cons (rangeParseFromString_single strtod hlt) .nil)
  · exact .cons (rangeParseFromString_stepped strtod hstrtod hmin (by omega) hle h.step_pos
      (h.step_lt hne hpair)) .nil

theorem Unwrapped.refused (h : r.Unwrapped) (hread : ¬ r.Readable) :
    ∃ u ∈ r.parts, (rangeParseFromString strtod u true false).1 = none := by
  have hle := h.le
  have hnext := h.next_lt
  have hpos := h.step_pos
  unfold Readable at hread
  unfold parts
  by_cases hmin : r.min < 2 ^ 31
  · have hmax : 2 ^ 31 ≤ r.max := by omega
    by_cases hne : r.min = r.max
    · omega
    · have hpair : r.min + r.step = r.max := by
        by_contra hpair
        exact hread ⟨hmin, .inr ⟨hne, hpair⟩⟩
      rw [if_neg hne, if_pos hpair]
      refine ⟨_, List.mem_cons_of_mem _ List.mem_cons_self, ?_⟩
      rw [sgeU32_large hmax (by omega)]
      exact rangeParseFromString_minus strtod
  · have hlarge : 2 ^ 31 ≤ r.min := not_lt.mp hmin
    split_ifs
    · refine ⟨_, List.mem_cons_self, ?_⟩
      rw [sgeU32_large hlarge (by omega)]
      exact rangeParseFromString_minus strtod
    · refine ⟨_, List.mem_cons_self, ?_⟩
      rw [sgeU32_large hlarge (by omega)]
      exact rangeParseFromString_minus strtod
    · refine ⟨_, List.mem_cons_self, ?_⟩
      rw [sgeU32_large hlarge (by omega)]
      exact rangeParseFromString_minus strtod

end Range

theorem ids_readBack (h : r.Unwrapped) : ids r.readBack = r.ids := by
  unfold Range.readBack
  split_ifs with hne hpair
  · simp [Range.ids, ← hne]
  · have hcut := @segment_cut r.min r.max r.step r.min ⟨left_mem_grid, h.le⟩
    rw [ids_cons, ids_cons, ids_nil, Set.union_empty, Range.ids, Range.ids, Range.ids, hcut, hpair]
    simp
  · simp

theorem ids_flatMap_readBack (hl : ∀ r ∈ l, r.Unwrapped) :
    ids (l.flatMap Range.readBack) = ids l := by
  induction l with
  | nil => rfl
  | cons r l ih =>
      rw [List.flatMap_cons, ids_append, ids_cons, ids_readBack (hl r (by simp)),
        ih (fun q hq => hl q (by simp [hq]))]

theorem expandAll_ascending {rs : List Range} (h : rs.Pairwise (fun a b => a.max < b.min)) :
    (expandAll rs).getD [] = rs.reverse := by
  induction rs using List.reverseRecOn with
  | nil => rfl
  | append_singleton rs r ih =>
      obtain ⟨hrs, -, hlast⟩ := List.pairwise_append.mp h
      rw [expandAll_append, ih hrs, Option.getD_some, List.reverse_append]
      rcases List.eq_nil_or_concat' rs with rfl | ⟨front, q, rfl⟩
      · rfl
      · have hlt : q.max < r.min := hlast q (by simp) r (by simp)
        rw [List.reverse_append, List.reverse_singleton, List.singleton_append,
          expandRangeList_eq (List.cons_ne_nil q _), expandLoop_insert hlt]
        rfl

theorem readBack_bounds (h : r.Unwrapped) : ∀ q ∈ r.readBack, r.min ≤ q.min ∧ q.max ≤ r.max := by
  have hle := h.le
  intro q hq
  unfold Range.readBack at hq
  split_ifs at hq
  · obtain rfl := List.mem_singleton.mp hq
    exact ⟨le_rfl, hle⟩
  · rcases List.mem_cons.mp hq with rfl | hq
    · exact ⟨le_rfl, hle⟩
    · obtain rfl := List.mem_singleton.mp hq
      exact ⟨hle, le_rfl⟩
  · obtain rfl := List.mem_singleton.mp hq
    exact ⟨le_rfl, le_rfl⟩

theorem readBack_sorted (h : r.Unwrapped) : r.readBack.Pairwise (fun a b => a.max < b.min) := by
  have hpos := h.step_pos
  unfold Range.readBack
  split_ifs
  · exact List.pairwise_singleton _ _
  · simp
    omega
  · exact List.pairwise_singleton _ _

theorem flatMap_readBack_sorted (h : Ascending l) :
    (l.flatMap Range.readBack).Pairwise (fun a b => a.max < b.min) := by
  rw [List.pairwise_flatMap]
  refine ⟨fun r hr => readBack_sorted (h.ranges r hr), ?_⟩
  refine h.sorted.imp_of_mem fun {r q} hr hq hlt a ha b hb => ?_
  have hfirst := readBack_bounds (h.ranges r hr) a ha
  have hsecond := readBack_bounds (h.ranges q hq) b hb
  omega

theorem tokens_print (h : Ascending l) :
    tokens (rangeListPrintToString (some l) [] false false false) = l.flatMap Range.parts := by
  have hprint := @Range.print_joined l [] (by simp) h.ranges
  rw [joined, List.nil_append] at hprint
  rw [hprint]
  apply tokens_joined
  intro u hu
  obtain ⟨r, -, hu⟩ := List.mem_flatMap.mp hu
  exact Range.parts_plain u hu

theorem not_roundTrips (h : Ascending l) (hr : r ∈ l) (hread : ¬ r.Readable) :
    ¬ RoundTrips strtod l := by
  rw [RoundTrips, rangeListParseFromString, tokens_print h]
  rintro ⟨out, answers, hparse, hids⟩
  obtain ⟨u, hu, hnone⟩ := (h.ranges r hr).refused strtod hread
  rcases parseTokens_refused strtod ⟨u, List.mem_flatMap.mpr ⟨r, hr, hu⟩, hnone⟩ true none [] with
    hfail | ⟨-, hout⟩
  · rw [hparse] at hfail
    cases hfail
  · rw [hparse] at hout
    obtain rfl : out = none := hout
    have hmem : r.max ∈ ids l := ⟨r, hr, (h.ranges r hr).max_mem⟩
    rw [← hids] at hmem
    simp at hmem

theorem roundTrips_of_readable (hstrtod : ReadsDecimals strtod) (h : Ascending l)
    (hread : ∀ r ∈ l, r.Readable) : RoundTrips strtod l := by
  have hall : List.Forall₂
      (fun u q => rangeParseFromString strtod u true false = (some q, []))
      (l.flatMap Range.parts) (l.flatMap Range.readBack) := by
    have hsame : List.Forall₂ (fun r q => r = q ∧ r ∈ l) l l :=
      List.forall₂_same.mpr fun r hr => ⟨rfl, hr⟩
    refine List.rel_flatMap hsame ?_
    rintro r _ ⟨rfl, hr⟩
    exact (h.ranges r hr).read strtod hstrtod (hread r hr)
  rw [RoundTrips, rangeListParseFromString, tokens_print h]
  refine ⟨_, _, parseTokens_read strtod true none hall, ?_⟩
  rw [← expandAll, expandAll_ascending (flatMap_readBack_sorted h), ids_reverse,
    ids_flatMap_readBack h.ranges]

/-- A printed list is read back exactly when no part of it begins with a minus: all its numbers are
below `2 ^ 31`, apart from the second end of a range that is printed with its step. -/
theorem rangeListPrintToString_roundTrips_iff (hstrtod : ReadsDecimals strtod) (l : List Range)
    (h : Ascending l) : RoundTrips strtod l ↔ ∀ r ∈ l, r.Readable := by
  constructor
  · intro htrip r hr
    by_contra hread
    exact not_roundTrips strtod h hr hread htrip
  · exact roundTrips_of_readable strtod hstrtod h

end RoundTrip

/-- What `strtod` makes of a string of digits. -/
def strtodDigits (s : List Char) : ℚ × List Char :=
  ((Nat.ofDigitChars 10 (s.takeWhile Char.isDigit) 0 : ℕ), s.dropWhile Char.isDigit)

theorem strtodDigits_reads : ReadsDecimals strtodDigits := by
  intro n _
  have hdigits : ∀ c ∈ Nat.toDigits 10 n, c.isDigit = true := fun c hc =>
    Nat.isDigit_of_mem_toDigits (by norm_num) (by norm_num) hc
  obtain ⟨htake, hdrop⟩ := @takeWhile_digits (Nat.toDigits 10 n) [] hdigits (by simp)
  rw [List.append_nil] at htake hdrop
  rw [strtodDigits, htake, hdrop, Nat.ofDigitChars_ten_toDigits]

/-- The range `a-b:s`. -/
theorem unwrapped_of_eq {a b s k : ℕ} (hmax : b = a + k * s) (hstep : 1 ≤ s)
    (hnext : b + s < 2 ^ 32) : (⟨a, b, s⟩ : Range).Unwrapped :=
  ⟨⟨⟨k, hmax⟩, le_rfl⟩, hstep, hnext⟩

/-- The ids 1, 5, 9, 20, 30 and 100, 125, ..., 4000000000. -/
def largeEnd : List Range := [⟨1, 9, 4⟩, ⟨20, 30, 10⟩, ⟨100, 4000000000, 25⟩]

theorem largeEnd_ascending : Ascending largeEnd where
  ne_nil := nofun
  ranges := by
    intro r hr
    simp only [largeEnd, List.mem_cons, List.not_mem_nil, or_false] at hr
    rcases hr with rfl | rfl | rfl
    · exact @unwrapped_of_eq _ _ _ 2 rfl (by norm_num) (by norm_num)
    · exact @unwrapped_of_eq _ _ _ 1 rfl (by norm_num) (by norm_num)
    · exact @unwrapped_of_eq _ _ _ 159999996 rfl (by norm_num) (by norm_num)
  sorted := by simp [largeEnd]

/-- Its text is `1-9:4,20,30,100--294967296:25`. -/
theorem largeEnd_roundTrip : RoundTrips strtodDigits largeEnd := by
  refine (rangeListPrintToString_roundTrips_iff strtodDigits strtodDigits_reads largeEnd
    largeEnd_ascending).mpr fun r hr => ?_
  simp only [largeEnd, List.mem_cons, List.not_mem_nil, or_false] at hr
  rcases hr with rfl | rfl | rfl <;> simp [Range.Readable]

/-- The single id `4000000000`. -/
def largeId : List Range := [⟨4000000000, 4000000000, 1⟩]

theorem largeId_ascending : Ascending largeId where
  ne_nil := nofun
  ranges := by
    intro r hr
    obtain rfl := List.mem_singleton.mp hr
    exact @unwrapped_of_eq _ _ _ 0 rfl (by norm_num) (by norm_num)
  sorted := List.pairwise_singleton _ _

/-- It is printed with a minus, and that is not read. -/
theorem largeId_notRoundTrip : Ascending largeId ∧
    rangeListPrintToString (some largeId) [] false false false = "-294967296".toList ∧
    ¬ RoundTrips strtodDigits largeId := by
  refine ⟨largeId_ascending, by decide, ?_⟩
  exact not_roundTrips strtodDigits largeId_ascending List.mem_cons_self (by simp [Range.Readable])

end GridEngine
