import GridEngine.RangeExpand

/-!
# Parsing a range specification

`range_list_parse_from_string` cuts its string at commas, reads each part with
`range_parse_from_string` and inserts the range with `expand_range_list`. Strings are lists of
characters without the final null. `strtod` reads a step, which a specification without colons
does not have, and is a parameter.
-/

namespace GridEngine
open Segments

/-- `RANGE_INFINITY`. -/
def rangeInfinity : ℕ := 9999999

def isSpace (c : Char) : Bool :=
  c = ' ' ∨ c = '\t' ∨ c = '\n' ∨ c = '\x0b' ∨ c = '\x0c' ∨ c = '\r'

/-- The sign that `strtol` reads, true for a minus. -/
def readSign : List Char → Bool × List Char
  | '-' :: s => (true, s)
  | '+' :: s => (false, s)
  | s => (false, s)

/-- `strtol` in base ten, with the rest behind the number. -/
def strtol (s : List Char) : ℤ × List Char :=
  let (minus, t) := readSign (s.dropWhile isSpace)
  let digits := t.takeWhile Char.isDigit
  if digits = [] then (0, s)
  else
    let n : ℤ := Nat.ofDigitChars 10 digits 0
    (if minus then max (-2 ^ 63) (-n) else min (2 ^ 63 - 1) n, t.dropWhile Char.isDigit)

/-- A number stored in a `u_long32`. -/
def toULong32 (z : ℤ) : ℕ := (z % 2 ^ 32).toNat

/-- `SFQ`. -/
def sfq (s : List Char) : String := "\"" ++ String.ofList (s.take 100) ++ "\""

def msgNoDecimal (s : List Char) : String :=
  "Numerical value invalid!\nThe initial portion of string " ++ sfq s ++ " contains no decimal number"

def msgUnknownTrailer (s trailer : List Char) : String :=
  "Range specifier " ++ sfq s ++ " has unknown trailer " ++ sfq trailer

def msgNegativStep : String := "Negative or zero step in range is not allowed"

def msgUnexpectedRange : String := "unexpected range following \"UNDEFINED\""

def msgUnexpectedUndefined : String := "unexpected \"UNDEFINED\" following range"

/-- The end of `range_parse_from_string`, with the ends in their order. -/
def setRange (rmin rmax step : ℕ) : Option Range × List String :=
  if rmax < rmin then (some ⟨rmax, rmin, step⟩, []) else (some ⟨rmin, rmax, step⟩, [])

variable (strtod : List Char → ℚ × List Char)

/-- The step behind a colon. -/
def parseStep (rmin rmax : ℕ) (rstr : List Char) : Option Range × List String :=
  let (dbldummy, dptr) := strtod rstr
  let ldummy := toULong32 dbldummy.floor
  if 0 < dbldummy then
    if (1 : ℚ) / 10 ^ 12 < dbldummy - ldummy ∨ (ldummy = 0 ∧ rstr = dptr) then
      (none, [msgNoDecimal rstr])
    else if dptr ≠ [] then (none, [msgUnknownTrailer rstr dptr])
    else setRange rmin rmax ldummy
  else if dptr = rstr then (none, [msgNoDecimal rstr])
  else (none, [msgNegativStep])

/-- What follows the minus behind the first number. -/
def parseEnd (rmin : ℕ) (rstr : List Char) (stepAllowed infAllowed : Bool) :
    Option Range × List String :=
  if rstr = [] then
    if infAllowed then setRange rmin rangeInfinity 1 else (none, [])
  else
    let (value, dptr) := strtol rstr
    let ldummy := toULong32 value
    if ldummy = 0 ∧ rstr = dptr then (none, [msgNoDecimal rstr])
    else if ¬ (dptr = [] ∨ (stepAllowed ∧ dptr.head? = some ':')) then
      (none, [msgUnknownTrailer rstr dptr])
    else if stepAllowed ∧ dptr.head? = some ':' then parseStep strtod rmin ldummy dptr.tail
    else setRange rmin ldummy 1

/-- `range_parse_from_string`, with the texts of the syntax errors it adds to the answer list. -/
def rangeParseFromString (rstr : List Char) (stepAllowed infAllowed : Bool) :
    Option Range × List String :=
  if rstr.map Char.toLower = "undefined".toList then (none, [])
  else
    let oldStr := rstr
    let (rmin, rstr) := if rstr.head? = some '-' then (1, rstr.tail) else (0, rstr)
    if rmin = 1 ∧ rstr = [] then
      if infAllowed then (some ⟨rmin, rangeInfinity, 0⟩, []) else (none, [])
    else
      let (value, dptr) := strtol rstr
      let ldummy := toULong32 value
      if ldummy = 0 ∧ rstr = dptr then (none, [msgNoDecimal rstr])
      else if rmin ≠ 0 then
        if dptr ≠ [] ∨ (stepAllowed ∧ dptr.head? ≠ some ':') then
          (none, [msgUnknownTrailer oldStr rstr])
        else setRange rmin ldummy 1
      else if dptr = [] then setRange ldummy ldummy 1
      else if ¬ (dptr.head? = some '-' ∨ (dptr.tail.head?.any Char.isDigit) ∨ dptr.tail = [] ∨
          (stepAllowed ∧ dptr.head? = some ':')) then
        (none, [msgUnknownTrailer oldStr dptr])
      else parseEnd strtod ldummy dptr.tail stepAllowed infAllowed

/-- `sge_strtok_r` at commas: the next part and the text that is saved behind it. -/
def sgeStrtokR (saved : List Char) : Option (List Char × List Char) :=
  match saved.dropWhile (· = ',') with
  | [] => none
  | c :: s => some ((c :: s).takeWhile (· ≠ ','), ((c :: s).dropWhile (· ≠ ',')).tail)

theorem sgeStrtokR_length {saved s rest : List Char} (h : sgeStrtokR saved = some (s, rest)) :
    rest.length < saved.length := by
  have hdrop := (List.dropWhile_suffix (l := saved) (· = ',')).length_le
  unfold sgeStrtokR at h
  split at h
  · exact absurd h nofun
  · rename_i c t heq
    obtain ⟨-, rfl⟩ := Prod.mk.inj (Option.some.inj h)
    have htail := (List.dropWhile_suffix (l := c :: t) (· ≠ ',')).length_le
    rw [heq] at hdrop
    simp only [List.length_tail, List.length_cons] at *
    omega

/-- All parts of a string. -/
def tokens (saved : List Char) : List (List Char) :=
  match _h : sgeStrtokR saved with
  | none => []
  | some (s, rest) => s :: tokens rest
termination_by saved.length
decreasing_by exact sgeStrtokR_length _h

/-- The loop of `range_list_parse_from_string` over the parts. -/
def parseTokens (justParse stepAllowed infAllowed : Bool) :
    Bool → Bool → Option (List Range) → List String → List (List Char) →
      Bool × Option (List Range) × List String
  | _, _, thisList, answers, [] => (true, thisList, answers)
  | first, undefined, thisList, answers, s :: rest =>
      if !first && undefined then (false, none, answers ++ [msgUnexpectedRange])
      else
        match rangeParseFromString strtod s stepAllowed infAllowed with
        | (none, errors) =>
            if first then
              parseTokens justParse stepAllowed infAllowed false true thisList (answers ++ errors) rest
            else (false, none, answers ++ errors ++ [msgUnexpectedUndefined])
        | (some range, errors) =>
            let thisList := if justParse then thisList else some (expandRangeList range thisList)
            parseTokens justParse stepAllowed infAllowed false undefined thisList (answers ++ errors)
              rest

/-- `range_list_parse_from_string`: its result, the list and the answers. -/
def rangeListParseFromString (thisList : Option (List Range)) (answers : List String)
    (string : List Char) (justParse stepAllowed infAllowed : Bool) :
    Bool × Option (List Range) × List String :=
  parseTokens strtod justParse stepAllowed infAllowed true false thisList answers (tokens string)

/-- A decimal number below `2 ^ 31`. -/
structure Decimal where
  digits : List Char
  ne_nil : digits ≠ []
  isDigit : ∀ c ∈ digits, c.isDigit = true
  lt : Nat.ofDigitChars 10 digits 0 < 2 ^ 31

def Decimal.value (n : Decimal) : ℕ := Nat.ofDigitChars 10 n.digits 0

/-- A written range, `n` or `n-m`. -/
inductive RangeSpec
  | single (n : Decimal)
  | pair (n m : Decimal)

namespace RangeSpec

def text : RangeSpec → List Char
  | single n => n.digits
  | pair n m => n.digits ++ '-' :: m.digits

/-- The ids between the written ends, in either order. -/
def ids : RangeSpec → Set ℕ
  | single n => {n.value}
  | pair n m => {x | min n.value m.value ≤ x ∧ x ≤ max n.value m.value}

def range : RangeSpec → Range
  | single n => ⟨n.value, n.value, 1⟩
  | pair n m => ⟨min n.value m.value, max n.value m.value, 1⟩

end RangeSpec

/-- The written ranges with commas between them. -/
def specText : List RangeSpec → List Char
  | [] => []
  | [s] => s.text
  | s :: t :: specs => s.text ++ ',' :: specText (t :: specs)

section Numbers
variable {n : Decimal} {t rest : List Char} {c : Char} {s : RangeSpec}

theorem isDigit_plain (hc : c.isDigit = true) :
    isSpace c = false ∧ c ≠ '-' ∧ c ≠ '+' ∧ c ≠ ',' := by
  refine ⟨?_, ?_, ?_, ?_⟩
  · rw [isSpace, decide_eq_false_iff_not]
    rintro (rfl | rfl | rfl | rfl | rfl | rfl) <;> exact absurd hc (by decide)
  · rintro rfl
    exact absurd hc (by decide)
  · rintro rfl
    exact absurd hc (by decide)
  · rintro rfl
    exact absurd hc (by decide)

theorem toULong32_eq {n : ℕ} (hn : n < 2 ^ 32) : toULong32 n = n := by
  unfold toULong32
  omega

theorem takeWhile_digits (ht : ∀ c ∈ t, c.isDigit = true)
    (hrest : ∀ c ∈ rest.head?, c.isDigit = false) :
    (t ++ rest).takeWhile Char.isDigit = t ∧ (t ++ rest).dropWhile Char.isDigit = rest := by
  have htail : rest.takeWhile Char.isDigit = [] ∧ rest.dropWhile Char.isDigit = rest := by
    cases rest with
    | nil => exact ⟨rfl, rfl⟩
    | cons d rest =>
        have hd := hrest d rfl
        exact ⟨List.takeWhile_cons_of_neg (by simp [hd]), List.dropWhile_cons_of_neg (by simp [hd])⟩
  constructor
  · rw [List.takeWhile_append_of_pos ht, htail.1, List.append_nil]
  · rw [List.dropWhile_append_of_pos ht, htail.2]

theorem strtol_digits (hrest : ∀ c ∈ rest.head?, c.isDigit = false) :
    strtol (n.digits ++ rest) = ((n.value : ℤ), rest) := by
  obtain ⟨c, ds, hds⟩ := List.exists_cons_of_ne_nil n.ne_nil
  have hc := isDigit_plain (n.isDigit c (by simp [hds]))
  have hspace : (n.digits ++ rest).dropWhile isSpace = n.digits ++ rest := by
    rw [hds, List.cons_append, List.dropWhile_cons_of_neg (by simp [hc.1])]
  have hsign : readSign (n.digits ++ rest) = (false, n.digits ++ rest) := by
    rw [hds, List.cons_append, readSign.eq_def]
    split
    · rename_i heq
      exact absurd (List.cons.inj heq).1 hc.2.1
    · rename_i heq
      exact absurd (List.cons.inj heq).1 hc.2.2.1
    · rfl
  obtain ⟨htake, hdrop⟩ := takeWhile_digits n.isDigit hrest
  have hlt := n.lt
  have hmin : min (2 ^ 63 - 1) ((Nat.ofDigitChars 10 n.digits 0 : ℕ) : ℤ) = n.value := by
    rw [Decimal.value]
    omega
  rw [strtol, hspace, hsign]
  simp only [htake, hdrop, n.ne_nil, if_false, Bool.false_eq_true, hmin]

theorem strtol_value (hrest : ∀ c ∈ rest.head?, c.isDigit = false) :
    toULong32 (strtol (n.digits ++ rest)).1 = n.value := by
  have hlt : n.value < 2 ^ 31 := n.lt
  rw [strtol_digits hrest, toULong32_eq (by omega)]

theorem setRange_pair {a b : ℕ} : setRange a b 1 = (some ⟨min a b, max a b, 1⟩, []) := by
  unfold setRange
  split_ifs with h
  · rw [min_eq_right h.le, max_eq_left h.le]
  · rw [min_eq_left (not_lt.mp h), max_eq_right (not_lt.mp h)]

theorem toLower_digit (hc : c.isDigit = true) : c.toLower = c := by
  simp only [Char.isDigit, Bool.and_eq_true, decide_eq_true_eq, UInt32.le_iff_toNat_le] at hc
  have hnine : '9'.val.toNat = 57 := rfl
  have hupper : 'A'.val.toNat = 65 := rfl
  unfold Char.toLower
  rw [dif_neg]
  rintro ⟨hge, -⟩
  rw [ge_iff_le, UInt32.le_iff_toNat_le] at hge
  omega

theorem digit_ne_undefined (hc : c.isDigit = true) (hs : t.head? = some c) :
    t.map Char.toLower ≠ "undefined".toList := by
  cases t with
  | nil => exact absurd hs nofun
  | cons d t =>
      obtain rfl : d = c := Option.some.inj hs
      rw [List.map_cons]
      intro heq
      have hlower : d.toLower = 'u' := (List.cons.inj heq).1
      rw [toLower_digit hc] at hlower
      rw [hlower] at hc
      exact absurd hc (by decide)

theorem Decimal.head (n : Decimal) : ∃ c, n.digits.head? = some c ∧ c.isDigit = true := by
  obtain ⟨c, ds, hds⟩ := List.exists_cons_of_ne_nil n.ne_nil
  exact ⟨c, by rw [hds, List.head?_cons], n.isDigit c (by simp [hds])⟩

theorem text_digit : ∃ c, s.text.head? = some c ∧ c.isDigit = true := by
  cases s with
  | single n => exact n.head
  | pair n m =>
      obtain ⟨c, hhead, hc⟩ := n.head
      exact ⟨c, by rw [RangeSpec.text, List.head?_append, hhead, Option.some_or], hc⟩

theorem text_ne_undefined : s.text.map Char.toLower ≠ "undefined".toList := by
  obtain ⟨c, hhead, hc⟩ := @text_digit s
  exact digit_ne_undefined hc hhead

theorem text_head : s.text.head? ≠ some '-' := by
  obtain ⟨c, hhead, hc⟩ := @text_digit s
  rw [hhead]
  exact fun heq => (isDigit_plain hc).2.1 (Option.some.inj heq)

theorem rangeParseFromString_text :
    rangeParseFromString strtod s.text true false = (some s.range, []) := by
  rw [rangeParseFromString, if_neg text_ne_undefined]
  simp only [text_head, if_false, zero_ne_one, false_and, ne_eq, not_true]
  cases s with
  | single n =>
      have hread := @strtol_digits n [] (by simp)
      have hvalue := @strtol_value n [] (by simp)
      rw [List.append_nil] at hread hvalue
      simp only [RangeSpec.text, hread, n.ne_nil, and_false, if_false, if_true]
      rw [hread] at hvalue
      rw [hvalue, setRange_pair, min_self, max_self]
      rfl
  | pair n m =>
      have hread := @strtol_digits n ('-' :: m.digits) (by simp)
      have hvalue := @strtol_value n ('-' :: m.digits) (by simp)
      have hreadEnd := @strtol_digits m [] (by simp)
      have hvalueEnd := @strtol_value m [] (by simp)
      rw [List.append_nil] at hreadEnd hvalueEnd
      rw [hread] at hvalue
      rw [hreadEnd] at hvalueEnd
      have hne : n.digits ++ '-' :: m.digits ≠ '-' :: m.digits := by
        simp [n.ne_nil]
      simp only [RangeSpec.text, hread, hne, and_false, if_false, List.head?_cons, List.tail_cons,
        reduceCtorEq, true_or, not_true, hvalue, parseEnd, m.ne_nil, hreadEnd, hvalueEnd,
        List.head?_nil, setRange_pair]
      rfl

theorem text_comma : ∀ c ∈ s.text, c ≠ ',' := by
  intro c hc
  cases s with
  | single n => exact (isDigit_plain (n.isDigit c hc)).2.2.2
  | pair n m =>
      rcases List.mem_append.mp hc with hc | hc
      · exact (isDigit_plain (n.isDigit c hc)).2.2.2
      · rcases List.mem_cons.mp hc with rfl | hc
        · decide
        · exact (isDigit_plain (m.isDigit c hc)).2.2.2

end Numbers

section Texts
variable {s : RangeSpec} {specs : List RangeSpec} {t rest : List Char} {c : Char}

theorem sgeStrtokR_comma (ht : ∀ c ∈ t, c ≠ ',') (hne : t ≠ []) :
    sgeStrtokR (t ++ ',' :: rest) = some (t, rest) ∧ sgeStrtokR t = some (t, []) := by
  obtain ⟨c, ds, rfl⟩ := List.exists_cons_of_ne_nil hne
  have hc := ht c (by simp)
  have hall : ∀ d ∈ c :: ds, decide (d ≠ ',') = true := fun d hd => decide_eq_true (ht d hd)
  have htake := @List.takeWhile_append_of_pos _ (fun d => decide (d ≠ ',')) _ (',' :: rest) hall
  have hdrop := @List.dropWhile_append_of_pos _ (fun d => decide (d ≠ ',')) _ (',' :: rest) hall
  have htake' := @List.takeWhile_append_of_pos _ (fun d => decide (d ≠ ',')) _ [] hall
  have hdrop' := @List.dropWhile_append_of_pos _ (fun d => decide (d ≠ ',')) _ [] hall
  constructor
  · rw [sgeStrtokR, List.cons_append, List.dropWhile_cons_of_neg (by simp [hc])]
    rw [List.cons_append] at htake hdrop
    simp only [htake, hdrop]
    simp
  · rw [sgeStrtokR, List.dropWhile_cons_of_neg (by simp [hc])]
    rw [List.append_nil] at htake' hdrop'
    simp only [htake', hdrop']
    simp

theorem tokens_nil : tokens [] = [] := by
  rw [tokens]
  rfl

theorem tokens_of_eq {u : List Char} (h : sgeStrtokR t = some (u, rest)) :
    tokens t = u :: tokens rest := by
  rw [tokens.eq_def]
  split
  · rename_i heq
    rw [h] at heq
    exact absurd heq nofun
  · rename_i heq
    rw [h] at heq
    obtain ⟨rfl, rfl⟩ := Prod.mk.inj (Option.some.inj heq)
    rfl

/-- The parts with commas between them. -/
def joined : List (List Char) → List Char
  | [] => []
  | [u] => u
  | u :: v :: us => u ++ ',' :: joined (v :: us)

theorem tokens_joined {us : List (List Char)} (h : ∀ u ∈ us, u ≠ [] ∧ ∀ c ∈ u, c ≠ ',') :
    tokens (joined us) = us := by
  induction us with
  | nil => exact tokens_nil
  | cons u us ih =>
      obtain ⟨hne, hcomma⟩ := h u (by simp)
      cases us with
      | nil => rw [joined, tokens_of_eq (@sgeStrtokR_comma u [] hcomma hne).2, tokens_nil]
      | cons v us =>
          rw [joined, tokens_of_eq (sgeStrtokR_comma hcomma hne).1,
            ih (fun w hw => h w (List.mem_cons_of_mem u hw))]

theorem text_ne_nil : s.text ≠ [] := by
  cases s with
  | single n => exact n.ne_nil
  | pair n m => simp [RangeSpec.text]

theorem specText_eq : specText specs = joined (specs.map RangeSpec.text) := by
  induction specs with
  | nil => rfl
  | cons s specs ih =>
      cases specs with
      | nil => rfl
      | cons t specs =>
          rw [specText, ih]
          rfl

theorem tokens_specText : tokens (specText specs) = specs.map RangeSpec.text := by
  rw [specText_eq]
  apply tokens_joined
  intro u hu
  obtain ⟨s, -, rfl⟩ := List.mem_map.mp hu
  exact ⟨text_ne_nil, text_comma⟩

/-- Parts that are all read without an error are inserted one after the other. -/
theorem parseTokens_read {rs : List Range} (first : Bool) (rl : Option (List Range))
    {us : List (List Char)}
    (h : List.Forall₂ (fun u r => rangeParseFromString strtod u true false = (some r, [])) us rs) :
    parseTokens strtod false true false first false rl [] us =
      (true, rs.foldl (fun rl r => some (expandRangeList r rl)) rl, []) := by
  induction h generalizing first rl with
  | nil => rfl
  | cons hread _ ih =>
      rw [parseTokens, hread, Bool.and_false]
      simp only [Bool.false_eq_true, if_false, List.append_nil]
      rw [ih, List.foldl_cons]

theorem rangeListParseFromString_text :
    rangeListParseFromString strtod none [] (specText specs) false true false =
      (true, expandAll (specs.map RangeSpec.range), []) := by
  have hread : List.Forall₂ (fun u r => rangeParseFromString strtod u true false = (some r, []))
      (specs.map RangeSpec.text) (specs.map RangeSpec.range) := by
    rw [List.forall₂_map_left_iff, List.forall₂_map_right_iff, List.forall₂_same]
    exact fun s _ => rangeParseFromString_text strtod
  rw [rangeListParseFromString, tokens_specText, parseTokens_read strtod true none hread, expandAll]

theorem range_block : Block s.range := by
  cases s with
  | single n => exact ⟨le_rfl, rfl⟩
  | pair n m => exact ⟨min_le_max, rfl⟩

theorem range_ids : s.range.ids = s.ids := by
  ext x
  rw [range_block.mem_ids]
  cases s with
  | single n =>
      simp only [RangeSpec.range, RangeSpec.ids, Set.mem_singleton_iff]
      omega
  | pair n m => rfl

/-- The parse succeeds with a descending list of the written ids without overlaps. -/
def ParsesExactly (specs : List RangeSpec) : Prop :=
  ∃ out, rangeListParseFromString strtod none [] (specText specs) false true false =
      (true, out, []) ∧
    ids (out.getD []) = {x | ∃ s ∈ specs, x ∈ s.ids} ∧ Descending (out.getD [])

theorem parsesExactly_iff : ParsesExactly strtod specs ↔
    Expands (specs.map RangeSpec.range) ((expandAll (specs.map RangeSpec.range)).getD []) := by
  have hids : ids (specs.map RangeSpec.range) = {x | ∃ s ∈ specs, x ∈ s.ids} := by
    ext x
    simp [mem_ids, range_ids]
  rw [ParsesExactly, rangeListParseFromString_text, Expands, hids, and_comm]
  simp

/-- A specification and all its beginnings are parsed exactly when every written range meets at
most two blocks of the ranges before it, and where it meets none lies above or below all. -/
theorem rangeListParseFromString_exact_iff (specs : List RangeSpec) :
    (∀ p, p <+: specs → ParsesExactly strtod p) ↔ AllFit (specs.map RangeSpec.range) := by
  have hblocks : ∀ r ∈ specs.map RangeSpec.range, Block r := by
    intro r hr
    obtain ⟨s, -, rfl⟩ := List.mem_map.mp hr
    exact range_block
  rw [← expandAll_iff hblocks]
  constructor
  · intro h p hp
    obtain ⟨q, hq, rfl⟩ := List.prefix_map_iff.mp hp
    exact (parsesExactly_iff strtod).mp (h q hq)
  · intro h p hp
    exact (parsesExactly_iff strtod).mpr (h _ (hp.map RangeSpec.range))

end Texts

def Decimal.ofNat (n : ℕ) (h : n < 2 ^ 31) : Decimal where
  digits := Nat.toDigits 10 n
  ne_nil := Nat.toDigits_ne_nil
  isDigit _ hc := Nat.isDigit_of_mem_toDigits (by norm_num) (by norm_num) hc
  lt := by rwa [Nat.ofDigitChars_ten_toDigits]

theorem Decimal.ofNat_value {n : ℕ} (h : n < 2 ^ 31) : (Decimal.ofNat n h).value = n :=
  Nat.ofDigitChars_ten_toDigits

/-- `20-30,1-5,10-12,8-11`. -/
def lostSpecs : List RangeSpec :=
  [.pair (.ofNat 20 (by norm_num)) (.ofNat 30 (by norm_num)),
    .pair (.ofNat 1 (by norm_num)) (.ofNat 5 (by norm_num)),
    .pair (.ofNat 10 (by norm_num)) (.ofNat 12 (by norm_num)),
    .pair (.ofNat 8 (by norm_num)) (.ofNat 11 (by norm_num))]

/-- `10-12` is inserted at the head, and `8-11` then removes `20-30`. -/
theorem lostSpecs_notExact : String.ofList (specText lostSpecs) = "20-30,1-5,10-12,8-11" ∧
    ¬ ParsesExactly (fun s => (0, s)) lostSpecs := by
  refine ⟨by decide, ?_⟩
  rw [parsesExactly_iff]
  rintro ⟨-, hids⟩
  have hout : (expandAll (lostSpecs.map RangeSpec.range)).getD [] = [⟨8, 12, 1⟩, ⟨1, 5, 1⟩] := by
    decide
  have hmem : 20 ∈ ids (lostSpecs.map RangeSpec.range) := by
    refine ⟨_, List.mem_map_of_mem List.mem_cons_self, ?_⟩
    rw [range_ids]
    simp [RangeSpec.ids, Decimal.ofNat_value]
  rw [← hids, hout] at hmem
  simp [Range.ids, mem_segment_iff_mod] at hmem

end GridEngine
