import GridEngine.Comparators

/-!
# Sort orders

A sort order is written as a format with a field and a direction for every key. `scan` cuts the
format into tokens, `lParseSortOrder` makes the array of it and `lSortCompare` asks the keys one
after the other until one of them sees a difference.
-/

namespace GridEngine.CullSort
open Comparators

/-- The tokens of `scan`, in the order of `opv`. -/
inductive Token
  | noToken | type | field | subscope | plus | minus | int | string | ulong | ulong64 | sublist
  | float | double | long | char | bool | ref | cullAll | cullNone | equal | notEqual | lowerEqual
  | lower | greaterEqual | greater | bitmask | strcasecmp | patterncmp | hostnamecmp | and | or
  | neg | bra | ket
deriving DecidableEq

def opv : List (Token × List Char) :=
  [(.type, ['%', 'T']), (.field, ['%', 'I']), (.subscope, ['-', '>']), (.plus, ['+']),
    (.minus, ['-']), (.int, ['%', 'd']), (.string, ['%', 's']), (.ulong, ['%', 'u']),
    (.ulong64, ['%', 'l', 'u']), (.sublist, ['%', 'l']), (.float, ['%', 'f']),
    (.double, ['%', 'g']), (.long, ['%', 'o']), (.char, ['%', 'c']), (.bool, ['%', 'b']),
    (.ref, ['%', 'p']), (.cullAll, ['A', 'L', 'L']), (.cullNone, ['N', 'O', 'N', 'E']),
    (.equal, ['=', '=']), (.notEqual, ['!', '=']), (.lowerEqual, ['<', '=']), (.lower, ['<']),
    (.greaterEqual, ['>', '=']), (.greater, ['>']), (.bitmask, ['m', '=']),
    (.strcasecmp, ['c', '=']), (.patterncmp, ['p', '=']), (.hostnamecmp, ['h', '=']),
    (.and, ['&', '&']), (.or, ['|', '|']), (.neg, ['!']), (.bra, ['(']), (.ket, [')'])]

/-- `isspace` in the C locale. -/
def isspace (c : Char) : Bool := c = ' ' || (9 ≤ c.toNat && c.toNat ≤ 13)

/-- `scan` followed by `eat_token`: the next token and the text behind it. -/
def scan (t : List Char) : Token × List Char :=
  let t := t.dropWhile isspace
  match opv.find? fun op => op.2.isPrefixOf t with
  | some (token, text) => (token, t.drop text.length)
  | none => (.noToken, t)

variable {N α : Type*}

/-- The fields of the sort order, each with the direction that its token gives. -/
def parseFields : List N → List Char → Option (List (N × ℤ))
  | [], _ => some []
  | nm :: nms, t =>
      let (token, t) := scan t
      if token ≠ .field then none
      else
        match scan t with
        | (.plus, t) => (parseFields nms t).map ((nm, 1) :: ·)
        | (.minus, t) => (parseFields nms t).map ((nm, -1) :: ·)
        | _ => none

/-- `lParseSortOrder`, which takes as many fields as the format has percent signs. -/
def lParseSortOrder (fmt : List Char) (nms : List N) : Option (List (N × ℤ)) :=
  parseFields (nms.take (fmt.count '%')) fmt

/-- `lSortCompare`; `cmp` is the compare function of the field's type. -/
def lSortCompare (cmp : N → α → α → ℤ) : List (N × ℤ) → α → α → ℤ
  | [], _, _ => 0
  | (nm, ad) :: sp, ep0, ep1 =>
      let result := cmp nm ep0 ep1 * ad
      if result ≠ 0 then result else lSortCompare cmp sp ep0 ep1

/-- `lPSortList`. A format that does not parse leaves the list as it is. -/
def lPSortList (qsort : Qsort α) (cmp : N → α → α → ℤ) (fmt : List Char) (nms : List N)
    (lp : List α) : List α :=
  match lParseSortOrder fmt nms with
  | some sp => if lp.length < 2 then lp else qsort.run (lSortCompare cmp sp) lp
  | none => lp

/-- `sge_strnullcmp`; `strcmp` gives the order of two texts. -/
def sgeStrnullcmp {S : Type*} (strcmp : S → S → ℤ) : Option S → Option S → ℤ
  | none, some _ => -1
  | some _, none => 1
  | none, none => 0
  | some a, some b => strcmp a b

/-- `ulongcmp`, `doublecmp` and their siblings: three-way comparison of numbers. -/
def numbercmp [LinearOrder α] (a b : α) : ℤ := if a = b then 0 else if a < b then -1 else 1

theorem numbercmp_compares [LinearOrder α] : ComparesBy (numbercmp (α := α)) id where
  neg_iff a b := by
    rw [numbercmp, id, id]
    split_ifs with heq hlt
    · simp [heq]
    · simp [hlt]
    · simp [hlt]
  pos_iff a b := by
    rw [numbercmp, id, id]
    split_ifs with heq hlt
    · simp [heq]
    · simp [hlt.le]
    · simp only [zero_lt_one, true_iff]
      exact lt_of_le_of_ne (not_lt.mp hlt) (Ne.symm heq)

theorem lPSortList_perm (qsort : Qsort α) (cmp : N → α → α → ℤ) (fmt : List Char) (nms : List N)
    (lp : List α) : (lPSortList qsort cmp fmt nms lp).Perm lp := by
  unfold lPSortList
  split
  · split_ifs
    · exact List.Perm.refl _
    · exact qsort.perm _ _
  · exact List.Perm.refl _

/-- A format that parses to `sp` sorts by any key that `sp` compares by. -/
theorem lPSortList_sorted {K : Type*} [LinearOrder K] {key : α → K} (qsort : Qsort α)
    {cmp : N → α → α → ℤ} {fmt : List Char} {nms : List N} {sp : List (N × ℤ)} (lp : List α)
    (hparse : lParseSortOrder fmt nms = some sp) (hkey : ComparesBy (lSortCompare cmp sp) key) :
    (lPSortList qsort cmp fmt nms lp).Pairwise (fun a b => key a ≤ key b) := by
  unfold lPSortList
  rw [hparse]
  dsimp only
  split_ifs with hlen
  · match lp, hlen with
    | [], _ => exact List.Pairwise.nil
    | [_], _ => exact List.pairwise_singleton _ _
  · exact qsort.sorted_key hkey lp

end GridEngine.CullSort
