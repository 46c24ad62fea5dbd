import Mathlib.Data.List.Infix

/-!
# Numbers at the beginning of a string

`strtod` skips white space and takes the longest prefix that has the form of a floating point
number: decimal digits, hexadecimal ones, an infinity or a NaN.
-/

namespace GridEngine.Strtod

section Form

def isSpace (c : Char) : Bool := c = ' ' || ('\t'.toNat ≤ c.toNat && c.toNat ≤ '\r'.toNat)

def isSign (c : Char) : Bool := c = '+' || c = '-'

/-- Without an optional sign. -/
def dropSign : List Char → List Char
  | [] => []
  | c :: s => if isSign c then s else c :: s

def isHexDigit (c : Char) : Bool :=
  c.isDigit || ('a'.toNat ≤ c.toLower.toNat && c.toLower.toNat ≤ 'f'.toNat)

def isMantissaChar (isDigit : Char → Bool) (c : Char) : Bool := isDigit c || c = '.'

/-- At least one digit and at most one point. -/
def isMantissa (isDigit : Char → Bool) (s : List Char) : Bool :=
  s.all (isMantissaChar isDigit) && s.any isDigit && s.count '.' ≤ 1

/-- An optional exponent with its marker. -/
def isExponent (marker : Char) : List Char → Bool
  | [] => true
  | c :: s => c.toLower = marker && !(dropSign s).isEmpty && (dropSign s).all Char.isDigit

def isFloat (isDigit : Char → Bool) (marker : Char) (s : List Char) : Bool :=
  isMantissa isDigit (s.takeWhile (isMantissaChar isDigit)) &&
    isExponent marker (s.dropWhile (isMantissaChar isDigit))

/-- The characters in the brackets behind a NaN. -/
def isNCharSequence (s : List Char) : Bool := s.all fun c => c.isAlphanum || c = '_'

def isNan : List Char → Bool
  | [] => true
  | c :: s => c = '(' && s.getLast? = some ')' && isNCharSequence s.dropLast

def isHex : List Char → Bool
  | zero :: x :: s => zero = '0' && x.toLower = 'x' && isFloat isHexDigit 'p' s
  | _ => false

/-- The form of a floating point number behind its sign. -/
def isUnsigned (s : List Char) : Bool :=
  let lower := s.map Char.toLower
  lower = ['i', 'n', 'f'] || lower = ['i', 'n', 'f', 'i', 'n', 'i', 't', 'y'] ||
    (lower.take 3 = ['n', 'a', 'n'] && isNan (s.drop 3)) || isFloat Char.isDigit 'e' s || isHex s

/-- The expected form of the subject sequence. -/
def expectedForm (s : List Char) : Bool := isUnsigned (dropSign s)

/-- The subject sequence and what is behind it. -/
def strtod (s : List Char) : Option (List Char × List Char) :=
  let s := s.dropWhile isSpace
  (s.inits.reverse.find? expectedForm).map fun subject => (subject, s.drop subject.length)

end Form

section Foreign

/-- A character that no number contains. -/
structure Foreign (c : Char) : Prop where
  sign : isSign c = false
  digit : c.isDigit = false
  hexDigit : isHexDigit c = false
  alphanum : (c.isAlphanum || c = '_') = false
  toLower : c.toLower = c
  marks : c ∉ ['.', '(', ')', '0', 'i', 'n', 'f', 't', 'y', 'a', 'e', 'p', 'x']

variable {c : Char} {s : List Char}

theorem notMem_of_all {p : Char → Bool} (hp : p c = false) (h : s.all p = true) : c ∉ s := by
  intro hmem
  have := List.all_eq_true.mp h c hmem
  rw [hp] at this
  exact Bool.false_ne_true this

theorem mem_dropSign (hc : isSign c = false) (h : c ∈ s) : c ∈ dropSign s := by
  cases s with
  | nil => exact h
  | cons head s =>
      rw [dropSign]
      split_ifs with hsign
      · rcases List.mem_cons.mp h with rfl | h
        · rw [hc] at hsign
          exact absurd hsign Bool.false_ne_true
        · exact h
      · exact h

namespace Foreign

theorem ne (hc : Foreign c) {d : Char}
    (hd : d ∈ ['.', '(', ')', '0', 'i', 'n', 'f', 't', 'y', 'a', 'e', 'p', 'x']) : c ≠ d := by
  intro heq
  exact hc.marks (heq ▸ hd)

theorem notMem_map_toLower (hc : Foreign c) (h : c ∉ s.map Char.toLower) : c ∉ s := by
  intro hmem
  apply h
  rw [← hc.toLower]
  exact List.mem_map_of_mem hmem

theorem notMem_of_isExponent (hc : Foreign c) {marker : Char} (hmarker : c ≠ marker)
    (h : isExponent marker s = true) : c ∉ s := by
  cases s with
  | nil => exact List.not_mem_nil
  | cons head s =>
      simp only [isExponent, Bool.and_eq_true, decide_eq_true_eq] at h
      obtain ⟨⟨hhead, -⟩, hdigits⟩ := h
      intro hmem
      rcases List.mem_cons.mp hmem with rfl | hmem
      · exact hmarker (hc.toLower.symm.trans hhead)
      · exact notMem_of_all hc.digit hdigits (mem_dropSign hc.sign hmem)

theorem notMem_of_isFloat (hc : Foreign c) {isDigit : Char → Bool} (hdigit : isDigit c = false)
    {marker : Char} (hmarker : c ≠ marker) (h : isFloat isDigit marker s = true) : c ∉ s := by
  simp only [isFloat, isMantissa, Bool.and_eq_true] at h
  have hchar : isMantissaChar isDigit c = false := by
    rw [isMantissaChar, hdigit, Bool.false_or]
    exact decide_eq_false (hc.ne (by decide))
  rw [← List.takeWhile_append_dropWhile (p := isMantissaChar isDigit) (l := s), List.mem_append,
    not_or]
  exact ⟨notMem_of_all hchar h.1.1.1, hc.notMem_of_isExponent hmarker h.2⟩

theorem notMem_of_isNan (hc : Foreign c) (h : isNan s = true) : c ∉ s := by
  cases s with
  | nil => exact List.not_mem_nil
  | cons head s =>
      simp only [isNan, Bool.and_eq_true, decide_eq_true_eq] at h
      obtain ⟨⟨hhead, hlast⟩, hchars⟩ := h
      intro hmem
      rcases List.mem_cons.mp hmem with rfl | hmem
      · exact hc.ne (by decide) hhead
      · rw [← List.dropLast_append_getLast? ')' hlast, List.mem_append] at hmem
        rcases hmem with hmem | hmem
        · exact notMem_of_all hc.alphanum hchars hmem
        · exact hc.ne (by decide) (List.mem_singleton.mp hmem)

theorem notMem_of_isHex (hc : Foreign c) (h : isHex s = true) : c ∉ s := by
  unfold isHex at h
  split at h
  · rename_i zero x s
    simp only [Bool.and_eq_true, decide_eq_true_eq] at h
    obtain ⟨⟨hzero, hx⟩, hfloat⟩ := h
    intro hmem
    rcases List.mem_cons.mp hmem with rfl | hmem
    · exact hc.ne (by decide) hzero
    · rcases List.mem_cons.mp hmem with rfl | hmem
      · exact hc.ne (by decide) (hc.toLower.symm.trans hx)
      · exact hc.notMem_of_isFloat hc.hexDigit (hc.ne (by decide)) hfloat hmem
  · exact absurd h Bool.false_ne_true

theorem notMem_of_isUnsigned (hc : Foreign c) (h : isUnsigned s = true) : c ∉ s := by
  have hletters : ∀ letters : List Char,
      (letters.all
        (· ∈ ['.', '(', ')', '0', 'i', 'n', 'f', 't', 'y', 'a', 'e', 'p', 'x'])) = true →
      c ∉ letters := fun letters hsub hmem =>
    hc.marks (of_decide_eq_true (List.all_eq_true.mp hsub c hmem))
  simp only [isUnsigned, Bool.or_eq_true, Bool.and_eq_true, decide_eq_true_eq] at h
  rcases h with (((h | h) | h) | h) | h
  · apply hc.notMem_map_toLower
    rw [h]
    exact hletters _ (by decide)
  · apply hc.notMem_map_toLower
    rw [h]
    exact hletters _ (by decide)
  · rw [← List.take_append_drop 3 s, List.mem_append, not_or]
    refine ⟨?_, hc.notMem_of_isNan h.2⟩
    apply hc.notMem_map_toLower
    rw [List.map_take, h.1]
    exact hletters _ (by decide)
  · exact hc.notMem_of_isFloat hc.digit (hc.ne (by decide)) h
  · exact hc.notMem_of_isHex h

theorem notMem_of_expectedForm (hc : Foreign c) (h : expectedForm s = true) : c ∉ s := fun hmem =>
  hc.notMem_of_isUnsigned h (mem_dropSign hc.sign hmem)

end Foreign

end Foreign

section Strtod
variable {c : Char} {s : List Char}

theorem dropWhile_isSpace_append (hspace : isSpace c = false) (s rest : List Char) :
    (s ++ c :: rest).dropWhile isSpace = s.dropWhile isSpace ++ c :: rest := by
  induction s with
  | nil => simp [hspace]
  | cons head s ih =>
      rw [List.cons_append, List.dropWhile_cons, List.dropWhile_cons]
      split_ifs
      · exact ih
      · rfl

/-- No prefix that goes beyond a foreign character has the expected form. -/
theorem find?_inits_append (hc : Foreign c) (s rest : List Char) :
    (s ++ c :: rest).inits.reverse.find? expectedForm = s.inits.reverse.find? expectedForm := by
  rw [List.inits_append, List.reverse_append, List.find?_append]
  have hnone :
      ((c :: rest).inits.tail.map fun l => s ++ l).reverse.find? expectedForm = none := by
    rw [List.find?_eq_none]
    intro u hu
    rw [List.mem_reverse, List.inits_cons, List.tail_cons, List.mem_map] at hu
    obtain ⟨v, hv, rfl⟩ := hu
    obtain ⟨w, -, rfl⟩ := List.mem_map.mp hv
    exact fun h => hc.notMem_of_expectedForm h (List.mem_append_right _ List.mem_cons_self)
  rw [hnone, Option.none_or]

theorem strtod_append (hc : Foreign c) (hspace : isSpace c = false) (s rest : List Char) :
    strtod (s ++ c :: rest) = (strtod s).map fun p => (p.1, p.2 ++ c :: rest) := by
  unfold strtod
  dsimp only
  rw [dropWhile_isSpace_append hspace, find?_inits_append hc, Option.map_map]
  generalize s.dropWhile isSpace = t
  cases hfind : t.inits.reverse.find? expectedForm with
  | none => rfl
  | some subject =>
      have hprefix : subject <+: t :=
        (List.mem_inits subject t).mp (List.mem_reverse.mp (List.mem_of_find?_eq_some hfind))
      rw [Option.map_some, Option.map_some, Function.comp_apply,
        List.drop_append_of_le_length hprefix.length_le]

theorem strtod_cons (hc : Foreign c) (hspace : isSpace c = false) (s : List Char) :
    strtod (c :: s) = none := by
  rw [← List.nil_append (c :: s), strtod_append hc hspace]
  rfl

end Strtod

end GridEngine.Strtod
