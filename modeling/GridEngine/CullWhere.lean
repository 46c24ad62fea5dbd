import GridEngine.CullSortOrder
import GridEngine.PackBuffer
import Mathlib.Data.List.Lex

/-!
# Conditions

`lCompare` evaluates a condition tree on an element. The comparisons ask whether the result of a
compare function is -1, 0 or 1, also where it is the result of `strcmp`, which may be any number.
`lCopyWhere` copies a tree and leaves the operand of a reference behind. A condition means what it
says, and so does its copy, exactly if neither of the two shows in its comparisons.
-/

namespace GridEngine.CullWhere
open Comparators CullSort

variable {F D : Type}

/-- A value with its type: `lFloatT` to `lUlong64T` and everything that is none of them. -/
inductive Value (F D : Type)
  | fl (value : F)
  | db (value : D)
  | ul (value : ℕ)
  | l (value : ℤ)
  | c (value : ℤ)
  | b (value : ℤ)
  | i (value : ℤ)
  | str (value : Option CString)
  | host (value : Option CString)
  | ref (value : ℕ)
  | ul64 (value : ℕ)
  | obj
  | unknown

/-- A field of an element; a list that is not there is `none`. -/
inductive Field (F D : Type)
  | val (value : Value F D)
  | glp (list : Option (List (List (Field F D))))

/-- The contents of an element. -/
abbrev Elem (F D : Type) := List (Field F D)

/-- `lCondition`. In a comparison of a field that is a list the operand is a condition. -/
inductive Condition (F D : Type)
  | null
  | cmp (op : Token) (pos nm : ℕ) (val : Value F D)
  | sub (op : Token) (pos nm : ℕ) (cp : Condition F D)
  | log (op : Token) (first second : Condition F D)
  | neg (first : Condition F D)

/-- The functions on strings that the code calls. -/
structure StringFunctions where
  strcmp : CString → CString → ℤ
  strcasecmp : CString → CString → ℤ
  sgeHostcmp : CString → CString → ℤ
  fnmatch : CString → CString → ℤ

variable (lib : StringFunctions)

section Compare

/-- `EQUAL`, `NOT_EQUAL`, `LOWER_EQUAL`, `LOWER`, `GREATER_EQUAL` and `GREATER`. -/
def isRelation (op : Token) : Bool :=
  op = .equal || op = .notEqual || op = .lowerEqual || op = .lower || op = .greaterEqual ||
    op = .greater

/-- The inner switch over the operator, which knows no other one. -/
def decideResult (op : Token) (result : ℤ) : Bool :=
  match op with
  | .equal => result = 0
  | .notEqual => result ≠ 0
  | .lowerEqual => result = -1 ∨ result = 0
  | .lower => result = -1
  | .greaterEqual => result = 1 ∨ result = 0
  | .greater => result = 1
  | _ => false

/-- The comparison of two strings; `NULL` is an error with the result 0. -/
def compareStrings (op : Token) : Option CString → Option CString → Bool
  | some str1, some str2 => decideResult op (lib.strcmp str1 str2)
  | _, _ => false

variable [LinearOrder F] [LinearOrder D]

/-- The comparison with the field at the position; a field of another type ends the program. -/
def compareField (op : Token) (field : Option (Field F D)) : Value F D → Option Bool
  | .i y => match field with
    | some (.val (.i x)) => some (decideResult op (numbercmp x y))
    | _ => none
  | .str y => match field with
    | some (.val (.str x)) => some (compareStrings lib op x y)
    | _ => none
  | .host y => match field with
    | some (.val (.host x)) => some (compareStrings lib op x y)
    | _ => none
  | .ul y => match field with
    | some (.val (.ul x)) => some (decideResult op (numbercmp x y))
    | _ => none
  | .ul64 y => match field with
    | some (.val (.ul64 x)) => some (decideResult op (numbercmp x y))
    | _ => none
  | .fl y => match field with
    | some (.val (.fl x)) => some (decideResult op (numbercmp x y))
    | _ => none
  | .db y => match field with
    | some (.val (.db x)) => some (decideResult op (numbercmp x y))
    | _ => none
  | .l y => match field with
    | some (.val (.l x)) => some (decideResult op (numbercmp x y))
    | _ => none
  | .c y => match field with
    | some (.val (.c x)) => some (decideResult op (numbercmp x y))
    | _ => none
  | .b y => match field with
    | some (.val (.b x)) => some (decideResult op (numbercmp x y))
    | _ => none
  | .ref y => match field with
    | some (.val (.ref x)) => some (decideResult op (numbercmp x y))
    | _ => none
  | .obj => none
  | .unknown => none

/-- The two strings of `STRCASECMP`, `HOSTNAMECMP` and `PATTERNCMP`. -/
def stringPair (field : Option (Field F D)) : Value F D → Option (Option CString × Option CString)
  | .str y => match field with
    | some (.val (.str x)) => some (x, y)
    | _ => none
  | .host y => match field with
    | some (.val (.host x)) => some (x, y)
    | _ => none
  | _ => none

theorem emptyString_noNul : 0 ∉ ([] : List UInt8) := List.not_mem_nil

/-- The string that stands for a field that is `NULL`. -/
def emptyString : CString := ⟨[], emptyString_noNul⟩

/-- A comparison of a field that is not a list. -/
def compareValue (op : Token) (field : Option (Field F D)) (val : Value F D) : Option Bool :=
  if isRelation op || op = .subscope then compareField lib op field val
  else
    match op with
    | .strcasecmp => (stringPair field val).map fun
        | (some str1, some str2) => lib.strcasecmp str1 str2 = 0
        | _ => false
    | .hostnamecmp => (stringPair field val).map fun
        | (some str1, some str2) => lib.sgeHostcmp str1 str2 = 0
        | _ => false
    | .patterncmp => (stringPair field val).map fun
        | (str1, some str2) => lib.fnmatch str2 (str1.getD emptyString) = 0
        | _ => false
    | .bitmask => match field, val with
        | some (.val (.ul x)), .ul y => some (x &&& y = y)
        | _, _ => none
    | _ => none

/-- `lFindFirst`, with the comparison by the condition. -/
def lFindFirst (compare : Elem F D → Option Bool) : List (Elem F D) → Option (Option (Elem F D))
  | [] => some none
  | ep :: list => do
      if ← compare ep then some (some ep) else lFindFirst compare list

/-- `lCompare`; there is no result where the program ends. -/
def lCompare : Condition F D → Elem F D → Option Bool
  | .null, _ => some true
  | .cmp op pos _ val, ep => compareValue lib op ep[pos]? val
  | .sub op pos _ cp, ep =>
      if isRelation op || op = .subscope then
        match ep[pos]? with
        | some (.glp (some list)) => (lFindFirst (fun ep => lCompare cp ep) list).map Option.isSome
        | some (.glp none) => some false
        | _ => none
      else none
  | .log .and first second, ep => do
      if !(← lCompare first ep) then some false else lCompare second ep
  | .log .or first second, ep => do
      if ← lCompare first ep then some true else lCompare second ep
  | .log _ _ _, _ => none
  | .neg first, ep => (lCompare first ep).map not

end Compare

section Copy

/-- The operators that `lCopyWhere` copies with their operand. -/
def isCopied (op : Token) : Bool :=
  isRelation op || op = .bitmask || op = .strcasecmp || op = .hostnamecmp || op = .patterncmp

/-- The operand of the copy, which is cleared memory where the source copies nothing. It does not
know all types, and it has no string where there is none to copy. -/
def copyValue : Value F D → Option (Value F D)
  | .ref _ => some (.ref 0)
  | .str none => none
  | .host none => none
  | .unknown => none
  | val => some val

/-- `lCopyWhere`; there is no result where the program ends. -/
def lCopyWhere : Condition F D → Option (Condition F D)
  | .null => some .null
  | .cmp op pos nm val =>
      if isCopied op then (copyValue val).map (.cmp op pos nm)
      else if op = .subscope then some (.cmp op 0 0 .unknown)
      else some .null
  | .sub op pos nm cp =>
      if isCopied op || op = .subscope then (lCopyWhere cp).map (.sub op pos nm) else some .null
  | .log .and first second => do
      let second ← lCopyWhere second
      let first ← lCopyWhere first
      some (.log .and first second)
  | .log .or first second => do
      let second ← lCopyWhere second
      let first ← lCopyWhere first
      some (.log .or first second)
  | .log _ _ _ => some .null
  | .neg first => (lCopyWhere first).map .neg

end Copy

section Meaning

/-- The order of the texts: by their bytes, one after the other. -/
def strKey (str : CString) : List ℕ := str.chars.map UInt8.toNat

/-- The relation that an operator stands for. -/
def relation {α : Type} [LinearOrder α] (op : Token) (x y : α) : Bool :=
  match op with
  | .equal => x = y
  | .notEqual => x ≠ y
  | .lowerEqual => x ≤ y
  | .lower => x < y
  | .greaterEqual => y ≤ x
  | .greater => y < x
  | _ => false

/-- The field has the type of the operand, and neither is a missing string. -/
def Matches : Option (Field F D) → Value F D → Prop
  | some (.val (.fl _)), .fl _ => True
  | some (.val (.db _)), .db _ => True
  | some (.val (.ul _)), .ul _ => True
  | some (.val (.l _)), .l _ => True
  | some (.val (.c _)), .c _ => True
  | some (.val (.b _)), .b _ => True
  | some (.val (.i _)), .i _ => True
  | some (.val (.str (some _))), .str (some _) => True
  | some (.val (.host (some _))), .host (some _) => True
  | some (.val (.ref _)), .ref _ => True
  | some (.val (.ul64 _)), .ul64 _ => True
  | _, _ => False

variable [LinearOrder F] [LinearOrder D]

/-- The relation between a field and an operand of its type. -/
def holdsField (op : Token) : Option (Field F D) → Value F D → Bool
  | some (.val (.fl x)), .fl y => relation op x y
  | some (.val (.db x)), .db y => relation op x y
  | some (.val (.ul x)), .ul y => relation op x y
  | some (.val (.l x)), .l y => relation op x y
  | some (.val (.c x)), .c y => relation op x y
  | some (.val (.b x)), .b y => relation op x y
  | some (.val (.i x)), .i y => relation op x y
  | some (.val (.str (some x))), .str (some y) => relation op (strKey x) (strKey y)
  | some (.val (.host (some x))), .host (some y) => relation op (strKey x) (strKey y)
  | some (.val (.ref x)), .ref y => relation op x y
  | some (.val (.ul64 x)), .ul64 y => relation op x y
  | _, _ => false

/-- The logical value of a tree. -/
def meaning : Condition F D → Elem F D → Bool
  | .null, _ => true
  | .cmp op pos _ val, ep => holdsField op ep[pos]? val
  | .sub _ pos _ cp, ep =>
      match ep[pos]? with
      | some (.glp list) => (list.getD []).any fun ep => meaning cp ep
      | _ => false
  | .log .and first second, ep => meaning first ep && meaning second ep
  | .log .or first second, ep => meaning first ep || meaning second ep
  | .log _ _ _, _ => false
  | .neg first, ep => !meaning first ep

/-- The element has the fields that the tree names. -/
def Fits : Condition F D → Elem F D → Prop
  | .null, _ => True
  | .cmp _ pos _ val, ep => Matches ep[pos]? val
  | .sub _ pos _ cp, ep =>
      ∃ list, ep[pos]? = some (.glp list) ∧ ∀ ep ∈ list.getD [], Fits cp ep
  | .log _ first second, ep => Fits first ep ∧ Fits second ep
  | .neg first, ep => Fits first ep

/-- A tree of relations, sub-conditions, conjunctions, disjunctions and negations. -/
def Condition.Ok : Condition F D → Prop
  | .null => True
  | .cmp op _ _ val => isRelation op ∧ Matches (some (.val val)) val
  | .sub op _ _ cp => op = .subscope ∧ cp.Ok
  | .log op first second => (op = .and ∨ op = .or) ∧ first.Ok ∧ second.Ok
  | .neg first => first.Ok

/-- The tree and all trees in it. -/
def Condition.parts : Condition F D → List (Condition F D)
  | .null => [.null]
  | .cmp op pos nm val => [.cmp op pos nm val]
  | .sub op pos nm cp => .sub op pos nm cp :: cp.parts
  | .log op first second => .log op first second :: (first.parts ++ second.parts)
  | .neg first => .neg first :: first.parts

/-- Where the operator asks for an order, `strcmp` has no result beyond -1 and 1 on that side. -/
def StrcmpOk (op : Token) (x y : CString) : Prop :=
  (op = .lower ∨ op = .lowerEqual → -1 ≤ lib.strcmp x y) ∧
    (op = .greater ∨ op = .greaterEqual → lib.strcmp x y ≤ 1)

/-- A comparison that the two flaws do not touch. -/
def LeafOk : Condition F D → Prop
  | .cmp op _ _ (.str (some y)) => ∀ x, StrcmpOk lib op x y
  | .cmp op _ _ (.host (some y)) => ∀ x, StrcmpOk lib op x y
  | .cmp _ _ _ (.ref y) => y = 0
  | _ => True

/-- The compare function of `lSortCompare` for a field. Two elements of one list have the same
types, so no other fields meet. -/
def sortFieldCmp (pos : ℕ) (ep0 ep1 : Elem F D) : ℤ :=
  match ep0[pos]?, ep1[pos]? with
  | some (.val (.fl x)), some (.val (.fl y)) => numbercmp x y
  | some (.val (.db x)), some (.val (.db y)) => numbercmp x y
  | some (.val (.ul x)), some (.val (.ul y)) => numbercmp x y
  | some (.val (.l x)), some (.val (.l y)) => numbercmp x y
  | some (.val (.c x)), some (.val (.c y)) => numbercmp x y
  | some (.val (.b x)), some (.val (.b y)) => numbercmp x y
  | some (.val (.i x)), some (.val (.i y)) => numbercmp x y
  | some (.val (.str x)), some (.val (.str y)) => sgeStrnullcmp lib.strcmp x y
  | some (.val (.host x)), some (.val (.host y)) => sgeStrnullcmp lib.strcmp x y
  | some (.val (.ref x)), some (.val (.ref y)) => numbercmp x y
  | some (.val (.ul64 x)), some (.val (.ul64 y)) => numbercmp x y
  | _, _ => 0

/-- A comparison says of an element what the sort says of it and of any element with the operand
in that field. -/
def AgreesWithSort : Condition F D → Elem F D → Prop
  | .cmp op pos nm val, ep => ∀ other : Elem F D, other[pos]? = some (.val val) →
      lCompare lib (.cmp op pos nm val) ep =
        some (relation op (lSortCompare (sortFieldCmp lib) [(pos, 1)] ep other) 0)
  | _, _ => True

/-- The tree means what it says, agrees with the sort, and its copy is as good as the tree. -/
def Right (cp : Condition F D) : Prop :=
  ∀ ep, Fits cp ep → lCompare lib cp ep = some (meaning cp ep) ∧ AgreesWithSort lib cp ep ∧
    (lCopyWhere cp).bind (fun copy => lCompare lib copy ep) = lCompare lib cp ep

end Meaning

section Relations
variable {lib} {α : Type} [LinearOrder α]

theorem decideResult_numbercmp (op : Token) (x y : α) :
    decideResult op (numbercmp x y) = relation op x y := by
  rcases lt_trichotomy x y with hlt | rfl | hgt
  · cases op <;> simp [decideResult, relation, numbercmp, hlt, hlt.ne, hlt.le, hlt.not_ge,
      hlt.not_gt]
  · cases op <;> simp [decideResult, relation, numbercmp]
  · cases op <;> simp [decideResult, relation, numbercmp, hgt, hgt.ne', hgt.le, hgt.not_ge,
      hgt.not_gt]

theorem relation_sign {β : Type} {cmp : β → β → ℤ} {key : β → α} (h : ComparesBy cmp key)
    (op : Token) (x y : β) : relation op (cmp x y) 0 = relation op (key x) (key y) := by
  have heq := h.eq_iff x y
  have hneg := h.neg_iff x y
  have hpos := h.pos_iff x y
  have hle := h.le_iff x y
  have hge : 0 ≤ cmp x y ↔ key y ≤ key x := by
    rw [← not_lt, hneg, not_lt]
  cases op <;> simp [relation, heq, hneg, hpos, hle, hge]

theorem decideResult_strcmp_iff (h : ComparesBy lib.strcmp strKey) (op : Token) (x y : CString) :
    decideResult op (lib.strcmp x y) = relation op (strKey x) (strKey y) ↔
      StrcmpOk lib op x y := by
  rw [← relation_sign h, StrcmpOk]
  generalize lib.strcmp x y = r
  cases op <;>
    simp only [decideResult, relation, decide_eq_decide, reduceCtorEq, or_true, or_false,
      true_implies, false_implies, and_true, true_and] <;>
    omega

theorem lFindFirst_isSome {compare : Elem F D → Option Bool} {p : Elem F D → Bool}
    {list : List (Elem F D)} (h : ∀ ep ∈ list, compare ep = some (p ep)) :
    (lFindFirst compare list).map Option.isSome = some (list.any p) := by
  induction list with
  | nil => rfl
  | cons ep list ih =>
      have hep := h ep List.mem_cons_self
      have hlist := ih fun ep hmem => h ep (List.mem_cons_of_mem _ hmem)
      rw [lFindFirst, hep, List.any_cons]
      cases hp : p ep with
      | true => rfl
      | false => exact hlist

end Relations

section Leaves
variable {lib} {op : Token} {pos nm : ℕ} {val : Value F D} {field : Option (Field F D)}
  {ep : Elem F D}

theorem lCopyWhere_cmp (hop : isRelation op = true) :
    lCopyWhere (.cmp op pos nm val) = (copyValue val).map (.cmp op pos nm) := by
  have hcopied : isCopied op = true := by
    simp only [isCopied, hop, Bool.true_or]
  rw [lCopyWhere, hcopied, if_pos rfl]

variable [LinearOrder F] [LinearOrder D]

/-- The condition under which one comparison on one field is right. -/
def FieldOk (lib : StringFunctions) (op : Token) : Option (Field F D) → Value F D → Prop
  | some (.val (.str (some x))), .str (some y) => StrcmpOk lib op x y
  | some (.val (.host (some x))), .host (some y) => StrcmpOk lib op x y
  | _, _ => True

theorem compareField_iff (h : ComparesBy lib.strcmp strKey) (op : Token)
    (hmatch : Matches field val) :
    compareField lib op field val = some (holdsField op field val) ↔ FieldOk lib op field val := by
  unfold Matches at hmatch
  split at hmatch
  case h_8 x y =>
    simp only [compareField, compareStrings, holdsField, Option.some.injEq, FieldOk]
    exact decideResult_strcmp_iff h op x y
  case h_9 x y =>
    simp only [compareField, compareStrings, holdsField, Option.some.injEq, FieldOk]
    exact decideResult_strcmp_iff h op x y
  case h_12 => exact hmatch.elim
  all_goals simp only [compareField, holdsField, decideResult_numbercmp, FieldOk]

theorem sortFieldCmp_relation (h : ComparesBy lib.strcmp strKey) (op : Token)
    (hmatch : Matches ep[pos]? val) {other : Elem F D} (hother : other[pos]? = some (.val val)) :
    relation op (sortFieldCmp lib pos ep other) 0 = holdsField op ep[pos]? val := by
  unfold sortFieldCmp
  rw [hother]
  generalize ep[pos]? = field at *
  unfold Matches at hmatch
  split at hmatch
  case h_8 x y => exact relation_sign h op x y
  case h_9 x y => exact relation_sign h op x y
  case h_12 => exact hmatch.elim
  all_goals exact relation_sign numbercmp_compares op _ _

theorem lSortCompare_one (pos : ℕ) (ep0 ep1 : Elem F D) :
    lSortCompare (sortFieldCmp lib) [(pos, 1)] ep0 ep1 = sortFieldCmp lib pos ep0 ep1 := by
  simp only [lSortCompare, Int.mul_one]
  split_ifs with h
  · rfl
  · exact (not_not.mp h).symm

/-- The comparison in `lCompare`, for the operators that are relations. -/
theorem lCompare_cmp (hop : isRelation op = true) :
    lCompare lib (.cmp op pos nm val) ep = compareField lib op ep[pos]? val := by
  simp only [lCompare, compareValue, hop, Bool.true_or, if_true]

/-- A reference that compares with every reference as `NULL` does is `NULL`. -/
theorem eq_zero_of_decideResult (hop : isRelation op = true) {r : ℕ}
    (h : ∀ x : ℕ, decideResult op (numbercmp x 0) = decideResult op (numbercmp x r)) : r = 0 := by
  have hzero := h 0
  have hself := h r
  simp only [decideResult_numbercmp] at hzero hself
  cases op <;> simp [relation, isRelation] at hzero hself hop <;> omega

end Leaves

section Trees
variable {lib} {cp t : Condition F D} {ep : Elem F D} {op : Token} {pos nm : ℕ} {val : Value F D}

theorem self_mem_parts (cp : Condition F D) : cp ∈ cp.parts := by
  cases cp <;> simp [Condition.parts]

theorem parts_trans {u : Condition F D} (ht : t ∈ cp.parts) (hu : u ∈ t.parts) : u ∈ cp.parts := by
  induction cp with
  | null =>
      obtain rfl := List.mem_singleton.mp ht
      exact hu
  | cmp op pos nm val =>
      obtain rfl := List.mem_singleton.mp ht
      exact hu
  | sub op pos nm cp ih =>
      rcases List.mem_cons.mp ht with rfl | ht
      · exact hu
      · exact List.mem_cons_of_mem _ (ih ht)
  | log op first second ih₁ ih₂ =>
      rcases List.mem_cons.mp ht with rfl | ht
      · exact hu
      · apply List.mem_cons_of_mem
        rcases List.mem_append.mp ht with ht | ht
        · exact List.mem_append_left _ (ih₁ ht)
        · exact List.mem_append_right _ (ih₂ ht)
  | neg first ih =>
      rcases List.mem_cons.mp ht with rfl | ht
      · exact hu
      · exact List.mem_cons_of_mem _ (ih ht)

theorem Condition.Ok.part (hok : cp.Ok) (ht : t ∈ cp.parts) : t.Ok := by
  induction cp with
  | null =>
      obtain rfl := List.mem_singleton.mp ht
      exact hok
  | cmp op pos nm val =>
      obtain rfl := List.mem_singleton.mp ht
      exact hok
  | sub op pos nm cp ih =>
      rcases List.mem_cons.mp ht with rfl | ht
      · exact hok
      · exact ih hok.2 ht
  | log op first second ih₁ ih₂ =>
      rcases List.mem_cons.mp ht with rfl | ht
      · exact hok
      · rcases List.mem_append.mp ht with ht | ht
        · exact ih₁ hok.2.1 ht
        · exact ih₂ hok.2.2 ht
  | neg first ih =>
      rcases List.mem_cons.mp ht with rfl | ht
      · exact hok
      · exact ih hok ht

theorem fieldOk_of_leafOk {field : Option (Field F D)} (h : LeafOk lib (.cmp op pos nm val)) :
    FieldOk lib op field val := by
  unfold FieldOk
  split
  · exact h _
  · exact h _
  · trivial

theorem copyValue_eq (hval : Matches (some (.val val)) val)
    (h : LeafOk lib (.cmp op pos nm val)) : copyValue val = some val := by
  unfold copyValue
  split
  · rename_i y
    obtain rfl : y = 0 := h
    rfl
  · exact hval.elim
  · exact hval.elim
  · exact hval.elim
  · rfl

theorem lCopyWhere_eq (hok : cp.Ok) (hleaf : ∀ u ∈ cp.parts, LeafOk lib u) :
    lCopyWhere cp = some cp := by
  induction cp with
  | null => rfl
  | cmp op pos nm val =>
      rw [lCopyWhere_cmp hok.1, copyValue_eq hok.2 (hleaf _ (self_mem_parts _)), Option.map_some]
  | sub op pos nm cp ih =>
      obtain ⟨rfl, hok⟩ := hok
      rw [lCopyWhere, ih hok fun u hu => hleaf u (List.mem_cons_of_mem _ hu), if_pos (by decide),
        Option.map_some]
  | log op first second ih₁ ih₂ =>
      obtain ⟨hop, hok₁, hok₂⟩ := hok
      have h₁ := ih₁ hok₁ fun u hu =>
        hleaf u (List.mem_cons_of_mem _ (List.mem_append_left _ hu))
      have h₂ := ih₂ hok₂ fun u hu =>
        hleaf u (List.mem_cons_of_mem _ (List.mem_append_right _ hu))
      rcases hop with rfl | rfl
      · rw [lCopyWhere, h₁, h₂]
        rfl
      · rw [lCopyWhere, h₁, h₂]
        rfl
  | neg first ih =>
      rw [lCopyWhere, ih hok fun u hu => hleaf u (List.mem_cons_of_mem _ hu), Option.map_some]

/-- An element that has a value at a position. -/
def elemWith (pos : ℕ) (value : Value F D) : Elem F D :=
  List.replicate pos (.val .obj) ++ [.val value]

theorem elemWith_field (pos : ℕ) (value : Value F D) :
    (elemWith pos value)[pos]? = some (.val value) := by
  have h : pos = (List.replicate pos (Field.val (F := F) (D := D) .obj)).length :=
    List.length_replicate.symm
  unfold elemWith
  rw [List.getElem?_append_right h.ge, ← h, Nat.sub_self]
  rfl

variable [LinearOrder F] [LinearOrder D]

theorem lCompare_eq_meaning (h : ComparesBy lib.strcmp strKey) (hok : cp.Ok)
    (hleaf : ∀ u ∈ cp.parts, LeafOk lib u) (hfits : Fits cp ep) :
    lCompare lib cp ep = some (meaning cp ep) := by
  induction cp generalizing ep with
  | null => rfl
  | cmp op pos nm val =>
      rw [lCompare_cmp hok.1]
      exact (compareField_iff h op hfits).mpr (fieldOk_of_leafOk (hleaf _ (self_mem_parts _)))
  | sub op pos nm cp ih =>
      obtain ⟨rfl, hok⟩ := hok
      obtain ⟨list, hfield, hlist⟩ := hfits
      have hcp : ∀ ep ∈ list.getD [], lCompare lib cp ep = some (meaning cp ep) := fun ep hep =>
        ih hok (fun u hu => hleaf u (List.mem_cons_of_mem _ hu)) (hlist ep hep)
      rw [lCompare, if_pos (by decide), meaning, hfield]
      cases list with
      | none => rfl
      | some list => exact lFindFirst_isSome hcp
  | log op first second ih₁ ih₂ =>
      obtain ⟨hop, hok₁, hok₂⟩ := hok
      have h₁ := ih₁ hok₁ (fun u hu =>
        hleaf u (List.mem_cons_of_mem _ (List.mem_append_left _ hu))) hfits.1
      have h₂ := ih₂ hok₂ (fun u hu =>
        hleaf u (List.mem_cons_of_mem _ (List.mem_append_right _ hu))) hfits.2
      rcases hop with rfl | rfl
      · rw [lCompare, h₁, meaning]
        cases meaning first ep with
        | true => exact h₂
        | false => rfl
      · rw [lCompare, h₁, meaning]
        cases meaning first ep with
        | true => rfl
        | false => exact h₂
  | neg first ih =>
      rw [lCompare, ih hok (fun u hu => hleaf u (List.mem_cons_of_mem _ hu)) hfits, meaning,
        Option.map_some]

theorem right_of_leafOk (h : ComparesBy lib.strcmp strKey) (hok : cp.Ok)
    (hleaf : ∀ u ∈ cp.parts, LeafOk lib u) : Right lib cp := by
  intro ep hfits
  have hmeaning := lCompare_eq_meaning h hok hleaf hfits
  refine ⟨hmeaning, ?_, ?_⟩
  · cases cp with
    | cmp op pos nm val =>
        intro other hother
        rw [hmeaning, lSortCompare_one, sortFieldCmp_relation h op hfits hother, meaning]
    | _ => trivial
  · rw [lCopyWhere_eq hok hleaf, Option.bind_some]

theorem Right.elemWith (hright : Right lib (.cmp op pos nm val)) (hop : isRelation op = true)
    (value : Value F D) (hmatch : Matches (some (.val value)) val) :
    compareField lib op (some (.val value)) val = some (holdsField op (some (.val value)) val) ∧
      (copyValue val).bind (fun copy => compareField lib op (some (.val value)) copy) =
        compareField lib op (some (.val value)) val := by
  have hfits : Fits (.cmp op pos nm val) (CullWhere.elemWith pos value) := by
    rw [Fits, elemWith_field]
    exact hmatch
  obtain ⟨hmeaning, -, hcopy⟩ := hright _ hfits
  rw [lCompare_cmp hop, meaning, elemWith_field] at hmeaning
  rw [lCopyWhere_cmp hop, lCompare_cmp hop, elemWith_field] at hcopy
  refine ⟨hmeaning, ?_⟩
  rw [← hcopy]
  cases copyValue val with
  | none => rfl
  | some copy =>
      simp only [Option.bind_some, Option.map_some, lCompare_cmp hop, elemWith_field]

theorem leafOk_of_right (h : ComparesBy lib.strcmp strKey) (hok : t.Ok) (hright : Right lib t) :
    LeafOk lib t := by
  cases t with
  | cmp op pos nm val =>
      obtain ⟨hop, hval⟩ := hok
      cases val with
      | str y =>
          cases y with
          | none => trivial
          | some y =>
              intro x
              have hmatch : Matches (some (.val (.str (some x) : Value F D))) (.str (some y)) := trivial
              exact (compareField_iff h op hmatch).mp (hright.elemWith hop _ hmatch).1
      | host y =>
          cases y with
          | none => trivial
          | some y =>
              intro x
              have hmatch : Matches (some (.val (.host (some x) : Value F D))) (.host (some y)) := trivial
              exact (compareField_iff h op hmatch).mp (hright.elemWith hop _ hmatch).1
      | ref y =>
          apply eq_zero_of_decideResult hop
          intro x
          have hmatch : Matches (some (.val (.ref x : Value F D))) (.ref y) := trivial
          exact Option.some.inj (hright.elemWith hop _ hmatch).2
      | _ => trivial
  | _ => trivial

/-- A tree and all trees in it are right exactly if no comparison in it is affected: none of a
string by order where `strcmp` goes beyond -1 and 1, and none with a reference but `NULL`. -/
theorem conditions_right_iff (h : ComparesBy lib.strcmp strKey) (hok : cp.Ok) :
    (∀ t ∈ cp.parts, Right lib t) ↔ ∀ t ∈ cp.parts, LeafOk lib t := by
  constructor
  · intro hright t ht
    exact leafOk_of_right h (hok.part ht) (hright t ht)
  · intro hleaf t ht
    exact right_of_leafOk h (hok.part ht) fun u hu => hleaf u (parts_trans ht hu)

end Trees

section Inputs

/-- The `strcmp` that returns the difference of the first two bytes that differ. -/
def byteDifference : List UInt8 → List UInt8 → ℤ
  | [], [] => 0
  | [], b :: _ => -(b.toNat : ℤ)
  | a :: _, [] => a.toNat
  | a :: as, b :: bs => if a = b then byteDifference as bs else (a.toNat : ℤ) - b.toNat

theorem byteDifference_sign {as bs : List UInt8} (ha : 0 ∉ as) (hb : 0 ∉ bs) :
    (byteDifference as bs < 0 ↔ as.map UInt8.toNat < bs.map UInt8.toNat) ∧
      (0 < byteDifference as bs ↔ bs.map UInt8.toNat < as.map UInt8.toNat) := by
  have hpos : ∀ b : UInt8, 0 ≠ b → 0 < b.toNat := by
    intro b hb
    have h := mt (UInt8.toNat_inj (a := 0) (b := b)).mp hb
    rw [UInt8.toNat_zero] at h
    omega
  induction as generalizing bs with
  | nil =>
      cases bs with
      | nil => simp [byteDifference]
      | cons b bs =>
          have hlt := hpos b (List.ne_of_not_mem_cons hb)
          simp [byteDifference]
          omega
  | cons a as ih =>
      have hlt := hpos a (List.ne_of_not_mem_cons ha)
      cases bs with
      | nil =>
          simp [byteDifference]
          omega
      | cons b bs =>
          obtain ⟨hneg, hpos⟩ := ih (List.not_mem_of_not_mem_cons ha)
            (List.not_mem_of_not_mem_cons hb)
          rw [byteDifference, List.map_cons, List.map_cons, List.cons_lt_cons_iff,
            List.cons_lt_cons_iff]
          split_ifs with heq
          · rw [heq]
            simp [hneg, hpos]
          · have hne : a.toNat ≠ b.toNat := fun h => heq (UInt8.toNat_inj.mp h)
            omega

/-- String functions with that `strcmp`. -/
def byteFunctions : StringFunctions where
  strcmp a b := byteDifference a.chars b.chars
  strcasecmp a b := byteDifference a.chars b.chars
  sgeHostcmp a b := byteDifference a.chars b.chars
  fnmatch pattern str := if pattern = str then 0 else 1

theorem byteFunctions_compares : ComparesBy byteFunctions.strcmp strKey where
  neg_iff a b := (byteDifference_sign a.noNul b.noNul).1
  pos_iff a b := (byteDifference_sign a.noNul b.noNul).2

theorem textA_noNul : 0 ∉ ([97] : List UInt8) := by decide

def textA : CString := ⟨[97], textA_noNul⟩

def textC : CString := ⟨[99], by decide⟩

/-- The field 0 is less than "c". -/
def beforeC : Condition ℤ ℤ := .cmp .lower 0 0 (.str (some textC))

theorem beforeC_right_iff : (∀ t ∈ beforeC.parts, Right byteFunctions t) ↔
    ∀ t ∈ beforeC.parts, LeafOk byteFunctions t :=
  conditions_right_iff byteFunctions_compares ⟨rfl, trivial⟩

/-- The text "a" is not less than "c", and the copy of a condition has lost its reference. -/
theorem beforeC_wrong :
    ¬ (∀ (lib : StringFunctions) (cp : Condition ℤ ℤ) (ep : Elem ℤ ℤ),
      ComparesBy lib.strcmp strKey → cp.Ok → Fits cp ep →
        lCompare lib cp ep = some (meaning cp ep)) ∧
    ¬ ∀ (lib : StringFunctions) (cp : Condition ℤ ℤ) (ep : Elem ℤ ℤ),
      ComparesBy lib.strcmp strKey → cp.Ok → Fits cp ep →
        (lCopyWhere cp).bind (fun copy => lCompare lib copy ep) = lCompare lib cp ep := by
  constructor
  · intro h
    have hresult := h byteFunctions beforeC [.val (.str (some textA))] byteFunctions_compares
      ⟨rfl, trivial⟩ trivial
    revert hresult
    decide
  · intro h
    have hresult := h byteFunctions (.cmp .equal 0 0 (.ref 7)) [.val (.ref 7)]
      byteFunctions_compares ⟨rfl, trivial⟩ trivial
    revert hresult
    decide

end Inputs

end GridEngine.CullWhere
