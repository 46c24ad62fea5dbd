import GridEngine.EvalExpression
import GridEngine.Strtod
import Mathlib.Tactic.Ring
import Mathlib.Tactic.LinearCombination

/-!
# Load formulas

`validate_load_formula` checks a load formula against the complex list, `scaled_mixed_load`
evaluates it for a host. Both split up the text into terms at the signs. The one looks for the
factors of a term between asterisks, the other reads a number as far as `strtod` does and takes a
name otherwise. The values are those of a field, and what `get_attribute_by_name` finds is a
parameter.
-/

namespace GridEngine.LoadFormulas
open Strtod

section Tokens

/-- The tokens that `strtok_r` and `sge_strtok_r` return one after the other, each with what is
behind it. -/
def strtokFrom (isDelim : Char → Bool) (token : List Char) :
    List Char → List (List Char × List Char)
  | [] => if token = [] then [] else [(token, [])]
  | c :: behind =>
      if isDelim c then
        if token = [] then strtokFrom isDelim [] behind
        else (token, c :: behind) :: strtokFrom isDelim [] behind
      else strtokFrom isDelim (token ++ [c]) behind

def strtok (isDelim : Char → Bool) (s : List Char) : List (List Char × List Char) :=
  strtokFrom isDelim [] s

/-- `sge_delim_str`: the copy up to a delimiter and what `*delim_pos` points to. -/
def sgeDelimStr (isDelim : Char → Bool) (str : List Char) : List Char × List Char :=
  (str.takeWhile fun c => !isDelim c, str.dropWhile fun c => !isDelim c)

/-- A name may have a `$` before it. -/
def skipDollar (name : List Char) : List Char := if '$' ∈ name then name.tail else name

end Tokens

/-- What is known about doubles. -/
structure Doubles (K : Type) where
  /-- The value of a subject sequence. -/
  value : List Char → K
  /-- `strtod` sets `errno` to `ERANGE`. -/
  erange : List Char → Bool
  /-- The conversion to `u_long32`. -/
  toUlong32 : K → ℕ

section Validation

/-- A `CE_Type` element. -/
structure Centry where
  name : List Char
  shortcut : List Char
  valtype : ℕ
deriving DecidableEq

def centryListLocate (centryList : List Centry) (name : List Char) : Option Centry :=
  (centryList.find? fun centry => centry.name = name).or
    (centryList.find? fun centry => centry.shortcut = name)

variable {K : Type}

def sgeStrIsNumber (doubles : Doubles K) (string : List Char) : Bool :=
  match strtod string with
  | some (subject, rest) => !doubles.erange subject && rest.isEmpty
  | none => false

/-- The messages of `validate_load_formula`, with the name of the formula and the factor. -/
inductive FormulaError
  | noneNotAllowed (name : List Char)
  | wrongTypeAttribute (name fact : List Char)
  | notExistingAttribute (name fact : List Char)
  | weightFactNoNumb (name nextFact : List Char)
  | multipleWeightFact (name : List Char)
deriving DecidableEq

def isStringType (valtype : ℕ) : Bool :=
  valtype = EvalExpression.typeStr || valtype = EvalExpression.typeCstr ||
    valtype = EvalExpression.typeHost || valtype = EvalExpression.typeRestr

/-- The first factor has to be a complex attribute or a number. -/
def validateFact (doubles : Doubles K) (centryList : List Centry) (name fact : List Char) :
    List FormulaError :=
  let fact := skipDollar fact
  match centryListLocate centryList fact with
  | some cmplxAttr =>
      if isStringType cmplxAttr.valtype then [.wrongTypeAttribute name fact] else []
  | none => if sgeStrIsNumber doubles fact then [] else [.notExistingAttribute name fact]

/-- The checks of a term with its factors. -/
def validateTerm (doubles : Doubles K) (centryList : List Centry) (name term : List Char) :
    List FormulaError :=
  match (strtok (fun c => c = '*') term).map Prod.fst with
  | [] => []
  | [fact] => validateFact doubles centryList name fact
  | fact :: nextFact :: rest =>
      validateFact doubles centryList name fact ++
        (if sgeStrIsNumber doubles nextFact then [] else [.weightFactNoNumb name nextFact]) ++
        (if rest.isEmpty then [] else [.multipleWeightFact name])

/-- `validate_load_formula`: the messages for the first term that is wrong. -/
def validateLoadFormula (doubles : Doubles K) (centryList : List Centry)
    (name loadFormula : List Char) : List FormulaError :=
  if loadFormula.map Char.toLower = ['n', 'o', 'n', 'e'] then [.noneNotAllowed name]
  else
    ((strtok isSign loadFormula).map Prod.fst).foldl (fun errors term =>
      if errors.isEmpty then validateTerm doubles centryList name term else errors) []

end Validation

section Evaluation
variable {K : Type}

/-- The `load_ops`. -/
inductive LoadOp
  | plus | minus | times | div | and | or | xor
deriving DecidableEq

def loadOp : Char → Option LoadOp
  | '+' => some .plus
  | '-' => some .minus
  | '*' => some .times
  | '/' => some .div
  | '&' => some .and
  | '|' => some .or
  | '^' => some .xor
  | _ => none

def isLoadOp (c : Char) : Bool := (loadOp c).isSome

/-- The fields of the element that `get_attribute_by_name` returns. -/
structure Attribute (K : Type) where
  /-- `CE_pj_dominant` has `DOMINANT_TYPE_VALUE`. -/
  pjDominantTypeValue : Bool
  doubleval : K
  pjDoubleval : K

/-- The attributes of a host, by their names. -/
abbrev Host (K : Type) := List Char → Option (Attribute K)

def Attribute.value (cep : Attribute K) : K :=
  if cep.pjDominantTypeValue then cep.doubleval else cep.pjDoubleval

def getLoadValue (host : Host K) (attrname : List Char) : Option K :=
  (host (skipDollar attrname)).map Attribute.value

/-- A number or a load value, with what is behind it. -/
def component (doubles : Doubles K) (host : Host K) (cp : List Char) : Option (K × List Char) :=
  match strtod cp with
  | some (subject, ptr) => some (doubles.value subject, ptr)
  | none =>
      let (parName, ptr) := sgeDelimStr isLoadOp cp
      (getLoadValue host parName).map fun val => (val, ptr)

variable [Field K]

def applyOp (doubles : Doubles K) (op : LoadOp) (val val2 : K) : K :=
  match op with
  | .times => val * val2
  | .div => val / val2
  | .and => ((doubles.toUlong32 val &&& doubles.toUlong32 val2 : ℕ) : K)
  | .or => ((doubles.toUlong32 val ||| doubles.toUlong32 val2 : ℕ) : K)
  | .xor => ((doubles.toUlong32 val ^^^ doubles.toUlong32 val2 : ℕ) : K)
  | .plus => val
  | .minus => val

/-- The value of what is between two signs. -/
def subexpression (doubles : Doubles K) (host : Host K) (cp : List Char) : Option K :=
  match component doubles host cp with
  | none => none
  | some (val, []) => some val
  | some (val, c :: ptr) =>
      match loadOp c with
      | none => none
      | some op => (component doubles host ptr).map fun p => applyOp doubles op val p.1

inductive Sign
  | plus | minus
deriving DecidableEq

/-- One round of the loop; the operation is none in the first one. -/
def addSubexpression (doubles : Doubles K) (host : Host K) (state : K × Option Sign)
    (token : List Char × List Char) : Option (K × Option Sign) :=
  (subexpression doubles host token.1).map fun val =>
    let load := match state.2 with
      | none => val
      | some .plus => state.1 + val
      | some .minus => state.1 - val
    (load, some (if token.2.head? = some '+' then .plus else .minus))

/-- `scaled_mixed_load`, without a result where it returns `ERROR_LOAD_VAL`. -/
def scaledMixedLoad (doubles : Doubles K) (host : Host K) (loadFormula : List Char) : Option K :=
  let nextOp := if loadFormula.head? = some '-' then some Sign.minus else none
  ((strtok isSign loadFormula).foldlM (addSubexpression doubles host) (0, nextOp)).map Prod.fst

end Evaluation

end GridEngine.LoadFormulas

/-!
## What a load formula stands for

A formula is a sequence of terms with signs before them, a term is a number or an attribute, which
a number may be multiplied with. Signs and names have their usual meaning, for any spelling that the
complex list allows.
-/

namespace GridEngine.LoadFormulas
open Strtod

section Formulas

def Sign.char : Sign → Char
  | .plus => '+'
  | .minus => '-'

/-- A term with the signs before it and those before its weighting factor. -/
structure Term where
  signs : List Sign
  factor : List Char
  weight : Option (List Sign × List Char)

def signText (signs : List Sign) : List Char := signs.map Sign.char

namespace Term

/-- The text behind the signs. -/
def body (t : Term) : List Char :=
  t.factor ++
    match t.weight with
    | none => []
    | some (signs, number) => '*' :: (signText signs ++ number)

def text (t : Term) : List Char := signText t.signs ++ t.body

/-- A factor is not empty and has no operators in it. -/
def IsFactor (text : List Char) : Prop :=
  text ≠ [] ∧ ∀ c ∈ text, isSign c = false ∧ c ≠ '*'

structure WellFormed (t : Term) : Prop where
  factor : IsFactor t.factor
  weight : ∀ w, t.weight = some w → IsFactor w.2

end Term

def formulaText (terms : List Term) : List Char := terms.flatMap Term.text

/-- Between two terms is at least one sign, which is the operator. -/
structure IsFormula (terms : List Term) : Prop where
  wellFormed : ∀ t ∈ terms, t.WellFormed
  operators : ∀ t ∈ terms.tail, t.signs ≠ []

end Formulas

section Values
variable {K : Type} [Field K]

/-- What a factor stands for. -/
inductive Factor
  | loadValue (name : List Char)
  | number (subject : List Char)

/-- The whole text is a number. -/
def readNumber (text : List Char) : Option (List Char) :=
  match strtod text with
  | some (subject, []) => some subject
  | _ => none

/-- A factor is an attribute, with or without a `$` before it, or else a number. -/
def readFactor (centryList : List Centry) (factor : List Char) : Option Factor :=
  if factor.head? = some '$' then
    (centryListLocate centryList factor.tail).map fun centry => .loadValue centry.name
  else
    match centryListLocate centryList factor with
    | some centry => some (.loadValue centry.name)
    | none => (readNumber factor).map .number

def Factor.value (doubles : Doubles K) (host : Host K) : Factor → Option K
  | .loadValue name => (host name).map Attribute.value
  | .number subject => some (doubles.value subject)

def Sign.value : Sign → K
  | .plus => 1
  | .minus => -1

def signsValue (signs : List Sign) : K := (signs.map Sign.value).prod

variable (doubles : Doubles K) (centryList : List Centry) (host : Host K)

namespace Term

/-- The value of the weighting factor. -/
def weightValue (t : Term) : Option K :=
  match t.weight with
  | none => some 1
  | some (signs, number) =>
      (readNumber number).map fun subject => signsValue signs * doubles.value subject

/-- The value of the term without the signs before it. -/
def amount (t : Term) : Option K :=
  ((readFactor centryList t.factor).bind (Factor.value doubles host)).bind fun factor =>
    (t.weightValue doubles).map fun weight => factor * weight

end Term

def formulaValue : List Term → Option K
  | [] => some 0
  | t :: terms =>
      (t.amount doubles centryList host).bind fun amount =>
        (formulaValue terms).map fun rest => signsValue t.signs * amount + rest

end Values

section Readings

/-- The evaluation finds the factor that is meant: an attribute has no character of an operator in
its name, and without a `$` before it it is called by its name, which does not begin like a
number. -/
def PlainFactor (centryList : List Centry) (factor : List Char) : Prop :=
  if factor.head? = some '$' then
    (∃ centry ∈ centryList, centry.name = factor.tail) ∧ ∀ c ∈ factor, isLoadOp c = false
  else
    '$' ∉ factor ∧ ∀ centry, centryListLocate centryList factor = some centry →
      centry.name = factor ∧ strtod factor = none ∧ ∀ c ∈ factor, isLoadOp c = false

namespace Term

structure Plain (centryList : List Centry) (t : Term) : Prop where
  factor : PlainFactor centryList t.factor
  weight : ∀ w, t.weight = some w → w.1 = []

/-- The signs behind the first one make a difference. -/
def misread (t : Term) : Bool := t.signs.tail.count .minus % 2 = 1

end Term

end Readings

end GridEngine.LoadFormulas
