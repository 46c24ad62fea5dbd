import GridEngine.FuelYields
import Mathlib.Data.List.Basic

/-!
# Boolean expressions

`sge_eval_expression` is a recursive descent over one look ahead token. Negative logic holds: 0 is
true. In skip mode the tokens are read and the patterns are neither copied nor matched. `fnmatch`,
`sge_hostmatch` and `sge_hostcmp` are parameters, and the fuel bounds the depth of the calls.
-/

namespace GridEngine.EvalExpression

/-- `MAX_STRING_SIZE`. -/
def maxStringSize : ℕ := 2048

/-- `TYPE_STR`, `TYPE_CSTR`, `TYPE_HOST` and `TYPE_RESTR`. -/
def typeStr : ℕ := 2

def typeCstr : ℕ := 6

def typeHost : ℕ := 7

def typeRestr : ℕ := 9

inductive TokenType
  | not | or | and | braceOpen | braceClose | «end» | exp | error
deriving DecidableEq

/-- The fields of `s_token` that change. -/
structure SToken where
  s : List Char
  pattern : List Char
  hasPatterns : Bool
  tt : TokenType
  et : TokenType
  answerList : List String

/-- `eTypes`. -/
def eTypes : List TokenType := [.not, .or, .and, .braceOpen, .braceClose, .end]

def indexOfTerminal : Char → Option ℕ
  | '!' => some 0
  | '|' => some 1
  | '&' => some 2
  | '(' => some 3
  | ')' => some 4
  | ' ' => some 5
  | '\x00' => some 5
  | _ => none

/-- `is_pattern`. -/
def isPattern (c : Char) : Bool := c = '*' || c = '?' || c = '[' || c = ']'

/-- `sge_is_expression`. -/
def sgeIsExpression (s : List Char) : Bool :=
  s.any fun c => c = '*' || c = '?' || c = '[' || c = ']' || c = '&' || c = '|' || c = '!' ||
    c = '(' || c = ')'

def strcmp (a b : List Char) : ℤ := if a = b then 0 else if a < b then -1 else 1

def strcasecmp (a b : List Char) : ℤ := strcmp (a.map Char.toLower) (b.map Char.toLower)

def msgParseError (position : ℕ) (expr : List Char) : String :=
  "Parse error on position " ++ toString position ++ " of the expression \"" ++
    String.ofList (expr.take 100) ++ "\"."

def msgLongValue : String :=
  "Invalid length of value exceed the limit " ++ toString maxStringSize ++ " characters."

def msgLongExpression : String :=
  "Invalid length of expression exceed the limit " ++ toString maxStringSize ++ " characters."

section Tokens
variable (type : ℕ) (expr : List Char)

/-- What `ParseNonTerminal` copies and `uncaseValue` makes of the value. -/
def uncase (s : List Char) : List Char :=
  if type = typeCstr ∨ type = typeHost then s.map Char.toLower else s

def parseTerminal (p : SToken) : Option SToken :=
  match p.s with
  | [] => none
  | c :: s => (indexOfTerminal c).map fun index => { p with tt := eTypes.getD index .error, s := s }

def parseNonTerminal (p : SToken) (skip : Bool) : SToken :=
  let p := { p with tt := .exp }
  if skip = false then
    match p.s with
    | [] => p
    | c :: s =>
        let pattern := c :: s.takeWhile (fun c => (indexOfTerminal c).isNone)
        { p with
          hasPatterns := pattern.any isPattern
          pattern := uncase type pattern
          s := s.dropWhile (fun c => (indexOfTerminal c).isNone) }
  else { p with s := p.s.dropWhile (fun c => (indexOfTerminal c).isNone) }

def nextToken (p : SToken) (skip : Bool) : SToken :=
  let p := { p with et := p.tt, s := p.s.dropWhile (· = ' ') }
  if p.tt = .error then p
  else if p.s = [] then { p with tt := .end }
  else (parseTerminal p).getD (parseNonTerminal type p skip)

/-- `Error`. -/
def error (p : SToken) (expected : TokenType) : ℤ × SToken :=
  if p.tt ≠ .error then
    (-1, { p with
      answerList := p.answerList ++ [msgParseError (expr.length - p.s.length) expr]
      et := expected
      tt := .error })
  else (-1, p)

end Tokens

section Evaluation
variable (fnmatch sgeHostmatch sgeHostcmp : List Char → List Char → ℤ)
variable (type : ℕ) (expr value : List Char)

def matchPattern (p : SToken) (skip : Bool) : ℤ :=
  if skip = true then -1
  else
    let result :=
      if p.hasPatterns then
        if type = typeStr ∨ type = typeCstr ∨ type = typeRestr then fnmatch p.pattern value
        else if type = typeHost then sgeHostmatch p.pattern value
        else -1
      else
        if type = typeStr ∨ type = typeRestr then strcmp p.pattern value
        else if type = typeCstr then strcasecmp p.pattern value
        else if type = typeHost then sgeHostcmp p.pattern value
        else -1
    if result = 0 then 0 else 1

/-- The C `!`. -/
def lnot (n : ℤ) : ℤ := if n = 0 then 1 else 0

mutual

def orExpression : ℕ → SToken → Bool → Option (ℤ × SToken)
  | 0, _, _ => none
  | fuel + 1, p, skip =>
      (andExpression fuel (nextToken type p skip) skip).bind fun r => orLoop fuel r.1 r.2 skip

/-- The loop of `OrExpression`. -/
def orLoop : ℕ → ℤ → SToken → Bool → Option (ℤ × SToken)
  | 0, _, _, _ => none
  | fuel + 1, result, p, skip =>
      if p.tt = .or then
        let p := nextToken type p skip
        if result = 0 then (andExpression fuel p true).bind fun r => orLoop fuel result r.2 skip
        else (andExpression fuel p skip).bind fun r => orLoop fuel r.1 r.2 skip
      else some (result, p)

def andExpression : ℕ → SToken → Bool → Option (ℤ × SToken)
  | 0, _, _ => none
  | fuel + 1, p, skip =>
      (simpleExpression fuel p skip).bind fun r => andLoop fuel r.1 r.2 skip

/-- The loop of `AndExpression`. -/
def andLoop : ℕ → ℤ → SToken → Bool → Option (ℤ × SToken)
  | 0, _, _, _ => none
  | fuel + 1, result, p, skip =>
      if p.tt = .and then
        let p := nextToken type p skip
        if result ≠ 0 then (simpleExpression fuel p true).bind fun r => andLoop fuel result r.2 skip
        else (simpleExpression fuel p skip).bind fun r => andLoop fuel r.1 r.2 skip
      else some (result, p)

def simpleExpression : ℕ → SToken → Bool → Option (ℤ × SToken)
  | 0, _, _ => none
  | fuel + 1, p, skip =>
      match p.tt with
      | .error => some (-1, p)
      | .braceOpen =>
          (orExpression fuel p skip).bind fun r =>
            if r.2.tt ≠ .braceClose then some (error expr r.2 .braceClose)
            else some (r.1, nextToken type r.2 skip)
      | .exp =>
          some (matchPattern fnmatch sgeHostmatch sgeHostcmp type value p skip,
            nextToken type p skip)
      | .not =>
          (simpleExpression fuel (nextToken type p skip) skip).bind fun r => some (lnot r.1, r.2)
      | _ => some (error expr p p.et)

end

end Evaluation

/-- `sge_eval_expression`: its result and the answers it adds. -/
def sgeEvalExpression (fnmatch sgeHostmatch sgeHostcmp : List Char → List Char → ℤ) (type : ℕ)
    (expr value : Option (List Char)) (fuel : ℕ) : Option (ℤ × List String) :=
  match expr, value with
  | none, some _ => some (-1, [])
  | some _, none => some (1, [])
  | none, none => some (0, [])
  | some expr, some value =>
      if value.length ≥ maxStringSize then some (-1, [msgLongValue])
      else if expr.length ≥ maxStringSize then some (-1, [msgLongExpression])
      else
        let token : SToken := ⟨expr, [], sgeIsExpression expr, .end, .exp, []⟩
        if token.hasPatterns then
          (orExpression fnmatch sgeHostmatch sgeHostcmp type expr (uncase type value) fuel token
              false).bind fun r =>
            if r.2.tt ≠ .end then
              let r := error expr r.2 .end
              some (r.1, r.2.answerList)
            else if r.2.s ≠ [] then
              let r := error expr r.2 r.2.et
              some (r.1, r.2.answerList)
            else some (r.1, r.2.answerList)
        else
          let token := { token with pattern := expr }
          some (matchPattern fnmatch sgeHostmatch sgeHostcmp type value token false, [])

end GridEngine.EvalExpression
