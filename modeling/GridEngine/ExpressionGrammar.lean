import GridEngine.EvalExpression
import Mathlib.Data.List.TakeWhile

/-!
# The grammar of boolean expressions

A string is spelled by tokens with spaces between them, and the grammar derives an expression tree
from the tokens. Evaluation with enough fuel refuses exactly the strings without a derivation, and
its result is the value of the tree, whatever it skips on the way.
-/

namespace GridEngine.EvalExpression
open Fuel

inductive Operator
  | not | or | and | braceOpen | braceClose
deriving DecidableEq

namespace Operator

def char : Operator → Char
  | not => '!'
  | or => '|'
  | and => '&'
  | braceOpen => '('
  | braceClose => ')'

def type : Operator → TokenType
  | not => .not
  | or => .or
  | and => .and
  | braceOpen => .braceOpen
  | braceClose => .braceClose

end Operator

inductive Lexeme
  | op (o : Operator)
  | pattern (s : List Char)
deriving DecidableEq

def Lexeme.type : Lexeme → TokenType
  | op o => o.type
  | pattern _ => .exp

/-- A character of a pattern. -/
def Plain (c : Char) : Prop := c ∉ ['!', '|', '&', '(', ')', ' ', '\x00']

instance (c : Char) : Decidable (Plain c) := inferInstanceAs (Decidable (c ∉ _))

/-- The tokens of a string; a pattern goes on as far as it can. -/
inductive Lexes : List Char → List Lexeme → Prop
  | nil : Lexes [] []
  | space {s ls} : Lexes s ls → Lexes (' ' :: s) ls
  | op {s ls} (o : Operator) : Lexes s ls → Lexes (o.char :: s) (.op o :: ls)
  | pattern {s ls} (t : List Char) : t ≠ [] → (∀ c ∈ t, Plain c) → (∀ c ∈ s.head?, ¬ Plain c) →
      Lexes s ls → Lexes (t ++ s) (.pattern t :: ls)

inductive Expression
  | pattern (s : List Char)
  | not (e : Expression)
  | and (e f : Expression)
  | or (e f : Expression)

inductive Level
  | or | and | simple

/-- `Or := And ('|' And)*`, `And := Simple ('&' Simple)*` and
`Simple := pattern | '!' Simple | '(' Or ')'`. -/
inductive Derives : Level → List Lexeme → Expression → Prop
  | pattern (s : List Char) : Derives .simple [.pattern s] (.pattern s)
  | not {ls e} : Derives .simple ls e → Derives .simple (.op .not :: ls) (.not e)
  | braces {ls e} : Derives .or ls e →
      Derives .simple (.op .braceOpen :: (ls ++ [.op .braceClose])) e
  | simple {ls e} : Derives .simple ls e → Derives .and ls e
  | and {ls ks e f} : Derives .and ls e → Derives .simple ks f →
      Derives .and (ls ++ .op .and :: ks) (.and e f)
  | single {ls e} : Derives .and ls e → Derives .or ls e
  | or {ls ks e f} : Derives .or ls e → Derives .and ks f →
      Derives .or (ls ++ .op .or :: ks) (.or e f)

/-- The string is in the grammar, and this is its tree. -/
def Denotes (s : List Char) (e : Expression) : Prop := ∃ ls, Lexes s ls ∧ Derives .or ls e

/-- The value of a tree, the patterns being decided by `holds`. -/
def Expression.eval (holds : List Char → Bool) : Expression → Bool
  | pattern s => holds s
  | not e => !e.eval holds
  | and e f => e.eval holds && f.eval holds
  | or e f => e.eval holds || f.eval holds

/-- 0 is true. -/
def Expression.result (holds : List Char → Bool) (e : Expression) : ℤ :=
  if e.eval holds then 0 else 1

/-- A C string. -/
structure CString where
  chars : List Char
  noNul : '\x00' ∉ chars

section Lexing
variable {s t : List Char} {ls : List Lexeme} {c : Char} {o : Operator}

theorem isNone_indexOfTerminal : (indexOfTerminal c).isNone = decide (Plain c) := by
  unfold Plain indexOfTerminal
  split
  all_goals simp_all

theorem index_operator : ∃ i, indexOfTerminal o.char = some i ∧ eTypes.getD i .error = o.type := by
  cases o
  · exact ⟨0, rfl, rfl⟩
  · exact ⟨1, rfl, rfl⟩
  · exact ⟨2, rfl, rfl⟩
  · exact ⟨3, rfl, rfl⟩
  · exact ⟨4, rfl, rfl⟩

theorem operator_ne_space : o.char ≠ ' ' := by
  cases o <;> decide

/-- A character is a space, an operator, the null or part of a pattern. -/
theorem char_cases (c : Char) :
    c = ' ' ∨ (∃ o : Operator, c = o.char) ∨ c = '\x00' ∨ Plain c := by
  by_cases hplain : Plain c
  · exact .inr (.inr (.inr hplain))
  · simp only [Plain, not_not, List.mem_cons, List.not_mem_nil, or_false] at hplain
    rcases hplain with rfl | rfl | rfl | rfl | rfl | rfl | rfl
    · exact .inr (.inl ⟨.not, rfl⟩)
    · exact .inr (.inl ⟨.or, rfl⟩)
    · exact .inr (.inl ⟨.and, rfl⟩)
    · exact .inr (.inl ⟨.braceOpen, rfl⟩)
    · exact .inr (.inl ⟨.braceClose, rfl⟩)
    · exact .inl rfl
    · exact .inr (.inr (.inl rfl))

theorem takeWhile_plain (ht : ∀ c ∈ t, Plain c) (hs : ∀ c ∈ s.head?, ¬ Plain c) :
    (t ++ s).takeWhile (fun c => (indexOfTerminal c).isNone) = t ∧
      (t ++ s).dropWhile (fun c => (indexOfTerminal c).isNone) = s := by
  have hpos : ∀ c ∈ t, (indexOfTerminal c).isNone = true := by
    intro c hc
    rw [isNone_indexOfTerminal]
    exact decide_eq_true (ht c hc)
  have htail : s.takeWhile (fun c => (indexOfTerminal c).isNone) = [] ∧
      s.dropWhile (fun c => (indexOfTerminal c).isNone) = s := by
    cases s with
    | nil => exact ⟨rfl, rfl⟩
    | cons c s =>
        have hc : ¬ (indexOfTerminal c).isNone = true := by
          rw [isNone_indexOfTerminal]
          simpa using hs c rfl
        exact ⟨List.takeWhile_cons_of_neg hc, List.dropWhile_cons_of_neg hc⟩
  constructor
  · rw [List.takeWhile_append_of_pos hpos, htail.1, List.append_nil]
  · rw [List.dropWhile_append_of_pos hpos, htail.2]

theorem exists_lexes (h : '\x00' ∉ s) : ∃ ls, Lexes s ls := by
  induction hlen : s.length using Nat.strongRecOn generalizing s with
  | ind k ih =>
      cases s with
      | nil => exact ⟨[], .nil⟩
      | cons c s =>
          have hrest : '\x00' ∉ s := fun hmem => h (List.mem_cons_of_mem c hmem)
          rcases char_cases c with rfl | ⟨o, rfl⟩ | rfl | hc
          · obtain ⟨ls, hls⟩ := ih s.length (by simp [← hlen]) hrest rfl
            exact ⟨ls, hls.space⟩
          · obtain ⟨ls, hls⟩ := ih s.length (by simp [← hlen]) hrest rfl
            exact ⟨_, hls.op o⟩
          · exact absurd List.mem_cons_self h
          · have hdrop := (List.dropWhile_suffix (l := s) (fun c => decide (Plain c)))
            obtain ⟨ls, hls⟩ := ih (s.dropWhile fun c => decide (Plain c)).length
              (by have := hdrop.length_le; simp [← hlen]; omega)
              (fun hmem => hrest (hdrop.subset hmem)) rfl
            have hsplit : c :: s = (c :: s.takeWhile fun c => decide (Plain c)) ++
                s.dropWhile fun c => decide (Plain c) := by
              rw [List.cons_append, List.takeWhile_append_dropWhile]
            refine ⟨.pattern (c :: s.takeWhile fun c => decide (Plain c)) :: ls, ?_⟩
            rw [hsplit]
            refine Lexes.pattern _ (List.cons_ne_nil _ _) ?_ ?_ hls
            · intro d hd
              rcases List.mem_cons.mp hd with rfl | hd
              · exact hc
              · have hplain := List.mem_takeWhile_imp hd
                simpa using hplain
            · intro d hd
              have hnot := List.head?_dropWhile_not (fun c => decide (Plain c)) s
              rw [Option.mem_def.mp hd] at hnot
              simpa using hnot

end Lexing

section States
variable {type : ℕ} {skip : Bool} {p : SToken} {s : List Char} {ls : List Lexeme}

/-- The look ahead token and the text behind it are `ls`. -/
def Sees (p : SToken) : List Lexeme → Prop
  | [] => p.tt = .end ∧ p.s = []
  | l :: ls => p.tt = l.type ∧ Lexes p.s ls

/-- A pattern in front has been copied. -/
def Copied (type : ℕ) (p : SToken) (ls : List Lexeme) : Prop :=
  ∀ s, ls.head? = some (.pattern s) →
    p.pattern = uncase type s ∧ p.hasPatterns = s.any isPattern

theorem nextToken_space (h : p.s = ' ' :: s) :
    nextToken type p skip = nextToken type { p with s := s } skip := by
  unfold nextToken
  rw [h, List.dropWhile_cons_of_pos (by simp)]

theorem nextToken_nil (h : p.s = []) (herr : p.tt ≠ .error) :
    nextToken type p skip = { p with et := p.tt, tt := .end } := by
  unfold nextToken
  simp only [h, List.dropWhile_nil, herr, if_false, if_true]

theorem nextToken_op {o : Operator} (h : p.s = o.char :: s) (herr : p.tt ≠ .error) :
    nextToken type p skip = { p with et := p.tt, tt := o.type, s := s } := by
  obtain ⟨i, hi, htype⟩ := @index_operator o
  have hdrop : (o.char :: s).dropWhile (· = ' ') = o.char :: s :=
    List.dropWhile_cons_of_neg (by simpa using operator_ne_space)
  unfold nextToken
  simp only [h, hdrop, herr, if_false, reduceCtorEq, parseTerminal, hi, Option.map_some, htype,
    Option.getD_some]

theorem nextToken_pattern {t : List Char} (h : p.s = t ++ s) (hne : t ≠ [])
    (ht : ∀ c ∈ t, Plain c) (hs : ∀ c ∈ s.head?, ¬ Plain c) (herr : p.tt ≠ .error) :
    nextToken type p skip =
      if skip = false then
        { p with
          et := p.tt, tt := .exp, s := s, hasPatterns := t.any isPattern, pattern := uncase type t }
      else { p with et := p.tt, tt := .exp, s := s } := by
  obtain ⟨c, t, rfl⟩ := List.exists_cons_of_ne_nil hne
  have hc : Plain c := ht c List.mem_cons_self
  have hspace : c ≠ ' ' := by
    rintro rfl
    exact hc (by simp)
  have hnone : indexOfTerminal c = none := by
    rw [← Option.isNone_iff_eq_none, isNone_indexOfTerminal]
    exact decide_eq_true hc
  have hdrop : (c :: (t ++ s)).dropWhile (· = ' ') = c :: (t ++ s) :=
    List.dropWhile_cons_of_neg (by simpa using hspace)
  obtain ⟨htake, hrest⟩ := takeWhile_plain (fun d hd => ht d (List.mem_cons_of_mem c hd)) hs
  rw [List.cons_append] at h
  unfold nextToken
  simp only [h, hdrop, herr, if_false, reduceCtorEq, parseTerminal, hnone, Option.map_none,
    Option.getD_none, parseNonTerminal, htake, hrest]
  cases skip with
  | false => rfl
  | true =>
      rw [if_neg nofun, if_neg nofun, List.dropWhile_cons_of_pos (by simp [hnone]), hrest]

/-- The next token is read, and a pattern is copied unless it is skipped. -/
theorem nextToken_sees (hlex : Lexes p.s ls) (herr : p.tt ≠ .error) :
    Sees (nextToken type p skip) ls ∧
      (skip = false → Copied type (nextToken type p skip) ls) := by
  generalize hs : p.s = s at hlex
  induction hlex generalizing p with
  | nil =>
      rw [nextToken_nil hs herr]
      exact ⟨⟨rfl, hs⟩, fun _ => nofun⟩
  | space _ ih =>
      rw [nextToken_space hs]
      exact ih (p := { p with s := _ }) herr rfl
  | op o hlex _ =>
      rw [nextToken_op hs herr]
      exact ⟨⟨rfl, hlex⟩, fun _ => nofun⟩
  | pattern t hne ht hstop hlex _ =>
      rw [nextToken_pattern hs hne ht hstop herr]
      cases skip with
      | false =>
          refine ⟨⟨rfl, hlex⟩, fun _ u hu => ?_⟩
          obtain rfl := Lexeme.pattern.inj (Option.some.inj hu)
          exact ⟨rfl, rfl⟩
      | true => exact ⟨⟨rfl, hlex⟩, nofun⟩

theorem Sees.ne_error (h : Sees p ls) : p.tt ≠ .error := by
  cases ls with
  | nil =>
      rw [h.1]
      exact nofun
  | cons l ls =>
      rw [h.1]
      rcases l with o | t
      · cases o <;> exact nofun
      · exact nofun

end States

section Loops
variable {type : ℕ} {body : ℕ → SToken → Bool → Option (ℤ × SToken)}
variable {loop : ℕ → ℤ → SToken → Bool → Option (ℤ × SToken)} {skips : ℤ → Bool}
variable {o : Operator} {skip : Bool} {p : SToken} {r : ℤ × SToken} {result : ℤ}
variable {ls ks rest : List Lexeme} {e f g : Expression} {level inner : Level}

/-- The loop behind the first operand: while the operator follows, one more operand is read, in skip
mode where the result cannot change. -/
def IsLoop (type : ℕ) (o : Operator) (skips : ℤ → Bool)
    (body : ℕ → SToken → Bool → Option (ℤ × SToken))
    (loop : ℕ → ℤ → SToken → Bool → Option (ℤ × SToken)) : Prop :=
  ∀ n result p skip, loop (n + 1) result p skip =
    if p.tt = o.type then
      if skips result then (body n (nextToken type p skip) true).bind fun r => loop n result r.2 skip
      else (body n (nextToken type p skip) skip).bind fun r => loop n r.1 r.2 skip
    else some (result, p)

/-- The first operand and the loop. -/
def start (body : ℕ → SToken → Bool → Option (ℤ × SToken))
    (loop : ℕ → ℤ → SToken → Bool → Option (ℤ × SToken)) (n : ℕ) (p : SToken) (skip : Bool) :
    Option (ℤ × SToken) :=
  (body n p skip).bind fun r => loop n r.1 r.2 skip

theorem IsLoop.stop (h : IsLoop type o skips body loop) (hp : p.tt ≠ o.type) :
    Yields (fun n => loop n result p skip) (result, p) := by
  have hstep : ∀ n, loop (n + 1) result p skip = some (result, p) := by
    intro n
    rw [h n result p skip, if_neg hp]
  refine Yields.succ ?_
  simp only [hstep]
  exact yields_some

theorem IsLoop.next {out : ℤ × SToken} (h : IsLoop type o skips body loop) (hp : p.tt = o.type)
    (hbody : Yields (fun n => body n (nextToken type p skip) (skips result || skip)) r)
    (hloop : Yields (fun n => loop n (if skips result then result else r.1) r.2 skip) out) :
    Yields (fun n => loop n result p skip) out := by
  have hstep := fun n => h n result p skip
  refine Yields.succ ?_
  simp only [hstep, if_pos hp]
  cases hskips : skips result with
  | true =>
      simp only [hskips, Bool.true_or, if_true] at hbody hloop ⊢
      exact hbody.bind (k := fun r n => loop n result r.2 skip) hloop
  | false =>
      simp only [hskips, Bool.false_or, Bool.false_eq_true, if_false] at hbody hloop ⊢
      exact hbody.bind (k := fun r n => loop n r.1 r.2 skip) hloop

theorem start_yields {out : ℤ × SToken} (hbody : Yields (fun n => body n p skip) r)
    (hloop : Yields (fun n => loop n r.1 r.2 skip) out) :
    Yields (fun n => start body loop n p skip) out := by
  unfold start
  exact hbody.bind (k := fun r n => loop n r.1 r.2 skip) hloop

theorem type_eq_iff {l : Lexeme} : l.type = o.type ↔ l = .op o := by
  rcases l with q | t
  · cases q <;> cases o <;> simp [Lexeme.type, Operator.type]
  · cases o <;> simp [Lexeme.type, Operator.type]

theorem Sees.head (h : Sees p ls) : p.tt = o.type ↔ ls.head? = some (.op o) := by
  cases ls with
  | nil =>
      rw [h.1]
      cases o <;> simp [Operator.type]
  | cons l ls => rw [h.1, type_eq_iff, List.head?_cons, Option.some_inj]

theorem error_ne : TokenType.error ≠ o.type := by
  cases o <;> exact nofun

/-- The tokens that are gone have a derivation, or an error has been found. -/
def Sound (level : Level) (ls : List Lexeme) (p : SToken) : Prop :=
  p.tt = .error ∨ ∃ ks rest e, ls = ks ++ rest ∧ Derives level ks e ∧ Sees p rest

/-- Enough fuel gives a sound result. -/
def Total (body : ℕ → SToken → Bool → Option (ℤ × SToken)) (level : Level) (ls : List Lexeme) :
    Prop :=
  ∀ p skip, Sees p ls → ∃ r, Yields (fun n => body n p skip) r ∧ Sound level ls r.2

theorem Derives.ne_nil (h : Derives level ls e) : ls ≠ [] := by
  induction h with
  | pattern => exact List.cons_ne_nil _ _
  | not => exact List.cons_ne_nil _ _
  | braces => exact List.cons_ne_nil _ _
  | simple _ ih => exact ih
  | and => simp
  | single _ ih => exact ih
  | or => simp

theorem IsLoop.total (h : IsLoop type o skips body loop) {k : ℕ} (result : ℤ) (skip : Bool)
    (hjoin : ∀ {ks vs e f}, Derives level ks e → Derives inner vs f →
      ∃ g, Derives level (ks ++ .op o :: vs) g)
    (hbody : ∀ ls : List Lexeme, ls.length < k → Total body inner ls)
    (hks : Derives level ks e) (hlen : rest.length ≤ k) (hp : Sees p rest) :
    ∃ r, Yields (fun n => loop n result p skip) r ∧ Sound level (ks ++ rest) r.2 := by
  induction hm : rest.length using Nat.strongRecOn generalizing rest ks e p result with
  | ind m ih =>
      by_cases hop : p.tt = o.type
      · cases rest with
        | nil => exact absurd (hp.head.mp hop) nofun
        | cons l rest =>
            obtain rfl : l = .op o := Option.some.inj (hp.head.mp hop)
            obtain ⟨hsees, -⟩ := @nextToken_sees type skip p rest hp.2 hp.ne_error
            have hlt : rest.length < k := by
              simp only [List.length_cons] at hlen
              omega
            obtain ⟨r, hr, hsound⟩ := hbody rest hlt _ (skips result || skip) hsees
            rcases hsound with herr | ⟨vs, tail, f, rfl, hvs, htail⟩
            · refine ⟨_, h.next hop hr (h.stop ?_), .inl herr⟩
              rw [herr]
              exact error_ne
            · obtain ⟨g, hg⟩ := hjoin hks hvs
              have hshort : tail.length < m := by
                have hpos := List.length_pos_iff.mpr hvs.ne_nil
                simp only [List.length_cons, List.length_append] at hm
                omega
              obtain ⟨out, hout, hsound⟩ :=
                ih tail.length hshort (if skips result then result else r.1) hg
                  (by simp only [List.length_append] at hlt; omega) htail rfl
              refine ⟨out, h.next hop hr hout, ?_⟩
              simpa using hsound
      · exact ⟨_, h.stop hop, .inr ⟨ks, rest, e, rfl, hks, hp⟩⟩

theorem IsLoop.start_total (h : IsLoop type o skips body loop)
    (hlift : ∀ {ks e}, Derives inner ks e → Derives level ks e)
    (hjoin : ∀ {ks vs e f}, Derives level ks e → Derives inner vs f →
      ∃ g, Derives level (ks ++ .op o :: vs) g)
    (hbody : ∀ ks : List Lexeme, ks.length ≤ ls.length → Total body inner ks) :
    Total (start body loop) level ls := by
  intro p skip hp
  obtain ⟨r, hr, hsound⟩ := hbody ls le_rfl p skip hp
  rcases hsound with herr | ⟨ks, rest, e, rfl, hks, hrest⟩
  · have hstop : r.2.tt ≠ o.type := by
      rw [herr]
      exact error_ne
    exact ⟨_, start_yields hr (h.stop hstop), .inl herr⟩
  · have hpos := List.length_pos_iff.mpr hks.ne_nil
    obtain ⟨out, hout, hsound⟩ := h.total r.1 skip hjoin (fun vs hvs => hbody vs hvs.le)
      (hlift hks) (by simp) hrest
    exact ⟨out, start_yields hr hout, hsound⟩

variable {holds : List Char → Bool} {vs : List Lexeme} {follow : List Lexeme → Prop}

/-- The tokens in front of `rest` are read, and unless they are skipped the result is right. -/
def Outcome (holds : List Char → Bool) (e : Expression) (skip : Bool) (rest : List Lexeme)
    (r : ℤ × SToken) : Prop :=
  (skip = false → r.1 = e.result holds) ∧ Sees r.2 rest

/-- The tokens `ks` are evaluated, whatever may follow them. -/
def Parses (type : ℕ) (holds : List Char → Bool) (follow : List Lexeme → Prop)
    (body : ℕ → SToken → Bool → Option (ℤ × SToken)) (ks : List Lexeme) (e : Expression) : Prop :=
  ∀ rest p skip, follow rest → Sees p (ks ++ rest) →
    (skip = false → Copied type p (ks ++ rest)) →
      ∃ r, Yields (fun n => body n p skip) r ∧ Outcome holds e skip rest r

/-- The loop goes on behind the tokens `ks` with their value. -/
def Reaches (type : ℕ) (holds : List Char → Bool) (follow : List Lexeme → Prop)
    (body : ℕ → SToken → Bool → Option (ℤ × SToken))
    (loop : ℕ → ℤ → SToken → Bool → Option (ℤ × SToken)) (ks : List Lexeme) (e : Expression) :
    Prop :=
  ∀ rest p skip, follow rest → Sees p (ks ++ rest) →
    (skip = false → Copied type p (ks ++ rest)) →
      ∃ r, Outcome holds e skip rest r ∧ ∀ out, Yields (fun n => loop n r.1 r.2 skip) out →
        Yields (fun n => start body loop n p skip) out

theorem Parses.reaches (h : Parses type holds follow body ks e) :
    Reaches type holds follow body loop ks e := by
  intro rest p skip hfollow hp hcopied
  obtain ⟨r, hr, hout⟩ := h rest p skip hfollow hp hcopied
  exact ⟨r, hout, fun _ hloop => start_yields hr hloop⟩

theorem Reaches.join (hl : IsLoop type o skips body loop)
    (hfollow : ∀ ls, follow (.op o :: ls)) (h : Reaches type holds follow body loop ks e)
    (hvs : Parses type holds follow body vs f)
    (hskips : skips (e.result holds) = true → g.result holds = e.result holds)
    (hgoes : skips (e.result holds) = false → g.result holds = f.result holds) :
    Reaches type holds follow body loop (ks ++ .op o :: vs) g := by
  intro rest p skip hrest hp hcopied
  rw [List.append_assoc, List.cons_append] at hp hcopied
  obtain ⟨r, ⟨hvalue, hsees⟩, hloop⟩ := h _ p skip (hfollow _) hp hcopied
  have hop : r.2.tt = o.type := hsees.head.mpr rfl
  obtain ⟨hnext, hcopy⟩ := @nextToken_sees type skip r.2 _ hsees.2 hsees.ne_error
  obtain ⟨r', hr', hvalue', hsees'⟩ := hvs rest _ (skips r.1 || skip) hrest hnext
    (fun hfalse => hcopy (by simpa using (Bool.or_eq_false_iff.mp hfalse).2))
  refine ⟨(if skips r.1 then r.1 else r'.1, r'.2), ⟨fun hskip => ?_, hsees'⟩, fun out hout => ?_⟩
  · rw [hvalue hskip] at hvalue' ⊢
    cases hcase : skips (e.result holds) with
    | true => rw [if_pos rfl, hskips hcase]
    | false =>
        rw [if_neg nofun, hvalue' (by rw [hcase, hskip]; rfl), hgoes hcase]
  · exact hloop out (hl.next hop hr' hout)

theorem Reaches.parses (hl : IsLoop type o skips body loop)
    (h : Reaches type holds follow body loop ks e) :
    Parses type holds (fun ls => follow ls ∧ ls.head? ≠ some (.op o)) (start body loop) ks e := by
  rintro rest p skip ⟨hfollow, hhead⟩ hp hcopied
  obtain ⟨r, hout, hloop⟩ := h rest p skip hfollow hp hcopied
  exact ⟨r, hloop r (hl.stop fun hop => hhead (hout.2.head.mp hop)), hout⟩

end Loops

section Evaluation
variable (fnmatch sgeHostmatch sgeHostcmp : List Char → List Char → ℤ)
variable (type : ℕ) (expr value : List Char)

/-- The single pattern matcher. -/
def patternMatches (s : List Char) : Bool :=
  matchPattern fnmatch sgeHostmatch sgeHostcmp type value
    ⟨[], uncase type s, s.any isPattern, .exp, .exp, []⟩ false = 0

theorem andLoop_isLoop : IsLoop type .and (fun result => decide (result ≠ 0))
    (simpleExpression fnmatch sgeHostmatch sgeHostcmp type expr value)
    (andLoop fnmatch sgeHostmatch sgeHostcmp type expr value) := by
  intro n result p skip
  rw [andLoop]
  simp only [decide_eq_true_eq, Operator.type]

theorem orLoop_isLoop : IsLoop type .or (fun result => decide (result = 0))
    (andExpression fnmatch sgeHostmatch sgeHostcmp type expr value)
    (orLoop fnmatch sgeHostmatch sgeHostcmp type expr value) := by
  intro n result p skip
  rw [orLoop]
  simp only [decide_eq_true_eq, Operator.type]

variable {fnmatch sgeHostmatch sgeHostcmp type expr value}
variable {p : SToken} {skip : Bool} {ls ks : List Lexeme} {e : Expression} {r : ℤ × SToken}

theorem error_tt {expected : TokenType} : (error expr p expected).2.tt = .error := by
  unfold error
  split_ifs with h
  · rfl
  · exact not_not.mp h

theorem simpleExpression_exp (hp : p.tt = .exp) :
    Yields (fun n => simpleExpression fnmatch sgeHostmatch sgeHostcmp type expr value n p skip)
      (matchPattern fnmatch sgeHostmatch sgeHostcmp type value p skip, nextToken type p skip) := by
  refine Yields.succ ?_
  simp only [simpleExpression, hp]
  exact yields_some

theorem simpleExpression_not (hp : p.tt = .not)
    (hr : Yields (fun n => simpleExpression fnmatch sgeHostmatch sgeHostcmp type expr value n
      (nextToken type p skip) skip) r) :
    Yields (fun n => simpleExpression fnmatch sgeHostmatch sgeHostcmp type expr value n p skip)
      (lnot r.1, r.2) := by
  refine Yields.succ ?_
  simp only [simpleExpression, hp]
  exact hr.bind (k := fun r _ => some (lnot r.1, r.2)) yields_some

theorem simpleExpression_brace (hp : p.tt = .braceOpen)
    (hr : Yields (fun n => start
      (andExpression fnmatch sgeHostmatch sgeHostcmp type expr value)
      (orLoop fnmatch sgeHostmatch sgeHostcmp type expr value) n (nextToken type p skip) skip) r) :
    Yields (fun n => simpleExpression fnmatch sgeHostmatch sgeHostcmp type expr value n p skip)
      (if r.2.tt ≠ .braceClose then error expr r.2 .braceClose
        else (r.1, nextToken type r.2 skip)) := by
  have hor : Yields (fun n => orExpression fnmatch sgeHostmatch sgeHostcmp type expr value n p skip)
      r := Yields.succ hr
  refine Yields.succ ?_
  simp only [simpleExpression, hp]
  refine hor.bind (k := fun r _ => if r.2.tt ≠ .braceClose then some (error expr r.2 .braceClose)
    else some (r.1, nextToken type r.2 skip)) ?_
  simp only [← apply_ite some]
  exact yields_some

theorem simpleExpression_refuses (hp : p.tt = .or ∨ p.tt = .and ∨ p.tt = .braceClose ∨
    p.tt = .end) :
    Yields (fun n => simpleExpression fnmatch sgeHostmatch sgeHostcmp type expr value n p skip)
      (error expr p p.et) := by
  refine Yields.succ ?_
  rcases hp with hp | hp | hp | hp
  all_goals
    simp only [simpleExpression, hp]
    exact yields_some

theorem andExpression_total
    (h : ∀ ks : List Lexeme, ks.length ≤ ls.length →
      Total (simpleExpression fnmatch sgeHostmatch sgeHostcmp type expr value) .simple ks) :
    Total (andExpression fnmatch sgeHostmatch sgeHostcmp type expr value) .and ls := by
  have htotal := (andLoop_isLoop fnmatch sgeHostmatch sgeHostcmp type expr value).start_total
    Derives.simple (fun hks hvs => ⟨_, Derives.and hks hvs⟩) h
  intro p skip hp
  obtain ⟨r, hr, hsound⟩ := htotal p skip hp
  exact ⟨r, Yields.succ hr, hsound⟩

theorem orExpression_total
    (h : ∀ ks : List Lexeme, ks.length ≤ ls.length →
      Total (simpleExpression fnmatch sgeHostmatch sgeHostcmp type expr value) .simple ks) :
    Total (start (andExpression fnmatch sgeHostmatch sgeHostcmp type expr value)
      (orLoop fnmatch sgeHostmatch sgeHostcmp type expr value)) .or ls := by
  refine (orLoop_isLoop fnmatch sgeHostmatch sgeHostcmp type expr value).start_total
    Derives.single (fun hks hvs => ⟨_, Derives.or hks hvs⟩) ?_
  exact fun ks hks => andExpression_total fun vs hvs => h vs (hvs.trans hks)

/-- Evaluation ends for all tokens, and without an error only behind a derivation. -/
theorem simpleExpression_total (ls : List Lexeme) :
    Total (simpleExpression fnmatch sgeHostmatch sgeHostcmp type expr value) .simple ls := by
  induction hm : ls.length using Nat.strongRecOn generalizing ls with
  | ind m ih =>
      intro p skip hp
      cases ls with
      | nil =>
          exact ⟨_, simpleExpression_refuses (.inr (.inr (.inr hp.1))), .inl error_tt⟩
      | cons l ls =>
          have hlt : ls.length < m := by
            simp only [List.length_cons] at hm
            omega
          obtain ⟨hnext, -⟩ := @nextToken_sees type skip p ls hp.2 hp.ne_error
          rcases l with o | s
          · cases o with
            | not =>
                obtain ⟨r, hr, hsound⟩ := ih ls.length hlt ls rfl _ skip hnext
                refine ⟨_, simpleExpression_not hp.1 hr, ?_⟩
                rcases hsound with herr | ⟨ks, rest, e, rfl, hks, hrest⟩
                · exact .inl herr
                · exact .inr ⟨.op .not :: ks, rest, _, rfl, hks.not, hrest⟩
            | braceOpen =>
                obtain ⟨r, hr, hsound⟩ := orExpression_total
                  (fun ks hks => ih ks.length (lt_of_le_of_lt hks hlt) ks rfl) _ skip hnext
                refine ⟨_, simpleExpression_brace hp.1 hr, ?_⟩
                by_cases hclose : r.2.tt = .braceClose
                · rw [if_neg (not_not.mpr hclose)]
                  rcases hsound with herr | ⟨ks, rest, e, rfl, hks, hrest⟩
                  · rw [herr] at hclose
                    exact absurd hclose nofun
                  · cases rest with
                    | nil => exact absurd ((hrest.head (o := .braceClose)).mp hclose) nofun
                    | cons l rest =>
                        obtain rfl : l = .op .braceClose :=
                          Option.some.inj ((hrest.head (o := .braceClose)).mp hclose)
                        obtain ⟨hsees, -⟩ :=
                          @nextToken_sees type skip r.2 rest hrest.2 hrest.ne_error
                        exact .inr ⟨_, rest, e, by simp, hks.braces, hsees⟩
                · rw [if_pos hclose]
                  exact .inl error_tt
            | or => exact ⟨_, simpleExpression_refuses (.inl hp.1), .inl error_tt⟩
            | and => exact ⟨_, simpleExpression_refuses (.inr (.inl hp.1)), .inl error_tt⟩
            | braceClose =>
                exact ⟨_, simpleExpression_refuses (.inr (.inr (.inl hp.1))), .inl error_tt⟩
          · exact ⟨_, simpleExpression_exp hp.1, .inr ⟨[.pattern s], ls, _, rfl, .pattern s, hnext⟩⟩

theorem lnot_result {holds : List Char → Bool} :
    lnot (e.result holds) = (Expression.not e).result holds := by
  have heval : (Expression.not e).eval holds = !e.eval holds := rfl
  rw [Expression.result, Expression.result, heval, lnot]
  cases e.eval holds <;> rfl

theorem result_eq_zero {holds : List Char → Bool} :
    e.result holds = 0 ↔ e.eval holds = true := by
  unfold Expression.result
  split_ifs with h <;> simp [h]

theorem matchPattern_copied {s : List Char} (hp : p.pattern = uncase type s)
    (hpatterns : p.hasPatterns = s.any isPattern) :
    matchPattern fnmatch sgeHostmatch sgeHostcmp type value p false =
      (Expression.pattern s).result (patternMatches fnmatch sgeHostmatch sgeHostcmp type value) := by
  unfold Expression.result Expression.eval patternMatches matchPattern
  simp only [Bool.false_eq_true, if_false, hp, hpatterns]
  split_ifs <;> simp_all

/-- What a derivation says about the function of its level. -/
def Evaluated (fnmatch sgeHostmatch sgeHostcmp : List Char → List Char → ℤ) (type : ℕ)
    (expr value : List Char) (ks : List Lexeme) (e : Expression) : Level → Prop
  | .simple => Parses type (patternMatches fnmatch sgeHostmatch sgeHostcmp type value)
      (fun _ => True) (simpleExpression fnmatch sgeHostmatch sgeHostcmp type expr value) ks e
  | .and => Reaches type (patternMatches fnmatch sgeHostmatch sgeHostcmp type value)
      (fun _ => True) (simpleExpression fnmatch sgeHostmatch sgeHostcmp type expr value)
      (andLoop fnmatch sgeHostmatch sgeHostcmp type expr value) ks e
  | .or => Reaches type (patternMatches fnmatch sgeHostmatch sgeHostcmp type value)
      (fun ls => ls.head? ≠ some (.op .and))
      (andExpression fnmatch sgeHostmatch sgeHostcmp type expr value)
      (orLoop fnmatch sgeHostmatch sgeHostcmp type expr value) ks e

theorem Evaluated.and (h : Evaluated fnmatch sgeHostmatch sgeHostcmp type expr value ks e .and) :
    Parses type (patternMatches fnmatch sgeHostmatch sgeHostcmp type value)
      (fun ls => ls.head? ≠ some (.op .and))
      (andExpression fnmatch sgeHostmatch sgeHostcmp type expr value) ks e := by
  have hparses := Reaches.parses (andLoop_isLoop fnmatch sgeHostmatch sgeHostcmp type expr value) h
  intro rest p skip hrest hp hcopied
  obtain ⟨r, hr, hout⟩ := hparses rest p skip ⟨trivial, hrest⟩ hp hcopied
  exact ⟨r, Yields.succ hr, hout⟩

theorem Derives.evaluated {level : Level} (h : Derives level ks e) :
    Evaluated fnmatch sgeHostmatch sgeHostcmp type expr value ks e level := by
  induction h with
  | pattern s =>
      intro rest p skip _ hp hcopied
      obtain ⟨hnext, -⟩ := @nextToken_sees type skip p rest hp.2 hp.ne_error
      refine ⟨_, simpleExpression_exp hp.1, fun hskip => ?_, hnext⟩
      obtain ⟨hpattern, hpatterns⟩ := hcopied hskip s rfl
      rw [hskip]
      exact matchPattern_copied hpattern hpatterns
  | @not ls e _ ih =>
      intro rest p skip hrest hp _
      obtain ⟨hnext, hcopied⟩ := @nextToken_sees type skip p (ls ++ rest) hp.2 hp.ne_error
      obtain ⟨r, hr, hvalue, hsees⟩ := ih rest _ skip hrest hnext hcopied
      refine ⟨_, simpleExpression_not hp.1 hr, fun hskip => ?_, hsees⟩
      rw [hvalue hskip, lnot_result]
  | @braces ls e _ ih =>
      intro rest p skip hrest hp _
      rw [List.cons_append, List.append_assoc] at hp
      obtain ⟨hnext, hcopied⟩ := @nextToken_sees type skip p _ hp.2 hp.ne_error
      have hparses := Reaches.parses
        (orLoop_isLoop fnmatch sgeHostmatch sgeHostcmp type expr value) ih
      obtain ⟨r, hr, hvalue, hsees⟩ := hparses _ _ skip ⟨by simp, by simp⟩ hnext hcopied
      obtain ⟨hlast, -⟩ := @nextToken_sees type skip r.2 rest hsees.2 hsees.ne_error
      have hclose : ¬ r.2.tt ≠ .braceClose := not_not.mpr hsees.1
      have hout := @simpleExpression_brace fnmatch sgeHostmatch sgeHostcmp type expr value p skip r
        hp.1 hr
      rw [if_neg hclose] at hout
      exact ⟨_, hout, hvalue, hlast⟩
  | simple _ ih => exact Parses.reaches ih
  | @and ls ks e f _ _ ih ih' =>
      refine Reaches.join (andLoop_isLoop fnmatch sgeHostmatch sgeHostcmp type expr value)
        (fun _ => trivial) ih ih' (fun h => ?_) (fun h => ?_)
      · have he := Bool.eq_false_iff.mpr fun h' => of_decide_eq_true h (result_eq_zero.mpr h')
        simp [Expression.result, Expression.eval, he]
      · have he := result_eq_zero.mp (not_not.mp (of_decide_eq_false h))
        simp [Expression.result, Expression.eval, he]
  | single _ ih => exact Parses.reaches ih.and
  | @or ls ks e f _ _ ih ih' =>
      refine Reaches.join (orLoop_isLoop fnmatch sgeHostmatch sgeHostcmp type expr value)
        (fun _ => nofun) ih ih'.and (fun h => ?_) (fun h => ?_)
      · have he := result_eq_zero.mp (of_decide_eq_true h)
        simp [Expression.result, Expression.eval, he]
      · have he := Bool.eq_false_iff.mpr fun h' => of_decide_eq_false h (result_eq_zero.mpr h')
        simp [Expression.result, Expression.eval, he]

end Evaluation

section Claims
variable (fnmatch sgeHostmatch sgeHostcmp : List Char → List Char → ℤ)
variable (type : ℕ) (expr value : CString)

/-- `sge_eval_expression` gives this result. -/
def Evaluates (result : ℤ) : Prop :=
  ∃ answers, Yields (sgeEvalExpression fnmatch sgeHostmatch sgeHostcmp type (some expr.chars)
    (some value.chars)) (result, answers)

variable {fnmatch sgeHostmatch sgeHostcmp type expr value}

theorem Evaluates.unique {m n : ℤ}
    (hm : Evaluates fnmatch sgeHostmatch sgeHostcmp type expr value m)
    (hn : Evaluates fnmatch sgeHostmatch sgeHostcmp type expr value n) : m = n := by
  obtain ⟨answers, hm⟩ := hm
  obtain ⟨answers', hn⟩ := hn
  exact congrArg Prod.fst (hm.unique hn)

theorem evaluates_long
    (h : maxStringSize ≤ value.chars.length ∨ maxStringSize ≤ expr.chars.length) :
    Evaluates fnmatch sgeHostmatch sgeHostcmp type expr value (-1) := by
  by_cases hvalue : maxStringSize ≤ value.chars.length
  · refine ⟨[msgLongValue], 0, fun n _ => ?_⟩
    rw [sgeEvalExpression, if_pos hvalue]
  · refine ⟨[msgLongExpression], 0, fun n _ => ?_⟩
    rw [sgeEvalExpression, if_neg hvalue, if_pos (h.resolve_left hvalue)]

/-- What is left to do behind `OrExpression`. -/
theorem evaluates_of_run (hvalue : value.chars.length < maxStringSize)
    (hexpr : expr.chars.length < maxStringSize) (his : sgeIsExpression expr.chars = true)
    {r : ℤ × SToken}
    (hr : Yields (fun n => start
      (andExpression fnmatch sgeHostmatch sgeHostcmp type expr.chars (uncase type value.chars))
      (orLoop fnmatch sgeHostmatch sgeHostcmp type expr.chars (uncase type value.chars)) n
      (nextToken type ⟨expr.chars, [], true, .end, .exp, []⟩ false) false) r) :
    Evaluates fnmatch sgeHostmatch sgeHostcmp type expr value
      (if r.2.tt = .end ∧ r.2.s = [] then r.1 else -1) := by
  have hor : Yields (fun n => orExpression fnmatch sgeHostmatch sgeHostcmp type expr.chars
      (uncase type value.chars) n ⟨expr.chars, [], true, .end, .exp, []⟩ false) r := Yields.succ hr
  have herr : ∀ expected, (error expr.chars r.2 expected).1 = -1 := by
    intro expected
    unfold error
    split_ifs <;> rfl
  obtain ⟨N, hN⟩ := hor
  have hrun : ∀ n ≥ N, sgeEvalExpression fnmatch sgeHostmatch sgeHostcmp type (some expr.chars)
      (some value.chars) n =
        if r.2.tt ≠ .end then
          some ((error expr.chars r.2 .end).1, (error expr.chars r.2 .end).2.answerList)
        else if r.2.s ≠ [] then
          some ((error expr.chars r.2 r.2.et).1, (error expr.chars r.2 r.2.et).2.answerList)
        else some (r.1, r.2.answerList) := by
    intro n hn
    rw [sgeEvalExpression, if_neg (not_le.mpr hvalue), if_neg (not_le.mpr hexpr)]
    simp only [his, if_true, hN n hn, Option.bind_some]
  by_cases hend : r.2.tt = .end
  · by_cases hs : r.2.s = []
    · rw [if_pos ⟨hend, hs⟩]
      refine ⟨r.2.answerList, N, fun n hn => ?_⟩
      rw [hrun n hn, if_neg (not_not.mpr hend), if_neg (not_not.mpr hs)]
    · rw [if_neg fun h => hs h.2]
      refine ⟨(error expr.chars r.2 r.2.et).2.answerList, N, fun n hn => ?_⟩
      rw [hrun n hn, if_neg (not_not.mpr hend), if_pos hs, herr]
  · rw [if_neg fun h => hend h.1]
    refine ⟨(error expr.chars r.2 .end).2.answerList, N, fun n hn => ?_⟩
    rw [hrun n hn, if_pos hend, herr]

variable (fnmatch sgeHostmatch sgeHostcmp type expr value)

/-- Strings that are not too long are refused exactly when they are not in the grammar, and
otherwise the result is the value of their tree. -/
theorem sgeEvalExpression_denotes (his : sgeIsExpression expr.chars = true) :
    (Evaluates fnmatch sgeHostmatch sgeHostcmp type expr value (-1) ↔
      maxStringSize ≤ value.chars.length ∨ maxStringSize ≤ expr.chars.length ∨
        ¬ ∃ e, Denotes expr.chars e) ∧
    (value.chars.length < maxStringSize → expr.chars.length < maxStringSize →
      ∀ e, Denotes expr.chars e →
        Evaluates fnmatch sgeHostmatch sgeHostcmp type expr value
          (e.result (patternMatches fnmatch sgeHostmatch sgeHostcmp type
            (uncase type value.chars)))) := by
  have hvalue : value.chars.length < maxStringSize → expr.chars.length < maxStringSize →
      ∀ e, Denotes expr.chars e →
        Evaluates fnmatch sgeHostmatch sgeHostcmp type expr value
          (e.result (patternMatches fnmatch sgeHostmatch sgeHostcmp type
            (uncase type value.chars))) := by
    intro hvalue hexpr e ⟨ls, hlex, hderives⟩
    obtain ⟨hsees, hcopied⟩ := @nextToken_sees type false
      ⟨expr.chars, [], true, .end, .exp, []⟩ ls hlex nofun
    have hparses := Reaches.parses (orLoop_isLoop fnmatch sgeHostmatch sgeHostcmp type expr.chars
      (uncase type value.chars)) hderives.evaluated
    obtain ⟨r, hr, hresult, hend, hs⟩ := hparses [] _ false ⟨by simp, by simp⟩
      (by rwa [List.append_nil]) (by rwa [List.append_nil])
    have hout := evaluates_of_run hvalue hexpr his hr
    rwa [if_pos ⟨hend, hs⟩, hresult rfl] at hout
  refine ⟨⟨fun h => ?_, fun h => ?_⟩, hvalue⟩
  · by_contra hnot
    obtain ⟨hlt, hlt', e, he⟩ : value.chars.length < maxStringSize ∧
        expr.chars.length < maxStringSize ∧ ∃ e, Denotes expr.chars e := by
      simpa [not_or] using hnot
    have hminus := h.unique (hvalue hlt hlt' e he)
    unfold Expression.result at hminus
    split_ifs at hminus
  · by_cases hlong : maxStringSize ≤ value.chars.length ∨ maxStringSize ≤ expr.chars.length
    · exact evaluates_long hlong
    · obtain ⟨hlt, hlt'⟩ := not_or.mp hlong
      have hnone : ¬ ∃ e, Denotes expr.chars e := by tauto
      obtain ⟨ls, hlex⟩ := exists_lexes expr.noNul
      obtain ⟨hsees, -⟩ := @nextToken_sees type false
        ⟨expr.chars, [], true, .end, .exp, []⟩ ls hlex nofun
      obtain ⟨r, hr, hsound⟩ := orExpression_total
        (fun ks _ => simpleExpression_total ks) _ false hsees
      have hout := evaluates_of_run (not_le.mp hlt) (not_le.mp hlt') his hr
      rwa [if_neg] at hout
      rintro ⟨hend, hs⟩
      rcases hsound with herr | ⟨ks, rest, e, rfl, hks, hrest⟩
      · rw [herr] at hend
        exact absurd hend nofun
      · cases rest with
        | nil => exact hnone ⟨e, _, hlex, by rwa [List.append_nil]⟩
        | cons l rest =>
            have htype := hrest.1
            rw [hend] at htype
            rcases l with o | t
            · cases o <;> exact absurd htype nofun
            · exact absurd htype nofun

end Claims

/-- What `fnmatch` does with stars and question marks. -/
def starMatch : List Char → List Char → Bool
  | [], s => s.isEmpty
  | '*' :: t, s => s.tails.any (starMatch t)
  | '?' :: t, s => s ≠ [] && starMatch t s.tail
  | c :: t, s => s.head? = some c && starMatch t s.tail

def starResult (t s : List Char) : ℤ := if starMatch t s then 0 else 1

/-- `!(a*|B) & c`. -/
def notEither : CString := ⟨['!', '(', 'a', '*', '|', 'B', ')', ' ', '&', ' ', 'c'], by decide⟩

theorem notEither_denotes : Denotes notEither.chars
    (.and (.not (.or (.pattern ['a', '*']) (.pattern ['B']))) (.pattern ['c'])) := by
  have hc : Lexes ['c'] [.pattern ['c']] := .pattern ['c'] (by decide) (by simp [Plain]) nofun .nil
  have hand := (Lexes.op .and hc.space).space
  have hb : Lexes ['B', ')', ' ', '&', ' ', 'c'] _ :=
    .pattern ['B'] (by decide) (by simp [Plain]) (by simp [Plain]) (.op .braceClose hand)
  have ha : Lexes ['a', '*', '|', 'B', ')', ' ', '&', ' ', 'c'] _ :=
    .pattern ['a', '*'] (by decide) (by simp [Plain]) (by simp [Plain]) (.op .or hb)
  have hor := Derives.or (Derives.single (Derives.simple (.pattern ['a', '*'])))
    (Derives.simple (.pattern ['B']))
  exact ⟨_, .op .not (.op .braceOpen ha),
    .single (.and (.simple (.not (.braces hor))) (.pattern ['c']))⟩

/-- It is true of `C` when the case does not matter. -/
theorem notEither_evaluates : Evaluates starResult starResult (fun a b => strcmp a b) typeCstr
    notEither ⟨['C'], by decide⟩ 0 :=
  (sgeEvalExpression_denotes starResult starResult (fun a b => strcmp a b) typeCstr notEither
    ⟨['C'], by decide⟩ (by decide)).2 (by decide) (by decide) _ notEither_denotes

/-- `a*`. -/
def beginsWithA : CString := ⟨['a', '*'], by decide⟩

/-- `aaa...` with as many characters as the buffers have. -/
def longValue : CString := ⟨List.replicate maxStringSize 'a', by simp⟩

/-- A value that does not fit its buffer is an error, whatever the expression says of it. -/
theorem longValue_refused : sgeIsExpression beginsWithA.chars = true ∧
    ¬ (Evaluates starResult starResult (fun a b => strcmp a b) typeStr beginsWithA longValue (-1) ↔
      ¬ ∃ e, Denotes beginsWithA.chars e) := by
  refine ⟨by decide, fun h => ?_⟩
  have hlong : maxStringSize ≤ longValue.chars.length := by
    rw [longValue, List.length_replicate]
  have hdenotes : Denotes beginsWithA.chars (.pattern ['a', '*']) :=
    ⟨_, .pattern ['a', '*'] (by decide) (by simp [Plain]) nofun .nil,
      .single (.simple (.pattern ['a', '*']))⟩
  exact h.mp (evaluates_long (.inl hlong)) ⟨_, hdenotes⟩

end GridEngine.EvalExpression
