import GridEngine.LoadFormulas
import Mathlib.Algebra.Ring.CharZero
import Mathlib.Data.Rat.Floor

/-!
# The evaluation of load formulas

For an accepted formula whose factors are found, the evaluation never fails, and it returns the
value of the formula if and only if the terms whose signs it misreads cancel out.
-/

namespace GridEngine.LoadFormulas
open Strtod

section Tokens
variable {isDelim : Char → Bool} {word rest : List Char}

theorem strtokFrom_word (hword : ∀ c ∈ word, isDelim c = false) (token rest : List Char) :
    strtokFrom isDelim token (word ++ rest) = strtokFrom isDelim (token ++ word) rest := by
  induction word generalizing token with
  | nil => rw [List.nil_append, List.append_nil]
  | cons c word ih =>
      rw [List.cons_append, strtokFrom, hword c List.mem_cons_self, if_neg Bool.false_ne_true,
        ih (fun d hd => hword d (List.mem_cons_of_mem _ hd)), List.append_assoc,
        List.singleton_append]

theorem strtok_word (hword : ∀ c ∈ word, isDelim c = false) (hne : word ≠ [])
    (hrest : ∀ c ∈ rest.head?, isDelim c = true) :
    strtok isDelim (word ++ rest) = (word, rest) :: strtok isDelim rest := by
  unfold strtok
  rw [strtokFrom_word hword, List.nil_append]
  cases rest with
  | nil => rw [strtokFrom, if_neg hne, strtokFrom, if_pos rfl]
  | cons c rest =>
      have hc := hrest c rfl
      rw [strtokFrom, if_pos hc, if_neg hne, strtokFrom, if_pos hc, if_pos rfl]

theorem strtok_delims {delims : List Char} (hdelims : ∀ c ∈ delims, isDelim c = true)
    (rest : List Char) : strtok isDelim (delims ++ rest) = strtok isDelim rest := by
  unfold strtok
  induction delims with
  | nil => rfl
  | cons c delims ih =>
      rw [List.cons_append, strtokFrom, if_pos (hdelims c List.mem_cons_self), if_pos rfl]
      exact ih fun d hd => hdelims d (List.mem_cons_of_mem _ hd)

theorem isSign_signText (signs : List Sign) : ∀ c ∈ signText signs, isSign c = true := by
  intro c hc
  obtain ⟨sign, -, rfl⟩ := List.mem_map.mp hc
  cases sign <;> rfl

end Tokens

section Terms
variable {terms : List Term} {centryList : List Centry}

theorem Term.body_chars {t : Term} (h : t.WellFormed) (hplain : t.Plain centryList) :
    t.body ≠ [] ∧ ∀ c ∈ t.body, isSign c = false := by
  unfold Term.body
  refine ⟨fun hnil => h.factor.1 (List.append_eq_nil_iff.mp hnil).1, ?_⟩
  intro c hc
  rcases List.mem_append.mp hc with hc | hc
  · exact (h.factor.2 c hc).1
  · cases hweight : t.weight with
    | none =>
        rw [hweight] at hc
        exact absurd hc List.not_mem_nil
    | some w =>
        rw [hweight] at hc
        dsimp only at hc
        rw [hplain.weight w hweight] at hc
        rcases List.mem_cons.mp hc with rfl | hc
        · rfl
        · exact ((h.weight w hweight).2 c hc).1

theorem formulaText_cons (t : Term) (terms : List Term) :
    formulaText (t :: terms) = signText t.signs ++ (t.body ++ formulaText terms) := by
  rw [formulaText, List.flatMap_cons, Term.text, List.append_assoc]
  rfl

theorem head?_formulaText (hoperators : ∀ t ∈ terms, t.signs ≠ []) :
    ∀ c ∈ (formulaText terms).head?, isSign c = true := by
  cases terms with
  | nil => simp [formulaText]
  | cons t terms =>
      obtain ⟨sign, signs, hsigns⟩ := List.exists_cons_of_ne_nil
        (hoperators t List.mem_cons_self)
      intro c hc
      rw [formulaText_cons, hsigns] at hc
      obtain rfl : sign.char = c := by simpa [signText] using hc
      cases sign <;> rfl

theorem strtok_formulaText {t : Term} (hform : IsFormula (t :: terms))
    (hplain : t.Plain centryList) :
    strtok isSign (formulaText (t :: terms)) =
      (t.body, formulaText terms) :: strtok isSign (formulaText terms) := by
  obtain ⟨hne, hchars⟩ := t.body_chars (hform.wellFormed t List.mem_cons_self) hplain
  rw [formulaText_cons, strtok_delims (isSign_signText t.signs)]
  exact strtok_word hchars hne (head?_formulaText hform.operators)

theorem IsFormula.tail {t : Term} (hform : IsFormula (t :: terms)) : IsFormula terms where
  wellFormed u hu := hform.wellFormed u (List.mem_cons_of_mem _ hu)
  operators u hu := hform.operators u (List.mem_of_mem_tail hu)

theorem strtok_body {t : Term} (h : t.WellFormed) (hplain : t.Plain centryList) :
    (strtok (fun c => c = '*') t.body).map Prod.fst =
      t.factor :: (t.weight.map Prod.snd).toList := by
  have hfactor : ∀ c ∈ t.factor, decide (c = '*') = false := fun c hc =>
    decide_eq_false (h.factor.2 c hc).2
  unfold Term.body
  cases hweight : t.weight with
  | none =>
      rw [strtok_word hfactor h.factor.1 (by simp)]
      rfl
  | some w =>
      obtain ⟨signs, number⟩ := w
      obtain rfl : signs = [] := hplain.weight _ hweight
      have hnumber : ∀ c ∈ number, decide (c = '*') = false := fun c hc =>
        decide_eq_false ((h.weight _ hweight).2 c hc).2
      have hstar : ∀ c ∈ ['*'], decide (c = '*') = true := by simp
      rw [strtok_word hfactor h.factor.1 (by simp)]
      change t.factor :: (strtok _ (['*'] ++ number)).map Prod.fst = _
      rw [strtok_delims hstar, ← List.append_nil number,
        strtok_word hnumber (h.weight _ hweight).1 (by simp), List.append_nil]
      rfl

end Terms

section Acceptance
variable {K : Type} {doubles : Doubles K} {centryList : List Centry} {name : List Char}
  {terms : List Term}

theorem foldl_validateTerm (texts : List (List Char)) (errors : List FormulaError)
    (h : texts.foldl (fun errors term =>
      if errors.isEmpty then validateTerm doubles centryList name term else errors) errors = []) :
    errors = [] ∧ ∀ text ∈ texts, validateTerm doubles centryList name text = [] := by
  induction texts generalizing errors with
  | nil => exact ⟨h, by simp⟩
  | cons text texts ih =>
      rw [List.foldl_cons] at h
      obtain ⟨herrors, hrest⟩ := ih _ h
      by_cases hempty : errors.isEmpty = true
      · rw [if_pos hempty] at herrors
        exact ⟨List.isEmpty_iff.mp hempty, List.forall_mem_cons.mpr ⟨herrors, hrest⟩⟩
      · rw [if_neg hempty] at herrors
        rw [herrors] at hempty
        exact absurd rfl hempty

theorem validateTerm_of_accepted (hform : IsFormula terms)
    (hplain : ∀ t ∈ terms, t.Plain centryList)
    (haccepted : validateLoadFormula doubles centryList name (formulaText terms) = []) :
    ∀ t ∈ terms, validateTerm doubles centryList name t.body = [] := by
  have hbodies : (strtok isSign (formulaText terms)).map Prod.fst = terms.map Term.body := by
    clear haccepted
    induction terms with
    | nil => rfl
    | cons t terms ih =>
        rw [strtok_formulaText hform (hplain t List.mem_cons_self), List.map_cons, List.map_cons,
          ih hform.tail fun u hu => hplain u (List.mem_cons_of_mem _ hu)]
  unfold validateLoadFormula at haccepted
  split_ifs at haccepted
  rw [hbodies] at haccepted
  intro t ht
  exact (foldl_validateTerm _ _ haccepted).2 t.body (List.mem_map_of_mem ht)

theorem readNumber_of_isNumber {text : List Char} (h : sgeStrIsNumber doubles text = true) :
    ∃ subject, strtod text = some (subject, []) := by
  unfold sgeStrIsNumber at h
  cases hstrtod : strtod text with
  | none =>
      rw [hstrtod] at h
      exact absurd h Bool.false_ne_true
  | some p =>
      obtain ⟨subject, rest⟩ := p
      rw [hstrtod, Bool.and_eq_true] at h
      exact ⟨subject, by rw [List.isEmpty_iff.mp h.2]⟩

theorem validateTerm_spec {t : Term} (h : t.WellFormed) (hplain : t.Plain centryList)
    (haccepted : validateTerm doubles centryList name t.body = []) :
    validateFact doubles centryList name t.factor = [] ∧
      ∀ w, t.weight = some w → sgeStrIsNumber doubles w.2 = true := by
  unfold validateTerm at haccepted
  rw [strtok_body h hplain] at haccepted
  cases hweight : t.weight with
  | none =>
      rw [hweight] at haccepted
      exact ⟨haccepted, by simp⟩
  | some w =>
      rw [hweight] at haccepted
      simp only [Option.map_some, Option.toList_some, List.append_eq_nil_iff] at haccepted
      refine ⟨haccepted.1.1, ?_⟩
      intro w' hw'
      obtain rfl := Option.some.inj hw'
      by_contra hnumber
      rw [if_neg hnumber] at haccepted
      exact absurd haccepted.1.2 (List.cons_ne_nil _ _)

end Acceptance

section Factors
variable {K : Type} {doubles : Doubles K} {centryList : List Centry}
  {name factor rest : List Char}

theorem foreign_asterisk : Foreign '*' := by
  constructor <;> decide

theorem foreign_dollar : Foreign '$' := by
  constructor <;> decide

/-- A factor is followed by an asterisk or by nothing. -/
def EndsFactor (rest : List Char) : Prop := rest = [] ∨ ∃ text, rest = '*' :: text

theorem strtod_endsFactor (hrest : EndsFactor rest) (text : List Char) :
    strtod (text ++ rest) = (strtod text).map fun p => (p.1, p.2 ++ rest) := by
  rcases hrest with rfl | ⟨behind, rfl⟩
  · simp
  · exact strtod_append foreign_asterisk rfl text behind

theorem sgeDelimStr_endsFactor (hrest : EndsFactor rest) (hops : ∀ c ∈ factor, isLoadOp c = false) :
    sgeDelimStr isLoadOp (factor ++ rest) = (factor, rest) := by
  have hnot : ∀ c ∈ factor, (!isLoadOp c) = true := fun c hc => by rw [hops c hc]; rfl
  unfold sgeDelimStr
  rw [List.takeWhile_append_of_pos hnot, List.dropWhile_append_of_pos hnot]
  rcases hrest with rfl | ⟨behind, rfl⟩
  · rw [List.takeWhile_nil, List.dropWhile_nil, List.append_nil]
  · have hstar : (!isLoadOp '*') = false := rfl
    rw [List.takeWhile_cons, List.dropWhile_cons, hstar, if_neg Bool.false_ne_true,
      if_neg Bool.false_ne_true, List.append_nil]

theorem centryListLocate_name {centryList : List Centry} {name : List Char}
    (h : ∃ centry ∈ centryList, centry.name = name) :
    ∃ centry, centryListLocate centryList name = some centry ∧ centry.name = name := by
  obtain ⟨centry, hmem, hname⟩ := h
  have hsome : (centryList.find? fun centry => centry.name = name).isSome :=
    List.find?_isSome.mpr ⟨centry, hmem, decide_eq_true hname⟩
  obtain ⟨found, hfound⟩ := Option.isSome_iff_exists.mp hsome
  have hfound_name := List.find?_some hfound
  refine ⟨found, ?_, of_decide_eq_true hfound_name⟩
  rw [centryListLocate, hfound]
  rfl

theorem component_name (host : Host K) (hrest : EndsFactor rest) (hstrtod : strtod factor = none)
    (hops : ∀ c ∈ factor, isLoadOp c = false) :
    component doubles host (factor ++ rest) =
      (getLoadValue host factor).map fun val => (val, rest) := by
  unfold component
  rw [strtod_endsFactor hrest, hstrtod, sgeDelimStr_endsFactor hrest hops]
  rfl

theorem plainFactor_cases (hplain : PlainFactor centryList factor)
    (haccepted : validateFact doubles centryList name factor = []) :
    (∃ loadName, readFactor centryList factor = some (.loadValue loadName) ∧
        skipDollar factor = loadName ∧ strtod factor = none ∧
        ∀ c ∈ factor, isLoadOp c = false) ∨
      ∃ subject, readFactor centryList factor = some (.number subject) ∧
        strtod factor = some (subject, []) := by
  unfold PlainFactor at hplain
  unfold readFactor
  split_ifs at hplain ⊢ with hdollar
  · -- a name behind a dollar
    left
    obtain ⟨text, rfl⟩ : ∃ text, factor = '$' :: text := List.head?_eq_some_iff.mp hdollar
    obtain ⟨centry, hlocate, hname⟩ := centryListLocate_name hplain.1
    refine ⟨text, ?_, if_pos List.mem_cons_self, strtod_cons foreign_dollar rfl text, hplain.2⟩
    rw [hlocate, Option.map_some, hname]
    rfl
  · obtain ⟨hnot, hlocated⟩ := hplain
    cases hlocate : centryListLocate centryList factor with
    | some centry =>
        left
        obtain ⟨hname, hstrtod, hops⟩ := hlocated centry hlocate
        refine ⟨factor, ?_, if_neg hnot, hstrtod, hops⟩
        dsimp only
        rw [hname]
    | none =>
        right
        -- only a number is accepted
        have hnumber : sgeStrIsNumber doubles factor = true := by
          unfold validateFact skipDollar at haccepted
          rw [if_neg hnot] at haccepted
          dsimp only at haccepted
          rw [hlocate] at haccepted
          by_contra h
          rw [if_neg h] at haccepted
          exact absurd haccepted (List.cons_ne_nil _ _)
        obtain ⟨subject, hsubject⟩ := readNumber_of_isNumber hnumber
        refine ⟨subject, ?_, hsubject⟩
        rw [readNumber, hsubject]
        rfl

theorem component_factor (host : Host K) (hplain : PlainFactor centryList factor)
    (haccepted : validateFact doubles centryList name factor = []) (hrest : EndsFactor rest) :
    component doubles host (factor ++ rest) =
      ((readFactor centryList factor).bind (Factor.value doubles host)).map
        fun val => (val, rest) := by
  rcases plainFactor_cases hplain haccepted with
    ⟨loadName, hread, hskip, hstrtod, hops⟩ | ⟨subject, hread, hstrtod⟩
  · rw [component_name host hrest hstrtod hops, hread, Option.bind_some, Factor.value,
      getLoadValue, hskip]
  · unfold component
    rw [strtod_endsFactor hrest, hstrtod, hread]
    rfl

theorem subexpression_body [Field K] (host : Host K) {t : Term} (h : t.WellFormed)
    (hplain : t.Plain centryList)
    (haccepted : validateTerm doubles centryList name t.body = []) :
    subexpression doubles host t.body = t.amount doubles centryList host := by
  obtain ⟨hfact, hnumber⟩ := validateTerm_spec h hplain haccepted
  unfold subexpression Term.amount Term.weightValue Term.body
  cases hweight : t.weight with
  | none =>
      rw [component_factor host hplain.factor hfact (Or.inl rfl)]
      cases (readFactor centryList t.factor).bind (Factor.value doubles host) with
      | none => rfl
      | some val => exact congrArg some (mul_one val).symm
  | some w =>
      obtain ⟨signs, number⟩ := w
      obtain rfl : signs = [] := hplain.weight _ hweight
      obtain ⟨subject, hsubject⟩ := readNumber_of_isNumber (hnumber _ hweight)
      have hrest : EndsFactor ('*' :: (signText [] ++ number)) := Or.inr ⟨_, rfl⟩
      have hval2 : component doubles host number = some (doubles.value subject, []) := by
        unfold component
        rw [hsubject]
      dsimp only
      rw [component_factor host hplain.factor hfact hrest]
      cases (readFactor centryList t.factor).bind (Factor.value doubles host) with
      | none => rfl
      | some val =>
          change (component doubles host number).map _ = _
          rw [hval2, readNumber, hsubject]
          simp [applyOp, signsValue]

end Factors

section Sums
variable {K : Type} [Field K] {doubles : Doubles K} {centryList : List Centry} {host : Host K}
  {terms : List Term} {amount : Term → K}

/-- The sign that the evaluation takes. -/
def Term.firstSign (t : Term) : K := if t.signs.head? = some .minus then -1 else 1

theorem signsValue_eq (t : Term) :
    (signsValue t.signs : K) = if t.misread then -t.firstSign else t.firstSign := by
  have htail : ∀ signs : List Sign,
      (signsValue signs : K) = if signs.count .minus % 2 = 1 then -1 else 1 := by
    intro signs
    induction signs with
    | nil => rfl
    | cons sign signs ih =>
        have hcons : (signsValue (sign :: signs) : K) = sign.value * signsValue signs :=
          List.prod_cons
        rw [hcons, ih]
        cases sign with
        | plus => simp [Sign.value]
        | minus =>
            rw [List.count_cons_self]
            by_cases h : signs.count .minus % 2 = 1
            · rw [if_pos h, if_neg (by omega)]
              simp [Sign.value]
            · rw [if_neg h, if_pos (by omega)]
              simp [Sign.value]
  unfold Term.misread Term.firstSign
  cases t.signs with
  | nil => simp [signsValue]
  | cons sign signs =>
      have hcons : (signsValue (sign :: signs) : K) = sign.value * signsValue signs :=
        List.prod_cons
      rw [hcons, htail, List.tail_cons, List.head?_cons]
      cases sign with
      | plus => simp [Sign.value]
      | minus => by_cases h : signs.count .minus % 2 = 1 <;> simp [Sign.value, h]

theorem formulaValue_eq
    (hamount : ∀ t ∈ terms, t.amount doubles centryList host = some (amount t)) :
    formulaValue doubles centryList host terms =
      some ((terms.map fun t => signsValue t.signs * amount t).sum) := by
  induction terms with
  | nil => rfl
  | cons t terms ih =>
      rw [formulaValue, hamount t List.mem_cons_self,
        ih fun u hu => hamount u (List.mem_cons_of_mem _ hu), List.map_cons, List.sum_cons]
      rfl

/-- The difference that the misread signs make. -/
theorem sum_firstSign (terms : List Term) (amount : Term → K) :
    (terms.map fun t => t.firstSign * amount t).sum =
      (terms.map fun t => signsValue t.signs * amount t).sum -
        2 * ((terms.filter Term.misread).map fun t => signsValue t.signs * amount t).sum := by
  induction terms with
  | nil => simp
  | cons t terms ih =>
      rw [List.map_cons, List.sum_cons, ih, List.map_cons, List.sum_cons, List.filter_cons]
      have hsign := signsValue_eq (K := K) t
      split_ifs at hsign ⊢
      · rw [List.map_cons, List.sum_cons, hsign]
        ring
      · rw [hsign]
        ring

end Sums

section Loop
variable {K : Type} [Field K] {doubles : Doubles K} {centryList : List Centry} {host : Host K}
  {terms : List Term} {amount : Term → K}

theorem nextOp_formulaText (hoperators : ∀ t ∈ terms, t.signs ≠ []) (t : Term)
    (ht : terms.head? = some t) :
    some (if (formulaText terms).head? = some '+' then Sign.plus else .minus) = t.signs.head? := by
  cases terms with
  | nil => exact absurd ht (by simp)
  | cons u terms =>
      obtain rfl := Option.some.inj ht
      obtain ⟨sign, signs, hsigns⟩ := List.exists_cons_of_ne_nil
        (hoperators u List.mem_cons_self)
      rw [formulaText_cons, hsigns]
      cases sign <;> rfl

/-- The loop after its first round. -/
theorem foldlM_addSubexpression (hform : IsFormula terms)
    (hoperators : ∀ t ∈ terms, t.signs ≠ []) (hplain : ∀ t ∈ terms, t.Plain centryList)
    (hbody : ∀ t ∈ terms, subexpression doubles host t.body = some (amount t))
    (load : K) (op : Sign) (hop : ∀ t, terms.head? = some t → some op = t.signs.head?) :
    ∃ op', (strtok isSign (formulaText terms)).foldlM (addSubexpression doubles host)
      (load, some op) = some (load + (terms.map fun t => t.firstSign * amount t).sum, op') := by
  induction terms generalizing load op with
  | nil => exact ⟨some op, by simp [formulaText, strtok, strtokFrom]⟩
  | cons t terms ih =>
      have hrest : ∀ u ∈ terms, u.signs ≠ [] := fun u hu =>
        hoperators u (List.mem_cons_of_mem _ hu)
      obtain ⟨op', hop'⟩ := ih hform.tail hrest
        (fun u hu => hplain u (List.mem_cons_of_mem _ hu))
        (fun u hu => hbody u (List.mem_cons_of_mem _ hu)) (load + t.firstSign * amount t)
        (if (formulaText terms).head? = some '+' then .plus else .minus)
        (nextOp_formulaText hrest)
      have hstep : addSubexpression doubles host (load, some op) (t.body, formulaText terms) =
          some (load + t.firstSign * amount t,
            some (if (formulaText terms).head? = some '+' then .plus else .minus)) := by
        unfold addSubexpression Term.firstSign
        rw [hbody t List.mem_cons_self, ← hop t rfl]
        cases op with
        | plus => simp
        | minus => simp [sub_eq_add_neg]
      refine ⟨op', ?_⟩
      rw [strtok_formulaText hform (hplain t List.mem_cons_self), List.foldlM_cons, hstep,
        List.map_cons, List.sum_cons, ← add_assoc]
      exact hop'

/-- The first operation is a subtraction if the first sign is a minus. -/
theorem head?_formulaText_minus (terms : List Term) {t : Term}
    (hbody : t.body ≠ [] ∧ ∀ c ∈ t.body, isSign c = false) :
    (formulaText (t :: terms)).head? = some '-' ↔ t.signs.head? = some .minus := by
  rw [formulaText_cons]
  cases t.signs with
  | nil =>
      obtain ⟨c, text, hc⟩ := List.exists_cons_of_ne_nil hbody.1
      have hsign := hbody.2 c (hc ▸ List.mem_cons_self)
      have hne : c ≠ '-' := by
        intro heq
        rw [heq] at hsign
        exact absurd hsign (by decide)
      simp [hc, signText, hne]
  | cons sign signs => cases sign <;> simp [signText, Sign.char]

theorem scaledMixedLoad_eq (hform : IsFormula terms) (hplain : ∀ t ∈ terms, t.Plain centryList)
    (hbody : ∀ t ∈ terms, subexpression doubles host t.body = some (amount t)) :
    scaledMixedLoad doubles host (formulaText terms) =
      some ((terms.map fun t => t.firstSign * amount t).sum) := by
  cases terms with
  | nil => rfl
  | cons t terms =>
      obtain ⟨op', hop'⟩ := foldlM_addSubexpression hform.tail hform.operators
        (fun u hu => hplain u (List.mem_cons_of_mem _ hu))
        (fun u hu => hbody u (List.mem_cons_of_mem _ hu)) (t.firstSign * amount t)
        (if (formulaText terms).head? = some '+' then .plus else .minus)
        (nextOp_formulaText hform.operators)
      have hhead := head?_formulaText_minus terms
        (t.body_chars (hform.wellFormed t List.mem_cons_self) (hplain t List.mem_cons_self))
      have hstep : addSubexpression doubles host
          (0, if (formulaText (t :: terms)).head? = some '-' then some Sign.minus else none)
          (t.body, formulaText terms) = some (t.firstSign * amount t,
            some (if (formulaText terms).head? = some '+' then .plus else .minus)) := by
        unfold addSubexpression Term.firstSign
        rw [hbody t List.mem_cons_self]
        by_cases hminus : t.signs.head? = some .minus
        · simp [hhead.mpr hminus, hminus]
        · simp [mt hhead.mp hminus, hminus]
      unfold scaledMixedLoad
      dsimp only
      rw [strtok_formulaText hform (hplain t List.mem_cons_self), List.foldlM_cons, hstep,
        List.map_cons, List.sum_cons]
      exact congrArg (Option.map Prod.fst) hop'

end Loop

section Results
variable {K : Type} [Field K] {doubles : Doubles K} {centryList : List Centry} {host : Host K}
  {name : List Char} {terms : List Term}

theorem amount_of_accepted {t : Term} (h : t.WellFormed) (hplain : t.Plain centryList)
    (haccepted : validateTerm doubles centryList name t.body = [])
    (hvalue : ∀ loadName, readFactor centryList t.factor = some (.loadValue loadName) →
      (host loadName).isSome) :
    ∃ amount, t.amount doubles centryList host = some amount := by
  obtain ⟨hfact, hnumber⟩ := validateTerm_spec h hplain haccepted
  obtain ⟨val, hval⟩ : ∃ val,
      (readFactor centryList t.factor).bind (Factor.value doubles host) = some val := by
    rcases plainFactor_cases hplain.factor hfact with ⟨loadName, hread, -⟩ | ⟨subject, hread, -⟩
    · obtain ⟨cep, hcep⟩ := Option.isSome_iff_exists.mp (hvalue loadName hread)
      exact ⟨cep.value, by rw [hread, Option.bind_some, Factor.value, hcep, Option.map_some]⟩
    · exact ⟨doubles.value subject, by rw [hread, Option.bind_some, Factor.value]⟩
  obtain ⟨weight, hweight⟩ : ∃ weight, t.weightValue doubles = some weight := by
    unfold Term.weightValue
    cases hweight : t.weight with
    | none => exact ⟨1, rfl⟩
    | some w =>
        obtain ⟨subject, hsubject⟩ := readNumber_of_isNumber (hnumber w hweight)
        refine ⟨signsValue w.1 * doubles.value subject, ?_⟩
        dsimp only
        rw [readNumber, hsubject]
        rfl
  refine ⟨val * weight, ?_⟩
  rw [Term.amount, hval, hweight]
  rfl

/-- An accepted formula is evaluated to its value if and only if the terms whose signs are misread
cancel out. -/
theorem scaledMixedLoad_value_iff [CharZero K] (hform : IsFormula terms)
    (haccepted : validateLoadFormula doubles centryList name (formulaText terms) = [])
    (hvalues : ∀ t ∈ terms, ∀ loadName,
      readFactor centryList t.factor = some (.loadValue loadName) → (host loadName).isSome)
    (hplain : ∀ t ∈ terms, t.Plain centryList) :
    (∃ v, formulaValue doubles centryList host terms = some v ∧
        scaledMixedLoad doubles host (formulaText terms) = some v) ↔
      formulaValue doubles centryList host (terms.filter Term.misread) = some 0 := by
  have hchecked := validateTerm_of_accepted hform hplain haccepted
  have hamounts : ∀ t ∈ terms, ∃ amount, t.amount doubles centryList host = some amount :=
    fun t ht => amount_of_accepted (hform.wellFormed t ht) (hplain t ht) (hchecked t ht)
      (hvalues t ht)
  obtain ⟨amount, hamount⟩ : ∃ amount : Term → K,
      ∀ t ∈ terms, t.amount doubles centryList host = some (amount t) := by
    refine ⟨fun t => (t.amount doubles centryList host).getD 0, ?_⟩
    intro t ht
    obtain ⟨v, hv⟩ := hamounts t ht
    dsimp only
    rw [hv, Option.getD_some]
  have hload : scaledMixedLoad doubles host (formulaText terms) =
      some ((terms.map fun t => t.firstSign * amount t).sum) := by
    apply scaledMixedLoad_eq hform hplain
    intro t ht
    rw [subexpression_body host (hform.wellFormed t ht) (hplain t ht) (hchecked t ht)]
    exact hamount t ht
  have hmisread : ∀ t ∈ terms.filter Term.misread,
      t.amount doubles centryList host = some (amount t) := fun t ht =>
    hamount t (List.mem_of_mem_filter ht)
  rw [hload, formulaValue_eq hamount, formulaValue_eq hmisread, sum_firstSign, Option.some.injEq]
  generalize ((terms.filter Term.misread).map fun t => signsValue t.signs * amount t).sum = misread
  constructor
  · rintro ⟨v, hvalue, hresult⟩
    rw [Option.some.injEq] at hvalue hresult
    have htwo : 2 * misread = 0 := by linear_combination hvalue - hresult
    exact (mul_eq_zero.mp htwo).resolve_left two_ne_zero
  · intro hzero
    refine ⟨_, rfl, ?_⟩
    rw [hzero, mul_zero, sub_zero]

/-- Doubles of which only the integers matter. -/
def integers : Doubles ℚ where
  value subject := (subject.foldl (fun n c => 10 * n + (c.toNat - '0'.toNat)) 0 : ℕ)
  erange _ := false
  toUlong32 x := x.floor.toNat % 2 ^ 32

/-- A complex list with one attribute of type `TYPE_DOUBLE`. -/
def oneAttribute (name : List Char) : List Centry := [⟨name, name, 8⟩]

/-- A host on which every attribute is 7. -/
def sevens : Host ℚ := fun _ => some ⟨true, 7, 0⟩

/-- `cpu*2-1`. -/
def cpuFormula : List Term :=
  [⟨[], ['c', 'p', 'u'], some ([], ['2'])⟩, ⟨[.minus], ['1'], none⟩]

/-- `2nd`. -/
def secondFormula : List Term := [⟨[], ['2', 'n', 'd'], none⟩]

theorem isFactor_of_all {text : List Char} (hne : text ≠ [])
    (h : (text.all fun c => !isSign c && decide (c ≠ '*')) = true) : Term.IsFactor text := by
  refine ⟨hne, ?_⟩
  intro c hc
  have := List.all_eq_true.mp h c hc
  rw [Bool.and_eq_true, Bool.not_eq_true', decide_eq_true_eq] at this
  exact this

theorem isFormula_cpuFormula : IsFormula cpuFormula where
  wellFormed := by
    intro t ht
    simp only [cpuFormula, List.mem_cons, List.not_mem_nil, or_false] at ht
    rcases ht with rfl | rfl
    · refine ⟨isFactor_of_all (by decide) (by decide), ?_⟩
      intro w hw
      obtain rfl := Option.some.inj hw
      exact isFactor_of_all (by decide) (by decide)
    · exact ⟨isFactor_of_all (by decide) (by decide), fun w hw => absurd hw (by simp)⟩
  operators := by
    intro t ht
    obtain rfl : t = ⟨[.minus], ['1'], none⟩ := by simpa [cpuFormula] using ht
    exact List.cons_ne_nil _ _

theorem plain_cpuFormula : ∀ t ∈ cpuFormula, t.Plain (oneAttribute ['c', 'p', 'u']) := by
  intro t ht
  simp only [cpuFormula, List.mem_cons, List.not_mem_nil, or_false] at ht
  rcases ht with rfl | rfl
  · constructor
    · refine ⟨by decide, ?_⟩
      intro centry hcentry
      obtain rfl := Option.some.inj hcentry
      have hletters : (['c', 'p', 'u'].all fun c => !isLoadOp c) = true := by decide
      exact ⟨rfl, by decide +kernel, fun c hc => by
        simpa using List.all_eq_true.mp hletters c hc⟩
    · intro w hw
      obtain rfl := Option.some.inj hw
      rfl
  · constructor
    · refine ⟨by decide, ?_⟩
      intro centry hcentry
      have hnone : centryListLocate (oneAttribute ['c', 'p', 'u']) ['1'] = none := by decide
      rw [hnone] at hcentry
      exact absurd hcentry (by simp)
    · exact fun w hw => absurd hw (by simp)

/-- `cpu*2-1` is evaluated to its value. -/
theorem cpuFormula_value :
    (∃ v, formulaValue integers (oneAttribute ['c', 'p', 'u']) sevens cpuFormula = some v ∧
        scaledMixedLoad integers sevens (formulaText cpuFormula) = some v) ↔
      formulaValue integers (oneAttribute ['c', 'p', 'u']) sevens
        (cpuFormula.filter Term.misread) = some 0 := by
  have haccepted : validateLoadFormula integers (oneAttribute ['c', 'p', 'u']) []
      (formulaText cpuFormula) = [] := by decide +kernel
  exact scaledMixedLoad_value_iff isFormula_cpuFormula haccepted (fun _ _ _ _ => rfl)
    plain_cpuFormula

/-- The attribute `2nd` has a value, but it is read as a number. -/
theorem secondFormula_fails : IsFormula secondFormula ∧
    validateLoadFormula integers (oneAttribute ['2', 'n', 'd']) [] (formulaText secondFormula) =
      [] ∧
    formulaValue integers (oneAttribute ['2', 'n', 'd']) sevens secondFormula = some 7 ∧
    scaledMixedLoad integers sevens (formulaText secondFormula) = none := by
  refine ⟨⟨?_, ?_⟩, by decide +kernel, by decide +kernel, by decide +kernel⟩
  · intro t ht
    rw [List.mem_singleton.mp ht]
    exact ⟨isFactor_of_all (by decide) (by decide), fun w hw => absurd hw (by simp)⟩
  · exact fun t ht => absurd ht List.not_mem_nil

end Results

end GridEngine.LoadFormulas
