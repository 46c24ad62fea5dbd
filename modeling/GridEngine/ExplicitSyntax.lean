import GridEngine.Tokens

/-!
# Syntax of explicit core requests

`binding_explicit_has_correct_syntax` cuts the string three times: for the grammar with changing
separators, and at the colons for the number of pairs and for their uniqueness.
-/

namespace GridEngine

/-- `sge_strtok`, which skips separators in front of a token. -/
def sgeStrtok (delimitor : Char) (savedCp : List Char) : Option (List Char × List Char) :=
  Tokens.next delimitor savedCp

/-- `is_digit` -/
def isDigit (position : List Char) (stopchar : Char) : Bool :=
  match position with
  | [] => false
  | c :: position => c.isDigit && (position.takeWhile (· ≠ stopchar)).all Char.isDigit

/-- The pairs of a socket and a core, the first of which is mandatory. -/
def explicitPairs : ℕ → Bool → List Char → Bool
  | 0, first, _ => !first
  | fuel + 1, first, savedCp =>
      match sgeStrtok ',' savedCp with
      | none => !first
      | some (socket, savedCp) =>
          if isDigit socket ',' = false then false
          else
            match sgeStrtok ':' savedCp with
            | none => false
            | some (core, savedCp) =>
                if isDigit core ':' = false then false else explicitPairs fuel false savedCp

/-- `get_explicit_number` -/
def getExplicitNumber (expl : List Char) (withExplicitPrefix : Bool) : ℕ :=
  match sgeStrtok ':' expl with
  | none => 0
  | some (_, savedCp) =>
      (if withExplicitPrefix then 0 else 1) + (Tokens.nexts ':' savedCp.length savedCp).length

/-- The loop that stores the pairs in the array of `amount` elements. `none` is a write behind the
array. -/
def storePairs (amount : ℕ) : ℕ → List Char → List (List Char) → Option (Bool × List (List Char))
  | 0, _, pairs => some (true, pairs)
  | fuel + 1, savedCp, pairs =>
      match sgeStrtok ':' savedCp with
      | none => some (true, pairs)
      | some (pair, savedCp) =>
          if amount < pairs.length then some (false, pairs)
          else if pairs.length < amount then storePairs amount fuel savedCp (pairs ++ [pair])
          else none

/-- `check_explicit_binding_string` -/
def checkExplicitBindingString (expl : List Char) (amount : ℕ) (withExplicitPrefix : Bool) :
    Option Bool :=
  if amount = 0 then some false
  else
    match if withExplicitPrefix then
        (sgeStrtok ':' expl).bind fun skipped => sgeStrtok ':' skipped.2
      else sgeStrtok ':' expl with
    | none => some false
    | some (pair, savedCp) =>
        (storePairs amount savedCp.length savedCp [pair]).map fun stored =>
          stored.1 && decide (stored.2.length = amount) && decide stored.2.Nodup

/-- The string `needle` is somewhere in the string, as `strstr` finds it. -/
def hasSubstring (needle : List Char) : List Char → Bool
  | [] => needle.isEmpty
  | c :: rest => needle.isPrefixOf (c :: rest) || hasSubstring needle rest

/-- `binding_explicit_has_correct_syntax` -/
def bindingExplicitHasCorrectSyntax (parameter : List Char) : Option Bool :=
  if hasSubstring "explicit:".toList parameter = false then some false
  else
    match sgeStrtok ':' parameter with
    | none => some false
    | some (_, savedCp) =>
        if explicitPairs (savedCp.length + 1) true savedCp = false then some false
        else checkExplicitBindingString parameter (getExplicitNumber parameter true) true

/-- A decimal number. -/
def IsNumber (text : List Char) : Prop := text ≠ [] ∧ ∀ c ∈ text, c.isDigit = true

/-- The text of some pairs of a socket and a core, separated by single colons. -/
def pairsText : List (List Char × List Char) → List Char
  | [] => []
  | [pair] => pair.1 ++ ',' :: pair.2
  | pair :: next :: pairs => pair.1 ++ ',' :: pair.2 ++ ':' :: pairsText (next :: pairs)

/-- The text is a list of pairs of numbers. -/
structure ListsPairs (pairs : List (List Char × List Char)) (text : List Char) : Prop where
  ne_nil : pairs ≠ []
  numbers : ∀ pair ∈ pairs, IsNumber pair.1 ∧ IsNumber pair.2
  text_eq : text = pairsText pairs

/-- The numbers of the pairs. -/
def pairNumbers (pairs : List (List Char × List Char)) : List (ℕ × ℕ) :=
  pairs.map fun pair => (Nat.ofDigitChars 10 pair.1 0, Nat.ofDigitChars 10 pair.2 0)

/-- The text lists different pairs. -/
def ListsDifferentPairs (text : List Char) : Prop :=
  ∃ pairs, ListsPairs pairs text ∧ (pairNumbers pairs).Nodup

/-- The requests that pass the first scan: commas may stand in front of a socket, colons in front of
a core, and a colon with commas at the end. -/
inductive LooseList : List Char → Prop
  | last (commas colons : ℕ) {socket core : List Char} (hsocket : IsNumber socket)
      (hcore : IsNumber core) :
      LooseList (List.replicate commas ',' ++ (socket ++ ',' ::
        (List.replicate colons ':' ++ core)))
  | stop (commas colons behind : ℕ) {socket core : List Char} (hsocket : IsNumber socket)
      (hcore : IsNumber core) :
      LooseList (List.replicate commas ',' ++ (socket ++ ',' ::
        (List.replicate colons ':' ++ (core ++ ':' :: List.replicate behind ','))))
  | more (commas colons : ℕ) {socket core rest : List Char} (hsocket : IsNumber socket)
      (hcore : IsNumber core) (hrest : LooseList rest) :
      LooseList (List.replicate commas ',' ++ (socket ++ ',' ::
        (List.replicate colons ':' ++ (core ++ ':' :: rest))))

section Scan
variable {text socket core rest : List Char} {commas colons fuel : ℕ} {first : Bool}

theorem IsNumber.not_mem {c : Char} (h : IsNumber text) (hc : c.isDigit = false) : c ∉ text := by
  intro hmem
  rw [h.2 c hmem] at hc
  cases hc

theorem isDigit_eq_true {stopchar : Char} (hstop : stopchar ∉ text) :
    isDigit text stopchar = true ↔ IsNumber text := by
  cases text with
  | nil => simp [isDigit, IsNumber]
  | cons c text =>
      rw [List.mem_cons, not_or] at hstop
      have htake : text.takeWhile (· ≠ stopchar) = text := by
        rw [List.takeWhile_eq_self_iff]
        intro x hx
        rw [decide_eq_true_eq]
        rintro rfl
        exact hstop.2 hx
      rw [isDigit, htake, Bool.and_eq_true, List.all_eq_true]
      simp [IsNumber]

theorem LooseList.next (h : LooseList text) : ∃ socket savedCp core rest,
    sgeStrtok ',' text = some (socket, savedCp) ∧ IsNumber socket ∧
    sgeStrtok ':' savedCp = some (core, rest) ∧ IsNumber core ∧
    ((∃ n, rest = List.replicate n ',') ∨ LooseList rest) := by
  cases h with
  | last commas colons hsocket hcore =>
      exact ⟨_, _, _, _, Tokens.next_append _ _ hsocket.1 (hsocket.not_mem rfl), hsocket,
        Tokens.next_last hcore.1 (hcore.not_mem rfl), hcore, .inl ⟨0, rfl⟩⟩
  | stop commas colons behind hsocket hcore =>
      exact ⟨_, _, _, _, Tokens.next_append _ _ hsocket.1 (hsocket.not_mem rfl), hsocket,
        Tokens.next_append _ _ hcore.1 (hcore.not_mem rfl), hcore, .inl ⟨behind, rfl⟩⟩
  | more commas colons hsocket hcore hrest =>
      exact ⟨_, _, _, _, Tokens.next_append _ _ hsocket.1 (hsocket.not_mem rfl), hsocket,
        Tokens.next_append _ _ hcore.1 (hcore.not_mem rfl), hcore, .inr hrest⟩

theorem looseList_of_next {savedCp : List Char}
    (hsocket : sgeStrtok ',' text = some (socket, savedCp)) (hnumber : IsNumber socket)
    (hcore : sgeStrtok ':' savedCp = some (core, rest))
    (hnumber' : IsNumber core) (hrest : (∃ n, rest = List.replicate n ',') ∨ LooseList rest) :
    LooseList text := by
  obtain ⟨-, -, commas, ⟨-, rfl⟩ | rfl⟩ := Tokens.next_eq_some hsocket
  · cases hcore
  · obtain ⟨-, -, colons, ⟨rfl, rfl⟩ | rfl⟩ := Tokens.next_eq_some hcore
    · exact .last commas colons hnumber hnumber'
    · rcases hrest with ⟨n, rfl⟩ | hrest
      · exact .stop commas colons n hnumber hnumber'
      · exact .more commas colons hnumber hnumber' hrest

/-- The scan accepts the loose lists, and behind a pair nothing but commas. -/
theorem explicitPairs_iff (first : Bool) (hfuel : text.length < fuel) :
    explicitPairs fuel first text = true ↔
        (first = false ∧ ∃ n, text = List.replicate n ',') ∨ LooseList text := by
  induction fuel generalizing first text with
  | zero => exact absurd hfuel (Nat.not_lt_zero _)
  | succ fuel ih =>
      rw [explicitPairs]
      constructor
      · intro haccept
        cases hsocket : sgeStrtok ',' text with
        | none =>
            rw [hsocket] at haccept
            exact .inl ⟨by simpa using haccept, Tokens.next_eq_none_iff.mp hsocket⟩
        | some found =>
            obtain ⟨socket, savedCp⟩ := found
            rw [hsocket] at haccept
            dsimp only at haccept
            split_ifs at haccept with hdigit
            cases hcore : sgeStrtok ':' savedCp with
            | none =>
                rw [hcore] at haccept
                cases haccept
            | some found =>
                obtain ⟨core, rest⟩ := found
                rw [hcore] at haccept
                dsimp only at haccept
                split_ifs at haccept with hdigit'
                have hlen : savedCp.length < _ := Tokens.length_next hsocket
                have hlen' : rest.length < _ := Tokens.length_next hcore
                rw [ih false (by omega)] at haccept
                have hnumber := (isDigit_eq_true (Tokens.next_eq_some hsocket).2.1).mp
                  (by simpa using hdigit)
                have hnumber' := (isDigit_eq_true (Tokens.next_eq_some hcore).2.1).mp
                  (by simpa using hdigit')
                exact .inr (looseList_of_next hsocket hnumber hcore hnumber'
                  (haccept.imp_left fun hcommas => hcommas.2))
      · rintro (⟨rfl, hcommas⟩ | hloose)
        · rw [show sgeStrtok ',' text = none from Tokens.next_eq_none_iff.mpr hcommas]
          rfl
        · obtain ⟨socket, savedCp, core, rest, hsocket, hnumber, hcore, hnumber', hrest⟩ :=
            hloose.next
          have hdigit := (isDigit_eq_true (Tokens.next_eq_some hsocket).2.1).mpr hnumber
          have hdigit' := (isDigit_eq_true (Tokens.next_eq_some hcore).2.1).mpr hnumber'
          have hlen : savedCp.length < _ := Tokens.length_next hsocket
          have hlen' : rest.length < _ := Tokens.length_next hcore
          rw [hsocket]
          simp only [hdigit, Bool.true_eq_false, if_false]
          rw [hcore]
          simp only [hdigit', Bool.true_eq_false, if_false]
          rw [ih false (by omega)]
          exact hrest.imp_left fun hcommas => ⟨rfl, hcommas⟩

theorem storePairs_spec {amount : ℕ} {pairs : List (List Char)} (hlen : text.length ≤ fuel)
    (hamount : amount = pairs.length + (Tokens.tokens ':' text).length) :
    storePairs amount fuel text pairs = some (true, pairs ++ Tokens.tokens ':' text) := by
  induction fuel generalizing text pairs with
  | zero =>
      rw [Nat.le_zero, List.length_eq_zero_iff] at hlen
      subst hlen
      rw [storePairs, show Tokens.tokens ':' [] = [] from rfl, List.append_nil]
  | succ fuel ih =>
      rw [storePairs]
      cases hpair : sgeStrtok ':' text with
      | none =>
          obtain ⟨n, rfl⟩ := Tokens.next_eq_none_iff.mp hpair
          rw [Tokens.tokens_replicate, List.append_nil]
      | some found =>
          obtain ⟨pair, savedCp⟩ := found
          have htokens : Tokens.tokens ':' text = pair :: Tokens.tokens ':' savedCp :=
            Tokens.tokens_of_next hpair
          have hrest : savedCp.length < _ := Tokens.length_next hpair
          rw [htokens, List.length_cons] at hamount
          dsimp only
          rw [if_neg (by omega), if_pos (by omega), ih (by omega), htokens, List.append_assoc,
            List.singleton_append]
          rw [List.length_append, List.length_singleton]
          omega

theorem strtok_explicit : sgeStrtok ':' ("explicit:".toList ++ text) =
    some ("explicit".toList, text) := by
  have hcut : Tokens.next ':' (List.replicate 0 ':' ++ ("explicit".toList ++ ':' :: text)) = _ :=
    Tokens.next_append 0 text (by decide) (by decide)
  exact hcut

theorem getExplicitNumber_eq :
    getExplicitNumber ("explicit:".toList ++ text) true = (Tokens.tokens ':' text).length := by
  rw [getExplicitNumber, strtok_explicit]
  dsimp only
  rw [Tokens.nexts_eq le_rfl, if_pos rfl, Nat.zero_add]

theorem checkExplicitBindingString_eq :
    checkExplicitBindingString ("explicit:".toList ++ text) (Tokens.tokens ':' text).length true =
      some (decide (Tokens.tokens ':' text ≠ []) && decide (Tokens.tokens ':' text).Nodup) := by
  rw [checkExplicitBindingString]
  cases hpair : sgeStrtok ':' text with
  | none =>
      obtain ⟨n, rfl⟩ := Tokens.next_eq_none_iff.mp hpair
      rw [Tokens.tokens_replicate]
      rfl
  | some found =>
      obtain ⟨pair, savedCp⟩ := found
      have htokens : Tokens.tokens ':' text = pair :: Tokens.tokens ':' savedCp :=
        Tokens.tokens_of_next hpair
      rw [htokens, if_neg (by simp), strtok_explicit, if_pos rfl, Option.bind_some, hpair]
      dsimp only
      rw [storePairs_spec le_rfl (by rw [List.length_cons, List.length_singleton]; omega),
        Option.map_some, List.singleton_append]
      simp

theorem LooseList.tokens_ne_nil (h : LooseList text) : Tokens.tokens ':' text ≠ [] := by
  have hcomma : ',' ∈ text := by
    cases h <;> simp
  cases hpair : Tokens.next ':' text with
  | none =>
      obtain ⟨n, rfl⟩ := Tokens.next_eq_none_iff.mp hpair
      exact absurd (List.eq_of_mem_replicate hcomma) (by decide)
  | some found =>
      rw [Tokens.tokens_of_next hpair]
      exact List.cons_ne_nil _ _

/-- A request is accepted when it is a loose list and its parts between the colons differ as
strings. No write is outside of the array. -/
theorem bindingExplicitHasCorrectSyntax_eq (text : List Char) :
    bindingExplicitHasCorrectSyntax ("explicit:".toList ++ text) = some true ∧
        LooseList text ∧ (Tokens.tokens ':' text).Nodup ∨
      bindingExplicitHasCorrectSyntax ("explicit:".toList ++ text) = some false ∧
        ¬ (LooseList text ∧ (Tokens.tokens ':' text).Nodup) := by
  have hsub : hasSubstring "explicit:".toList ("explicit:".toList ++ text) = true := rfl
  have hloose := explicitPairs_iff true (Nat.lt_succ_self text.length)
  simp only [Bool.true_eq_false, false_and, false_or] at hloose
  rw [bindingExplicitHasCorrectSyntax, if_neg (by rw [hsub]; decide), strtok_explicit]
  dsimp only
  by_cases hlist : LooseList text
  · rw [if_neg (by simpa using hloose.mpr hlist), getExplicitNumber_eq,
      checkExplicitBindingString_eq, decide_eq_true hlist.tokens_ne_nil, Bool.true_and]
    by_cases hnodup : (Tokens.tokens ':' text).Nodup
    · rw [decide_eq_true hnodup]
      exact .inl ⟨rfl, hlist, hnodup⟩
    · rw [decide_eq_false hnodup]
      exact .inr ⟨rfl, fun h => hnodup h.2⟩
  · rw [if_pos (by simpa using mt hloose.mp hlist)]
    exact .inr ⟨rfl, fun h => hlist h.1⟩

end Scan

section Pairs
variable {text : List Char} {pairs : List (List Char × List Char)}

theorem colon_not_mem {socket core : List Char} (hsocket : IsNumber socket)
    (hcore : IsNumber core) : ':' ∉ socket ++ ',' :: core := by
  rw [List.mem_append, List.mem_cons, not_or, not_or]
  exact ⟨hsocket.not_mem rfl, by decide, hcore.not_mem rfl⟩

/-- A list of pairs is a loose list, and its parts between the colons are the pairs. -/
theorem ListsPairs.loose (h : ListsPairs pairs text) : LooseList text ∧
    Tokens.tokens ':' text = pairs.map fun pair => pair.1 ++ ',' :: pair.2 := by
  obtain ⟨hne, hnumbers, rfl⟩ := h
  induction pairs with
  | nil => exact absurd rfl hne
  | cons pair pairs ih =>
      obtain ⟨hsocket, hcore⟩ := hnumbers pair List.mem_cons_self
      have hcolon := colon_not_mem hsocket hcore
      cases pairs with
      | nil => exact ⟨.last 0 0 hsocket hcore, Tokens.tokens_last (n := 0) (by simp) hcolon⟩
      | cons next pairs =>
          obtain ⟨hloose, htokens⟩ :=
            ih (by simp) fun p hp => hnumbers p (List.mem_cons_of_mem _ hp)
          rw [pairsText]
          refine ⟨?_, ?_⟩
          · have hmore := LooseList.more 0 0 hsocket hcore hloose
            simpa using hmore
          · have hcut := Tokens.tokens_append 0 (pairsText (next :: pairs))
              (List.append_ne_nil_of_right_ne_nil pair.1 (List.cons_ne_nil ',' pair.2)) hcolon
            rw [List.replicate_zero, List.nil_append] at hcut
            rw [hcut, htokens]
            rfl

theorem ListsPairs.tokens_nodup (h : ListsPairs pairs text) (hnodup : (pairNumbers pairs).Nodup) :
    (Tokens.tokens ':' text).Nodup := by
  rw [h.loose.2]
  refine (List.Nodup.of_map _ hnodup).map_on fun pair hpair pair' hpair' heq => ?_
  have hcomma : ',' ∉ pair.1 := (h.numbers pair hpair).1.not_mem rfl
  have hcomma' : ',' ∉ pair'.1 := (h.numbers pair' hpair').1.not_mem rfl
  have hne := (h.numbers pair hpair).1.1
  have hne' := (h.numbers pair' hpair').1.1
  have hfirst := Tokens.next_append 0 pair.2 hne hcomma
  have hfirst' := Tokens.next_append 0 pair'.2 hne' hcomma'
  rw [List.replicate_zero, List.nil_append] at hfirst hfirst'
  rw [heq, hfirst', Option.some.injEq] at hfirst
  exact hfirst.symm

/-- The check accepts the lists of different pairs, writes inside of its array only, and the number
of pairs is right for what it accepts. -/
structure SyntaxRight (text : List Char) : Prop where
  inBounds : bindingExplicitHasCorrectSyntax ("explicit:".toList ++ text) ≠ none
  accepts_iff : bindingExplicitHasCorrectSyntax ("explicit:".toList ++ text) = some true ↔
    ListsDifferentPairs text
  number_eq : bindingExplicitHasCorrectSyntax ("explicit:".toList ++ text) = some true →
    ∀ pairs, ListsPairs pairs text →
      getExplicitNumber ("explicit:".toList ++ text) true = pairs.length

/-- The check is right exactly when a loose list of parts that differ as strings is a list of pairs
that differ as numbers. -/
theorem binding_explicit_syntax_iff : SyntaxRight text ↔
    (LooseList text → (Tokens.tokens ':' text).Nodup → ListsDifferentPairs text) := by
  have hstrict : ListsDifferentPairs text → LooseList text ∧ (Tokens.tokens ':' text).Nodup := by
    rintro ⟨pairs, hpairs, hnodup⟩
    exact ⟨hpairs.loose.1, hpairs.tokens_nodup hnodup⟩
  rcases bindingExplicitHasCorrectSyntax_eq text with
    ⟨haccept, hloose, hnodup⟩ | ⟨hreject, hnot⟩
  · constructor
    · intro hright _ _
      exact hright.accepts_iff.mp haccept
    · intro h
      refine ⟨by rw [haccept]; simp, iff_of_true haccept (h hloose hnodup),
        fun _ pairs hpairs => ?_⟩
      rw [getExplicitNumber_eq, hpairs.loose.2, List.length_map]
  · refine iff_of_true ⟨by rw [hreject]; simp, ?_, fun haccept => ?_⟩ fun hloose hnodup =>
      absurd ⟨hloose, hnodup⟩ hnot
    · rw [hreject]
      exact iff_of_false (by simp) fun hlist => hnot (hstrict hlist)
    · rw [hreject] at haccept
      cases haccept

/-- A colon behind the comma makes two parts of one pair, and the request is accepted. -/
theorem binding_explicit_colon : ¬ ∀ text : List Char, '\x00' ∉ text → SyntaxRight text := by
  intro h
  have haccept : bindingExplicitHasCorrectSyntax ("explicit:".toList ++ "0,:1".toList) =
      some true := by decide
  obtain ⟨pairs, hpairs, -⟩ := (h "0,:1".toList (by decide)).accepts_iff.mp haccept
  have hpart : ['1'] ∈ pairs.map fun pair => pair.1 ++ ',' :: pair.2 := by
    rw [← hpairs.loose.2]
    decide
  obtain ⟨pair, -, heq⟩ := List.mem_map.mp hpart
  have hcomma : ',' ∈ ['1'] := by
    rw [← heq]
    simp
  exact absurd hcomma (by decide)

end Pairs

end GridEngine
