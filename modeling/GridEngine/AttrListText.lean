import Mathlib.Data.List.DropRight
import Mathlib.Data.List.Nodup
import Mathlib.Data.List.Perm.Basic

/-!
# Attribute lists as text

A cluster queue attribute has a default value and values for host groups and hosts. Its text is the
default value, followed by an entry in brackets for each group and for each host.
-/

namespace GridEngine

/-- An element of an attribute list: `ASTR_href` and `ASTR_value`. -/
structure Attr (V : Type) where
  href : List Char
  value : V
deriving DecidableEq, Repr

/-- The type of an attribute. `append` is `object_append_field_to_dstring`, `parse` is
`object_parse_field_from_string`, and `sgeHostcpy` is the form in which `lGetElemHost` compares
host names. -/
structure AttrType (V : Type) where
  append : V → List Char
  parse : List Char → Option V
  sgeHostcpy : List Char → List Char

/-- The errors of `attr_list_parse_from_string`, by their messages. -/
inductive AttrError
  | missingComma
  | trailingComma
  | missingBracket
  | equalSignExpected
  | parsingError
  | valueMulDefined
  | noValueGiven
deriving DecidableEq, Repr

def HOSTREF_DEFAULT : List Char := ['@', '/']

namespace AttrList

section Model
variable {V : Type} (type : AttrType V)

/-- `attr_list_locate`. -/
def attrListLocate (list : List (Attr V)) (hostOrGroup : List Char) : Option (Attr V) :=
  list.find? fun attr => type.sgeHostcpy attr.href = type.sgeHostcpy hostOrGroup

/-- `is_hgroup_name`. -/
def isHgroup (href : List Char) : Bool := href.head? = some '@'

/-- What the brackets of an entry hold. -/
def body (attr : Attr V) : List Char := attr.href ++ '=' :: type.append attr.value

/-- The local variables of `attr_list_append_to_dstring`. -/
structure Printed where
  foundGroup : Bool
  foundHost : Bool
  string : List Char
  hostString : List Char

/-- A round of its loop. -/
def appendEntry (foundDefault : Bool) (s : Printed) (attr : Attr V) : Printed :=
  if foundDefault && attr.href = HOSTREF_DEFAULT then s
  else if isHgroup attr.href then
    { s with
      foundGroup := true
      string := (if s.foundGroup || foundDefault then s.string ++ [','] else s.string) ++
        '[' :: (body type attr ++ [']']) }
  else
    { s with
      foundHost := true
      hostString := (if s.foundHost then s.hostString ++ [','] else s.hostString) ++
        '[' :: (body type attr ++ [']']) }

/-- `attr_list_append_to_dstring` for an empty string. -/
def attrListAppendToDstring (list : List (Attr V)) : List Char :=
  let default := attrListLocate type list HOSTREF_DEFAULT
  let foundDefault := default.isSome
  let s := list.foldl (appendEntry type foundDefault)
    ⟨false, false, default.elim [] fun attr => type.append attr.value, []⟩
  let string :=
    if s.foundHost then
      (if foundDefault || s.foundGroup then s.string ++ [','] else s.string) ++ s.hostString
    else s.string
  if !foundDefault && !s.foundGroup && !s.foundHost then string ++ "NONE".toList else string

/-- The tokens that `sge_strtok_r` cuts at the brackets, with the one that is being read. -/
def strtok : List Char → List Char → List (List Char)
  | token, [] => if token = [] then [] else [token]
  | token, c :: string =>
      if c = '[' then
        if token = [] then strtok [] string else token :: strtok [] string
      else strtok (token ++ [c]) string

/-- `sge_strip_white_space_at_eol`. -/
def stripWhiteSpaceAtEol (token : List Char) : List Char :=
  token.rdropWhile fun c => c = ' ' || c = '\t'

/-- All except the last token have to end with a comma, which is removed. -/
def cutComma (isLastToken : Bool) (token : List Char) : Except AttrError (List Char) :=
  if !isLastToken then
    if token.getLast? = some ',' then .ok token.dropLast else .error .missingComma
  else if token.getLast? = some ',' then .error .trailingComma
  else .ok token

/-- The closing bracket is removed, and whether the token is the default value. -/
def cutBracket (isFirstToken : Bool) (token : List Char) : Except AttrError (Bool × List Char) :=
  if token.getLast? = some ']' then .ok (false, token.dropLast)
  else if isFirstToken then .ok (true, token)
  else .error .missingBracket

/-- The name of the host or group and the text of the value. -/
def cutHref (isDefault : Bool) (token : List Char) : Except AttrError (List Char × List Char) :=
  if isDefault then .ok (HOSTREF_DEFAULT, token)
  else if '=' ∈ token then
    .ok (token.takeWhile (· ≠ '='), (token.dropWhile (· ≠ '=')).tail)
  else .error .equalSignExpected

/-- What the loop of `attr_list_parse_from_string` cuts out of a token. -/
def parseToken (isFirstToken isLastToken : Bool) (token : List Char) :
    Except AttrError (List Char × List Char) := do
  let token := stripWhiteSpaceAtEol token
  if token = [] then .error .noValueGiven
  else do
    let token ← cutComma isLastToken token
    let (isDefault, token) ← cutBracket isFirstToken (stripWhiteSpaceAtEol token)
    cutHref isDefault token

/-- `attr_list_add` without a list of ambiguous references. -/
def attrListAdd (overwrite : Bool) (list : List (Attr V)) (attr : Attr V) :
    Except AttrError (List (Attr V)) :=
  match list.findIdx? fun elem => type.sgeHostcpy elem.href = type.sgeHostcpy attr.href with
  | some i =>
      if overwrite then .ok (list.modify i fun elem => { elem with value := attr.value })
      else .error .valueMulDefined
  | none => .ok (list ++ [attr])

/-- The loop of `attr_list_parse_from_string`. -/
def parseTokens (overwrite : Bool) : Bool → List (Attr V) → List (List Char) →
    Except AttrError (List (Attr V))
  | _, list, [] => .ok list
  | isFirstToken, list, token :: rest => do
      let (href, text) ← parseToken isFirstToken rest.isEmpty token
      match type.parse text with
      | some value => do
          let list ← attrListAdd type overwrite list ⟨href, value⟩
          parseTokens overwrite false list rest
      | none => .error .parsingError

/-- `attr_list_parse_from_string` for an empty list. -/
def attrListParseFromString (overwrite : Bool) (string : List Char) :
    Except AttrError (List (Attr V)) :=
  parseTokens type overwrite true [] (strtok [] string)

end Model

section Printing
variable {V : Type} {type : AttrType V} {list : List (Attr V)} {s : Printed}

/-- The entries behind the default value: host groups, then hosts. -/
def entries (list : List (Attr V)) : List (Attr V) :=
  (list.filter fun attr => attr.href ≠ HOSTREF_DEFAULT && isHgroup attr.href) ++
    list.filter fun attr => !isHgroup attr.href

/-- The text of entries behind other text. -/
def entriesText (type : AttrType V) (list : List (Attr V)) : List Char :=
  list.flatMap fun attr => ',' :: '[' :: (body type attr ++ [']'])

theorem isHgroup_default : isHgroup HOSTREF_DEFAULT = true := rfl

theorem entriesText_cons (attr : Attr V) (list : List (Attr V)) :
    entriesText type (attr :: list) =
      ',' :: '[' :: (body type attr ++ [']']) ++ entriesText type list := List.flatMap_cons

/-- The string of the host entries behind a comma, when there are any. -/
def hostPart (s : Printed) : List Char := if s.foundHost then ',' :: s.hostString else []

theorem foldl_appendEntry (list : List (Attr V)) (s : Printed)
    (hs : s.foundHost = false → s.hostString = []) :
    (list.foldl (appendEntry type true) s).string = s.string ++ entriesText type
        (list.filter fun attr => attr.href ≠ HOSTREF_DEFAULT && isHgroup attr.href) ∧
      hostPart (list.foldl (appendEntry type true) s) =
        hostPart s ++ entriesText type (list.filter fun attr => !isHgroup attr.href) := by
  induction list generalizing s with
  | nil => simp [entriesText]
  | cons attr list ih =>
      rw [List.foldl_cons]
      by_cases hdefault : attr.href = HOSTREF_DEFAULT
      · have hskip : appendEntry type true s attr = s := by simp [appendEntry, hdefault]
        rw [hskip, (ih s hs).1, (ih s hs).2]
        simp [hdefault, isHgroup_default]
      · by_cases hgroup : isHgroup attr.href = true
        · have hnext : (appendEntry type true s attr).foundHost = false →
              (appendEntry type true s attr).hostString = [] := by
            simpa [appendEntry, hdefault, hgroup] using hs
          rw [(ih _ hnext).1, (ih _ hnext).2]
          simp [appendEntry, hdefault, hgroup, entriesText_cons, hostPart]
        · have hnext : (appendEntry type true s attr).foundHost = false →
              (appendEntry type true s attr).hostString = [] := by
            simp [appendEntry, hdefault, hgroup]
          rw [(ih _ hnext).1, (ih _ hnext).2]
          cases hfound : s.foundHost with
          | false =>
              simp [appendEntry, hdefault, hgroup, entriesText_cons, hostPart, hfound, hs hfound]
          | true => simp [appendEntry, hdefault, hgroup, entriesText_cons, hostPart, hfound]

theorem attrListAppendToDstring_eq {default : Attr V}
    (hdefault : attrListLocate type list HOSTREF_DEFAULT = some default) :
    attrListAppendToDstring type list =
      type.append default.value ++ entriesText type (entries list) := by
  obtain ⟨hstring, hhosts⟩ := @foldl_appendEntry V type list
    ⟨false, false, type.append default.value, []⟩ fun _ => rfl
  rw [attrListAppendToDstring, hdefault]
  simp only [Option.isSome_some, Option.elim_some, Bool.true_or, if_true, Bool.not_true,
    Bool.false_and, Bool.false_eq_true, if_false]
  rw [entries, entriesText, List.flatMap_append, ← List.append_assoc]
  change _ = _ ++ entriesText type _ ++ entriesText type _
  rw [← hstring]
  rw [hostPart, hostPart, if_neg Bool.false_ne_true, List.nil_append] at hhosts
  rw [← hhosts]
  split_ifs
  · rw [List.append_assoc]
    rfl
  · rw [List.append_nil]

end Printing

section Tokens
variable {V : Type} {type : AttrType V} {token string : List Char} {attr : Attr V}
  {list : List (Attr V)}

theorem strtok_append (acc : List Char) (htoken : '[' ∉ token) (hne : acc ++ token ≠ []) :
    strtok acc (token ++ '[' :: string) = (acc ++ token) :: strtok [] string := by
  induction token generalizing acc with
  | nil =>
      rw [List.append_nil] at hne ⊢
      rw [List.nil_append, strtok, if_pos rfl, if_neg hne]
  | cons c token ih =>
      rw [List.mem_cons, not_or] at htoken
      rw [List.cons_append, strtok, if_neg (Ne.symm htoken.1), ih _ htoken.2 (by simp)]
      simp

theorem strtok_last (acc : List Char) (htoken : '[' ∉ token) (hne : acc ++ token ≠ []) :
    strtok acc token = [acc ++ token] := by
  induction token generalizing acc with
  | nil =>
      rw [List.append_nil] at hne ⊢
      rw [strtok, if_neg hne]
  | cons c token ih =>
      rw [List.mem_cons, not_or] at htoken
      rw [strtok, if_neg (Ne.symm htoken.1), ih _ htoken.2 (by simp)]
      simp

/-- The tokens of a text with entries behind it. -/
def entryTokens (type : AttrType V) : List Char → List (Attr V) → List (List Char)
  | token, [] => [token]
  | token, attr :: list =>
      (token ++ [',']) :: entryTokens type (body type attr ++ [']']) list

theorem strtok_entries (htoken : '[' ∉ token) (hne : token ≠ [])
    (hbody : ∀ attr ∈ list, '[' ∉ body type attr) :
    strtok [] (token ++ entriesText type list) = entryTokens type token list := by
  induction list generalizing token with
  | nil =>
      rw [entriesText, List.flatMap_nil, List.append_nil, entryTokens, strtok_last [] htoken hne]
      rfl
  | cons attr list ih =>
      obtain ⟨hattr, hlist⟩ := List.forall_mem_cons.mp hbody
      have hcut : token ++ entriesText type (attr :: list) =
          (token ++ [',']) ++ '[' :: ((body type attr ++ [']']) ++ entriesText type list) := by
        simp [entriesText_cons]
      rw [hcut, strtok_append [] (by simp [htoken]) (by simp), entryTokens,
        ih (by simp [hattr]) (by simp) hlist]
      rfl

theorem strip_concat {c : Char} (h : c ≠ ' ' ∧ c ≠ '\t') :
    stripWhiteSpaceAtEol (token ++ [c]) = token ++ [c] :=
  List.rdropWhile_concat_neg _ _ _ (by simp [h])

theorem cutHref_body (hhref : '=' ∉ attr.href) :
    cutHref false (body type attr) = .ok (attr.href, type.append attr.value) := by
  have hall : ∀ c ∈ attr.href, decide (c ≠ '=') = true := by
    intro c hc
    rw [decide_eq_true_iff]
    rintro rfl
    exact hhref hc
  rw [cutHref, if_neg Bool.false_ne_true, body,
    if_pos (List.mem_append_right _ List.mem_cons_self), List.takeWhile_append_of_pos hall,
    List.dropWhile_append_of_pos hall]
  simp

/-- The token of an entry gives its reference and the text of its value. -/
theorem parseToken_entry (hhref : '=' ∉ attr.href) (isLastToken : Bool) :
    parseToken false isLastToken
        (body type attr ++ [']'] ++ if isLastToken then [] else [',']) =
      .ok (attr.href, type.append attr.value) := by
  have hbracket : stripWhiteSpaceAtEol (body type attr ++ [']']) = body type attr ++ [']'] :=
    strip_concat (by decide)
  cases isLastToken with
  | true =>
      rw [if_pos rfl, List.append_nil, parseToken, hbracket]
      simp [cutComma, cutBracket, hbracket, cutHref_body hhref, bind, Except.bind]
  | false =>
      have hcomma : stripWhiteSpaceAtEol (body type attr ++ [']'] ++ [',']) =
          body type attr ++ [']'] ++ [','] := strip_concat (by decide)
      rw [if_neg Bool.false_ne_true, parseToken, hcomma]
      simp [cutComma, cutBracket, hbracket, cutHref_body hhref, bind, Except.bind]

/-- The first token gives the default value, unless blanks or a comma end it. -/
theorem parseToken_default (hne : token ≠ []) (hbracket : ']' ∉ token)
    (hblank : ∀ c ∈ token.getLast?, c ≠ ' ' ∧ c ≠ '\t') (isLastToken : Bool)
    (hcomma : isLastToken = true → token.getLast? ≠ some ',') :
    parseToken true isLastToken (token ++ if isLastToken then [] else [',']) =
      .ok (HOSTREF_DEFAULT, token) := by
  have hstrip : stripWhiteSpaceAtEol token = token := by
    rw [stripWhiteSpaceAtEol, List.rdropWhile_eq_self_iff]
    intro hne
    simpa using hblank _ (List.getLast?_eq_getLast_of_ne_nil hne)
  have hopen : token.getLast? ≠ some ']' := fun hlast => hbracket (List.mem_of_getLast? hlast)
  cases isLastToken with
  | true =>
      rw [if_pos rfl, List.append_nil, parseToken, hstrip]
      simp [cutComma, cutBracket, cutHref, hne, hcomma rfl, hopen, hstrip, bind, Except.bind]
  | false =>
      have hcut : stripWhiteSpaceAtEol (token ++ [',']) = token ++ [','] :=
        strip_concat (by decide)
      rw [if_neg Bool.false_ne_true, parseToken, hcut]
      simp [cutComma, cutBracket, cutHref, hopen, hstrip, bind, Except.bind]

theorem isEmpty_entryTokens : (entryTokens type token list).isEmpty = false := by
  cases list <;> rfl

/-- The host references of a list. -/
def hosts (type : AttrType V) (list : List (Attr V)) : List (List Char) :=
  list.map fun attr => type.sgeHostcpy attr.href

theorem mem_hosts (hattr : attr ∈ list) : type.sgeHostcpy attr.href ∈ hosts type list :=
  List.mem_map_of_mem hattr

theorem hosts_nodup_cons : (hosts type (attr :: list)).Nodup ↔
    type.sgeHostcpy attr.href ∉ hosts type list ∧ (hosts type list).Nodup := List.nodup_cons

theorem attrListAdd_new (overwrite : Bool) (hnew : type.sgeHostcpy attr.href ∉ hosts type list) :
    attrListAdd type overwrite list attr = .ok (list ++ [attr]) := by
  have hnone : (list.findIdx? fun elem =>
      decide (type.sgeHostcpy elem.href = type.sgeHostcpy attr.href)) = none := by
    rw [List.findIdx?_eq_none_iff]
    intro elem helem
    rw [decide_eq_false_iff_not]
    intro heq
    exact hnew (heq ▸ mem_hosts helem)
  rw [attrListAdd, hnone]

theorem new_of_nodup {rest : List (Attr V)} (h : (hosts type (list ++ attr :: rest)).Nodup) :
    type.sgeHostcpy attr.href ∉ hosts type list := by
  rw [hosts, List.map_append, List.map_cons, List.nodup_append] at h
  intro hmem
  exact h.2.2 _ hmem _ List.mem_cons_self rfl

theorem parseTokens_entries (hparse : ∀ v, type.parse (type.append v) = some v) (overwrite : Bool)
    (rest : List (Attr V)) (hhrefs : ∀ elem ∈ attr :: rest, '=' ∉ elem.href)
    (hdistinct : (hosts type (list ++ attr :: rest)).Nodup) :
    parseTokens type overwrite false list (entryTokens type (body type attr ++ [']']) rest) =
      .ok (list ++ attr :: rest) := by
  induction rest generalizing attr list with
  | nil =>
      have htoken := @parseToken_entry V type attr (hhrefs attr List.mem_cons_self) true
      rw [if_pos rfl, List.append_nil] at htoken
      have hadd := attrListAdd_new overwrite (new_of_nodup hdistinct)
      rw [entryTokens, parseTokens, List.isEmpty_nil, htoken]
      simp only [bind, Except.bind, hparse, hadd, parseTokens]
  | cons next rest ih =>
      have htoken := @parseToken_entry V type attr (hhrefs attr List.mem_cons_self) false
      rw [if_neg Bool.false_ne_true] at htoken
      have hadd := attrListAdd_new overwrite (new_of_nodup hdistinct)
      have hrest := @ih next (list ++ [attr])
        (fun elem helem => hhrefs elem (List.mem_cons_of_mem attr helem))
        (by rw [List.append_assoc]; exact hdistinct)
      rw [entryTokens, parseTokens, isEmpty_entryTokens, htoken]
      simp only [bind, Except.bind, hparse, hadd, hrest, List.append_assoc, List.cons_append,
        List.nil_append]

end Tokens

section RoundTrip
variable {V : Type} {type : AttrType V} {list : List (Attr V)} {default : Attr V}

theorem ne_default_of_nodup {attr : Attr V} (hmem : attr ∈ list)
    (hdistinct : (hosts type (default :: list)).Nodup) : attr.href ≠ default.href := by
  intro heq
  apply (hosts_nodup_cons.mp hdistinct).1
  rw [← heq]
  exact mem_hosts hmem

/-- The default value and the groups behind it are the group references of the list. -/
theorem perm_groups (hdefault : default ∈ list) (hhref : default.href = HOSTREF_DEFAULT)
    (hdistinct : (hosts type list).Nodup) :
    (default :: list.filter fun attr => attr.href ≠ HOSTREF_DEFAULT && isHgroup attr.href).Perm
      (list.filter fun attr => isHgroup attr.href) := by
  induction list with
  | nil => exact absurd hdefault List.not_mem_nil
  | cons attr rest ih =>
      rcases List.mem_cons.mp hdefault with rfl | hrest
      · have hsame : (rest.filter fun attr => attr.href ≠ HOSTREF_DEFAULT && isHgroup attr.href) =
            rest.filter fun attr => isHgroup attr.href := by
          apply List.filter_congr
          intro attr hattr
          have hne := ne_default_of_nodup hattr hdistinct
          rw [hhref] at hne
          simp [hne]
        have hfirst : isHgroup default.href = true := by rw [hhref, isHgroup_default]
        rw [List.filter_cons_of_neg (by simp [hhref]), List.filter_cons_of_pos (by simpa using hfirst), hsame]
      · have hne : attr.href ≠ HOSTREF_DEFAULT := by
          intro heq
          exact ne_default_of_nodup hrest hdistinct (hhref.trans heq.symm)
        have hperm := ih hrest (hosts_nodup_cons.mp hdistinct).2
        by_cases hgroup : isHgroup attr.href = true
        · rw [List.filter_cons_of_pos (by simp [hne, hgroup]), List.filter_cons_of_pos (by simpa using hgroup)]
          exact (List.Perm.swap attr default _).trans (hperm.cons attr)
        · rw [List.filter_cons_of_neg (by simp [hgroup]), List.filter_cons_of_neg (by simpa using hgroup)]
          exact hperm

theorem perm_entries (hdefault : default ∈ list) (hhref : default.href = HOSTREF_DEFAULT)
    (hdistinct : (hosts type list).Nodup) : (default :: entries list).Perm list := by
  rw [entries, ← List.cons_append]
  exact ((perm_groups hdefault hhref hdistinct).append_right _).trans
    (List.filter_append_perm (fun attr => isHgroup attr.href) list)

/-- `attr_list_locate` finds the default value. -/
theorem attrListLocate_default (hdefault : default ∈ list)
    (hhref : default.href = HOSTREF_DEFAULT) (hdistinct : (hosts type list).Nodup) :
    attrListLocate type list HOSTREF_DEFAULT = some default := by
  induction list with
  | nil => exact absurd hdefault List.not_mem_nil
  | cons attr rest ih =>
      rw [attrListLocate]
      rcases List.mem_cons.mp hdefault with rfl | hrest
      · rw [List.find?_cons_of_pos (by simp [hhref])]
      · obtain ⟨hnew, hnodup⟩ := hosts_nodup_cons.mp hdistinct
        have hne : type.sgeHostcpy attr.href ≠ type.sgeHostcpy HOSTREF_DEFAULT := by
          intro heq
          rw [← hhref] at heq
          apply hnew
          rw [heq]
          exact mem_hosts hrest
        rw [List.find?_cons_of_neg (by simp [hne])]
        exact ih hrest hnodup

/-- An attribute list comes back from its text, up to the order, unless blanks end the text of the
default value or a comma ends it where nothing follows. -/
theorem attrList_roundTrip (type : AttrType V)
    (hparse : ∀ v, type.parse (type.append v) = some v) (overwrite : Bool)
    (list : List (Attr V)) (hdistinct : (hosts type list).Nodup)
    (default : Attr V) (hdefault : default ∈ list) (hhref : default.href = HOSTREF_DEFAULT)
    (hhrefs : ∀ attr ∈ list, '=' ∉ attr.href ∧ '[' ∉ attr.href)
    (hvalues : ∀ attr ∈ list, type.append attr.value ≠ [] ∧ '[' ∉ type.append attr.value ∧
      ']' ∉ type.append attr.value)
    (hblank : ∀ c ∈ (type.append default.value).getLast?, c ≠ ' ' ∧ c ≠ '\t')
    (hcomma : list = [default] → (type.append default.value).getLast? ≠ some ',') :
    ∃ l, attrListParseFromString type overwrite (attrListAppendToDstring type list) = .ok l ∧
      l.Perm list := by
  have hperm := perm_entries hdefault hhref hdistinct
  have hsub : ∀ attr ∈ entries list, attr ∈ list := by
    intro attr hattr
    exact hperm.subset (List.mem_cons_of_mem default hattr)
  have hnodup : (hosts type (default :: entries list)).Nodup :=
    (hperm.map fun attr : Attr V => type.sgeHostcpy attr.href).nodup_iff.mpr hdistinct
  obtain ⟨hne, hopen, hclose⟩ := hvalues default hdefault
  have hbody : ∀ attr ∈ entries list, '[' ∉ body type attr := by
    intro attr hattr
    simp [body, (hhrefs attr (hsub attr hattr)).2, (hvalues attr (hsub attr hattr)).2.1]
  use default :: entries list, ?_, hperm
  rw [attrListParseFromString,
    attrListAppendToDstring_eq (attrListLocate_default hdefault hhref hdistinct),
    strtok_entries hopen hne hbody]
  have hadd : attrListAdd type overwrite [] default = .ok [default] := rfl
  have hattr : Attr.mk HOSTREF_DEFAULT default.value = default := by rw [← hhref]
  cases hentries : entries list with
  | nil =>
      have hlone : list = [default] := by
        rw [hentries] at hperm
        exact List.perm_singleton.mp hperm.symm
      have htoken := parseToken_default hne hclose hblank true fun _ => hcomma hlone
      rw [if_pos rfl, List.append_nil] at htoken
      rw [entryTokens, parseTokens, List.isEmpty_nil, htoken]
      simp only [bind, Except.bind, hparse, hattr, hadd, parseTokens]
  | cons attr rest =>
      have htoken := parseToken_default hne hclose hblank false nofun
      rw [if_neg Bool.false_ne_true] at htoken
      have hrest := parseTokens_entries hparse overwrite rest
        (fun elem helem => (hhrefs elem (hsub elem (hentries ▸ helem))).1)
        (by rw [List.singleton_append, ← hentries]; exact hnodup)
      rw [entryTokens, parseTokens, isEmpty_entryTokens, htoken]
      simp only [bind, Except.bind, hparse, hattr, hadd, hrest, List.singleton_append]

/-- An attribute whose values are strings. -/
def stringAttr : AttrType (List Char) where
  append := id
  parse := some
  sgeHostcpy := List.map Char.toLower

/-- Values with commas, blanks and equal signs for the default, a host and a host group. -/
theorem nameValueList_roundTrip :
    ∃ l, attrListParseFromString stringAttr false (attrListAppendToDstring stringAttr
        [⟨HOSTREF_DEFAULT, "lic=5, fast=1".toList⟩, ⟨"b".toList, "lic=0".toList⟩,
          ⟨"@group".toList, "lic=4,fast=0 ".toList⟩]) = .ok l ∧
      l.Perm [⟨HOSTREF_DEFAULT, "lic=5, fast=1".toList⟩, ⟨"b".toList, "lic=0".toList⟩,
        ⟨"@group".toList, "lic=4,fast=0 ".toList⟩] := by
  apply attrList_roundTrip stringAttr (fun _ => rfl) false _ (by decide)
    ⟨HOSTREF_DEFAULT, "lic=5, fast=1".toList⟩ List.mem_cons_self rfl
  · simp [HOSTREF_DEFAULT]
  · simp [stringAttr]
  · simp [stringAttr]
  · simp

/-- A blank at the end of the default value is lost. -/
theorem blankAtEnd_lost :
    ¬∀ list : List (Attr (List Char)), (list.map Attr.href).Nodup →
      (∃ default ∈ list, default.href = HOSTREF_DEFAULT) →
      (∀ attr ∈ list, attr.value ≠ [] ∧ '[' ∉ attr.value ∧ ']' ∉ attr.value) →
      ∃ l, attrListParseFromString stringAttr false (attrListAppendToDstring stringAttr list) =
        .ok l ∧ l.Perm list := by
  intro hclaim
  obtain ⟨l, hparse, hperm⟩ := hclaim [⟨HOSTREF_DEFAULT, ['a', ' ']⟩] (by simp) (by simp)
    (by simp)
  have hresult : attrListParseFromString stringAttr false
      (attrListAppendToDstring stringAttr [⟨HOSTREF_DEFAULT, ['a', ' ']⟩]) =
        .ok [⟨HOSTREF_DEFAULT, ['a']⟩] := by rfl
  rw [hresult] at hparse
  injection hparse with hparse
  rw [← hparse, List.singleton_perm_singleton] at hperm
  simp at hperm

end RoundTrip

end AttrList

end GridEngine
