import GridEngine.FilterSets
import GridEngine.RqsFilters

/-!
# Quota filters as sets

`rqs_filter_match` for values of every kind. A value that is a pattern is compared with the entries
of the exclusion list in turn, and an entry that the pattern covers without being it ends the
search, so such a filter depends on the order of its entries.
-/

namespace GridEngine

/-- What matching a host depends on besides the users' part. `hostEq` is the comparison of
`lGetElemHost`. -/
structure RqsHostContext extends RqsContext where
  hostEq : String → String → Bool
  hgroups : List String
  hgroupFindAllReferences : String → List String

/-- The value that is matched with a filter of the given type. -/
inductive MatchValue
  | users (user : String) (group : Option String)
  | projects (project : Option String)
  | pes (pe : Option String)
  | queues (queue : Option String)
  | hosts (host : String)

namespace RqsScopes

section Model
variable (ctx : RqsHostContext)

/-- The name of a host group with its `@`, and the name that is looked up in it. -/
def hgroupAndQuery (cp value : String) : Option (String × String) :=
  if !isHgroupName value && isHgroupName cp then some (cp, value)
  else if isHgroupName value && !isHgroupName cp then some (value, cp)
  else none

/-- A host group contains a host or a host that a pattern covers. -/
def hgroupContains (query hgroup : String) : Bool :=
  let hostList := ctx.hgroupFindAllReferences hgroup
  hostList.any (ctx.hostEq query) || sgeIsPattern query && hostList.any (ctx.fnmatch query)

/-- The entry of a scope for a value that is no pattern. -/
def matchHost (value cp : String) : Bool :=
  ctx.fnmatch cp value ||
    match hgroupAndQuery cp value with
    | some (groupName, query) =>
        if !sgeIsPattern groupName then
          match ctx.hgroups.find? (ctx.hostEq groupName) with
          | some hgroup => hgroupContains ctx query hgroup
          | none => false
        else ctx.hgroups.any fun hgroup =>
          ctx.fnmatch groupName hgroup && hgroupContains ctx query hgroup
    | none => false

/-- The groups that relate an entry to a value that is a pattern. -/
def hostGroupTest (value cp : String) : Bool :=
  match hgroupAndQuery cp value with
  | some (groupName, query) => ctx.hgroups.any fun hgroup =>
      ctx.fnmatch groupName hgroup && (ctx.hgroupFindAllReferences hgroup).any (ctx.fnmatch query)
  | none => false

/-- The user sets that relate an entry to a value that is a pattern. -/
def userGroupTest (value : String) (group : Option String) (cp : String) : Bool :=
  match groupAndQuery cp value with
  | some (groupName, query) => ctx.usersets.any fun acl =>
      ctx.fnmatch groupName acl.name &&
        sgeContainedInAccessList ctx.toRqsContext query group acl
  | none => false

/-- The loop over the scope for a value that is a pattern. -/
def matchHostPattern (value : String) (isXscope : Bool) : List String → Bool
  | [] => false
  | cp :: scope =>
      if ctx.fnmatch value cp then !isXscope || value = cp
      else if sgeIsPattern cp && ctx.fnmatch cp value then true
      else if hostGroupTest ctx value cp then true
      else matchHostPattern value isXscope scope

/-- `rqs_match_user_host_scope` for hosts. -/
def rqsMatchUserHostScope (scope : List String) (value : String) (isXscope : Bool) : Bool :=
  if !sgeIsPattern value then scope.contains value || scope.any (matchHost ctx value)
  else matchHostPattern ctx value isXscope scope

/-- `rqs_match_host_scope`. -/
def rqsMatchHostScope (scope : List String) (name : String) (isXscope : Bool) : Bool :=
  scope.contains "*" ||
    if sgeIsPattern name || isHgroupName name then rqsMatchUserHostScope ctx scope name isXscope
    else scope.any fun href => !ctx.qrefListHostRejected href name

/-- `rqs_filter_match`. -/
def rqsFilterMatch (filter : Option RqsFilter) (value : MatchValue) : Bool :=
  match filter with
  | none => true
  | some filter =>
      match value with
      | .hosts host =>
          !rqsMatchHostScope ctx filter.xscope host true &&
            filter.scope.all fun scope => rqsMatchHostScope ctx scope host false
      | .users user group =>
          !rqsMatchUserScope ctx.toRqsContext filter.xscope user group true &&
            filter.scope.all fun scope => rqsMatchUserScope ctx.toRqsContext scope user group false
      | .projects project => rqsNameFilterMatch ctx.toRqsContext filter project
      | .pes pe => rqsNameFilterMatch ctx.toRqsContext filter pe
      | .queues queue => rqsNameFilterMatch ctx.toRqsContext filter queue

end Model

open FilterSets

section Verdicts
variable (fnmatch : String → String → Bool) (groupTest : String → Bool) (value : String)

/-- What the loop makes of an entry for a value that is a pattern. -/
def patternVerdict (isXscope : Bool) (cp : String) : Option Bool :=
  if fnmatch value cp then some (!isXscope || value = cp)
  else if sgeIsPattern cp && fnmatch cp value || groupTest cp then some true
  else none

/-- The entry takes the value in. -/
def takesIn (cp : String) : Bool :=
  fnmatch value cp || sgeIsPattern cp && fnmatch cp value || groupTest cp

/-- The entry keeps the value out. -/
def keepsOut (cp : String) : Bool :=
  if fnmatch value cp then value = cp else sgeIsPattern cp && fnmatch cp value || groupTest cp

/-- The value covers the name without being it. -/
def coversOther (cp : String) : Bool := fnmatch value cp && value ≠ cp

variable {fnmatch groupTest value} {cp : String} {scope : List String}

theorem patternVerdict_getD {isXscope : Bool} (rest : Bool) :
    (if fnmatch value cp then !isXscope || value = cp
      else if sgeIsPattern cp && fnmatch cp value then true
      else if groupTest cp then true
      else rest) = (patternVerdict fnmatch groupTest value isXscope cp).getD rest := by
  rw [patternVerdict]
  by_cases hcovers : fnmatch value cp = true
  · rw [if_pos hcovers, if_pos hcovers, Option.getD_some]
  · rw [if_neg hcovers, if_neg hcovers]
    by_cases hpattern : (sgeIsPattern cp && fnmatch cp value) = true
    · rw [if_pos hpattern, hpattern, Bool.true_or, if_pos rfl, Option.getD_some]
    · rw [if_neg hpattern, Bool.not_eq_true] at *
      rw [hpattern, Bool.false_or, apply_ite (Option.getD · _)]
      rfl

theorem patternVerdict_xscope_true :
    patternVerdict fnmatch groupTest value true cp = some true ↔
      keepsOut fnmatch groupTest value cp := by
  rw [patternVerdict, keepsOut]
  split_ifs with hcovers hgroup
  · simp
  · simp [hgroup]
  · simp [hgroup]

theorem patternVerdict_xscope_false :
    patternVerdict fnmatch groupTest value true cp = some false ↔
      coversOther fnmatch value cp := by
  rw [patternVerdict, coversOther]
  split_ifs with hcovers hgroup
  · simp [hcovers]
  · simp [hcovers]
  · simp [hcovers]

theorem first_patternVerdict_scope : first (patternVerdict fnmatch groupTest value false) scope =
    scope.any (takesIn fnmatch groupTest value) := by
  have hnever : ∀ cp, patternVerdict fnmatch groupTest value false cp ≠ some false := by
    intro cp
    rw [patternVerdict]
    split_ifs <;> simp
  rw [first_eq_any fun cp _ => hnever cp]
  congr 1
  funext cp
  rw [patternVerdict, takesIn]
  split_ifs with hcovers hgroup
  · simp [hcovers]
  · rw [Bool.or_assoc, hgroup]
    simp
  · rw [Bool.not_eq_true] at hcovers hgroup
    rw [Bool.or_assoc, hgroup, hcovers]
    simp

end Verdicts

section Loops
variable {ctx : RqsHostContext} {value : String} {group : Option String} {isXscope : Bool}
  {scope xscope : List String}

theorem matchUserPattern_eq : matchUserPattern ctx.toRqsContext value group isXscope scope =
    first (patternVerdict ctx.fnmatch (userGroupTest ctx value group) value isXscope) scope := by
  induction scope with
  | nil => rfl
  | cons cp scope ih =>
      rw [first_cons, ← ih, ← patternVerdict_getD]
      rfl

theorem matchHostPattern_eq : matchHostPattern ctx value isXscope scope =
    first (patternVerdict ctx.fnmatch (hostGroupTest ctx value) value isXscope) scope := by
  induction scope with
  | nil => rfl
  | cons cp scope ih =>
      rw [first_cons, ← ih, ← patternVerdict_getD]
      rfl

theorem exists_any (value : String) (q : String → Bool) :
    ∃ p : String → Bool, ∀ l : List String, (l.contains value || l.any q) = l.any p := by
  refine ⟨fun cp => value == cp || q cp, fun l => ?_⟩
  rw [List.contains_eq_any_beq, any_or]

theorem userScope_plain (hplain : sgeIsPattern value = false) :
    ∃ p : String → Bool, ∀ isXscope l,
      rqsMatchUserScope ctx.toRqsContext l value group isXscope = l.any p := by
  refine Exists.imp (fun p hp isXscope l => ?_) (exists_any value ?q)
  rw [rqsMatchUserScope, hplain, Bool.not_false, if_pos rfl]
  exact hp l

theorem userScope_pattern (hpattern : sgeIsPattern value = true) :
    rqsMatchUserScope ctx.toRqsContext scope value group isXscope =
      first (patternVerdict ctx.fnmatch (userGroupTest ctx value group) value isXscope) scope := by
  rw [rqsMatchUserScope, hpattern, Bool.not_true, if_neg Bool.false_ne_true, matchUserPattern_eq]

theorem hostScope_plain (hplain : sgeIsPattern value = false) :
    ∃ p : String → Bool, ∀ isXscope l, rqsMatchHostScope ctx l value isXscope = l.any p := by
  by_cases hgroup : isHgroupName value = true
  · obtain ⟨p, hp⟩ := exists_any value (matchHost ctx value)
    refine Exists.imp (fun q hq isXscope l => ?_) (exists_any "*" p)
    rw [rqsMatchHostScope, hgroup, Bool.or_true, if_pos rfl, rqsMatchUserHostScope, hplain,
      Bool.not_false, if_pos rfl, hp, hq]
  · refine Exists.imp (fun p hp isXscope l => ?_) (exists_any "*" ?q)
    rw [Bool.not_eq_true] at hgroup
    rw [rqsMatchHostScope, hplain, hgroup, Bool.or_false, if_neg Bool.false_ne_true]
    exact hp l

theorem hostScope_pattern (hpattern : sgeIsPattern value = true) :
    rqsMatchHostScope ctx scope value isXscope =
      excludes (· == "*")
        (patternVerdict ctx.fnmatch (hostGroupTest ctx value) value isXscope) scope := by
  rw [rqsMatchHostScope, hpattern, Bool.true_or, if_pos rfl, rqsMatchUserHostScope, hpattern,
    Bool.not_true, if_neg Bool.false_ne_true, matchHostPattern_eq, excludes, List.contains_eq_any_beq]
  simp only [Bool.beq_comm]

/-- The filters of projects, parallel environments and queues compare with all entries. -/
theorem nameFilter_isSet (expand : Bool) (name : Option String) (scope : Option (List String))
    (xscope : List String) : IsSet (fun scope xscope =>
      rqsNameFilterMatch ctx.toRqsContext ⟨expand, scope, xscope⟩ name) scope xscope := by
  cases name with
  | none =>
      have hfalse : ∀ l : List String, false = l.any fun _ => false := fun l => by simp
      exact isSet_any hfalse hfalse
  | some name =>
      obtain ⟨p, hp⟩ := exists_any name
        fun cp => cp = "*" || ctx.fnmatch cp name || ctx.fnmatch name cp
      change IsSet (accepts (fun l => l.contains name || decide (name ≠ "*") &&
        matchNames ctx.toRqsContext l name) _) scope xscope
      by_cases hstar : name = "*"
      · obtain ⟨q, hq⟩ := exists_any name fun _ => false
        refine isSet_any (q := q) (fun l => ?_) hp
        rw [← hq]
        simp [hstar]
      · refine isSet_any (q := p) (fun l => ?_) hp
        rw [← hp, decide_eq_true hstar, Bool.true_and]
        rfl

end Loops

section Result
variable {ctx : RqsHostContext}

/-- The value is a pattern that the scope takes in, an entry keeps it out and another entry would
end the search before. -/
def Wavers (ctx : RqsHostContext) (scope : Option (List String)) (xscope : List String) :
    MatchValue → Prop
  | .users user group => sgeIsPattern user ∧
      (∀ s ∈ scope, ∃ cp ∈ s, takesIn ctx.fnmatch (userGroupTest ctx user group) user cp) ∧
      (∃ cp ∈ xscope, keepsOut ctx.fnmatch (userGroupTest ctx user group) user cp) ∧
      ∃ name, coversOther ctx.fnmatch user name
  | .hosts host => sgeIsPattern host ∧
      (∀ s ∈ scope, ∃ cp ∈ s, cp = "*" ∨ takesIn ctx.fnmatch (hostGroupTest ctx host) host cp) ∧
      (∀ cp ∈ xscope, cp ≠ "*") ∧
      (∃ cp ∈ xscope, keepsOut ctx.fnmatch (hostGroupTest ctx host) host cp) ∧
      ∃ name, name ≠ "*" ∧ coversOther ctx.fnmatch host name
  | _ => False

/-- A filter is a set unless a pattern wavers at it. -/
theorem filterMatch_isSet_iff (expand : Bool) (scope : Option (List String))
    (xscope : List String) (value : MatchValue) :
    IsSet (fun scope xscope => rqsFilterMatch ctx (some ⟨expand, scope, xscope⟩) value)
      scope xscope ↔ ¬ Wavers ctx scope xscope value := by
  cases value with
  | projects project => exact iff_of_true (nameFilter_isSet expand project scope xscope) id
  | pes pe => exact iff_of_true (nameFilter_isSet expand pe scope xscope) id
  | queues queue => exact iff_of_true (nameFilter_isSet expand queue scope xscope) id
  | users user group =>
      by_cases hpattern : sgeIsPattern user = true
      · have hout : ∀ l, rqsMatchUserScope ctx.toRqsContext l user group true =
            excludes (fun _ => false)
              (patternVerdict ctx.fnmatch (userGroupTest ctx user group) user true) l := fun l => by
          rw [userScope_pattern hpattern, excludes_eq_first fun _ _ => rfl]
        have hinto : ∀ l, rqsMatchUserScope ctx.toRqsContext l user group false =
            l.any (takesIn ctx.fnmatch (userGroupTest ctx user group) user) := fun l => by
          rw [userScope_pattern hpattern, first_patternVerdict_scope]
        refine (isSet_excludes hout hinto).trans (not_congr ?_)
        simp only [patternVerdict_xscope_true, patternVerdict_xscope_false, implies_true, true_and,
          Wavers, hpattern]
      · rw [Bool.not_eq_true] at hpattern
        obtain ⟨p, hp⟩ := @userScope_plain ctx user group hpattern
        refine iff_of_true (isSet_any (hp true) (hp false)) fun hwavers => ?_
        rw [hwavers.1] at hpattern
        cases hpattern
  | hosts host =>
      by_cases hpattern : sgeIsPattern host = true
      · have hout : ∀ l, rqsMatchHostScope ctx l host true = excludes (· == "*")
            (patternVerdict ctx.fnmatch (hostGroupTest ctx host) host true) l := fun l =>
          hostScope_pattern hpattern
        have hinto : ∀ l, rqsMatchHostScope ctx l host false =
            l.any fun cp => cp == "*" || takesIn ctx.fnmatch (hostGroupTest ctx host) host cp :=
          fun l => by
            rw [hostScope_pattern hpattern, excludes, first_patternVerdict_scope, any_or]
        refine (isSet_excludes hout hinto).trans (not_congr ?_)
        simp only [patternVerdict_xscope_true, patternVerdict_xscope_false, Wavers, hpattern,
          true_and, Bool.or_eq_true, beq_iff_eq, beq_eq_false_iff_ne]
      · rw [Bool.not_eq_true] at hpattern
        obtain ⟨p, hp⟩ := @hostScope_plain ctx host hpattern
        refine iff_of_true (isSet_any (hp true) (hp false)) fun hwavers => ?_
        rw [hwavers.1] at hpattern
        cases hpattern

/-- `fnmatch` on the names `a*` and `ab`. -/
def glob (pattern name : String) : Bool := pattern = name || pattern = "a*" && name = "ab"

/-- A filter for all users but `a*` and `ab` keeps the pattern `a*` out or takes it in as the order
of the two is. -/
theorem excludedUsers_order : ¬ IsSet (fun scope xscope =>
    rqsFilterMatch ⟨⟨glob, fun _ _ => true, id, []⟩, (· = ·), [], fun _ => []⟩
      (some ⟨false, scope, xscope⟩) (.users "a*" none)) none ["a*", "ab"] := by
  intro hset
  have hswap := hset.rearrangedXscope ["ab", "a*"] (by simp [Rearranged, or_comm])
  revert hswap
  decide

end Result

end RqsScopes

end GridEngine
