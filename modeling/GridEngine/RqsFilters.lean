import GridEngine.FirstMatch

/-!
# Resource quota rules

The filters of a rule say for which users, projects, parallel environments, queues and hosts it
counts. In a resource quota set the first rule that matches decides.
-/

namespace GridEngine

/-- A `RQRF_Type` object. The scope may be `NULL`. -/
structure RqsFilter where
  expand : Bool
  scope : Option (List String)
  xscope : List String
deriving DecidableEq, Repr

/-- A `RQR_Type` object, without its limits. -/
structure RqsRule where
  filterUsers : Option RqsFilter
  filterProjects : Option RqsFilter
  filterPes : Option RqsFilter
  filterQueues : Option RqsFilter
  filterHosts : Option RqsFilter
deriving DecidableEq, Repr

structure Userset where
  name : String
  entries : List String
deriving DecidableEq, Repr

/-- What matching depends on besides the rules. `fnmatch` takes a pattern and a string,
`qrefListHostRejected` an entry of a host scope and a host name. -/
structure RqsContext where
  fnmatch : String → String → Bool
  qrefListHostRejected : String → String → Bool
  sgeHostcpy : String → String
  usersets : List Userset

section Names

/-- `sge_is_pattern`. -/
def sgeIsPattern (s : String) : Bool :=
  s.toList.any fun c => c = '*' || c = '?' || c = '[' || c = ']'

/-- `is_hgroup_name`. -/
def isHgroupName (name : String) : Bool := name.toList.head? = some '@'

/-- The name of a host, which is neither a pattern nor the name of a host group. -/
structure HostName where
  name : String
  simple : (sgeIsPattern name || isHgroupName name) = false
deriving DecidableEq

end Names

section Scopes
variable (ctx : RqsContext)

/-- `sge_contained_in_access_list`. -/
def sgeContainedInAccessList (user : String) (group : Option String) (acl : Userset) : Bool :=
  (match group with
    | some group =>
        acl.entries.contains ("@" ++ group) ||
          sgeIsPattern group && acl.entries.any (ctx.fnmatch ("@" ++ group))
    | none => false) ||
    acl.entries.contains user || sgeIsPattern user && acl.entries.any (ctx.fnmatch user)

/-- The name of a user group without its `@`, and the name that is looked up in it. -/
def groupAndQuery (cp value : String) : Option (String × String) :=
  if !isHgroupName value && isHgroupName cp then some (String.ofList (cp.toList.drop 1), value)
  else if isHgroupName value && !isHgroupName cp then
    some (String.ofList (value.toList.drop 1), cp)
  else none

/-- The loop over the scope for a value that is a pattern. -/
def matchUserPattern (value : String) (group : Option String) (isXscope : Bool) :
    List String → Bool
  | [] => false
  | cp :: scope =>
      if ctx.fnmatch value cp then !isXscope || value = cp
      else if sgeIsPattern cp && ctx.fnmatch cp value then true
      else if (match groupAndQuery cp value with
          | some (groupName, query) => ctx.usersets.any fun acl =>
              ctx.fnmatch groupName acl.name && sgeContainedInAccessList ctx query group acl
          | none => false) then true
      else matchUserPattern value group isXscope scope

/-- `rqs_match_user_host_scope` for users. -/
def rqsMatchUserScope (scope : List String) (value : String) (group : Option String)
    (isXscope : Bool) : Bool :=
  if !sgeIsPattern value then
    scope.contains value || scope.any fun cp =>
      ctx.fnmatch cp value ||
        match groupAndQuery cp value with
        | some (groupName, query) =>
            if !sgeIsPattern groupName then
              match ctx.usersets.find? fun acl => acl.name = groupName with
              | some acl => sgeContainedInAccessList ctx query group acl
              | none => false
            else ctx.usersets.any fun acl =>
              ctx.fnmatch groupName acl.name && sgeContainedInAccessList ctx query group acl
        | none => false
  else matchUserPattern ctx value group isXscope scope

/-- `rqs_match_host_scope` for the name of a host. -/
def rqsMatchHostScope (scope : List String) (host : HostName) : Bool :=
  scope.contains "*" || scope.any fun href => !ctx.qrefListHostRejected href host.name

/-- The loops over the scopes of projects, parallel environments and queues. -/
def matchNames (scope : List String) (value : String) : Bool :=
  scope.any fun cp => cp = "*" || ctx.fnmatch cp value || ctx.fnmatch value cp

/-- The value that is matched with a filter of the given type. -/
inductive FilterValue
  | users (user : String) (group : Option String)
  | projects (project : Option String)
  | pes (pe : Option String)
  | queues (queue : Option String)
  | hosts (host : HostName)

/-- The cases of `rqs_filter_match` for projects, parallel environments and queues. -/
def rqsNameFilterMatch (filter : RqsFilter) (value : Option String) : Bool :=
  let excluded :=
    match value with
    | some value => filter.xscope.contains value || value ≠ "*" && matchNames ctx filter.xscope value
    | none => false
  let found (scope : List String) :=
    match value with
    | some value => scope.contains value || matchNames ctx scope value
    | none => false
  !excluded && filter.scope.all found

/-- `rqs_filter_match`. -/
def rqsFilterMatch (filter : Option RqsFilter) (value : FilterValue) : Bool :=
  match filter with
  | none => true
  | some filter =>
      match value with
      | .hosts host =>
          !rqsMatchHostScope ctx filter.xscope host &&
            filter.scope.all fun scope => rqsMatchHostScope ctx scope host
      | .users user group =>
          !rqsMatchUserScope ctx filter.xscope user group true &&
            filter.scope.all fun scope => rqsMatchUserScope ctx scope user group false
      | .projects project => rqsNameFilterMatch ctx filter project
      | .pes pe => rqsNameFilterMatch ctx filter pe
      | .queues queue => rqsNameFilterMatch ctx filter queue

end Scopes

section Rules

/-- The job side of a request: `a->user`, `a->group`, `a->project` and the parallel environment,
which sequential jobs do not have. -/
structure RqsJob where
  user : String
  group : Option String
  project : Option String
  pe : Option String
deriving DecidableEq

variable (ctx : RqsContext) (job : RqsJob)

/-- `rqs_is_matching_rule`. -/
def rqsIsMatchingRule (rule : RqsRule) (host : HostName) (queue : String) : Bool :=
  rqsFilterMatch ctx rule.filterUsers (.users job.user job.group) &&
  rqsFilterMatch ctx rule.filterProjects (.projects job.project) &&
  rqsFilterMatch ctx rule.filterPes (.pes job.pe) &&
  rqsFilterMatch ctx rule.filterQueues (.queues (some queue)) &&
  rqsFilterMatch ctx rule.filterHosts (.hosts host)

/-- `rqs_get_matching_rule`: the position of the rule. -/
def rqsGetMatchingRule (rules : List RqsRule) (host : HostName) (queue : String) : Option ℕ :=
  rules.findIdx? fun rule => rqsIsMatchingRule ctx job rule host queue

/-- A filter adds the value to the name of the counter when it is expanded. -/
def rueElement (filter : Option RqsFilter) (value : Option String) : String :=
  match filter, value with
  | some filter, some value => if filter.expand then value else ""
  | _, _ => ""

/-- `rqs_get_rue_string`. -/
def rqsGetRueString (rule : RqsRule) (host : HostName) (queue : String) : String :=
  rueElement rule.filterUsers (some job.user) ++ "/" ++
  rueElement rule.filterProjects job.project ++ "/" ++
  rueElement rule.filterPes job.pe ++ "/" ++
  rueElement rule.filterQueues (some queue) ++ "/" ++
  rueElement rule.filterHosts (some (ctx.sgeHostcpy host.name)) ++ "/"

end Rules

section Lemmas
variable {ctx : RqsContext} {job : RqsJob} {rule : RqsRule}

/-- The conditions of a rule on the job. -/
def rqsMatchesJob (ctx : RqsContext) (job : RqsJob) (rule : RqsRule) : Prop :=
  rqsFilterMatch ctx rule.filterUsers (.users job.user job.group) ∧
  rqsFilterMatch ctx rule.filterProjects (.projects job.project) ∧
  rqsFilterMatch ctx rule.filterPes (.pes job.pe)

theorem rqsIsMatchingRule_iff {host : HostName} {queue : String} :
    rqsIsMatchingRule ctx job rule host queue ↔ rqsMatchesJob ctx job rule ∧
      rqsFilterMatch ctx rule.filterQueues (.queues (some queue)) ∧
      rqsFilterMatch ctx rule.filterHosts (.hosts host) := by
  simp only [rqsIsMatchingRule, rqsMatchesJob, Bool.and_eq_true, and_assoc]

end Lemmas

end GridEngine
