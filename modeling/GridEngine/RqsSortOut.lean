import GridEngine.RqsFilters

/-!
# Ruling out queues and hosts

When the limit of a rule is exceeded, `rqs_exceeded_sort_out` notes cluster queues and hosts that
need not be tried any more. `earlier` are the rules before the exceeded one, in the order of
`lPrev`.
-/

namespace GridEngine

/-- The part of a `sge_assignment_t` that is used here. -/
structure SgeAssignment where
  job : RqsJob
  hostList : List HostName
  skipCqueueList : List String
  skipHostList : List HostName

section Filters

/-- `is_global`. -/
def isGlobal (filter : Option RqsFilter) : Bool :=
  match filter with
  | none => true
  | some filter => (filter.scope.getD []).contains "*" && filter.xscope.isEmpty

def isCqueueGlobal (rule : RqsRule) : Bool := isGlobal rule.filterQueues

def isHostGlobal (rule : RqsRule) : Bool := isGlobal rule.filterHosts

/-- `is_expand`. -/
def isExpand (filter : Option RqsFilter) : Bool :=
  match filter with
  | none => false
  | some filter => filter.expand

def isCqueueExpand (rule : RqsRule) : Bool := isExpand rule.filterQueues

def isHostExpand (rule : RqsRule) : Bool := isExpand rule.filterHosts

end Filters

section Shadowing
variable (ctx : RqsContext) (job : RqsJob)

/-- `rqs_match_assignment`, which passes `NULL` as the parallel environment. -/
def rqsMatchAssignment (rule : RqsRule) : Bool :=
  rqsFilterMatch ctx rule.filterProjects (.projects job.project) &&
  rqsFilterMatch ctx rule.filterUsers (.users job.user job.group) &&
  rqsFilterMatch ctx rule.filterPes (.pes none)

def matchesCqueue (rule : RqsRule) (cqname : String) : Bool :=
  rqsFilterMatch ctx rule.filterQueues (.queues (some cqname))

def matchesHost (rule : RqsRule) (host : HostName) : Bool :=
  rqsFilterMatch ctx rule.filterHosts (.hosts host)

def cqueueShadowed (earlier : List RqsRule) : Bool :=
  earlier.any fun prev => rqsMatchAssignment ctx job prev && !isCqueueGlobal prev

def hostShadowed (earlier : List RqsRule) : Bool :=
  earlier.any fun prev => rqsMatchAssignment ctx job prev && !isHostGlobal prev

def cqueueShadowedBy (cqname : String) (earlier : List RqsRule) : Bool :=
  earlier.any fun prev => rqsMatchAssignment ctx job prev && matchesCqueue ctx prev cqname

def hostShadowedBy (host : HostName) (earlier : List RqsRule) : Bool :=
  earlier.any fun prev => rqsMatchAssignment ctx job prev && matchesHost ctx prev host

/-- The loop of `rqs_can_optimize`, which asks for the exceeded rule whether it matches the
assignment. -/
def rqsCanOptimize (rule : RqsRule) : List RqsRule → Bool → Bool → Bool × Bool
  | [], host, queue => (host, queue)
  | prev :: earlier, host, queue =>
      if !rqsMatchAssignment ctx job rule then rqsCanOptimize rule earlier host queue
      else rqsCanOptimize rule earlier (host || !isHostGlobal prev) (queue || !isCqueueGlobal prev)

end Shadowing

section Lists
variable {α : Type} [DecidableEq α]

/-- Appends the selected names that are not yet there. -/
def addNames (select : α → Bool) : List α → List α → List α
  | [], skip => skip
  | name :: names, skip =>
      if skip.contains name then addNames select names skip
      else if select name then addNames select names (skip ++ [name])
      else addNames select names skip

theorem mem_addNames {select : α → Bool} {names skip : List α} {x : α} :
    x ∈ addNames select names skip ↔ x ∈ skip ∨ x ∈ names ∧ select x := by
  induction names generalizing skip with
  | nil => simp [addNames]
  | cons name names ih =>
      unfold addNames
      by_cases hskip : name ∈ skip
      · rw [if_pos (by simpa using hskip), ih, List.mem_cons]
        constructor
        · tauto
        · intro h
          rcases h with h | ⟨rfl | h, hselect⟩
          · exact Or.inl h
          · exact Or.inl hskip
          · exact Or.inr ⟨h, hselect⟩
      · rw [if_neg (by simpa using hskip)]
        by_cases hselect : select name
        · rw [if_pos hselect, ih, List.mem_append, List.mem_singleton, List.mem_cons]
          constructor
          · intro h
            rcases h with (h | rfl) | h
            · exact Or.inl h
            · exact Or.inr ⟨Or.inl rfl, hselect⟩
            · exact Or.inr ⟨Or.inr h.1, h.2⟩
          · tauto
        · rw [if_neg hselect, ih, List.mem_cons]
          constructor
          · tauto
          · intro h
            rcases h with h | ⟨rfl | h, hx⟩
            · exact Or.inl h
            · exact absurd hx hselect
            · exact Or.inr ⟨h, hx⟩

end Lists

section SortOut
variable (ctx : RqsContext) (a : SgeAssignment) (cqueues : List String) (earlier : List RqsRule)
  (rule : RqsRule)

/-- `rqs_excluded_cqueues`. -/
def rqsExcludedCqueues : SgeAssignment :=
  { a with
    skipCqueueList := addNames
      (fun cqname => !earlier.any fun prev =>
        rqsMatchAssignment ctx a.job rule && matchesCqueue ctx prev cqname)
      cqueues a.skipCqueueList }

/-- `rqs_excluded_hosts`. -/
def rqsExcludedHosts : SgeAssignment :=
  { a with
    skipHostList := addNames
      (fun host => !earlier.any fun prev =>
        rqsMatchAssignment ctx a.job rule && matchesHost ctx prev host)
      a.hostList a.skipHostList }

/-- `rqs_expand_cqueues`. -/
def rqsExpandCqueues : SgeAssignment :=
  { a with
    skipCqueueList := addNames
      (fun cqname => matchesCqueue ctx rule cqname && !cqueueShadowedBy ctx a.job cqname earlier)
      cqueues a.skipCqueueList }

/-- `rqs_expand_hosts`. -/
def rqsExpandHosts : SgeAssignment :=
  { a with
    skipHostList := addNames
      (fun host => matchesHost ctx rule host && !hostShadowedBy ctx a.job host earlier)
      a.hostList a.skipHostList }

/-- `rqs_exceeded_sort_out`. The result is `true` when the limit applies to the entire cluster. -/
def rqsExceededSortOut (queueName : String) (hostName : HostName) : Bool × SgeAssignment :=
  let cqGlobal := isCqueueGlobal rule
  let ehGlobal := isHostGlobal rule
  if !cqGlobal && !ehGlobal || cqGlobal && ehGlobal && (isCqueueExpand rule || isHostExpand rule)
  then (false, a)
  else if cqGlobal && ehGlobal then
    let (hostShadowed, queueShadowed) := rqsCanOptimize ctx a.job rule earlier false false
    if !hostShadowed && !queueShadowed then (true, a)
    else if hostShadowed && queueShadowed then
      (false, rqsExcludedHosts ctx (rqsExcludedCqueues ctx a cqueues earlier rule) earlier rule)
    else if queueShadowed then (false, rqsExcludedCqueues ctx a cqueues earlier rule)
    else (false, rqsExcludedHosts ctx a earlier rule)
  else if !cqGlobal then
    if hostShadowed ctx a.job earlier then (false, a)
    else if isCqueueExpand rule then
      (false, { a with skipCqueueList := a.skipCqueueList ++ [queueName] })
    else (false, rqsExpandCqueues ctx a cqueues earlier rule)
  else
    if cqueueShadowed ctx a.job earlier then (false, a)
    else if isHostExpand rule then
      (false, { a with skipHostList := a.skipHostList ++ [hostName] })
    else (false, rqsExpandHosts ctx a earlier rule)

end SortOut

section Lemmas
variable {ctx : RqsContext} {job : RqsJob} {rule : RqsRule}

theorem matchesCqueue_of_global (h : isCqueueGlobal rule) (cqname : String) :
    matchesCqueue ctx rule cqname := by
  unfold isCqueueGlobal isGlobal at h
  unfold matchesCqueue rqsFilterMatch
  cases hfilter : rule.filterQueues with
  | none => rfl
  | some filter =>
      rw [hfilter] at h
      obtain ⟨expand, scope, xscope⟩ := filter
      simp only [Bool.and_eq_true, List.isEmpty_iff] at h
      obtain ⟨hstar, rfl⟩ := h
      cases scope with
      | none => cases hstar
      | some scope =>
          have hfound : matchNames ctx scope cqname := by
            rw [matchNames, List.any_eq_true]
            exact ⟨"*", by simpa using hstar, by simp⟩
          have hexcluded : matchNames ctx [] cqname = false := rfl
          simp [rqsNameFilterMatch, hfound, hexcluded]

theorem matchesHost_of_global (h : isHostGlobal rule) (host : HostName) :
    matchesHost ctx rule host := by
  unfold isHostGlobal isGlobal at h
  unfold matchesHost rqsFilterMatch
  cases hfilter : rule.filterHosts with
  | none => rfl
  | some filter =>
      rw [hfilter] at h
      obtain ⟨expand, scope, xscope⟩ := filter
      simp only [Bool.and_eq_true, List.isEmpty_iff] at h
      obtain ⟨hstar, rfl⟩ := h
      cases scope with
      | none => cases hstar
      | some scope =>
          have hfound : rqsMatchHostScope ctx scope host := by
            rw [rqsMatchHostScope, show scope.contains "*" = true from hstar, Bool.true_or]
          have hexcluded : rqsMatchHostScope ctx [] host = false := rfl
          simp [hfound, hexcluded]

/-- When the exceeded rule does not seem to match the assignment, no rule counts as shadowing. -/
theorem rqsCanOptimize_of_not (h : rqsMatchAssignment ctx job rule = false) (earlier : List RqsRule)
    (host queue : Bool) : rqsCanOptimize ctx job rule earlier host queue = (host, queue) := by
  induction earlier with
  | nil => rfl
  | cons prev earlier ih =>
      unfold rqsCanOptimize
      rw [h]
      exact ih

theorem rqsCanOptimize_of_match (h : rqsMatchAssignment ctx job rule) (earlier : List RqsRule)
    (host queue : Bool) : rqsCanOptimize ctx job rule earlier host queue =
      (host || earlier.any fun prev => !isHostGlobal prev,
        queue || earlier.any fun prev => !isCqueueGlobal prev) := by
  induction earlier generalizing host queue with
  | nil => simp [rqsCanOptimize]
  | cons prev earlier ih =>
      unfold rqsCanOptimize
      rw [h, Bool.not_true, if_neg (by simp), ih]
      simp [Bool.or_assoc]

end Lemmas

end GridEngine
