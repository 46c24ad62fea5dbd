import GridEngine.RqsSortOut

/-!
# Soundness of ruling out queues and hosts

The limit of the rule that matches `queue@host` first is exceeded. A queue instance may only be
ruled out with it when the same rule matches there first, with the same counter. There are two ways
to fail: an earlier rule is overlooked, since its filter of parallel environments is compared with
`NULL`, and a whole queue or host is ruled out although the counters are per host or per queue.
-/

namespace GridEngine
open FirstMatch

variable (ctx : RqsContext) (a : SgeAssignment) (cqueues : List String) (rules : List RqsRule)

section Statement

/-- The rules before a rule, in the order of `lPrev`. -/
def earlierRules (i : ℕ) : List RqsRule := (rules.take i).reverse

/-- The queue instances that a call rules out. -/
def RulesOut (a : SgeAssignment) (result : Bool × SgeAssignment) (queue : String) (host : HostName) :
    Prop :=
  result.1 ∨ queue ∈ result.2.skipCqueueList ∧ queue ∉ a.skipCqueueList ∨
    host ∈ result.2.skipHostList ∧ host ∉ a.skipHostList

/-- Every instance that is ruled out would be denied by the same limit. -/
def PruningSound (i : ℕ) (rule : RqsRule) (queue : String) (host : HostName)
    (instances : List (String × HostName)) : Prop :=
  ∀ queue' host', (queue', host') ∈ instances →
    RulesOut a (rqsExceededSortOut ctx a cqueues (earlierRules rules i) rule queue host) queue' host' →
    rqsGetMatchingRule ctx a.job rules host' queue' = some i ∧
      rqsGetRueString ctx a.job rule host' queue' = rqsGetRueString ctx a.job rule host queue

/-- No earlier rule that matches the instance escapes `rqs_match_assignment`. -/
def NoneOverlooked (i : ℕ) (queue : String) (host : HostName) : Prop :=
  ∀ prev ∈ rules.take i, rqsIsMatchingRule ctx a.job prev host queue →
    rqsMatchAssignment ctx a.job prev

/-- The cluster queues that the limit of the rule counts for. -/
def LimitedCqueue (i : ℕ) (rule : RqsRule) (queue queue' : String) : Prop :=
  queue' ∉ a.skipCqueueList ∧
    if isCqueueExpand rule then queue' = queue
    else queue' ∈ cqueues ∧ matchesCqueue ctx rule queue' ∧
      ¬ cqueueShadowedBy ctx a.job queue' (earlierRules rules i)

/-- The hosts that the limit of the rule counts for. -/
def LimitedHost (i : ℕ) (rule : RqsRule) (host host' : HostName) : Prop :=
  host' ∉ a.skipHostList ∧
    if isHostExpand rule then host' = host
    else host' ∈ a.hostList ∧ matchesHost ctx rule host' ∧
      ¬ hostShadowedBy ctx a.job host' (earlierRules rules i)

/-- When ruling out is sound. A global limit: the rule matches the assignment without a parallel
environment, or no earlier rule matches anywhere. A limit of cluster queues (and likewise of hosts):
an earlier rule for hosts is seen, or in the limited queues no earlier rule is overlooked and
the counters are not per host. -/
def PruningCondition (i : ℕ) (rule : RqsRule) (queue : String) (host : HostName)
    (instances : List (String × HostName)) : Prop :=
  if isCqueueGlobal rule then
    if isHostGlobal rule then
      isCqueueExpand rule ∨ isHostExpand rule ∨ rqsMatchAssignment ctx a.job rule ∨
        ∀ queue' host', (queue', host') ∈ instances →
          ∀ prev ∈ rules.take i, ¬ rqsIsMatchingRule ctx a.job prev host' queue'
    else
      cqueueShadowed ctx a.job (earlierRules rules i) ∨
        ∀ queue' host', (queue', host') ∈ instances → LimitedHost ctx a rules i rule host host' →
          NoneOverlooked ctx a rules i queue' host' ∧ (isCqueueExpand rule → queue' = queue)
  else if isHostGlobal rule then
    hostShadowed ctx a.job (earlierRules rules i) ∨
      ∀ queue' host', (queue', host') ∈ instances →
        LimitedCqueue ctx a cqueues rules i rule queue queue' →
        NoneOverlooked ctx a rules i queue' host' ∧
          (isHostExpand rule → ctx.sgeHostcpy host'.name = ctx.sgeHostcpy host.name)
  else True

end Statement

section Counters
variable {ctx} {job : RqsJob} {rule : RqsRule}

theorem rueElement_inj {filter : Option RqsFilter} {value value' : String} :
    rueElement filter (some value') = rueElement filter (some value) ↔
      (isExpand filter → value' = value) := by
  cases filter with
  | none => simp [rueElement, isExpand]
  | some filter =>
      obtain ⟨expand, scope, xscope⟩ := filter
      cases expand
      · simp [rueElement, isExpand]
      · simp [rueElement, isExpand]

theorem rqsGetRueString_host {queue queue' : String} {host host' : HostName}
    (hqueue : isCqueueExpand rule → queue' = queue) :
    rqsGetRueString ctx job rule host' queue' = rqsGetRueString ctx job rule host queue ↔
      (isHostExpand rule → ctx.sgeHostcpy host'.name = ctx.sgeHostcpy host.name) := by
  have hsame : rueElement rule.filterQueues (some queue') = rueElement rule.filterQueues (some queue) :=
    rueElement_inj.mpr hqueue
  unfold rqsGetRueString isHostExpand
  rw [hsame, String.append_left_inj, String.append_right_inj, rueElement_inj]

theorem rqsGetRueString_cqueue {queue queue' : String} {host host' : HostName}
    (hhost : isHostExpand rule → ctx.sgeHostcpy host'.name = ctx.sgeHostcpy host.name) :
    rqsGetRueString ctx job rule host' queue' = rqsGetRueString ctx job rule host queue ↔
      (isCqueueExpand rule → queue' = queue) := by
  have hsame : rueElement rule.filterHosts (some (ctx.sgeHostcpy host'.name)) =
      rueElement rule.filterHosts (some (ctx.sgeHostcpy host.name)) :=
    rueElement_inj.mpr hhost
  unfold rqsGetRueString isCqueueExpand
  rw [hsame, String.append_left_inj, String.append_left_inj, String.append_left_inj,
    String.append_right_inj, rueElement_inj]

end Counters

section Proof
variable {ctx a cqueues rules} {i : ℕ} {rule : RqsRule} {queue : String} {host : HostName}
  {instances : List (String × HostName)}

theorem mem_earlierRules {prev : RqsRule} : prev ∈ earlierRules rules i ↔ prev ∈ rules.take i :=
  List.mem_reverse

theorem matchesFirst_iff (hrule : rules[i]? = some rule) {queue' : String} {host' : HostName} :
    rqsGetMatchingRule ctx a.job rules host' queue' = some i ↔
      rqsIsMatchingRule ctx a.job rule host' queue' ∧
        ∀ prev ∈ rules.take i, ¬ rqsIsMatchingRule ctx a.job prev host' queue' :=
  findIdx?_iff hrule

/-- What is known about the rule that matches `queue@host` first. -/
structure Exceeded (ctx : RqsContext) (a : SgeAssignment) (rules : List RqsRule) (i : ℕ)
    (rule : RqsRule) (queue : String) (host : HostName) : Prop where
  position : rules[i]? = some rule
  matchesJob : rqsMatchesJob ctx a.job rule
  inCqueues : matchesCqueue ctx rule queue
  inHosts : matchesHost ctx rule host
  first : ∀ prev ∈ rules.take i, ¬ (rqsMatchesJob ctx a.job prev ∧ matchesCqueue ctx prev queue ∧
    matchesHost ctx prev host)

theorem exceeded_of_first (hrule : rules[i]? = some rule)
    (hfirst : rqsGetMatchingRule ctx a.job rules host queue = some i) :
    Exceeded ctx a rules i rule queue host := by
  obtain ⟨hmatch, hnone⟩ := (matchesFirst_iff hrule).mp hfirst
  obtain ⟨hjob, hqueue, hhost⟩ := rqsIsMatchingRule_iff.mp hmatch
  refine ⟨hrule, hjob, hqueue, hhost, fun prev hprev hmatches => ?_⟩
  exact hnone prev hprev (rqsIsMatchingRule_iff.mpr hmatches)

/-- The rule matches first wherever its filters do and no earlier rule matches. -/
theorem Exceeded.first_iff (h : Exceeded ctx a rules i rule queue host) {queue' : String}
    {host' : HostName} (hqueue : matchesCqueue ctx rule queue') (hhost : matchesHost ctx rule host') :
    rqsGetMatchingRule ctx a.job rules host' queue' = some i ↔
      ∀ prev ∈ rules.take i, ¬ rqsIsMatchingRule ctx a.job prev host' queue' := by
  rw [matchesFirst_iff h.position]
  constructor
  · intro hfirst
    exact hfirst.2
  · intro hnone
    exact ⟨rqsIsMatchingRule_iff.mpr ⟨h.matchesJob, hqueue, hhost⟩, hnone⟩

theorem not_rulesOut_same {queue' : String} {host' : HostName} :
    ¬ RulesOut a (false, a) queue' host' := by
  intro h
  rcases h with h | h | h
  · cases h
  · exact h.2 h.1
  · exact h.2 h.1

/-- A global limit whose rule matches the assignment: an instance is only ruled out when no earlier
rule has it in its scopes. -/
theorem Exceeded.global_sound (h : Exceeded ctx a rules i rule queue host)
    (hqueue : isCqueueGlobal rule) (hhost : isHostGlobal rule) (hqexpand : ¬ isCqueueExpand rule)
    (hhexpand : ¬ isHostExpand rule) (hmatch : rqsMatchAssignment ctx a.job rule) :
    PruningSound ctx a cqueues rules i rule queue host instances := by
  intro queue' host' _ hout
  have hnone : ∀ prev ∈ rules.take i, ¬ rqsIsMatchingRule ctx a.job prev host' queue' := by
    intro prev hprev hmatches
    have hmem : prev ∈ earlierRules rules i := mem_earlierRules.mpr hprev
    obtain ⟨hjob', hqueue', hhost'⟩ := rqsIsMatchingRule_iff.mp hmatches
    have hexcludedQueue : queue' ∈ (rqsExcludedCqueues ctx a cqueues (earlierRules rules i)
        rule).skipCqueueList → queue' ∈ a.skipCqueueList := by
      intro hnew
      rcases mem_addNames.mp hnew with hold | ⟨_, hselect⟩
      · exact hold
      · have hany : (earlierRules rules i).any fun prev =>
            rqsMatchAssignment ctx a.job rule && matchesCqueue ctx prev queue' :=
          List.any_eq_true.mpr ⟨prev, hmem, by rw [hmatch, Bool.true_and]; exact hqueue'⟩
        rw [hany] at hselect
        cases hselect
    have hexcludedHost : ∀ a' : SgeAssignment, a'.job = a.job → a'.skipHostList = a.skipHostList →
        host' ∈ (rqsExcludedHosts ctx a' (earlierRules rules i) rule).skipHostList →
        host' ∈ a.skipHostList := by
      intro a' hjob hskip hnew
      rcases mem_addNames.mp hnew with hold | ⟨_, hselect⟩
      · rwa [hskip] at hold
      · have hany : (earlierRules rules i).any fun prev =>
            rqsMatchAssignment ctx a'.job rule && matchesHost ctx prev host' :=
          List.any_eq_true.mpr ⟨prev, hmem, by rw [hjob, hmatch, Bool.true_and]; exact hhost'⟩
        rw [hany] at hselect
        cases hselect
    unfold rqsExceededSortOut at hout
    simp only [hqueue, hhost, hqexpand, hhexpand, Bool.not_true, Bool.and_self, Bool.or_self,
      Bool.false_or, Bool.and_false, if_true, Bool.false_eq_true, if_false,
      rqsCanOptimize_of_match hmatch] at hout
    by_cases hhs : ((earlierRules rules i).any fun prev => !isHostGlobal prev) = true
    · by_cases hqs : ((earlierRules rules i).any fun prev => !isCqueueGlobal prev) = true
      · simp only [hhs, hqs, Bool.not_true, Bool.and_self, Bool.false_eq_true, if_false,
          if_true] at hout
        rcases hout with hout | ⟨hnew, hold⟩ | ⟨hnew, hold⟩
        · cases hout
        · exact hold (hexcludedQueue hnew)
        · exact hold (hexcludedHost _ rfl rfl hnew)
      · simp only [hhs, hqs, Bool.not_true, Bool.false_and, Bool.and_false, Bool.false_eq_true,
          if_false] at hout
        rcases hout with hout | ⟨hnew, hold⟩ | ⟨hnew, hold⟩
        · cases hout
        · exact hold hnew
        · exact hold (hexcludedHost a rfl rfl hnew)
    · by_cases hqs : ((earlierRules rules i).any fun prev => !isCqueueGlobal prev) = true
      · simp only [hhs, hqs, Bool.not_true, Bool.and_false, Bool.false_and, Bool.false_eq_true,
          if_false, if_true] at hout
        rcases hout with hout | ⟨hnew, hold⟩ | ⟨hnew, hold⟩
        · cases hout
        · exact hold (hexcludedQueue hnew)
        · exact hold hnew
      · have hqglobal : isCqueueGlobal prev := by
          by_contra hnot
          exact hqs (List.any_eq_true.mpr ⟨prev, hmem, by simpa using hnot⟩)
        have hhglobal : isHostGlobal prev := by
          by_contra hnot
          exact hhs (List.any_eq_true.mpr ⟨prev, hmem, by simpa using hnot⟩)
        exact h.first prev hprev ⟨hjob', matchesCqueue_of_global hqglobal queue,
          matchesHost_of_global hhglobal host⟩
  constructor
  · exact (h.first_iff (matchesCqueue_of_global hqueue queue')
      (matchesHost_of_global hhost host')).mpr hnone
  · exact (rqsGetRueString_host fun hexpand => absurd hexpand hqexpand).mpr
      fun hexpand => absurd hexpand hhexpand

/-- A global limit whose rule does not seem to match the assignment denies the whole cluster. -/
theorem Exceeded.global_iff (h : Exceeded ctx a rules i rule queue host)
    (hqueue : isCqueueGlobal rule) (hhost : isHostGlobal rule) (hqexpand : ¬ isCqueueExpand rule)
    (hhexpand : ¬ isHostExpand rule) (hmatch : ¬ rqsMatchAssignment ctx a.job rule) :
    PruningSound ctx a cqueues rules i rule queue host instances ↔
      ∀ queue' host', (queue', host') ∈ instances →
        ∀ prev ∈ rules.take i, ¬ rqsIsMatchingRule ctx a.job prev host' queue' := by
  have hresult : rqsExceededSortOut ctx a cqueues (earlierRules rules i) rule queue host =
      (true, a) := by
    unfold rqsExceededSortOut
    simp only [hqueue, hhost, hqexpand, hhexpand, rqsCanOptimize_of_not (Bool.not_eq_true _ ▸ hmatch)]
    rfl
  have hfirst : ∀ queue' host', rqsGetMatchingRule ctx a.job rules host' queue' = some i ↔
      ∀ prev ∈ rules.take i, ¬ rqsIsMatchingRule ctx a.job prev host' queue' := fun queue' host' =>
    h.first_iff (matchesCqueue_of_global hqueue queue') (matchesHost_of_global hhost host')
  unfold PruningSound
  rw [hresult]
  constructor
  · intro hsound queue' host' hmem
    exact (hfirst queue' host').mp (hsound queue' host' hmem (Or.inl rfl)).1
  · intro hnone queue' host' hmem _
    refine ⟨(hfirst queue' host').mpr (hnone queue' host' hmem), ?_⟩
    exact (rqsGetRueString_host fun hexpand => absurd hexpand hqexpand).mpr
      fun hexpand => absurd hexpand hhexpand

/-- A limit of cluster queues rules out the limited queues, unless an earlier rule for hosts is
seen. -/
theorem rulesOut_cqueue (hqueue : ¬ isCqueueGlobal rule) (hhost : isHostGlobal rule)
    {queue' : String} {host' : HostName} :
    RulesOut a (rqsExceededSortOut ctx a cqueues (earlierRules rules i) rule queue host) queue' host' ↔
      ¬ hostShadowed ctx a.job (earlierRules rules i) ∧
        LimitedCqueue ctx a cqueues rules i rule queue queue' := by
  unfold rqsExceededSortOut LimitedCqueue
  simp only [hqueue, hhost, Bool.not_true, Bool.not_false, Bool.and_false, Bool.false_and,
    Bool.or_self, Bool.false_eq_true, if_false, if_true]
  by_cases hshadow : hostShadowed ctx a.job (earlierRules rules i)
  · rw [if_pos hshadow]
    constructor
    · intro hout
      exact absurd hout not_rulesOut_same
    · intro hnot
      exact absurd hshadow hnot.1
  · rw [if_neg hshadow]
    by_cases hexpand : isCqueueExpand rule
    · rw [if_pos hexpand, if_pos hexpand]
      simp only [RulesOut, Bool.false_eq_true, false_or, List.mem_append, List.mem_singleton]
      tauto
    · rw [if_neg hexpand, if_neg hexpand]
      simp only [RulesOut, rqsExpandCqueues, mem_addNames, Bool.false_eq_true, false_or,
        Bool.and_eq_true, Bool.not_eq_true', Bool.not_eq_true]
      rw [Bool.not_eq_true] at hshadow
      tauto

theorem rulesOut_host (hqueue : isCqueueGlobal rule) (hhost : ¬ isHostGlobal rule)
    {queue' : String} {host' : HostName} :
    RulesOut a (rqsExceededSortOut ctx a cqueues (earlierRules rules i) rule queue host) queue' host' ↔
      ¬ cqueueShadowed ctx a.job (earlierRules rules i) ∧
        LimitedHost ctx a rules i rule host host' := by
  unfold rqsExceededSortOut LimitedHost
  simp only [hqueue, hhost, Bool.not_true, Bool.not_false, Bool.and_false, Bool.false_and,
    Bool.or_self, Bool.false_eq_true, if_false]
  by_cases hshadow : cqueueShadowed ctx a.job (earlierRules rules i)
  · rw [if_pos hshadow]
    constructor
    · intro hout
      exact absurd hout not_rulesOut_same
    · intro hnot
      exact absurd hshadow hnot.1
  · rw [if_neg hshadow]
    by_cases hexpand : isHostExpand rule
    · rw [if_pos hexpand, if_pos hexpand]
      simp only [RulesOut, Bool.false_eq_true, false_or, List.mem_append, List.mem_singleton]
      tauto
    · rw [if_neg hexpand, if_neg hexpand]
      simp only [RulesOut, rqsExpandHosts, mem_addNames, Bool.false_eq_true, false_or,
        Bool.and_eq_true, Bool.not_eq_true', Bool.not_eq_true]
      rw [Bool.not_eq_true] at hshadow
      tauto

/-- In a limited queue the rule matches first exactly when no earlier rule is overlooked. -/
theorem Exceeded.first_limitedCqueue (h : Exceeded ctx a rules i rule queue host)
    (hhost : isHostGlobal rule) (hseen : ¬ hostShadowed ctx a.job (earlierRules rules i))
    {queue' : String} (hlimited : LimitedCqueue ctx a cqueues rules i rule queue queue')
    (host' : HostName) :
    rqsGetMatchingRule ctx a.job rules host' queue' = some i ↔
      NoneOverlooked ctx a rules i queue' host' := by
  have hglobal : ∀ prev ∈ rules.take i, rqsMatchAssignment ctx a.job prev → ∀ host,
      matchesHost ctx prev host := by
    intro prev hprev hM host
    apply matchesHost_of_global
    by_contra hnot
    exact hseen (List.any_eq_true.mpr ⟨prev, mem_earlierRules.mpr hprev, by simp [hM, hnot]⟩)
  have hscopes : matchesCqueue ctx rule queue' ∧ (queue' = queue ∨ ∀ prev ∈ rules.take i,
      rqsMatchAssignment ctx a.job prev → ¬ matchesCqueue ctx prev queue') := by
    unfold LimitedCqueue at hlimited
    split_ifs at hlimited with hexpand
    · rw [hlimited.2]
      exact ⟨h.inCqueues, Or.inl rfl⟩
    · obtain ⟨_, _, hmatches, hshadow⟩ := hlimited
      refine ⟨hmatches, Or.inr fun prev hprev hM hmatches' => hshadow ?_⟩
      exact List.any_eq_true.mpr ⟨prev, mem_earlierRules.mpr hprev, by simp [hM, hmatches']⟩
  rw [h.first_iff hscopes.1 (matchesHost_of_global hhost host')]
  simp only [NoneOverlooked, rqsIsMatchingRule_iff]
  exact overlooked_iff (A := fun r q => matchesCqueue ctx r q) (B := fun r x => matchesHost ctx r x)
    h.first hglobal hscopes.2

theorem Exceeded.first_limitedHost (h : Exceeded ctx a rules i rule queue host)
    (hqueue : isCqueueGlobal rule) (hseen : ¬ cqueueShadowed ctx a.job (earlierRules rules i))
    {host' : HostName} (hlimited : LimitedHost ctx a rules i rule host host') (queue' : String) :
    rqsGetMatchingRule ctx a.job rules host' queue' = some i ↔
      NoneOverlooked ctx a rules i queue' host' := by
  have hglobal : ∀ prev ∈ rules.take i, rqsMatchAssignment ctx a.job prev → ∀ queue,
      matchesCqueue ctx prev queue := by
    intro prev hprev hM queue
    apply matchesCqueue_of_global
    by_contra hnot
    exact hseen (List.any_eq_true.mpr ⟨prev, mem_earlierRules.mpr hprev, by simp [hM, hnot]⟩)
  have hscopes : matchesHost ctx rule host' ∧ (host' = host ∨ ∀ prev ∈ rules.take i,
      rqsMatchAssignment ctx a.job prev → ¬ matchesHost ctx prev host') := by
    unfold LimitedHost at hlimited
    split_ifs at hlimited with hexpand
    · rw [hlimited.2]
      exact ⟨h.inHosts, Or.inl rfl⟩
    · obtain ⟨_, _, hmatches, hshadow⟩ := hlimited
      refine ⟨hmatches, Or.inr fun prev hprev hM hmatches' => hshadow ?_⟩
      exact List.any_eq_true.mpr ⟨prev, mem_earlierRules.mpr hprev, by simp [hM, hmatches']⟩
  have hfirst : ∀ prev ∈ rules.take i, ¬ (rqsMatchesJob ctx a.job prev ∧
      matchesHost ctx prev host ∧ matchesCqueue ctx prev queue) := by
    intro prev hprev hmatches
    exact h.first prev hprev ⟨hmatches.1, hmatches.2.2, hmatches.2.1⟩
  rw [h.first_iff (matchesCqueue_of_global hqueue queue') hscopes.1]
  simp only [NoneOverlooked, rqsIsMatchingRule_iff]
  have hiff := @overlooked_iff _ _ _ _ _ _ (fun r x => matchesHost ctx r x)
    (fun r q => matchesCqueue ctx r q) _ _ _ queue' hfirst hglobal hscopes.2
  simp only [and_comm (a := (matchesHost ctx _ _ : Prop))] at hiff
  exact hiff

theorem Exceeded.cqueue_iff (h : Exceeded ctx a rules i rule queue host)
    (hqueue : ¬ isCqueueGlobal rule) (hhost : isHostGlobal rule) :
    PruningSound ctx a cqueues rules i rule queue host instances ↔
      hostShadowed ctx a.job (earlierRules rules i) ∨
        ∀ queue' host', (queue', host') ∈ instances →
          LimitedCqueue ctx a cqueues rules i rule queue queue' →
          NoneOverlooked ctx a rules i queue' host' ∧
            (isHostExpand rule → ctx.sgeHostcpy host'.name = ctx.sgeHostcpy host.name) := by
  have hexpand : ∀ queue', LimitedCqueue ctx a cqueues rules i rule queue queue' →
      isCqueueExpand rule → queue' = queue := by
    intro queue' hlimited hexpand
    rw [LimitedCqueue, if_pos hexpand] at hlimited
    exact hlimited.2
  unfold PruningSound
  simp only [rulesOut_cqueue hqueue hhost]
  by_cases hseen : hostShadowed ctx a.job (earlierRules rules i) = true
  · exact iff_of_true (fun _ _ _ hout => absurd hseen hout.1) (Or.inl hseen)
  · constructor
    · intro hsound
      refine Or.inr fun queue' host' hmem hlimited => ?_
      obtain ⟨hfirst, hcounter⟩ := hsound queue' host' hmem ⟨hseen, hlimited⟩
      exact ⟨(h.first_limitedCqueue hhost hseen hlimited host').mp hfirst,
        (rqsGetRueString_host (hexpand queue' hlimited)).mp hcounter⟩
    · intro hcondition queue' host' hmem hout
      obtain ⟨hnone, hcounter⟩ := (hcondition.resolve_left hseen) queue' host' hmem hout.2
      exact ⟨(h.first_limitedCqueue hhost hseen hout.2 host').mpr hnone,
        (rqsGetRueString_host (hexpand queue' hout.2)).mpr hcounter⟩

theorem Exceeded.host_iff (h : Exceeded ctx a rules i rule queue host)
    (hqueue : isCqueueGlobal rule) (hhost : ¬ isHostGlobal rule) :
    PruningSound ctx a cqueues rules i rule queue host instances ↔
      cqueueShadowed ctx a.job (earlierRules rules i) ∨
        ∀ queue' host', (queue', host') ∈ instances → LimitedHost ctx a rules i rule host host' →
          NoneOverlooked ctx a rules i queue' host' ∧ (isCqueueExpand rule → queue' = queue) := by
  have hexpand : ∀ host', LimitedHost ctx a rules i rule host host' →
      isHostExpand rule → ctx.sgeHostcpy host'.name = ctx.sgeHostcpy host.name := by
    intro host' hlimited hexpand
    rw [LimitedHost, if_pos hexpand] at hlimited
    rw [hlimited.2]
  unfold PruningSound
  simp only [rulesOut_host hqueue hhost]
  by_cases hseen : cqueueShadowed ctx a.job (earlierRules rules i) = true
  · exact iff_of_true (fun _ _ _ hout => absurd hseen hout.1) (Or.inl hseen)
  · constructor
    · intro hsound
      refine Or.inr fun queue' host' hmem hlimited => ?_
      obtain ⟨hfirst, hcounter⟩ := hsound queue' host' hmem ⟨hseen, hlimited⟩
      exact ⟨(h.first_limitedHost hqueue hseen hlimited queue').mp hfirst,
        (rqsGetRueString_cqueue (hexpand host' hlimited)).mp hcounter⟩
    · intro hcondition queue' host' hmem hout
      obtain ⟨hnone, hcounter⟩ := (hcondition.resolve_left hseen) queue' host' hmem hout.2
      exact ⟨(h.first_limitedHost hqueue hseen hout.2 queue').mpr hnone,
        (rqsGetRueString_cqueue (hexpand host' hout.2)).mpr hcounter⟩

theorem pruningSound_of_same
    (h : rqsExceededSortOut ctx a cqueues (earlierRules rules i) rule queue host = (false, a)) :
    PruningSound ctx a cqueues rules i rule queue host instances := by
  intro queue' host' _ hout
  rw [h] at hout
  exact absurd hout not_rulesOut_same

/-- `rqs_exceeded_sort_out` is sound exactly under the condition. -/
theorem rqsExceededSortOut_sound_iff (ctx : RqsContext) (a : SgeAssignment)
    (cqueues : List String) (rules : List RqsRule) (instances : List (String × HostName))
    {i : ℕ} {rule : RqsRule} {queue : String} {host : HostName} (hrule : rules[i]? = some rule)
    (hfirst : rqsGetMatchingRule ctx a.job rules host queue = some i) :
    PruningSound ctx a cqueues rules i rule queue host instances ↔
      PruningCondition ctx a cqueues rules i rule queue host instances := by
  have h := exceeded_of_first hrule hfirst
  unfold PruningCondition
  by_cases hqueue : isCqueueGlobal rule
  · rw [if_pos hqueue]
    by_cases hhost : isHostGlobal rule
    · rw [if_pos hhost]
      by_cases hqexpand : isCqueueExpand rule
      · have hresult : rqsExceededSortOut ctx a cqueues (earlierRules rules i) rule queue host =
            (false, a) := by
          simp [rqsExceededSortOut, hqueue, hhost, hqexpand]
        exact iff_of_true (pruningSound_of_same hresult) (Or.inl hqexpand)
      · by_cases hhexpand : isHostExpand rule
        · have hresult : rqsExceededSortOut ctx a cqueues (earlierRules rules i) rule queue host =
              (false, a) := by
            simp [rqsExceededSortOut, hqueue, hhost, hhexpand]
          exact iff_of_true (pruningSound_of_same hresult) (Or.inr (Or.inl hhexpand))
        · by_cases hmatch : rqsMatchAssignment ctx a.job rule
          · exact iff_of_true (h.global_sound hqueue hhost hqexpand hhexpand hmatch)
              (Or.inr (Or.inr (Or.inl hmatch)))
          · rw [h.global_iff hqueue hhost hqexpand hhexpand hmatch]
            simp [hqexpand, hhexpand, hmatch]
    · rw [if_neg hhost]
      exact h.host_iff hqueue hhost
  · rw [if_neg hqueue]
    by_cases hhost : isHostGlobal rule
    · rw [if_pos hhost]
      exact h.cqueue_iff hqueue hhost
    · rw [if_neg hhost]
      have hresult : rqsExceededSortOut ctx a cqueues (earlierRules rules i) rule queue host =
          (false, a) := by
        simp [rqsExceededSortOut, hqueue, hhost]
      exact iff_of_true (pruningSound_of_same hresult) trivial

end Proof

section Examples

/-- A site without user sets and host groups, with names that are no patterns. -/
def plainSite : RqsContext where
  fnmatch pattern s := pattern = s
  qrefListHostRejected href host := href ≠ host
  sgeHostcpy host := host
  usersets := []

def firstHost : HostName := ⟨"host1", by decide⟩

def secondHost : HostName := ⟨"host2", by decide⟩

def noFilter : RqsRule := ⟨none, none, none, none, none⟩

/-- `limit queues all.q hosts {*}`: one counter for each host. -/
def perHostRule : RqsRule :=
  { noFilter with
    filterQueues := some ⟨false, some ["all.q"], []⟩
    filterHosts := some ⟨true, some ["*"], []⟩ }

/-- `limit queues all.q`. -/
def queueRule : RqsRule := { noFilter with filterQueues := some ⟨false, some ["all.q"], []⟩ }

/-- `limit pes mpi`. -/
def peRule : RqsRule := { noFilter with filterPes := some ⟨false, some ["mpi"], []⟩ }

def serialJob : SgeAssignment :=
  ⟨⟨"user1", none, none, none⟩, [firstHost, secondHost], [], []⟩

def mpiJob : SgeAssignment :=
  ⟨⟨"user1", none, none, some "mpi"⟩, [firstHost, secondHost], [], []⟩

theorem perHostRule_sound_iff :
    PruningSound plainSite serialJob ["all.q"] [perHostRule] 0 perHostRule "all.q" firstHost
      [("all.q", firstHost), ("all.q", secondHost)] ↔
    PruningCondition plainSite serialJob ["all.q"] [perHostRule] 0 perHostRule "all.q" firstHost
      [("all.q", firstHost), ("all.q", secondHost)] :=
  rqsExceededSortOut_sound_iff plainSite serialJob ["all.q"] [perHostRule]
    [("all.q", firstHost), ("all.q", secondHost)] rfl (by decide)

/-- The limit of `host1` rules out the queue also on `host2`, and the limit of the parallel
environment rules out a queue for which an earlier rule counts. -/
theorem perHostRule_not_sound :
    ¬ PruningSound plainSite serialJob ["all.q"] [perHostRule] 0 perHostRule "all.q" firstHost
      [("all.q", firstHost), ("all.q", secondHost)] ∧
    ¬ PruningSound plainSite mpiJob ["all.q", "par.q"] [queueRule, peRule] 1 peRule "par.q"
      firstHost [("all.q", firstHost), ("par.q", firstHost)] := by
  constructor
  · intro hsound
    have h := hsound "all.q" secondHost (by decide) (Or.inr (Or.inl ⟨by decide, by decide⟩))
    exact absurd h.2 (by decide)
  · intro hsound
    have h := hsound "all.q" firstHost (by decide) (Or.inl (by decide))
    exact absurd h.1 (by decide)

end Examples

end GridEngine
