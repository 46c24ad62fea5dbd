import GridEngine.RqsReservation

/-!
# The start time over all rule sets

`rqs_by_slots` takes the latest time over the rule sets. An entry of the limit list stands for a rule
and a counter, as long as its name tells them.
-/

namespace GridEngine

section Counters
variable {ctx : RqsContext} {job : RqsJob} {rule : RqsRule} {host host' : HostName}
  {queue queue' : String}

theorem takeWhile_append_of_notMem {α : Type*} [DecidableEq α] {l rest : List α} {c : α}
    (h : c ∉ l) : (l ++ c :: rest).takeWhile (fun x => x ≠ c) = l := by
  induction l with
  | nil => simp
  | cons x l ih =>
      obtain ⟨hx, hl⟩ := not_or.mp (fun hmem => h (List.mem_cons.mpr hmem))
      rw [List.cons_append, List.takeWhile_cons, if_pos (by simpa using Ne.symm hx), ih hl]

theorem eq_of_append_singleton_append_eq {α : Type*} [DecidableEq α] {l l' m m' : List α} {c : α}
    (hm : c ∉ m) (hm' : c ∉ m') (h : l ++ [c] ++ m = l' ++ [c] ++ m') : m = m' := by
  have hrev := congrArg List.reverse h
  rw [List.reverse_append, List.reverse_append, List.reverse_append, List.reverse_append,
    List.reverse_singleton, List.singleton_append, List.singleton_append] at hrev
  have htake := congrArg (List.takeWhile fun x => x ≠ c) hrev
  rw [takeWhile_append_of_notMem (by simpa using hm),
    takeWhile_append_of_notMem (by simpa using hm')] at htake
  exact List.reverse_injective htake

theorem hostcpy_eq_of_rueString (hslash : ∀ host : HostName, '/' ∉ (ctx.sgeHostcpy host.name).toList)
    (hexpand : isHostExpand rule)
    (hrue : rqsGetRueString ctx job rule host queue = rqsGetRueString ctx job rule host' queue') :
    ctx.sgeHostcpy host.name = ctx.sgeHostcpy host'.name := by
  have helement : ∀ host : HostName, rueElement rule.filterHosts (some (ctx.sgeHostcpy host.name)) =
      ctx.sgeHostcpy host.name := by
    intro host
    rw [isHostExpand] at hexpand
    cases hfilter : rule.filterHosts with
    | none =>
        rw [hfilter] at hexpand
        cases hexpand
    | some filter =>
        rw [hfilter] at hexpand
        exact if_pos hexpand
  have htoList := congrArg String.toList hrue
  simp only [rqsGetRueString, helement, String.toList_append] at htoList
  have hsep : "/".toList = ['/'] := rfl
  rw [hsep] at htoList
  have hcut := List.append_cancel_right htoList
  exact String.toList_inj.mp
    (eq_of_append_singleton_append_eq (hslash host) (hslash host') hcut)

end Counters

section Sets
variable (a : RqsReservation)

/-- A rule of an enabled rule set that is the first one to match a queue instance. -/
structure RqsReservation.Counts (rqs : RqsSet) (i : ℕ) (rule : LimitedRule) (host : HostName)
    (queue : String) : Prop where
  enabled : rqs.enabled
  isMatch : rqsGetMatchingRule a.ctx a.job (rqs.rules.map LimitedRule.scopes) host queue = some i
  getElem : rqs.rules[i]? = some rule

/-- The names of the limit list tell the rule and the counter. -/
def RqsReservation.NamesTell : Prop :=
  ∀ rqs ∈ a.rqsList, ∀ rqs' ∈ a.rqsList, ∀ i i' rule rule' host host' queue queue',
    a.Counts rqs i rule host queue → a.Counts rqs' i' rule' host' queue' →
    a.limitName rqs i rule host queue = a.limitName rqs' i' rule' host' queue' →
      rule = rule' ∧ rqsGetRueString a.ctx a.job rule.scopes host queue =
        rqsGetRueString a.ctx a.job rule.scopes host' queue'

/-- The time that a rule of one of the rule sets has for a queue instance. -/
def RqsReservation.RuleTime (sets : List RqsSet) (host : HostName) (queue : String) (time : ℕ) :
    Prop :=
  ∃ rqs ∈ sets, ∃ i rule, a.Counts rqs i rule host queue ∧
    a.rqsLimitationReached rule host queue = (.ok, time)

/-- A call of `rqs_by_slots`. -/
structure QuotaCall where
  queue : String
  host : HostName
  ttRqsAll : ℕ
  ttBest : ℕ

def RqsReservation.call (lists : QuotaLists) (c : QuotaCall) : DispatchT × QuotaTimes :=
  a.rqsBySlots lists c.queue c.host c.ttRqsAll c.ttBest

/-- The lists after some calls. They are empty when the assignment begins. -/
def RqsReservation.listsAfter (calls : List QuotaCall) : QuotaLists :=
  calls.foldl (fun lists c => (a.call lists c).2.lists) ⟨[], [], []⟩

/-- Every call that lets the job start gives the latest time over the rule sets. -/
def RqsReservation.TimesExact : Prop :=
  ∀ calls c, (a.call (a.listsAfter calls) c).1 = .ok →
    IsGreatest (insert c.ttRqsAll {time | a.RuleTime a.rqsList c.host c.queue time})
      (a.call (a.listsAfter calls) c).2.ttRqsAll

/-- The entries of the limit list hold what `rqs_limitation_reached` would give. -/
def RqsReservation.Cached (lists : QuotaLists) : Prop :=
  ∀ rql ∈ lists.limitList, ∃ rqs ∈ a.rqsList, ∃ i rule host queue,
    a.Counts rqs i rule host queue ∧ rql.name = a.limitName rqs i rule host queue ∧
      (rql.result, rql.time) = a.rqsLimitationReached rule host queue

end Sets

section Lemmas
variable {a : RqsReservation} {rqs : RqsSet} {i : ℕ} {rule : LimitedRule} {host host' : HostName}
  {queue queue' : String} {lists : QuotaLists} {sets : List RqsSet} {st : QuotaTimes} {ttBest : ℕ}

theorem RqsReservation.rqsLimitationReached_of_counter
    (hrue : rqsGetRueString a.ctx a.job rule.scopes host queue =
      rqsGetRueString a.ctx a.job rule.scopes host' queue') :
    a.rqsLimitationReached rule host queue = a.rqsLimitationReached rule host' queue' := by
  refine RqsReservation.rqsLimitationReached_congr hrue fun limit hlimit => ?_
  cases hdynamic : limit.isDynamic with
  | false => exact limit.value_eq hdynamic _ _
  | true =>
      rw [hostcpy_eq_of_rueString a.slash (rule.dynamic_expand limit hlimit hdynamic) hrue]

/-- A rule is checked with the same result as without the limit list. -/
theorem RqsReservation.checkRule_eq (hnames : a.NamesTell) (hrqs : rqs ∈ a.rqsList)
    (hcounts : a.Counts rqs i rule host queue) (hcached : a.Cached lists) :
    (a.checkRule rqs i rule host queue lists).1 = a.rqsLimitationReached rule host queue ∧
      a.Cached (a.checkRule rqs i rule host queue lists).2.2 := by
  rw [RqsReservation.checkRule]
  dsimp only
  cases hfind : lists.limitList.find? fun rql => rql.name = a.limitName rqs i rule host queue with
  | some rql =>
      refine ⟨?_, hcached⟩
      have hname := List.find?_some hfind
      obtain ⟨rqs', hrqs', i', rule', host', queue', hcounts', hname', hresult⟩ :=
        hcached rql (List.mem_of_find?_eq_some hfind)
      obtain ⟨rfl, hrue⟩ := hnames rqs hrqs rqs' hrqs' i i' rule rule' host host' queue queue'
        hcounts hcounts' ((of_decide_eq_true hname).symm.trans hname')
      dsimp only
      rw [hresult]
      exact (RqsReservation.rqsLimitationReached_of_counter hrue).symm
  | none =>
      cases hreached : a.rqsLimitationReached rule host queue with
      | mk result time =>
          have hcached' : a.Cached { lists with
              limitList := lists.limitList ++
                [⟨a.limitName rqs i rule host queue, result, time⟩] } := by
            intro rql hrql
            rcases List.mem_append.mp hrql with hrql | hrql
            · exact hcached rql hrql
            · rw [List.mem_singleton.mp hrql]
              exact ⟨rqs, hrqs, i, rule, host, queue, hcounts, rfl, hreached.symm⟩
          dsimp only
          split_ifs
          · exact ⟨rfl, hcached'⟩
          · exact ⟨rfl, hcached'⟩

theorem isGreatest_insert_max {α : Type*} [LinearOrder α] {x y z : α} {S : Set α}
    (h : IsGreatest (insert (max x y) S) z) : IsGreatest (insert x (insert y S)) z := by
  obtain ⟨hmem, hle⟩ := h
  refine ⟨?_, fun w hw => ?_⟩
  · rcases hmem with rfl | hmem
    · rcases max_choice x y with hmax | hmax
      · exact Or.inl hmax
      · exact Or.inr (Or.inl hmax)
    · exact Or.inr (Or.inr hmem)
  · rcases hw with rfl | rfl | hw
    · exact le_trans (le_max_left _ _) (hle (Set.mem_insert _ _))
    · exact le_trans (le_max_right _ _) (hle (Set.mem_insert _ _))
    · exact hle (Set.mem_insert_of_mem _ hw)

theorem RqsReservation.ruleTime_cons_of_not {time : ℕ}
    (hnot : ∀ i rule, a.Counts rqs i rule host queue →
      ∀ t, a.rqsLimitationReached rule host queue ≠ (.ok, t)) :
    a.RuleTime (rqs :: sets) host queue time ↔ a.RuleTime sets host queue time := by
  constructor
  · intro h
    obtain ⟨rqs', hrqs', i, rule, hcounts, htime⟩ := h
    rcases List.mem_cons.mp hrqs' with rfl | hrqs'
    · exact absurd htime (hnot i rule hcounts time)
    · exact ⟨rqs', hrqs', i, rule, hcounts, htime⟩
  · intro h
    obtain ⟨rqs', hrqs', hrest⟩ := h
    exact ⟨rqs', List.mem_cons_of_mem _ hrqs', hrest⟩

theorem RqsReservation.Counts.unique {i' : ℕ} {rule' : LimitedRule}
    (h : a.Counts rqs i rule host queue) (h' : a.Counts rqs i' rule' host queue) :
    rule = rule' := by
  have hi : i = i' := Option.some.inj (h.isMatch.symm.trans h'.isMatch)
  have hget := h'.getElem
  rw [← hi, h.getElem] at hget
  exact Option.some.inj hget

theorem RqsReservation.ruleSetLoop_spec (hnames : a.NamesTell) (hsets : ∀ rqs ∈ sets, rqs ∈ a.rqsList)
    (hcached : a.Cached st.lists) :
    a.Cached (a.ruleSetLoop host queue ttBest sets st).2.lists ∧
      ((a.ruleSetLoop host queue ttBest sets st).1 = .ok →
        IsGreatest (insert st.ttRqsAll {time | a.RuleTime sets host queue time})
          (a.ruleSetLoop host queue ttBest sets st).2.ttRqsAll) := by
  induction sets generalizing st with
  | nil =>
      refine ⟨hcached, fun _ => ⟨Set.mem_insert _ _, fun t ht => ?_⟩⟩
      rcases ht with rfl | ⟨rqs, hrqs, -⟩
      · exact le_rfl
      · exact absurd hrqs List.not_mem_nil
  | cons rqs sets ih =>
      obtain ⟨hrqs, hsets'⟩ := List.forall_mem_cons.mp hsets
      have hskip : (∀ i rule, a.Counts rqs i rule host queue →
          ∀ t, a.rqsLimitationReached rule host queue ≠ (.ok, t)) →
          {time | a.RuleTime (rqs :: sets) host queue time} =
            {time | a.RuleTime sets host queue time} := fun hnot =>
        Set.ext fun time => RqsReservation.ruleTime_cons_of_not hnot
      rw [RqsReservation.ruleSetLoop]
      by_cases henabled : rqs.enabled
      swap
      · rw [if_pos (by simpa using henabled), hskip fun i rule hcounts =>
          absurd hcounts.enabled henabled]
        exact ih hsets' hcached
      rw [if_neg (by simpa using henabled)]
      cases hmatch : rqsGetMatchingRule a.ctx a.job (rqs.rules.map LimitedRule.scopes) host queue with
      | none =>
          dsimp only
          rw [hskip fun i rule hcounts => by
            have hcontra := hcounts.isMatch
            rw [hmatch] at hcontra
            cases hcontra]
          exact ih hsets' hcached
      | some i =>
          dsimp only
          cases hget : rqs.rules[i]? with
          | none =>
              dsimp only
              rw [hskip fun j rule hcounts => by
                have hj := hcounts.isMatch
                rw [hmatch] at hj
                have hcontra := hcounts.getElem
                rw [← Option.some.inj hj, hget] at hcontra
                cases hcontra]
              exact ih hsets' hcached
          | some rule =>
              have hcounts : a.Counts rqs i rule host queue := ⟨henabled, hmatch, hget⟩
              obtain ⟨hcheck, hcached'⟩ :=
                RqsReservation.checkRule_eq hnames hrqs hcounts hcached
              dsimp only
              generalize a.checkRule rqs i rule host queue st.lists = checked at hcheck hcached' ⊢
              obtain ⟨⟨result, ttRqs⟩, isGlobal, lists⟩ := checked
              dsimp only at hcheck hcached' ⊢
              by_cases hmissing : result = .missingAttr
              · rw [if_pos hmissing, hskip fun j rule' hcounts' t => by
                  rw [← hcounts.unique hcounts', ← hcheck, hmissing]
                  simp]
                exact ih hsets' hcached'
              rw [if_neg hmissing]
              by_cases hok : result = .ok
              swap
              · rw [if_pos hok]
                exact ⟨hcached', fun h => absurd h hok⟩
              rw [if_neg (not_not_intro hok)]
              have htime : {time | a.RuleTime (rqs :: sets) host queue time} =
                  insert ttRqs {time | a.RuleTime sets host queue time} := by
                ext time
                constructor
                · intro h
                  obtain ⟨rqs', hrqs', j, rule', hcounts', ht⟩ := h
                  rcases List.mem_cons.mp hrqs' with rfl | hrqs'
                  · rw [← hcounts.unique hcounts', ← hcheck] at ht
                    exact Or.inl (Prod.mk.inj ht).2.symm
                  · exact Or.inr ⟨rqs', hrqs', j, rule', hcounts', ht⟩
                · intro h
                  rcases h with rfl | ⟨rqs', hrqs', hrest⟩
                  · exact ⟨rqs, List.mem_cons_self, i, rule, hcounts, by rw [← hcheck, hok]⟩
                  · exact ⟨rqs', List.mem_cons_of_mem _ hrqs', hrest⟩
              rw [htime]
              have hsort : a.Cached (if ttRqs ≥ ttBest then a.sortOut rqs i rule host queue lists
                  else (false, lists)).2 := by
                split_ifs
                · exact hcached'
                · exact hcached'
              obtain ⟨hfinal, hgreatest⟩ := @ih ⟨max st.ttRqsAll ttRqs, _, _⟩ hsets' hsort
              exact ⟨hfinal, fun h => isGreatest_insert_max (hgreatest h)⟩

theorem RqsReservation.listsAfter_cached (hnames : a.NamesTell) (calls : List QuotaCall) :
    a.Cached (a.listsAfter calls) := by
  induction calls using List.reverseRecOn with
  | nil => exact fun rql hrql => absurd hrql List.not_mem_nil
  | append_singleton calls c ih =>
      rw [RqsReservation.listsAfter, List.foldl_append, List.foldl_cons, List.foldl_nil]
      exact (RqsReservation.ruleSetLoop_spec hnames (fun _ h => h) ih).1

/-- A rule gives the latest time of its limits when the last of them has it, and the rule sets are
combined to their latest time over every run of calls as long as the names of the limit list tell
the rules. -/
theorem rqsBySlots_latest_iff (a : RqsReservation) :
    (∀ rule host queue, a.StartIsLatest rule host queue ↔ a.LastIsLatest rule host queue) ∧
      (a.NamesTell → a.TimesExact) := by
  refine ⟨fun _ _ _ => RqsReservation.startIsLatest_iff, fun hnames calls c hok => ?_⟩
  exact (RqsReservation.ruleSetLoop_spec hnames (fun _ h => h)
    (RqsReservation.listsAfter_cached hnames calls)).2 hok

end Lemmas

section Failure

/-- Usage of both units of a limit up to a time. -/
def usedUpTo (time : ℕ) : Rue := ⟨some [⟨10, 2⟩, ⟨time, 0⟩], none⟩

/-- Two units, used up to a time under every counter. -/
def twoUnits (name : String) (time : ℕ) : RqsLimit where
  name := name
  isDynamic := false
  value := fun _ => 2
  value_eq := fun _ _ _ => rfl
  usage := fun _ => some (usedUpTo time)

/-- `limit name slim queues a.q to slots=2,lic=2` and `limit name slim queues b.q to slots=2`. -/
def slimRule (queue : String) (limits : List (String × ℕ)) : LimitedRule where
  name := some "slim"
  scopes := { noFilter with filterQueues := some ⟨false, some [queue], []⟩ }
  limits := limits.map fun limit => twoUnits limit.1 limit.2
  dynamic_expand := by
    intro limit hlimit hdynamic
    obtain ⟨_, -, rfl⟩ := List.mem_map.mp hlimit
    cases hdynamic

def slimJob : RqsReservation where
  ctx := { plainSite with sgeHostcpy := fun host => String.ofList (host.toList.filter (· ≠ '/')) }
  slash := fun host => by simp
  job := serialJob.job
  pe_none := rfl
  now := 20
  centryList := [⟨"slots", true, true, false, none⟩, ⟨"lic", true, true, false, none⟩]
  requests := [("lic", 1)]
  matchStaticResource := fun _ _ _ => .ok
  rqsList := [⟨"rs", true,
    [slimRule "a.q" [("slots", 100), ("lic", 50)], slimRule "b.q" [("slots", 300)]]⟩]
  cqueues := ["a.q", "b.q"]
  hostList := [firstHost]

/-- The job with the first rule alone, whose last limit is the latest. -/
def fatJob : RqsReservation :=
  { slimJob with rqsList := [⟨"rs", true, [slimRule "a.q" [("lic", 50), ("slots", 100)]]⟩] }

theorem fatJob_latest : fatJob.TimesExact := by
  refine (rqsBySlots_latest_iff fatJob).2 ?_
  intro rqs hrqs rqs' hrqs' i i' rule rule' host host' queue queue' h h' _
  have hrule : ∀ {rqs i rule host queue}, rqs ∈ fatJob.rqsList →
      fatJob.Counts rqs i rule host queue →
      rule = slimRule "a.q" [("lic", 50), ("slots", 100)] := by
    intro rqs i rule host queue hrqs h
    have hget := h.getElem
    rw [List.mem_singleton.mp hrqs] at hget
    exact List.mem_singleton.mp (List.mem_of_getElem? hget)
  rw [hrule hrqs h, hrule hrqs' h']
  exact ⟨rfl, rfl⟩

/-- The first rule gives the time of its last limit, and in the second queue the limit list gives
this time again. -/
theorem slimJob_notLatest :
    ¬ slimJob.StartIsLatest (slimRule "a.q" [("slots", 100), ("lic", 50)]) firstHost "a.q" ∧
      ¬ slimJob.TimesExact := by
  constructor
  · intro h
    have hstart : slimJob.rqsLimitationReached (slimRule "a.q" [("slots", 100), ("lic", 50)])
        firstHost "a.q" = (.ok, 50) := by decide +kernel
    have hslots : slimJob.FoundAt (slimRule "a.q" [("slots", 100), ("lic", 50)]) firstHost "a.q"
        (twoUnits "slots" 100) 100 :=
      ⟨⟨"slots", true, true, false, none⟩, 1, rfl, by decide +kernel⟩
    have hle : 100 ≤ 50 := (h 50 hstart).2 ⟨_, List.mem_cons_self, hslots⟩
    exact absurd hle (by decide)
  · intro h
    have hgreatest := h [⟨"a.q", firstHost, 0, uLong32Max⟩] ⟨"b.q", firstHost, 0, uLong32Max⟩
      (by decide +kernel)
    have htime : (slimJob.call (slimJob.listsAfter [⟨"a.q", firstHost, 0, uLong32Max⟩])
        ⟨"b.q", firstHost, 0, uLong32Max⟩).2.ttRqsAll = 50 := by decide +kernel
    rw [htime] at hgreatest
    have hfresh : slimJob.RuleTime slimJob.rqsList firstHost "b.q" 300 :=
      ⟨_, List.mem_cons_self, 1, slimRule "b.q" [("slots", 300)],
        ⟨rfl, by decide +kernel, rfl⟩, by decide +kernel⟩
    have hle : 300 ≤ 50 := hgreatest.2 (Or.inr hfresh)
    exact absurd hle (by decide)

end Failure

end GridEngine
