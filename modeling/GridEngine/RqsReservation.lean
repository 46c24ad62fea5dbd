import GridEngine.CalendarOverlay
import GridEngine.PeSearch
import GridEngine.RqsPruning

/-!
# Resource quotas of a reservation

For a reservation each limit of a rule gives the earliest time from which on the job fits into it.
`rqs_by_slots` combines the rules of all rule sets and keeps what it found for a rule and a counter
in the limit list of the assignment.
-/

namespace GridEngine

/-- A `CE_Type` object of the complex, with the parsed default request. -/
structure RqsCentry where
  name : String
  consumable : Bool
  forced : Bool
  exclusive : Bool
  default : Option ℚ

/-- A `RQRL_Type` object. The value of a dynamical limit depends on the host. The usage is kept for
each counter. -/
structure RqsLimit where
  name : String
  isDynamic : Bool
  value : String → ℚ
  value_eq : isDynamic = false → ∀ host host', value host = value host'
  usage : String → Option Rue

/-- A rule with its limits. Dynamical limits are accepted in rules that expand the hosts only. -/
structure LimitedRule where
  name : Option String
  scopes : RqsRule
  limits : List RqsLimit
  dynamic_expand : ∀ limit ∈ limits, limit.isDynamic → isHostExpand scopes

/-- A `RQS_Type` object. -/
structure RqsSet where
  name : String
  enabled : Bool
  rules : List LimitedRule

/-- The assignment of a reservation, as far as resource quotas look at it. `matchStaticResource`
takes the attribute, the value of the limit and the request. -/
structure RqsReservation where
  ctx : RqsContext
  slash : ∀ host : HostName, '/' ∉ (ctx.sgeHostcpy host.name).toList
  job : RqsJob
  pe_none : job.pe = none
  now : ℕ
  centryList : List RqsCentry
  requests : List (String × ℚ)
  matchStaticResource : String → ℚ → ℚ → DispatchT
  rqsList : List RqsSet
  cqueues : List String
  hostList : List HostName

/-- A `RQL_Type` object. -/
structure RqlEntry where
  name : String
  result : DispatchT
  time : ℕ
deriving DecidableEq, Repr

/-- The lists of the assignment that `rqs_by_slots` writes. -/
structure QuotaLists where
  skipCqueueList : List String
  skipHostList : List HostName
  limitList : List RqlEntry

/-- What a limit means for the job: nothing, a missing request of a forced attribute, or a request. -/
inductive LimitRequest
  | ignored
  | notRequested
  | request (rawCentry : RqsCentry) (amount : ℚ)

section Model
variable (a : RqsReservation)

/-- The part of `rqs_limitation_reached` that determines the request. -/
def RqsReservation.limitRequest (limit : RqsLimit) : LimitRequest :=
  match a.centryList.find? fun centry => centry.name = limit.name with
  | none => .ignored
  | some rawCentry =>
      match a.requests.find? fun request => request.1 = limit.name with
      | some request => .request rawCentry request.2
      | none =>
          if rawCentry.name = "slots" then .request rawCentry 1
          else
            match rawCentry.default, rawCentry.consumable with
            | some amount, true =>
                if amount = 0 ∧ ¬ rawCentry.exclusive then .ignored else .request rawCentry amount
            | _, _ => if rawCentry.forced then .notRequested else .ignored

/-- `ri_time_by_slots` for one slot and `DISPATCH_TIME_QUEUE_END`, in schedule based mode. -/
def RqsReservation.riTimeBySlots (rawCentry : RqsCentry) (amount total : ℚ) (usage : Rue) :
    DispatchT × ℕ :=
  let ret := a.matchStaticResource rawCentry.name total amount
  if ret ≠ .ok then (ret, dispatchTimeQueueEnd)
  else if !rawCentry.consumable then (.ok, a.now)
  else
    let threshold := total - amount
    if threshold < 0 then (.neverCat, dispatchTimeQueueEnd)
    else
      let time := utilizationBelow usage threshold (amount ≠ 0)
      if time = 0 then (.ok, a.now) else (.ok, time)

/-- The time for one limit of a rule, with the usage of the counter of the rule. -/
def RqsReservation.limitTime (rule : LimitedRule) (host : HostName) (queue : String)
    (limit : RqsLimit) (rawCentry : RqsCentry) (amount : ℚ) : DispatchT × ℕ :=
  let usage := (limit.usage (rqsGetRueString a.ctx a.job rule.scopes host queue)).getD ⟨none, none⟩
  a.riTimeBySlots rawCentry amount (limit.value (a.ctx.sgeHostcpy host.name)) usage

/-- The loop of `rqs_limitation_reached` with its variables `ret` and `*start`. -/
def RqsReservation.limitLoop (rule : LimitedRule) (host : HostName) (queue : String) :
    List RqsLimit → DispatchT × ℕ → DispatchT × ℕ
  | [], st => st
  | limit :: limits, (ret, start) =>
      match a.limitRequest limit with
      | .ignored => limitLoop rule host queue limits (ret, start)
      | .notRequested => (.neverCat, start)
      | .request rawCentry amount =>
          match a.limitTime rule host queue limit rawCentry amount with
          | (.ok, tmpTime) => limitLoop rule host queue limits (.ok, tmpTime)
          | (ret, _) => (ret, start)

/-- `rqs_limitation_reached`. -/
def RqsReservation.rqsLimitationReached (rule : LimitedRule) (host : HostName) (queue : String) :
    DispatchT × ℕ :=
  a.limitLoop rule host queue rule.limits (.missingAttr, dispatchTimeQueueEnd)

/-- The name of a rule in the messages and in the limit list. The index counts from 1. -/
def RqsSet.ruleName (rqs : RqsSet) (i : ℕ) (rule : LimitedRule) : String :=
  match rule.name with
  | some name => rqs.name ++ "/" ++ name
  | none => rqs.name ++ "/" ++ toString (i + 1)

/-- The name of an entry of the limit list. -/
def RqsReservation.limitName (rqs : RqsSet) (i : ℕ) (rule : LimitedRule) (host : HostName)
    (queue : String) : String :=
  rqs.ruleName i rule ++ "=" ++ rqsGetRueString a.ctx a.job rule.scopes host queue

/-- `rqs_exceeded_sort_out`. -/
def RqsReservation.sortOut (rqs : RqsSet) (i : ℕ) (rule : LimitedRule) (host : HostName)
    (queue : String) (lists : QuotaLists) : Bool × QuotaLists :=
  let (isGlobal, skips) := rqsExceededSortOut a.ctx
    ⟨a.job, a.hostList, lists.skipCqueueList, lists.skipHostList⟩ a.cqueues
    (earlierRules (rqs.rules.map LimitedRule.scopes) i) rule.scopes queue host
  (isGlobal, { lists with
    skipCqueueList := skips.skipCqueueList
    skipHostList := skips.skipHostList })

/-- The part of `rqs_by_slots` that checks the limits of a rule or takes an earlier result. -/
def RqsReservation.checkRule (rqs : RqsSet) (i : ℕ) (rule : LimitedRule) (host : HostName)
    (queue : String) (lists : QuotaLists) : (DispatchT × ℕ) × Bool × QuotaLists :=
  let name := a.limitName rqs i rule host queue
  match lists.limitList.find? fun rql => rql.name = name with
  | some rql => ((rql.result, rql.time), false, lists)
  | none =>
      let (result, time) := a.rqsLimitationReached rule host queue
      let lists := { lists with limitList := lists.limitList ++ [⟨name, result, time⟩] }
      if result ≠ .ok ∧ result ≠ .missingAttr then
        ((result, time), a.sortOut rqs i rule host queue lists)
      else ((result, time), false, lists)

/-- The results of `rqs_by_slots` besides its return value. -/
structure QuotaTimes where
  ttRqsAll : ℕ
  isGlobal : Bool
  lists : QuotaLists

/-- The loop of `rqs_by_slots` over the rule sets. -/
def RqsReservation.ruleSetLoop (host : HostName) (queue : String) (ttBest : ℕ) :
    List RqsSet → QuotaTimes → DispatchT × QuotaTimes
  | [], st => (.ok, st)
  | rqs :: sets, st =>
      if !rqs.enabled then ruleSetLoop host queue ttBest sets st
      else
        match rqsGetMatchingRule a.ctx a.job (rqs.rules.map LimitedRule.scopes) host queue with
        | none => ruleSetLoop host queue ttBest sets st
        | some i =>
            match rqs.rules[i]? with
            | none => ruleSetLoop host queue ttBest sets st
            | some rule =>
                let ((result, ttRqs), isGlobal, lists) := a.checkRule rqs i rule host queue st.lists
                let st := { st with isGlobal := st.isGlobal || isGlobal, lists := lists }
                if result = .missingAttr then ruleSetLoop host queue ttBest sets st
                else if result ≠ .ok then (result, st)
                else
                  let (isGlobal, lists) :=
                    if ttRqs ≥ ttBest then a.sortOut rqs i rule host queue st.lists
                    else (false, st.lists)
                  ruleSetLoop host queue ttBest sets
                    ⟨max st.ttRqsAll ttRqs, st.isGlobal || isGlobal, lists⟩

/-- `rqs_by_slots`. -/
def RqsReservation.rqsBySlots (lists : QuotaLists) (queue : String) (host : HostName)
    (ttRqsAll ttBest : ℕ) : DispatchT × QuotaTimes :=
  a.ruleSetLoop host queue ttBest a.rqsList ⟨ttRqsAll, false, lists⟩

end Model

end GridEngine

/-!
## The start time of a rule

`rqs_limitation_reached` overwrites the start with the time of each limit that counts for the job.
What it returns is the time of the last one.
-/

namespace GridEngine

section Times
variable (a : RqsReservation) (rule : LimitedRule) (host : HostName) (queue : String)

/-- The limit counts for the job, and the job fits into it from the time on. -/
def RqsReservation.FoundAt (limit : RqsLimit) (time : ℕ) : Prop :=
  ∃ rawCentry amount, a.limitRequest limit = .request rawCentry amount ∧
    a.limitTime rule host queue limit rawCentry amount = (.ok, time)

/-- The limit denies the job. -/
def RqsReservation.Denies (limit : RqsLimit) : Prop :=
  a.limitRequest limit = .notRequested ∨
    ∃ rawCentry amount, a.limitRequest limit = .request rawCentry amount ∧
      (a.limitTime rule host queue limit rawCentry amount).1 ≠ .ok

/-- When the rule lets the job start, the start is the latest time of its limits. -/
def RqsReservation.StartIsLatest : Prop :=
  ∀ start, a.rqsLimitationReached rule host queue = (.ok, start) →
    IsGreatest {time | ∃ limit ∈ rule.limits, a.FoundAt rule host queue limit time} start

/-- The last limit that counts for the job has the latest time of all that count, unless one of them
denies the job. -/
def RqsReservation.LastIsLatest : Prop :=
  (∀ limit ∈ rule.limits, ¬ a.Denies rule host queue limit) →
    ∀ pre limit suf time, rule.limits = pre ++ limit :: suf →
      a.FoundAt rule host queue limit time →
      (∀ later ∈ suf, ∀ t, ¬ a.FoundAt rule host queue later t) →
      ∀ earlier ∈ pre, ∀ t, a.FoundAt rule host queue earlier t → t ≤ time

end Times

section Lemmas
variable {a : RqsReservation} {rule : LimitedRule} {host : HostName} {queue : String}
  {limit : RqsLimit} {limits : List RqsLimit} {st : DispatchT × ℕ} {time : ℕ}

theorem RqsReservation.limitLoop_cons :
    (a.limitRequest limit = .ignored ∧
      a.limitLoop rule host queue (limit :: limits) st = a.limitLoop rule host queue limits st) ∨
    (a.Denies rule host queue limit ∧
      (a.limitLoop rule host queue (limit :: limits) st).1 ≠ .ok) ∨
    ∃ time, a.FoundAt rule host queue limit time ∧
      a.limitLoop rule host queue (limit :: limits) st =
        a.limitLoop rule host queue limits (.ok, time) := by
  obtain ⟨ret, start⟩ := st
  rw [RqsReservation.limitLoop]
  cases hrequest : a.limitRequest limit with
  | ignored => exact Or.inl ⟨rfl, rfl⟩
  | notRequested => exact Or.inr (Or.inl ⟨Or.inl hrequest, by simp⟩)
  | request rawCentry amount =>
      right
      cases htime : a.limitTime rule host queue limit rawCentry amount with
      | mk result time =>
          cases result
          case ok => exact Or.inr ⟨time, ⟨rawCentry, amount, hrequest, htime⟩, by simp [htime]⟩
          all_goals
            exact Or.inl ⟨Or.inr ⟨rawCentry, amount, hrequest, by simp [htime]⟩, by simp [htime]⟩

theorem RqsReservation.FoundAt.unique {time' : ℕ} (h : a.FoundAt rule host queue limit time)
    (h' : a.FoundAt rule host queue limit time') : time = time' := by
  obtain ⟨rawCentry, amount, hrequest, htime⟩ := h
  obtain ⟨rawCentry', amount', hrequest', htime'⟩ := h'
  rw [hrequest] at hrequest'
  cases hrequest'
  rw [htime] at htime'
  exact (Prod.mk.inj htime').2

theorem RqsReservation.FoundAt.not_denies (h : a.FoundAt rule host queue limit time) :
    ¬ a.Denies rule host queue limit := by
  intro hdenies
  obtain ⟨rawCentry, amount, hrequest, htime⟩ := h
  rcases hdenies with hdenies | ⟨rawCentry', amount', hrequest', hnot⟩
  · rw [hrequest] at hdenies
    cases hdenies
  · rw [hrequest] at hrequest'
    cases hrequest'
    exact hnot (by rw [htime])

theorem RqsReservation.not_denies_of_ignored (h : a.limitRequest limit = .ignored) :
    ¬ a.Denies rule host queue limit ∧ ∀ t, ¬ a.FoundAt rule host queue limit t := by
  refine ⟨fun hdenies => ?_, fun t hfound => ?_⟩
  · rcases hdenies with hdenies | ⟨rawCentry, amount, hrequest, -⟩
    · rw [h] at hdenies
      cases hdenies
    · rw [h] at hrequest
      cases hrequest
  · obtain ⟨rawCentry, amount, hrequest, -⟩ := hfound
    rw [h] at hrequest
    cases hrequest

/-- The loop succeeds when no limit denies the job, and ends with the time of the last limit that
counts. -/
theorem RqsReservation.limitLoop_eq_ok_iff :
    a.limitLoop rule host queue limits st = (.ok, time) ↔
      (∀ limit ∈ limits, ¬ a.Denies rule host queue limit) ∧
        ((st = (.ok, time) ∧ ∀ limit ∈ limits, ∀ t, ¬ a.FoundAt rule host queue limit t) ∨
          ∃ pre limit suf, limits = pre ++ limit :: suf ∧ a.FoundAt rule host queue limit time ∧
            ∀ later ∈ suf, ∀ t, ¬ a.FoundAt rule host queue later t) := by
  induction limits generalizing st with
  | nil => simp [RqsReservation.limitLoop]
  | cons limit limits ih =>
      simp only [List.forall_mem_cons]
      rcases @RqsReservation.limitLoop_cons a rule host queue limit limits st with
        ⟨hignored, heq⟩ | ⟨hdenies, hnot⟩ | ⟨found, hfound, heq⟩
      · obtain ⟨hnd, hnf⟩ :=
          @RqsReservation.not_denies_of_ignored a rule host queue limit hignored
        rw [heq, ih]
        refine and_congr ⟨fun h => ⟨hnd, h⟩, fun h => h.2⟩ ?_
        constructor
        · intro h
          rcases h with h | ⟨pre, last, suf, rfl, hlast, hsuf⟩
          · exact Or.inl ⟨h.1, hnf, h.2⟩
          · exact Or.inr ⟨limit :: pre, last, suf, rfl, hlast, hsuf⟩
        · intro h
          rcases h with h | ⟨pre, last, suf, hsplit, hlast, hsuf⟩
          · exact Or.inl ⟨h.1, h.2.2⟩
          · cases pre with
            | nil =>
                obtain ⟨rfl, rfl⟩ := List.cons.inj hsplit
                exact absurd hlast (hnf _)
            | cons first pre =>
                obtain ⟨rfl, rfl⟩ := List.cons.inj hsplit
                exact Or.inr ⟨pre, last, suf, rfl, hlast, hsuf⟩
      · constructor
        · intro h
          exact absurd (by rw [h]) hnot
        · intro h
          exact absurd hdenies h.1.1
      · rw [heq, ih]
        refine and_congr ⟨fun h => ⟨hfound.not_denies, h⟩, fun h => h.2⟩ ?_
        constructor
        · intro h
          rcases h with ⟨hst, hnone⟩ | ⟨pre, last, suf, rfl, hlast, hsuf⟩
          · cases hst
            exact Or.inr ⟨[], limit, limits, rfl, hfound, hnone⟩
          · exact Or.inr ⟨limit :: pre, last, suf, rfl, hlast, hsuf⟩
        · intro h
          rcases h with h | ⟨pre, last, suf, hsplit, hlast, hsuf⟩
          · exact absurd hfound (h.2.1 _)
          · cases pre with
            | nil =>
                obtain ⟨rfl, rfl⟩ := List.cons.inj hsplit
                rw [hfound.unique hlast]
                exact Or.inl ⟨rfl, hsuf⟩
            | cons first pre =>
                obtain ⟨rfl, rfl⟩ := List.cons.inj hsplit
                exact Or.inr ⟨pre, last, suf, rfl, hlast, hsuf⟩

theorem RqsReservation.rqsLimitationReached_eq_ok_iff :
    a.rqsLimitationReached rule host queue = (.ok, time) ↔
      (∀ limit ∈ rule.limits, ¬ a.Denies rule host queue limit) ∧
        ∃ pre limit suf, rule.limits = pre ++ limit :: suf ∧
          a.FoundAt rule host queue limit time ∧
          ∀ later ∈ suf, ∀ t, ¬ a.FoundAt rule host queue later t := by
  rw [RqsReservation.rqsLimitationReached, RqsReservation.limitLoop_eq_ok_iff]
  refine and_congr_right fun _ => or_iff_right fun h => ?_
  cases h.1

theorem RqsReservation.startIsLatest_iff :
    a.StartIsLatest rule host queue ↔ a.LastIsLatest rule host queue := by
  constructor
  · intro h hnone pre limit suf time hsplit hfound hsuf earlier hearlier t ht
    have hgreatest := h time
      (RqsReservation.rqsLimitationReached_eq_ok_iff.mpr ⟨hnone, pre, limit, suf, hsplit, hfound, hsuf⟩)
    exact hgreatest.2 ⟨earlier, hsplit ▸ List.mem_append_left _ hearlier, ht⟩
  · intro h start hstart
    obtain ⟨hnone, pre, limit, suf, hsplit, hfound, hsuf⟩ :=
      RqsReservation.rqsLimitationReached_eq_ok_iff.mp hstart
    refine ⟨⟨limit, hsplit ▸ List.mem_append_right _ List.mem_cons_self, hfound⟩, ?_⟩
    intro t ht
    obtain ⟨other, hother, hotherfound⟩ := ht
    rw [hsplit] at hother
    rcases List.mem_append.mp hother with hother | hother
    · exact h hnone pre limit suf start hsplit hfound hsuf other hother t hotherfound
    · rcases List.mem_cons.mp hother with rfl | hother
      · exact (hotherfound.unique hfound).le
      · exact absurd hotherfound (hsuf other hother t)

/-- The times depend on the queue instance by the counter of the rule only. -/
theorem RqsReservation.rqsLimitationReached_congr {host' : HostName} {queue' : String}
    (hrue : rqsGetRueString a.ctx a.job rule.scopes host queue =
      rqsGetRueString a.ctx a.job rule.scopes host' queue')
    (hvalue : ∀ limit ∈ rule.limits,
      limit.value (a.ctx.sgeHostcpy host.name) = limit.value (a.ctx.sgeHostcpy host'.name)) :
    a.rqsLimitationReached rule host queue = a.rqsLimitationReached rule host' queue' := by
  have hloop : ∀ limits st, (∀ limit ∈ limits, limit ∈ rule.limits) →
      a.limitLoop rule host queue limits st = a.limitLoop rule host' queue' limits st := by
    intro limits
    induction limits with
    | nil => exact fun _ _ => rfl
    | cons limit limits ih =>
        intro st hsub
        obtain ⟨hlimit, hlimits⟩ := List.forall_mem_cons.mp hsub
        have htime : ∀ rawCentry amount, a.limitTime rule host queue limit rawCentry amount =
            a.limitTime rule host' queue' limit rawCentry amount := by
          intro rawCentry amount
          rw [RqsReservation.limitTime, RqsReservation.limitTime, hrue, hvalue limit hlimit]
        obtain ⟨ret, start⟩ := st
        rw [RqsReservation.limitLoop, RqsReservation.limitLoop]
        cases a.limitRequest limit with
        | ignored => exact ih _ hlimits
        | notRequested => rfl
        | request rawCentry amount =>
            simp only [htime]
            cases a.limitTime rule host' queue' limit rawCentry amount with
            | mk result time =>
                cases result
                case ok => exact ih _ hlimits
                all_goals rfl
  exact hloop rule.limits _ fun _ h => h

end Lemmas

end GridEngine
