import GridEngine.KeyedLists
import GridEngine.RqsReservation
import GridEngine.ResourceRebuild

/-!
# The resource schedule

The scheduler looks for the time at which an object has the consumables that a job needs, and books
them for the job. The bookings of one scheduling run are kept in the diagrams of the object, so that
later jobs are planned around the earlier ones. No diagram exceeds the capacity.
-/

namespace GridEngine
open StepFunction

section Model
variable (cluster : ClusterConfig)

/-- A configured value of the global host, a host or a queue instance, with its entry of the complex
and its `RUE_Type` element. -/
structure ScheduledResource where
  name : String
  centry : Centry
  centry_eq : cluster.centryList.find? (fun ce => ce.name = name) = some centry
  total : ℚ
  usage : RueNow

/-- The assignment that is looked for, in schedule based mode: at the present time, or for a
reservation. `loadAttribute` tells whether `get_attribute` finds what is not configured, and
`matchStatic` what `match_static_resource` returns. -/
structure ScheduleAssignment where
  job : DebitedJob
  slots : ℕ
  now : ℕ
  duration : ℕ
  isReservation : Bool
  isQueue : Bool
  isMasterTask : Bool
  loadAttribute : String → Bool
  matchStatic : String → Bool
  isTagged : String → Bool

/-- The requests that are checked: the implicit one for slots, the default ones and those of the job. -/
inductive RequestKind
  | slots | default | explicit
deriving DecidableEq

structure CheckedRequest where
  kind : RequestKind
  name : String
  stringval : Option String

namespace ScheduleAssignment
variable (a : ScheduleAssignment) (resources : List (ScheduledResource cluster))

variable {cluster} in
/-- The part of `ri_time_by_slots` behind the request of a consumable. -/
def consumableTime (el : ScheduledResource cluster) (request : ℚ) : DispatchT × ℕ :=
  let amount := request * a.slots
  if a.isReservation then
    let threshold := el.total - amount
    if threshold < 0 then (.neverCat, a.now)
    else
      let when := utilizationBelow el.usage.toRue threshold (request ≠ 0)
      (.ok, if when = 0 then a.now else when)
  else if el.centry.relop = .excl then
    if utilizationMax el.usage dispatchTimeNow a.duration (request ≠ 0) = some 0 ∧
        utilizationMax el.usage a.now a.duration (request ≠ 0) = some 0 then (.ok, a.now)
    else (.notAtTime, a.now)
  else if (utilizationMax el.usage a.now a.duration false).any fun util =>
    amount ≤ el.total - util then (.ok, a.now)
  else if el.total < amount ∨ (utilizationQueueEnd el.usage false).any fun util =>
    el.total - util < amount then (.neverCat, a.now)
  else (.notAtTime, a.now)

/-- `ri_time_by_slots` -/
def riTimeBySlots (name : String) (stringval : Option String) : DispatchT × ℕ :=
  match resources.find? fun el => el.name = name with
  | none =>
      if !a.loadAttribute name then (.missingAttr, a.now)
      else if !a.matchStatic name then (.neverCat, a.now)
      else if (cluster.centryList.find? fun ce => ce.name = name).any fun ce =>
        ce.consumable ≠ .no then (.missingAttr, a.now)
      else (.ok, a.now)
  | some el =>
      if !a.matchStatic name then (.neverCat, a.now)
      else if el.centry.consumable = .no then (.ok, a.now)
      else
        match cluster.parseUlongVal stringval with
        | none => (.neverCat, a.now)
        | some request => a.consumableTime el request

/-- `is_requested`. The requests of a job have no shortcuts. -/
def isRequested (attr : String) : Bool := a.job.hardResourceList.any fun r => r.name = attr

/-- The default requests that `rc_time_by_slots` checks. Only consumables have a `RUE_Type` element,
and their default values are numbers. -/
def defaultRequests : List CheckedRequest :=
  let counts (el : ScheduledResource cluster) : Bool :=
    el.centry.consumable ≠ .no && el.name ≠ "slots" && !a.isRequested el.name &&
      (el.centry.relop = .excl || (cluster.parseUlongVal el.centry.default).getD 0 ≠ 0)
  (resources.filter counts).map fun el => ⟨.default, el.name, el.centry.default⟩

/-- What a missing attribute means: the end of the checks, or `is_not_found`. -/
def missingRequest (request : CheckedRequest) : Except DispatchT Bool :=
  match request.kind with
  | .slots => if a.isQueue then .error .missingAttr else .ok false
  | .default => .error .missingAttr
  | .explicit =>
      if a.isQueue then if a.isTagged request.name then .ok false else .error .neverCat
      else .ok true

/-- The checks in `rc_time_by_slots`, with its variables `latest_time` and `is_not_found`. -/
def checkRequests : List CheckedRequest → ℕ → Bool → DispatchT × ℕ
  | [], latest, notFound => (if notFound then .missingAttr else .ok, latest)
  | request :: rest, latest, notFound =>
      match a.riTimeBySlots cluster resources request.name request.stringval with
      | (.ok, time) => checkRequests rest (max latest time) notFound
      | (.missingAttr, time) =>
          match a.missingRequest request with
          | .ok found => checkRequests rest latest (notFound || found)
          | .error ret => (ret, time)
      | failed => failed

/-- `rc_time_by_slots`. The time counts for a reservation only. -/
def rcTimeBySlots : DispatchT × ℕ :=
  a.checkRequests cluster resources (⟨.slots, "slots", some "1"⟩ ::
    (a.defaultRequests cluster resources ++
      a.job.hardResourceList.map fun r => ⟨.explicit, r.name, r.stringval⟩)) 0 false

/-- What `rc_add_job_utilization` books of one consumable. -/
def addUtilization (maxReservations start : ℕ) (el : ScheduledResource cluster) :
    ScheduledResource cluster :=
  match debitSlots el.centry.consumable a.slots a.isMasterTask with
  | none => el
  | some slots =>
      let dval := (jobGetContribution cluster a.job el.name el.centry).getD 0
      if dval ≠ 0 then
        { el with usage.toRue :=
            utilizationAdd maxReservations el.usage.toRue start a.duration (slots * dval) true false }
      else if el.centry.relop = .excl then
        { el with usage.toRue :=
            utilizationAdd maxReservations el.usage.toRue start a.duration slots true true }
      else el

/-- `rc_add_job_utilization` -/
def rcAddJobUtilization (maxReservations start : ℕ) : List (ScheduledResource cluster) :=
  resources.map (a.addUtilization cluster maxReservations start)

/-- What is checked of a job when it is submitted, and of its assignment. -/
structure Submitted : Prop where
  values : ∀ r ∈ a.job.hardResourceList, r.stringval ≠ none
  soft : ∀ r ∈ a.job.softResourceList, ∀ ce,
    cluster.centryList.find? (fun ce => ce.name = r.name) = some ce → ce.consumable = .no
  slotsDefault : ∀ ce, cluster.centryList.find? (fun ce => ce.name = "slots") = some ce →
    cluster.parseUlongVal ce.default = cluster.parseUlongVal (some "1")
  slots_pos : 0 < a.slots
  duration_pos : 0 < a.duration
  now : a.now ≠ dispatchTimeNow ∧ a.now < uLong32Max

/-- The results with which the object is taken. -/
def Accepts (ret : DispatchT) : Prop :=
  ret = .ok ∨ ret = .missingAttr ∧ a.isQueue = false

/-- The start time of an assignment: a reservation may be delayed further by other objects. -/
def Starts (time start : ℕ) : Prop :=
  if a.isReservation then time ≤ start else start = a.now

end ScheduleAssignment

/-- A job is started or gets a reservation. -/
inductive ScheduleStep (maxReservations : ℕ) :
    List (ScheduledResource cluster) → ScheduleAssignment → List (ScheduledResource cluster) → Prop
  | booked {resources a ret time start} : a.Submitted cluster →
      a.rcTimeBySlots cluster resources = (ret, time) → a.Accepts ret → a.Starts time start →
      start < uLong32Max → ScheduleStep maxReservations resources a
        (a.rcAddJobUtilization cluster resources maxReservations start)

end Model

section Booking
variable {cluster : ClusterConfig} {a : ScheduleAssignment}
  {resources : List (ScheduledResource cluster)} {el : ScheduledResource cluster}
  {maxReservations start time : ℕ} {request amount : ℚ} {ret : DispatchT}

/-- The diagram of a consumable never exceeds its capacity. -/
def ScheduledResource.Kept (el : ScheduledResource cluster) : Prop :=
  ∃ f, Represents (el.usage.utilized.getD []) f ∧ (∀ t, uLong32Max ≤ t → f t = 0) ∧
    ∀ t, f t ≤ max el.total 0

/-- An amount fits under the capacity at every time of a window. -/
def ScheduledResource.Fits (el : ScheduledResource cluster) (amount : ℚ) (start duration : ℕ) :
    Prop :=
  ∀ t, start ≤ t → t < min (start + duration) uLong32Max →
    eval 0 (el.usage.utilized.getD []) t + amount ≤ max el.total 0

/-- What fits may be booked. -/
theorem ScheduledResource.Kept.book (h : el.Kept) (hfits : el.Fits amount start a.duration)
    (hduration : 0 < a.duration) (hstart : start < uLong32Max) (hmax : maxReservations ≠ 0) :
    Kept { el with usage.toRue :=
      utilizationAdd maxReservations el.usage.toRue start a.duration amount true false } := by
  obtain ⟨f, hrep, hends, hle⟩ := h
  let c : Booking := ⟨start, a.duration, amount, true⟩
  refine ⟨fun t => f t + c.amountAt t, @Represents.addBooking maxReservations false el.usage.toRue c
    f ⟨hduration, hstart, .inl hmax⟩ hrep, fun t ht => ?_, fun t => ?_⟩
  · dsimp only
    rw [hends t ht, Booking.amountAt, if_neg (by omega), add_zero]
  · dsimp only
    rw [Booking.amountAt]
    split_ifs with hwindow
    · rw [← hrep.eval_eq]
      exact hfits t hwindow.1 hwindow.2
    · rw [add_zero]
      exact hle t

/-- A request that does not keep the job from the object until a time. -/
def Passed (result : DispatchT × ℕ) (time : ℕ) : Prop :=
  result.1 ≠ .neverCat ∧ result.1 ≠ .notAtTime ∧ (result.1 = .ok → result.2 ≤ time)

theorem consumableTime_fits (h : el.Kept) (hexcl : el.centry.relop ≠ .excl)
    (hnow : a.now ≠ dispatchTimeNow ∧ a.now < uLong32Max) (hstarts : a.Starts time start)
    (hpassed : Passed (a.consumableTime el request) time) :
    el.Fits (request * a.slots) start a.duration := by
  obtain ⟨f, hrep, hends, -⟩ := h
  have hsorted := hrep.sorted
  obtain ⟨hnever, hlater, hle⟩ := hpassed
  intro t ht hend
  apply le_trans _ (le_max_left el.total 0)
  rw [ScheduleAssignment.Starts] at hstarts
  simp only [ScheduleAssignment.consumableTime] at hnever hlater hle
  cases hres : a.isReservation with
  | true =>
      simp only [hres, if_true] at hnever hle hstarts
      by_cases hneg : el.total - request * a.slots < 0
      · simp [hneg] at hnever
      · simp only [if_neg hneg, forall_true_left] at hle
        have hnonneg := not_lt.mp hneg
        have hlast : lastAmount 0 (el.usage.utilized.getD []) = 0 :=
          Windowed.lastAmount_eq ⟨hsorted, fun t ht => (hrep.eval_eq t).trans (hends t ht)⟩
        have hleast := belowFrom_isLeast hsorted (hlast.trans_le hnonneg) hnonneg
        -- the time that was found is not before the one for this diagram
        have hbelow : belowFrom (el.total - request * a.slots)
            (el.usage.utilized.getD []).reverse ≤ utilizationBelow el.usage.toRue
              (el.total - request * a.slots) (request ≠ 0) := by
          rw [utilizationBelow]
          split_ifs
          · exact le_max_left _ _
          · exact le_rfl
        have hfound : utilizationBelow el.usage.toRue (el.total - request * a.slots)
            (request ≠ 0) ≤ t := by
          split_ifs at hle with hzero
          · rw [hzero]
            exact Nat.zero_le t
          · exact (hle.trans hstarts).trans ht
        have hkept := hleast.1 t (hbelow.trans hfound)
        linarith
  | false =>
      simp only [hres, Bool.false_eq_true, if_false, if_neg hexcl] at hnever hlater hstarts
      have hmax : utilizationMax el.usage a.now a.duration false =
          some (diagramMax a.now (utilizationEndtime a.now a.duration)
            (el.usage.utilized.getD [])) := by
        rw [utilizationMax]
        simp only [if_neg hnow.1, if_neg hnow.2.ne, Bool.false_eq_true, if_false]
      rw [hmax, Option.any_some] at hnever hlater
      have hgreatest := @diagramMax_isGreatest _ a.now (utilizationEndtime a.now a.duration) hsorted
      by_cases hfit : request * a.slots ≤ el.total - diagramMax a.now
          (utilizationEndtime a.now a.duration) (el.usage.utilized.getD [])
      · have hmem := hgreatest.2 (.inr (.inr ⟨t, hstarts ▸ ht,
          by rwa [utilizationEndtime_eq, ← hstarts], rfl⟩))
        rw [amountAt_eq_eval hsorted] at hmem
        linarith
      · simp only [hfit, decide_false, Bool.false_eq_true, if_false] at hnever hlater
        split_ifs at hnever hlater <;> contradiction

section Requests

theorem consumableTime_ne_missing : (a.consumableTime el request).1 ≠ .missingAttr := by
  simp only [ScheduleAssignment.consumableTime]
  split_ifs <;> simp

/-- What is configured is not missing. -/
theorem riTimeBySlots_ne_missing (hmem : el ∈ resources) (value : Option String) :
    (a.riTimeBySlots cluster resources el.name value).1 ≠ .missingAttr := by
  obtain ⟨el', hfind⟩ := Option.isSome_iff_exists.mp
    (List.find?_isSome (p := fun el' => el'.name = el.name)|>.mpr ⟨el, hmem, by simp⟩)
  rw [ScheduleAssignment.riTimeBySlots, hfind]
  dsimp only
  split_ifs
  · simp
  · simp
  · split
    · simp
    · exact consumableTime_ne_missing

theorem checkRequests_passed {requests : List CheckedRequest} {latest : ℕ} {notFound : Bool}
    (hdefault : ∀ r ∈ requests, r.kind = .default →
      (a.riTimeBySlots cluster resources r.name r.stringval).1 ≠ .missingAttr)
    (h : a.checkRequests cluster resources requests latest notFound = (ret, time))
    (hret : a.Accepts ret) : latest ≤ time ∧ ∀ r ∈ requests,
      Passed (a.riTimeBySlots cluster resources r.name r.stringval) time := by
  induction requests generalizing latest notFound with
  | nil =>
      cases h
      exact ⟨le_rfl, by simp⟩
  | cons r rest ih =>
      obtain ⟨hfound, hdefault⟩ := List.forall_mem_cons.mp hdefault
      rw [ScheduleAssignment.checkRequests] at h
      rw [List.forall_mem_cons]
      generalize a.riTimeBySlots cluster resources r.name r.stringval = result at *
      obtain ⟨result, t⟩ := result
      cases result with
      | ok =>
          obtain ⟨hle, hrest⟩ := ih hdefault h
          exact ⟨(le_max_left _ _).trans hle,
            ⟨by simp, by simp, fun _ => (le_max_right _ _).trans hle⟩, hrest⟩
      | missingAttr =>
          dsimp only at h
          cases hmissing : a.missingRequest r with
          | ok found =>
              rw [hmissing] at h
              obtain ⟨hle, hrest⟩ := ih hdefault h
              exact ⟨hle, ⟨by simp, by simp, by simp⟩, hrest⟩
          | error ret' =>
              rw [hmissing] at h
              cases h
              -- only a request for slots at a queue ends the checks so
              rw [ScheduleAssignment.missingRequest] at hmissing
              cases hkind : r.kind <;> simp only [hkind] at hmissing hfound
              · split_ifs at hmissing with hqueue
                cases hmissing
                simp [ScheduleAssignment.Accepts, hqueue] at hret
              · exact absurd rfl (hfound trivial)
              · split_ifs at hmissing
                cases hmissing
                simp [ScheduleAssignment.Accepts] at hret
      | _ =>
          cases h
          simp [ScheduleAssignment.Accepts] at hret

/-- What a job is debited was requested, and the request did not keep it from the object. -/
theorem rcTimeBySlots_passed {d : ℚ} (ha : a.Submitted cluster)
    (h : a.rcTimeBySlots cluster resources = (ret, time)) (hret : a.Accepts ret)
    (hmem : el ∈ resources) (hconsumable : el.centry.consumable ≠ .no)
    (hd : jobGetContribution cluster a.job el.name el.centry = some d) (hne : d ≠ 0) :
    ∃ value, cluster.parseUlongVal value = some d ∧
      Passed (a.riTimeBySlots cluster resources el.name value) time := by
  have hpassed := (checkRequests_passed (fun r hr hkind => ?_) h hret).2
  · simp only [List.forall_mem_cons, List.forall_mem_append, List.forall_mem_map] at hpassed
    obtain ⟨hslots, hdefault, hexplicit⟩ := hpassed
    rw [jobGetContribution, jobGetRequest] at hd
    cases hfind : a.job.hardResourceList.find? fun ce => ce.name = el.name with
    | some r =>
        have hr := List.mem_of_find?_eq_some hfind
        obtain ⟨value, hvalue⟩ := Option.ne_none_iff_exists'.mp (ha.values r hr)
        have hname : r.name = el.name := by simpa using List.find?_some hfind
        rw [hfind, Option.some_or, Option.bind_some, hvalue, Option.some_or] at hd
        exact ⟨some value, hd, hname ▸ hvalue ▸ hexplicit r hr⟩
    | none =>
        have hsoft : (a.job.softResourceList.find? fun ce => ce.name = el.name) = none := by
          apply List.find?_eq_none.mpr
          intro r hr heq
          rw [decide_eq_true_eq] at heq
          exact hconsumable (ha.soft r hr el.centry (heq ▸ el.centry_eq))
        rw [hfind, hsoft, Option.or_none, Option.bind_none, Option.none_or] at hd
        by_cases hname : el.name = "slots"
        · refine ⟨some "1", ?_, hname ▸ hslots⟩
          rw [← ha.slotsDefault el.centry (hname ▸ el.centry_eq), hd]
        · have hrequested : a.isRequested el.name = false := by
            rw [ScheduleAssignment.isRequested, List.any_eq_false]
            simpa using List.find?_eq_none.mp hfind
          refine ⟨el.centry.default, hd, hdefault _ (List.mem_map_of_mem (List.mem_filter.mpr
            ⟨hmem, ?_⟩))⟩
          simp [hconsumable, hname, hrequested, hd, hne]
  · rcases List.mem_cons.mp hr with rfl | hr
    · cases hkind
    rcases List.mem_append.mp hr with hr | hr
    · obtain ⟨el, hel, rfl⟩ := List.mem_map.mp hr
      exact riTimeBySlots_ne_missing (List.mem_of_mem_filter hel) _
    · obtain ⟨r', -, rfl⟩ := List.mem_map.mp hr
      cases hkind

end Requests

theorem addUtilization_same : (a.addUtilization cluster maxReservations start el).name = el.name ∧
    (a.addUtilization cluster maxReservations start el).centry = el.centry ∧
      (a.addUtilization cluster maxReservations start el).total = el.total := by
  rw [ScheduleAssignment.addUtilization]
  split
  · exact ⟨rfl, rfl, rfl⟩
  · dsimp only
    split_ifs <;> exact ⟨rfl, rfl, rfl⟩

/-- The booked amount is one slot's or that of all slots. -/
theorem debitSlots_booked {consumable : Consumable} {n : ℕ} {isMasterTask : Bool} {slots : ℤ}
    (hn : 0 < n) (hno : consumable ≠ .no) (h : debitSlots consumable n isMasterTask = some slots)
    (d : ℚ) : slots * d ≤ d * n ∨ slots * d ≤ 0 := by
  have hone : (1 : ℚ) ≤ n := by exact_mod_cast hn
  cases consumable with
  | no => exact absurd rfl hno
  | yes =>
      cases h
      left
      rw [Int.cast_natCast, mul_comm]
  | job =>
      have hpos : (n : ℤ) > 0 := Int.natCast_pos.mpr hn
      rw [debitSlots, if_pos hpos] at h
      split_ifs at h
      cases h
      rw [Int.cast_one, one_mul]
      rcases le_total d 0 with hneg | hpos
      · exact .inr hneg
      · exact .inl (le_mul_of_one_le_right hpos hone)

/-- A consumable of an object that was accepted keeps to its capacity. -/
theorem ScheduledResource.Kept.add (hel : el.Kept) (hmax : maxReservations ≠ 0)
    (hnames : (resources.map ScheduledResource.name).Nodup) (ha : a.Submitted cluster)
    (h : a.rcTimeBySlots cluster resources = (ret, time)) (hret : a.Accepts ret)
    (hstarts : a.Starts time start) (hstart : start < uLong32Max) (hmem : el ∈ resources)
    (hexcl : el.centry.relop ≠ .excl) : (a.addUtilization cluster maxReservations start el).Kept := by
  rw [ScheduleAssignment.addUtilization]
  cases hslots : debitSlots el.centry.consumable a.slots a.isMasterTask with
  | none => exact hel
  | some slots =>
      dsimp only
      by_cases hd : (jobGetContribution cluster a.job el.name el.centry).getD 0 = 0
      · rwa [if_neg (not_not.mpr hd), if_neg hexcl]
      rw [if_pos hd]
      obtain ⟨d, hd'⟩ : ∃ d, jobGetContribution cluster a.job el.name el.centry = some d := by
        by_contra hnone
        rw [Option.eq_none_iff_forall_ne_some.mpr fun d hd' => hnone ⟨d, hd'⟩] at hd
        exact hd rfl
      rw [hd', Option.getD_some] at hd ⊢
      have hconsumable : el.centry.consumable ≠ .no := by
        rintro hno
        rw [hno] at hslots
        cases hslots
      obtain ⟨value, hvalue, hpassed⟩ :=
        rcTimeBySlots_passed ha h hret hmem hconsumable hd' hd
      have hfits : el.Fits (d * a.slots) start a.duration := by
        rw [ScheduleAssignment.riTimeBySlots, (KeyedLists.find?_key_iff hnames).mpr ⟨hmem, rfl⟩]
          at hpassed
        dsimp only at hpassed
        rw [hvalue, if_neg hconsumable] at hpassed
        split_ifs at hpassed
        · exact absurd rfl hpassed.1
        · exact consumableTime_fits hel hexcl ha.now hstarts hpassed
      refine hel.book (fun t ht hend => ?_) ha.duration_pos hstart hmax
      have hfit := hfits t ht hend
      obtain ⟨f, hrep, -, hle⟩ := hel
      have hbefore := hle t
      rw [← hrep.eval_eq] at hbefore
      have hbooked := debitSlots_booked ha.slots_pos hconsumable hslots d
      rcases hbooked with hbooked | hbooked <;> linarith

/-- The slots of a queue instance, and a reservation of one of them. -/
def freeSlots : ScheduledResource oneQueueCluster :=
  ⟨"slots", ⟨"slots", "s", .yes, .le, some "1"⟩, rfl, 4, ⟨⟨none, none⟩, 0, 0⟩⟩

def oneSlot : ScheduleAssignment where
  job := ⟨"user1", none, none, 0, [], []⟩
  slots := 1
  now := 100
  duration := 60
  isReservation := true
  isQueue := true
  isMasterTask := true
  loadAttribute _ := false
  matchStatic _ := true
  isTagged _ := false

end Booking

end GridEngine
