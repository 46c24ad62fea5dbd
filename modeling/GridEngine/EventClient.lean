import GridEngine.Words

/-!
# Event clients at the event master

An event client has a list of events that wait for acknowledgement, the number of its next
event and a subscription for every event type. While a total update is pending for the client,
the events that describe changes of a subscribed list are blocked until the list itself is
added. Event payloads are of an arbitrary type.
-/

namespace GridEngine

/-- The event types `sgeE_*`. -/
inductive EvEvent
  | allEvents | adminhostList | adminhostAdd | adminhostDel | adminhostMod | calendarList
  | calendarAdd | calendarDel | calendarMod | ckptList | ckptAdd | ckptDel | ckptMod
  | centryList | centryAdd | centryDel | centryMod | configList | configAdd | configDel
  | configMod | exechostList | exechostAdd | exechostDel | exechostMod | globalConfig
  | jataskAdd | jataskDel | jataskMod | petaskAdd | petaskDel | jobList | jobAdd | jobDel
  | jobMod | jobModSchedPriority | jobUsage | jobFinalUsage | jobFinish | jobScheddInfoList
  | jobScheddInfoAdd | jobScheddInfoDel | jobScheddInfoMod | managerList | managerAdd
  | managerDel | managerMod | operatorList | operatorAdd | operatorDel | operatorMod
  | newSharetree | peList | peAdd | peDel | peMod | projectList | projectAdd | projectDel
  | projectMod | qmasterGoesDown | cqueueList | cqueueAdd | cqueueDel | cqueueMod
  | qinstanceAdd | qinstanceDel | qinstanceMod | qinstanceSos | qinstanceUsos | schedConf
  | scheddmonitor | shutdown | submithostList | submithostAdd | submithostDel
  | submithostMod | userList | userAdd | userDel | userMod | usersetList | usersetAdd
  | usersetDel | usersetMod | cuserList | cuserAdd | cuserDel | cuserMod | hgroupList
  | hgroupAdd | hgroupDel | hgroupMod | rqsList | rqsAdd | rqsDel | rqsMod | arList | arAdd
  | arDel | arMod | ackTimeout
deriving DecidableEq, Repr

/-- `total_update_events`, each with its row of `block_events`. -/
def totalUpdateEvents : List (EvEvent × List EvEvent) :=
  [(.adminhostList, [.adminhostAdd, .adminhostDel, .adminhostMod]),
   (.calendarList, [.calendarAdd, .calendarDel, .calendarMod]),
   (.ckptList, [.ckptAdd, .ckptDel, .ckptMod]),
   (.centryList, [.centryAdd, .centryDel, .centryMod]),
   (.configList, [.configAdd, .configDel, .configMod]),
   (.exechostList, [.exechostAdd, .exechostDel, .exechostMod]),
   (.jobList, [.jobAdd, .jobDel, .jobMod, .jobModSchedPriority, .jobUsage, .jobFinalUsage,
      .jobFinish]),
   (.jobScheddInfoList, [.jobScheddInfoAdd, .jobScheddInfoDel, .jobScheddInfoMod]),
   (.managerList, [.managerAdd, .managerDel, .managerMod]),
   (.operatorList, [.operatorAdd, .operatorDel, .operatorMod]),
   (.peList, [.peAdd, .peDel, .peMod]),
   (.cqueueList, [.cqueueAdd, .cqueueDel, .cqueueMod, .qinstanceAdd, .qinstanceDel,
      .qinstanceMod, .qinstanceSos, .qinstanceUsos]),
   (.schedConf, []),
   (.submithostList, [.submithostAdd, .submithostDel, .submithostMod]),
   (.usersetList, [.usersetAdd, .usersetDel, .usersetMod]),
   (.newSharetree, []),
   (.projectList, [.projectAdd, .projectDel, .projectMod]),
   (.userList, [.userAdd, .userDel, .userMod]),
   (.hgroupList, [.hgroupAdd, .hgroupDel, .hgroupMod]),
   (.rqsList, [.rqsAdd, .rqsDel, .rqsMod]),
   (.arList, [.arAdd, .arDel, .arMod]),
   (.cuserList, [.cuserAdd, .cuserDel, .cuserMod])]

/-- The event types that `init_send_events` marks: they are sent even without content. -/
def sendEvents : List EvEvent :=
  [.adminhostList, .calendarList, .ckptList, .centryList, .configList, .exechostList, .jobList,
    .jobScheddInfoList, .managerList, .operatorList, .peList, .projectList, .qmasterGoesDown,
    .ackTimeout, .cqueueList, .submithostList, .userList, .usersetList, .hgroupList, .rqsList,
    .arList, .cuserList]

/-- The row of `block_events` that belongs to an event type. -/
def blockRow (type : EvEvent) : List EvEvent :=
  ((totalUpdateEvents.find? (fun row => row.1 == type)).map Prod.snd).getD []

/-- `ev_state_handling`. -/
inductive EvState
  | subscribing | connected | closing | terminated
deriving DecidableEq, Repr

/-- An `ET_Type` element; `newVersion` is `ET_new_version`, which may be `NULL`. -/
structure Event (P : Type*) where
  number : ℕ
  type : EvEvent
  newVersion : Option P
deriving DecidableEq, Repr

/-- A `subscription_t`. The filter reduces a payload, and gives `none` when nothing is left. -/
structure Subscription (P : Type*) where
  subscribed : Bool
  blocked : Bool
  filter : Option (P → Option P)

/-- The part of an `EV_Type` element that decides which events the client gets. -/
structure EventClient (P : Type*) where
  state : EvState
  nextNumber : ℕ
  events : List (Event P)
  subArray : EvEvent → Subscription P
  session : Option String

namespace EventClient
variable {P : Type*}

def setBlocked (ec : EventClient P) (types : List EvEvent) (isBlock : Bool) : EventClient P :=
  { ec with subArray := fun type =>
      if type ∈ types then { ec.subArray type with blocked := isBlock } else ec.subArray type }

/-- `blockEvents`: all rows of subscribed lists, or the row of one list. -/
def blockEvents (ec : EventClient P) (type : EvEvent) (isBlock : Bool) : EventClient P :=
  if type = .allEvents then
    totalUpdateEvents.foldl (fun ec row =>
      if (ec.subArray row.1).subscribed then ec.setBlocked row.2 isBlock else ec) ec
  else ec.setBlocked (blockRow type) isBlock

/-- `IS_TOTAL_UPDATE_EVENT`, which is not the table of the total update. -/
def isTotalUpdateEvent (type : EvEvent) : Bool :=
  type ∈ [EvEvent.adminhostList, .calendarList, .ckptList, .centryList, .configList,
    .exechostList, .jobList, .jobScheddInfoList, .managerList, .operatorList, .peList,
    .projectList, .cqueueList, .submithostList, .userList, .usersetList, .hgroupList, .shutdown,
    .qmasterGoesDown, .ackTimeout]

/-- `eventclient_subscribed`. -/
def eventclientSubscribed (ec : EventClient P) (type : EvEvent) (session : Option String) : Bool :=
  let sessionOk := match ec.session, session with
    | some ecSession, some session => session == ecSession
    | some _, none => isTotalUpdateEvent type
    | none, _ => true
  sessionOk && (ec.subArray type).subscribed && !(ec.subArray type).blocked

/-- The payload that is left by the filter of the client; `none` skips the event. -/
def selectPayload (ec : EventClient P) (event : Event P) : Option (Option P) :=
  match event.newVersion, (ec.subArray event.type).filter with
  | some lp, some fields =>
      match fields lp with
      | some clp => some (some clp)
      | none => if event.type ∈ sendEvents then some none else none
  | newVersion, _ => some newVersion

/-- Numbers an event and chains it in. After `sgeE_SHUTDOWN` the client gets no more events. -/
def appendEvent (ec : EventClient P) (type : EvEvent) (newVersion : Option P) : EventClient P :=
  { ec with
    nextNumber := wadd ec.nextNumber 1
    events := ec.events ++ [⟨ec.nextNumber, type, newVersion⟩]
    state := if type = .shutdown then .closing else ec.state }

/-- `add_list_event_direct`. -/
def addListEventDirect (ec : EventClient P) (event : Event P) : EventClient P :=
  if ec.state ≠ .connected then ec
  else
    let ec := ec.blockEvents event.type false
    match ec.selectPayload event with
    | none => ec
    | some newVersion => ec.appendEvent event.type newVersion

/-- Blocking changes nothing but the `blocked` flags. -/
theorem blockEvents_frame (ec : EventClient P) (type : EvEvent) (isBlock : Bool) :
    ∃ types, ec.blockEvents type isBlock = ec.setBlocked types isBlock := by
  unfold blockEvents
  split_ifs with hall
  · have hfold : ∀ (rows : List (EvEvent × List EvEvent)) (types : List EvEvent),
        ∃ types', rows.foldl (fun ec row => if (ec.subArray row.1).subscribed
          then ec.setBlocked row.2 isBlock else ec) (ec.setBlocked types isBlock) =
          ec.setBlocked types' isBlock := by
      intro rows
      induction rows with
      | nil => exact fun types => ⟨types, rfl⟩
      | cons row rows ih =>
          intro types
          rw [List.foldl_cons]
          split_ifs
          · have hset : (ec.setBlocked types isBlock).setBlocked row.2 isBlock =
                ec.setBlocked (types ++ row.2) isBlock := by
              simp only [setBlocked, mk.injEq, true_and, and_true]
              funext type
              by_cases h : type ∈ row.2 <;> by_cases h' : type ∈ types <;> simp [h, h']
            rw [hset]
            exact ih _
          · exact ih _
    have hnil : ec.setBlocked [] isBlock = ec := by simp [setBlocked]
    obtain ⟨types, htypes⟩ := hfold totalUpdateEvents []
    exact ⟨types, by rw [← htypes, hnil]⟩
  · exact ⟨_, rfl⟩

theorem addListEventDirect_cases (ec : EventClient P) (event : Event P) :
    ((ec.addListEventDirect event).events = ec.events ∧
      (ec.addListEventDirect event).nextNumber = ec.nextNumber) ∨
    ∃ newVersion, (ec.addListEventDirect event).events =
        ec.events ++ [⟨ec.nextNumber, event.type, newVersion⟩] ∧
      (ec.addListEventDirect event).nextNumber = wadd ec.nextNumber 1 := by
  obtain ⟨types, hblock⟩ := ec.blockEvents_frame event.type false
  by_cases hstate : ec.state ≠ .connected
  · rw [addListEventDirect, if_pos hstate]
    exact Or.inl ⟨rfl, rfl⟩
  · rw [addListEventDirect, if_neg hstate, hblock]
    cases hsel : (ec.setBlocked types false).selectPayload event with
    | none =>
        simp only [hsel]
        exact Or.inl ⟨rfl, rfl⟩
    | some newVersion =>
        simp only [hsel]
        exact Or.inr ⟨newVersion, rfl, rfl⟩

end EventClient

/-- `purge_event_list`. -/
def purgeEventList {P : Type*} (events : List (Event P)) (eventNumber : ℕ) : List (Event P) :=
  if eventNumber = 0 then events
  else events.dropWhile (fun ev => decide (ev.number ≤ eventNumber))

end GridEngine
