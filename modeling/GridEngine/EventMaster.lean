import GridEngine.EventClient

/-!
# The request queue of the event master

Threads that change a master list add the event that describes the change to the request queue,
or to the transaction of the thread. The event master takes the queue and processes its requests
in order. `sge_add_event_client` holds the mutex of the event master while it copies all
subscribed lists into a transaction of its thread; the master lists are not locked meanwhile.

The fields under "history" are not part of the source: they record what happened, and no step
reads them.
-/

namespace GridEngine

/-- An `EVR_Type` element. `call` numbers the calls of `add_list_event_for_client`. -/
inductive Request (P : Type*)
  | addEvent (clientId : ℕ) (session : Option String) (event : Event P) (call : ℕ)
  | ackEvent (clientId number : ℕ)

/-- `event_master_transaction_t`. -/
structure Transaction (P : Type*) where
  isTransaction : Bool
  transactionRequests : List (Request P)

/-- A thread inside of `total_update`, with the lists it did not visit yet. -/
structure Registration where
  thread : ℕ
  clientId : ℕ
  lists : List EvEvent

/-- `Event_Master_Control` with the master lists and the transactions of all threads. The requests
in `taken` are those that `sge_event_master_process_requests` works on. -/
structure EventMaster (P : Type*) where
  lists : EvEvent → Option P
  clients : ℕ → Option (EventClient P)
  taken : List (Request P)
  requests : List (Request P)
  transactions : ℕ → Transaction P
  /-- The thread that registers a client holds the mutex. -/
  registration : Option Registration
  /-- history: the number of calls of `add_list_event_for_client` -/
  calls : ℕ
  /-- history: the requests that have been processed -/
  processed : List (Request P)
  /-- history: the events appended to `EV_events` since the registration of the client -/
  appended : ℕ → List (Event P)
  /-- history: the lists copied for the client, each with the number of calls before the copy -/
  snapshots : ℕ → EvEvent → Option (ℕ × Option P)

inductive EventMasterOp (P : Type*)
  | changeList (type : EvEvent) (list : Option P)
  | setCommitRequired (thread : ℕ)
  | addEvent (thread clientId : ℕ) (type : EvEvent) (session : Option String) (list : Option P)
  | commit (thread : ℕ)
  | handleEventAck (clientId number : ℕ)
  | addEventClient (thread clientId : ℕ) (clio : EventClient P)
  | totalUpdateEvent
  | endTotalUpdate
  | removeEventClient (clientId : ℕ)
  | takeRequests
  | processRequest

/-- The events that describe the change of an object. The list events with a row in
`block_events` come from `total_update` only. -/
def isChangeEvent (type : EvEvent) : Bool :=
  type ≠ .allEvents && type ≠ .shutdown && (blockRow type).isEmpty

/-- The client element that `sge_add_event_client` chains in, with its events blocked. -/
def EventClient.added {P : Type*} (clio : EventClient P) : EventClient P :=
  EventClient.blockEvents
    { clio with
      nextNumber := 1
      state := .connected
      subArray := fun type => { clio.subArray type with blocked := false } }
    .allEvents true

namespace EventMaster
variable {P : Type*}

/-- All requests that entered the request queue, in queue order. -/
def queued (m : EventMaster P) : List (Request P) := m.processed ++ (m.taken ++ m.requests)

/-- The thread is not inside of `sge_add_event_client`. -/
def isFree (m : EventMaster P) (thread : ℕ) : Bool :=
  m.registration.map Registration.thread ≠ some thread

def setTransaction (m : EventMaster P) (thread : ℕ) (store : Transaction P) : EventMaster P :=
  { m with transactions := Function.update m.transactions thread store }

/-- `add_list_event_for_client`. -/
def addListEventForClient (m : EventMaster P) (thread clientId : ℕ) (type : EvEvent)
    (session : Option String) (list : Option P) : EventMaster P :=
  let request := Request.addEvent clientId session ⟨0, type, list⟩ m.calls
  let store := m.transactions thread
  let m := { m with calls := m.calls + 1 }
  if store.isTransaction then
    m.setTransaction thread
      { store with transactionRequests := store.transactionRequests ++ [request] }
  else { m with requests := m.requests ++ [request] }

/-- `sge_set_commit_required`. -/
def sgeSetCommitRequired (m : EventMaster P) (thread : ℕ) : EventMaster P :=
  let store := m.transactions thread
  if store.isTransaction then m else m.setTransaction thread { store with isTransaction := true }

/-- `sge_commit`. -/
def sgeCommit (m : EventMaster P) (thread : ℕ) : EventMaster P :=
  let store := m.transactions thread
  if store.isTransaction then
    let m := { m with requests := m.requests ++ store.transactionRequests }
    m.setTransaction thread ⟨false, []⟩
  else m

/-- The new client replaces the one with the same id; nothing happened to it so far. -/
def chainIn (m : EventMaster P) (thread clientId : ℕ) (clio : EventClient P) : EventMaster P :=
  { m with
    clients := Function.update m.clients clientId (some clio.added)
    registration := some ⟨thread, clientId, totalUpdateEvents.map Prod.fst⟩
    appended := Function.update m.appended clientId []
    snapshots := Function.update m.snapshots clientId (fun _ => none) }

/-- `sge_add_event_client` up to the first list of `total_update`. -/
def addEventClient (m : EventMaster P) (thread clientId : ℕ) (clio : EventClient P) :
    EventMaster P :=
  (m.chainIn thread clientId clio).sgeSetCommitRequired thread

/-- Records that a list is copied for a client. -/
def recordSnapshot (m : EventMaster P) (clientId : ℕ) (type : EvEvent) : EventMaster P :=
  { m with
    snapshots := Function.update m.snapshots clientId
      (Function.update (m.snapshots clientId) type (some (m.calls, m.lists type))) }

/-- `total_update_event`. -/
def totalUpdateEvent (m : EventMaster P) (thread clientId : ℕ) (type : EvEvent) : EventMaster P :=
  match m.clients clientId with
  | none => m
  | some ec =>
      if ec.eventclientSubscribed type none then
        (m.recordSnapshot clientId type).addListEventForClient thread clientId type none
          (m.lists type)
      else m

/-- A client after `sge_event_master_process_send` offered it an event. -/
def offer (ec : EventClient P) (event : Event P) (session : Option String) : EventClient P :=
  if ec.eventclientSubscribed event.type session then ec.addListEventDirect event else ec

/-- `sge_event_master_process_send`; the client id 0 is `EV_ID_ANY`. -/
def processSend (m : EventMaster P) (clientId : ℕ) (session : Option String) (event : Event P) :
    EventMaster P :=
  { m with
    clients := fun id =>
      if clientId = 0 ∨ clientId = id then
        (m.clients id).map fun ec => offer ec event session
      else m.clients id
    appended := fun id =>
      if clientId = 0 ∨ clientId = id then
        match m.clients id with
        | none => m.appended id
        | some ec => m.appended id ++ (offer ec event session).events.drop ec.events.length
      else m.appended id }

/-- `sge_event_master_process_ack`. -/
def processAck (m : EventMaster P) (clientId number : ℕ) : EventMaster P :=
  { m with
    clients := Function.update m.clients clientId
      ((m.clients clientId).map fun ec => { ec with events := purgeEventList ec.events number }) }

def processRequest (m : EventMaster P) : Request P → EventMaster P
  | .addEvent clientId session event _ => m.processSend clientId session event
  | .ackEvent clientId number => m.processAck clientId number

/-- One step of one thread. Whatever needs the mutex waits for the end of a registration. -/
def step (m : EventMaster P) : EventMasterOp P → Option (EventMaster P)
  | .changeList type list => some { m with lists := Function.update m.lists type list }
  | .setCommitRequired thread =>
      if m.isFree thread then some (m.sgeSetCommitRequired thread) else none
  | .addEvent thread clientId type session list =>
      if m.isFree thread ∧ isChangeEvent type then
        some (m.addListEventForClient thread clientId type session list)
      else none
  | .commit thread => if m.isFree thread then some (m.sgeCommit thread) else none
  | .handleEventAck clientId number =>
      some { m with requests := m.requests ++ [.ackEvent clientId number] }
  | .addEventClient thread clientId clio =>
      if m.registration.isNone ∧ clientId ≠ 0 then some (m.addEventClient thread clientId clio)
      else none
  | .totalUpdateEvent =>
      match m.registration with
      | some ⟨thread, clientId, type :: rest⟩ =>
          some { m.totalUpdateEvent thread clientId type with
            registration := some ⟨thread, clientId, rest⟩ }
      | _ => none
  | .endTotalUpdate =>
      match m.registration with
      | some ⟨thread, _, []⟩ => some { m.sgeCommit thread with registration := none }
      | _ => none
  | .removeEventClient clientId =>
      if m.registration.isNone then
        some { m with clients := Function.update m.clients clientId none }
      else none
  | .takeRequests =>
      if m.taken.isEmpty then some { m with taken := m.requests, requests := [] } else none
  | .processRequest =>
      if m.registration.isNone then
        match m.taken with
        | [] => none
        | request :: rest =>
            some { m.processRequest request with
              taken := rest, processed := m.processed ++ [request] }
      else none

/-- No clients, no requests and no open transactions. -/
def initial (lists : EvEvent → Option P) : EventMaster P where
  lists := lists
  clients := fun _ => none
  taken := []
  requests := []
  transactions := fun _ => ⟨false, []⟩
  registration := none
  calls := 0
  processed := []
  appended := fun _ => []
  snapshots := fun _ _ => none

end EventMaster

end GridEngine

/-!
## Blocked events

The table of total updates, and what an event does to the flags of a client. No event is blocked
by two lists and no list is blocked by another one, so that only the list event of its own row
unblocks a change event.
-/

namespace GridEngine

variable {P : Type*} {X Y T : EvEvent}

section Table

theorem blockRow_eq_of_mem {row : EvEvent × List EvEvent} (h : row ∈ totalUpdateEvents) :
    blockRow row.1 = row.2 := by
  have hall : ∀ row ∈ totalUpdateEvents, blockRow row.1 = row.2 := by decide
  exact hall row h

/-- A type with a row in `block_events` is a list type. -/
theorem exists_row (h : Y ∈ blockRow X) : ∃ row ∈ totalUpdateEvents, row.1 = X ∧ Y ∈ row.2 := by
  unfold blockRow at h
  cases hfind : totalUpdateEvents.find? (fun row => row.1 == X) with
  | none => simp [hfind] at h
  | some row =>
      have hX : row.1 = X := by simpa using List.find?_some hfind
      rw [hfind] at h
      exact ⟨row, List.mem_of_find?_eq_some hfind, hX, h⟩

/-- No event is blocked by two lists. -/
theorem blockRow_unique (hX : Y ∈ blockRow X) (hT : Y ∈ blockRow T) : T = X := by
  have hall : ∀ row ∈ totalUpdateEvents, ∀ row' ∈ totalUpdateEvents, ∀ type ∈ row.2,
      type ∈ row'.2 → row'.1 = row.1 := by decide +kernel
  obtain ⟨row, hrow, rfl, hY⟩ := exists_row hX
  obtain ⟨row', hrow', rfl, hY'⟩ := exists_row hT
  exact hall row hrow row' hrow' Y hY hY'

/-- List events are never blocked. -/
theorem list_not_mem_blockRow (hX : Y ∈ blockRow X) : X ∉ blockRow T := by
  have hall : ∀ row ∈ totalUpdateEvents, ∀ row' ∈ totalUpdateEvents, row.1 ∉ row'.2 := by
    decide +kernel
  intro hT
  obtain ⟨row, hrow, rfl, _⟩ := exists_row hX
  obtain ⟨row', hrow', rfl, hmem⟩ := exists_row hT
  exact hall row hrow row' hrow' hmem

theorem blockRow_of_change (hX : Y ∈ blockRow X) : blockRow Y = [] := by
  have hall : ∀ row ∈ totalUpdateEvents, ∀ type ∈ row.2, blockRow type = [] := by decide +kernel
  obtain ⟨row, hrow, rfl, hY⟩ := exists_row hX
  exact hall row hrow Y hY

theorem list_ne_change (hX : Y ∈ blockRow X) : X ≠ Y := by
  intro h
  rw [h, blockRow_of_change hX] at hX
  cases hX

theorem mem_lists (hX : Y ∈ blockRow X) : X ∈ totalUpdateEvents.map Prod.fst := by
  obtain ⟨row, hrow, rfl, _⟩ := exists_row hX
  exact List.mem_map_of_mem hrow

theorem lists_nodup : (totalUpdateEvents.map Prod.fst).Nodup := by decide +kernel

theorem change_not_mem_lists (hX : Y ∈ blockRow X) : Y ∉ totalUpdateEvents.map Prod.fst := by
  intro hmem
  obtain ⟨row, hrow, hY⟩ := List.mem_map.mp hmem
  have hall : ∀ row ∈ totalUpdateEvents, ∀ row' ∈ totalUpdateEvents, row.1 ∉ row'.2 := by
    decide +kernel
  obtain ⟨row', hrow', _, hmem'⟩ := exists_row hX
  exact hall row hrow row' hrow' (hY ▸ hmem')

theorem lists_ne : ∀ type ∈ totalUpdateEvents.map Prod.fst,
    type ≠ EvEvent.allEvents ∧ type ≠ EvEvent.shutdown := by decide +kernel

end Table

namespace EventClient
variable {ec : EventClient P}

theorem eventclientSubscribed_of_session (h : ec.session = none) (session : Option String) :
    ec.eventclientSubscribed T session = ((ec.subArray T).subscribed && !(ec.subArray T).blocked) := by
  simp [eventclientSubscribed, h]

/-- What an event does to a connected client. -/
structure Adds (ec : EventClient P) (event : Event P) (ec' : EventClient P) : Prop where
  session : ec'.session = ec.session
  state : event.type ≠ .shutdown → ec'.state = .connected
  subscribed : ∀ type, (ec'.subArray type).subscribed = (ec.subArray type).subscribed
  filter : ∀ type, (ec'.subArray type).filter = (ec.subArray type).filter
  blocked : ∀ type, (ec'.subArray type).blocked =
    ((ec.subArray type).blocked && decide (type ∉ blockRow event.type))
  events : ∃ added, ec'.events = ec.events ++ added ∧ (∀ ev ∈ added, ev.type = event.type) ∧
    ((ec.subArray event.type).filter = none →
      added.map (fun ev => (ev.type, ev.newVersion)) = [(event.type, event.newVersion)])

theorem setBlocked_blocked (types : List EvEvent) (isBlock : Bool) :
    ((ec.setBlocked types isBlock).subArray T).blocked =
      if T ∈ types then isBlock else (ec.subArray T).blocked := by
  unfold setBlocked
  split_ifs with h
  · simp [h]
  · simp [h]

theorem setBlocked_subscribed (types : List EvEvent) (isBlock : Bool) :
    ((ec.setBlocked types isBlock).subArray T).subscribed = (ec.subArray T).subscribed := by
  by_cases h : T ∈ types <;> simp [setBlocked, h]

theorem setBlocked_filter (types : List EvEvent) (isBlock : Bool) :
    ((ec.setBlocked types isBlock).subArray T).filter = (ec.subArray T).filter := by
  by_cases h : T ∈ types <;> simp [setBlocked, h]

theorem addListEventDirect_adds {event : Event P} (hstate : ec.state = .connected)
    (htype : event.type ≠ .allEvents) : ec.Adds event (ec.addListEventDirect event) := by
  have hblock : ec.blockEvents event.type false = ec.setBlocked (blockRow event.type) false := by
    rw [blockEvents, if_neg htype]
  have hblocked : ∀ type, ((ec.setBlocked (blockRow event.type) false).subArray type).blocked =
      ((ec.subArray type).blocked && decide (type ∉ blockRow event.type)) := by
    intro type
    rw [setBlocked_blocked]
    by_cases h : type ∈ blockRow event.type <;> simp [h]
  rw [addListEventDirect, if_neg (not_not.mpr hstate), hblock]
  cases hsel : (ec.setBlocked (blockRow event.type) false).selectPayload event with
  | none =>
      have hfilter : (ec.subArray event.type).filter ≠ none := by
        intro hnone
        rw [← setBlocked_filter (blockRow event.type) false] at hnone
        simp only [selectPayload, hnone] at hsel
        split at hsel <;> simp_all
      simp only [hsel]
      exact ⟨rfl, fun _ => hstate, fun _ => setBlocked_subscribed _ _,
        fun _ => setBlocked_filter _ _, hblocked, [], by simp [setBlocked], by simp,
        fun h => absurd h hfilter⟩
  | some newVersion =>
      have hpayload : (ec.subArray event.type).filter = none → newVersion = event.newVersion := by
        intro hnone
        rw [← setBlocked_filter (blockRow event.type) false] at hnone
        simp only [selectPayload, hnone] at hsel
        split at hsel <;> simp_all
      simp only [hsel]
      refine ⟨rfl, fun h => ?_, fun _ => setBlocked_subscribed _ _, fun _ => setBlocked_filter _ _,
        hblocked, [⟨ec.nextNumber, event.type, newVersion⟩], rfl, by simp, fun h => ?_⟩
      · simp [appendEvent, h, setBlocked, hstate]
      · simp [hpayload h]

/-- The client gets the events of `X` and `Y` unfiltered. -/
structure Gets (ec : EventClient P) (X Y : EvEvent) : Prop where
  session : ec.session = none
  list : (ec.subArray X).subscribed = true
  change : (ec.subArray Y).subscribed = true
  listFilter : (ec.subArray X).filter = none
  changeFilter : (ec.subArray Y).filter = none

/-- The list event passes, and the change events do when they are not blocked. -/
structure Waits (ec : EventClient P) (X Y : EvEvent) (blocked : Bool) : Prop where
  state : ec.state = .connected
  list : (ec.subArray X).blocked = false
  change : (ec.subArray Y).blocked = blocked

theorem Adds.gets_iff {event : Event P} {ec' : EventClient P} (h : ec.Adds event ec') :
    ec'.Gets X Y ↔ ec.Gets X Y := by
  constructor
  · rintro ⟨hs, hX, hY, hfX, hfY⟩
    rw [h.subscribed] at hX hY
    rw [h.filter] at hfX hfY
    exact ⟨h.session ▸ hs, hX, hY, hfX, hfY⟩
  · rintro ⟨hs, hX, hY, hfX, hfY⟩
    exact ⟨h.session.trans hs, (h.subscribed X).trans hX, (h.subscribed Y).trans hY,
      (h.filter X).trans hfX, (h.filter Y).trans hfY⟩

theorem Adds.waits {event : Event P} {ec' : EventClient P} {blocked : Bool} (hXY : Y ∈ blockRow X)
    (h : ec.Adds event ec') (htype : event.type ≠ .shutdown) (hwait : ec.Waits X Y blocked) :
    ec'.Waits X Y (blocked && decide (event.type ≠ X)) := by
  constructor
  · exact h.state htype
  · rw [h.blocked, hwait.list]
    rfl
  · rw [h.blocked, hwait.change]
    by_cases hX : event.type = X
    · simp [hX, hXY]
    · have hY : Y ∉ blockRow event.type := fun hmem => hX (blockRow_unique hXY hmem)
      simp [hX, hY]

theorem blockEvents_all_blocked {rows : List (EvEvent × List EvEvent)}
    {row : EvEvent × List EvEvent} (hmem : row ∈ rows) (hsub : (ec.subArray row.1).subscribed = true)
    (hY : Y ∈ row.2) :
    ((rows.foldl (fun ec row => if (ec.subArray row.1).subscribed then ec.setBlocked row.2 true
      else ec) ec).subArray Y).blocked = true := by
  have hkeep : ∀ (rows : List (EvEvent × List EvEvent)) (ec : EventClient P),
      (ec.subArray Y).blocked = true →
      ((rows.foldl (fun ec row => if (ec.subArray row.1).subscribed then ec.setBlocked row.2 true
        else ec) ec).subArray Y).blocked = true := by
    intro rows
    induction rows with
    | nil => exact fun _ h => h
    | cons row rows ih =>
        intro ec h
        rw [List.foldl_cons]
        apply ih
        by_cases hsub : (ec.subArray row.1).subscribed = true
        · rw [if_pos hsub, setBlocked_blocked]
          simp [h]
        · rw [if_neg hsub]
          exact h
  induction rows generalizing ec with
  | nil => cases hmem
  | cons row' rows ih =>
      rw [List.foldl_cons]
      rcases List.mem_cons.mp hmem with heq | hmem
      · apply hkeep
        rw [← heq, if_pos hsub, setBlocked_blocked, if_pos hY]
      · apply ih hmem
        by_cases hsub' : (ec.subArray row'.1).subscribed = true
        · rw [if_pos hsub', setBlocked_subscribed]
          exact hsub
        · rw [if_neg hsub']
          exact hsub

theorem blockEvents_all_list {rows : List (EvEvent × List EvEvent)}
    (hX : ∀ row ∈ rows, X ∉ row.2) :
    ((rows.foldl (fun ec row => if (ec.subArray row.1).subscribed then ec.setBlocked row.2 true
      else ec) ec).subArray X).blocked = (ec.subArray X).blocked := by
  induction rows generalizing ec with
  | nil => rfl
  | cons row rows ih =>
      rw [List.foldl_cons, ih (fun row hrow => hX row (List.mem_cons_of_mem _ hrow))]
      split_ifs
      · rw [setBlocked_blocked, if_neg (hX row List.mem_cons_self)]
      · rfl

theorem added_waits {clio : EventClient P} (hXY : Y ∈ blockRow X)
    (hgets : clio.added.Gets X Y) : clio.added.Waits X Y true := by
  obtain ⟨types, hframe⟩ := blockEvents_frame
    { clio with
      nextNumber := 1
      state := EvState.connected
      subArray := fun type => { clio.subArray type with blocked := false } } .allEvents true
  have hrow := exists_row hXY
  obtain ⟨row, hmem, rfl, hY⟩ := hrow
  have hsub : (clio.subArray row.1).subscribed = true := by
    have h := hgets.list
    rw [added, hframe, setBlocked_subscribed] at h
    exact h
  constructor
  · rw [added, hframe]
    rfl
  · rw [added, blockEvents, if_pos rfl, blockEvents_all_list]
    intro row' hrow' hX
    rw [← blockRow_eq_of_mem hrow'] at hX
    exact list_not_mem_blockRow hXY hX
  · rw [added, blockEvents, if_pos rfl]
    exact blockEvents_all_blocked hmem hsub hY

end EventClient

end GridEngine
