import GridEngine.EventPhases
import GridEngine.Machine

/-!
# Snapshot, then deltas

A client that registers gets every subscribed list once, followed by the events that describe
later changes of the list. This holds as long as no change is queued between the copy of the list
and the end of the registration, and no open transaction has an older change.
-/

namespace GridEngine
open Machine

variable {P : Type*} {c n : ℕ} {X Y T : EvEvent}

namespace EventMaster
variable {m m' : EventMaster P} {ec : EventClient P} {op : EventMasterOp P}

/-- The requests that a step enters into the queue. -/
def incoming (m : EventMaster P) : EventMasterOp P → List (Request P)
  | .addEvent thread clientId type session list =>
      if (m.transactions thread).isTransaction then []
      else [.addEvent clientId session ⟨0, type, list⟩ m.calls]
  | .commit thread => if (m.transactions thread).isTransaction then m.uncommitted thread else []
  | .endTotalUpdate =>
      match m.registration with
      | some reg => m.uncommitted reg.thread
      | none => []
  | _ => []

/-- The step does not disturb the registration of client `c` with respect to list `X` and the
change events `Y`. -/
structure Undisturbed (c : ℕ) (X Y : EvEvent) (m : EventMaster P) (op : EventMasterOp P) :
    Prop where
  /-- No list of an earlier registration is on its way when the client is added. -/
  fresh : ∀ thread clio, op = .addEventClient thread c clio →
    Lacks c X (m.taken ++ m.requests) ∧ ∀ t, Lacks c X (m.uncommitted t)
  /-- Until the registration ends only older changes enter the queue, from then on only later
  ones. -/
  timely : ∀ n list, m.snapshots c X = some (n, list) → ∀ r ∈ m.incoming op, r.Reaches c Y →
    (m.Registers c → r.call < n) ∧ (¬ m.Registers c → n ≤ r.call)

/-- What is proved about one client in every state. -/
def Inv (m : EventMaster P) (c : ℕ) (X Y : EvEvent) : Prop :=
  ∀ ec, m.clients c = some ec → ec.Gets X Y → m.Phase c X Y ec

theorem not_reaches_of_change {clientId call : ℕ} {session : Option String} {event : Event P}
    (hXY : Y ∈ blockRow X) (hchange : isChangeEvent event.type = true) :
    ¬ (Request.addEvent clientId session event call).Reaches c X := by
  intro hreach
  simp only [isChangeEvent, Bool.and_eq_true, List.isEmpty_iff] at hchange
  rw [hreach.2] at hchange
  rw [hchange.2] at hXY
  cases hXY

theorem Inv.processRequest (hwf : m.WellFormed) (hXY : Y ∈ blockRow X) (h : m.Inv c X Y)
    {r : Request P} {rest : List (Request P)} (hreg : m.registration = none)
    (htaken : m.taken = r :: rest) :
    EventMaster.Inv { m.processRequest r with taken := rest, processed := m.processed ++ [r] }
      c X Y := by
  have hnone : ¬ m.Registers c := by simp [Registers, hreg]
  have hvalid : r.Valid m.calls := hwf.valid r (by simp [queued, htaken])
  have hqueue : m.taken ++ m.requests = r :: (rest ++ m.requests) := by rw [htaken]; rfl
  intro ec' hec' hgets'
  cases r with
  | ackEvent clientId number =>
      have hsame : ∃ ec, m.clients c = some ec ∧ ec'.session = ec.session ∧
          ec'.subArray = ec.subArray ∧ ec'.state = ec.state := by
        simp only [EventMaster.processRequest, processAck, Function.update_apply] at hec'
        split_ifs at hec' with hid
        · obtain ⟨ec, hec, rfl⟩ := Option.map_eq_some_iff.mp hec'
          exact ⟨ec, hid ▸ hec, rfl, rfl, rfl⟩
        · exact ⟨ec', hec', rfl, rfl, rfl⟩
      obtain ⟨ec, hec, hsession, hsub, hstate⟩ := hsame
      have hgets : ec.Gets X Y :=
        ⟨hsession ▸ hgets'.session, hsub ▸ hgets'.list, hsub ▸ hgets'.change,
          hsub ▸ hgets'.listFilter, hsub ▸ hgets'.changeFilter⟩
      have hwait : ∀ blocked, ec.Waits X Y blocked → ec'.Waits X Y blocked := fun blocked hwait =>
        ⟨hstate.trans hwait.state, hsub ▸ hwait.list, hsub ▸ hwait.change⟩
      refine (h ec hec hgets).process hXY hnone hnone rfl hqueue rfl (fun _ => rfl) ?_
      apply handles_of_same
      · exact fun hreach => hreach
      · exact fun hreach => hreach
      · rfl
      · exact hwait
  | addEvent clientId session event call =>
      by_cases hid : clientId = 0 ∨ clientId = c
      · simp only [EventMaster.processRequest, processSend, if_pos hid] at hec'
        obtain ⟨ec, hec, rfl⟩ := Option.map_eq_some_iff.mp hec'
        have hgets : ec.Gets X Y := by
          by_cases hsub : ec.eventclientSubscribed event.type session = true
          · rw [offer, if_pos hsub] at hgets'
            by_cases hstate : ec.state = .connected
            · exact (EventClient.addListEventDirect_adds hstate hvalid.2.1).gets_iff.mp hgets'
            · rw [EventClient.addListEventDirect, if_pos hstate] at hgets'
              exact hgets'
          · rw [offer, if_neg hsub] at hgets'
            exact hgets'
        exact (h ec hec hgets).process hXY hnone hnone rfl hqueue rfl (fun _ => rfl)
          (processSend_handles hXY hvalid hec hid hgets rfl)
      · simp only [EventMaster.processRequest, processSend, if_neg hid] at hec'
        have happ : (m.processSend clientId session event).appended c = m.appended c := by
          simp [processSend, hid]
        have hmiss : ∀ T, ¬ (Request.addEvent clientId session event call).Reaches c T :=
          fun T hreach => hid hreach.1
        refine (h ec' hec' hgets').process hXY hnone hnone rfl hqueue rfl (fun _ => rfl) ?_
        apply handles_of_same
        · exact hmiss X
        · exact hmiss Y
        · exact happ
        · exact fun _ hwait => hwait

theorem Inv.step (hwf : m.WellFormed) (hXY : Y ∈ blockRow X) (hu : Undisturbed c X Y m op)
    (h : m.Inv c X Y) (hs : m.step op = some m') : m'.Inv c X Y := by
  cases op with
  | changeList type list =>
      cases hs
      intro ec hec hgets
      exact (h ec hec hgets).same (Or.inl rfl) rfl rfl rfl rfl (fun t => Or.inl rfl)
  | setCommitRequired t =>
      simp only [EventMaster.step] at hs
      split_ifs at hs with hfree
      cases hs
      have hopen : Opens m (m.sgeSetCommitRequired t) t := sgeSetCommitRequired_opens
      intro ec hec hgets
      rw [hopen.clients] at hec
      exact (h ec hec hgets).same (Or.inl hopen.registration) (by rw [hopen.snapshots])
        (by rw [hopen.appended]) hopen.processed (by rw [hopen.taken, hopen.requests])
        (fun t' => Or.inl (hopen.stores t'))
  | addEvent t clientId type session list =>
      simp only [EventMaster.step] at hs
      split_ifs at hs with hguard
      cases hs
      have hadd : AddsRequest m (m.addListEventForClient t clientId type session list) t
          (.addEvent clientId session ⟨0, type, list⟩ m.calls) := addListEventForClient_adds
      have hX : ¬ (Request.addEvent clientId session ⟨0, type, list⟩ m.calls).Reaches c X :=
        not_reaches_of_change hXY hguard.2
      have hfree : ∀ rest, m.registration ≠ some ⟨t, c, rest⟩ := fun rest hreg =>
        isFree_iff.mp hguard.1 _ hreg rfl
      intro ec hec hgets
      rw [hadd.clients] at hec
      have hphase := h ec hec hgets
      apply hphase.frame _ (Or.inl hadd.registration) (by rw [hadd.snapshots])
        (by rw [hadd.appended]) hadd.processed hadd.queue
      · intro t'
        rw [hadd.stores]
        split_ifs with hsame
        · rw [hsame.1]
          exact Or.inr ⟨hfree, lacks_append.mpr
            ⟨hphase.lacks_store hfree, lacks_cons.mpr ⟨hX, .nil⟩⟩⟩
        · exact Or.inl rfl
      · split_ifs
        · exact .nil
        · exact lacks_cons.mpr ⟨hX, .nil⟩
      · exact hu.timely
  | commit t =>
      simp only [EventMaster.step] at hs
      split_ifs at hs with hfree
      cases hs
      have hcommit : Commits m (m.sgeCommit t) t := sgeCommit_commits
      have hfree' : ∀ rest, m.registration ≠ some ⟨t, c, rest⟩ := fun rest hreg =>
        isFree_iff.mp hfree _ hreg rfl
      intro ec hec hgets
      rw [hcommit.clients] at hec
      have hphase := h ec hec hgets
      apply hphase.frame _ (Or.inl hcommit.registration) (by rw [hcommit.snapshots])
        (by rw [hcommit.appended]) hcommit.processed hcommit.queue
      · intro t'
        rw [hcommit.stores]
        split_ifs with hsame
        · exact Or.inr ⟨hsame.1 ▸ hfree', .nil⟩
        · exact Or.inl rfl
      · split_ifs
        · exact hphase.lacks_store hfree'
        · exact .nil
      · exact hu.timely
  | handleEventAck clientId number =>
      cases hs
      intro ec hec hgets
      have hlacks : ∀ type, Lacks c type [(Request.ackEvent clientId number : Request P)] :=
        fun type => lacks_cons.mpr ⟨id, .nil⟩
      refine (h ec hec hgets).frame [.ackEvent clientId number] (Or.inl rfl) rfl rfl rfl
        (List.append_assoc _ _ _).symm (fun t => Or.inl rfl) (hlacks X) ?_
      exact fun n list _ r hr hY => absurd hY (hlacks Y r hr)
  | addEventClient t clientId clio =>
      simp only [EventMaster.step] at hs
      split_ifs at hs with hguard
      cases hs
      have hopen : Opens (m.chainIn t clientId clio) (m.addEventClient t clientId clio) t :=
        sgeSetCommitRequired_opens
      have hnone : m.registration = none := by simpa using hguard.1
      have hqueue : (m.addEventClient t clientId clio).taken ++
          (m.addEventClient t clientId clio).requests = m.taken ++ m.requests := by
        rw [hopen.taken, hopen.requests]
        rfl
      intro ec hec hgets
      rw [hopen.clients] at hec
      by_cases hc : clientId = c
      · subst hc
        have hfresh := hu.fresh t clio rfl
        have hec' : ec = clio.added := by
          simpa [chainIn] using hec.symm
        subst hec'
        refine .announced hopen.registration (mem_lists hXY) ?_ (hqueue ▸ hfresh.1) ?_
          (EventClient.added_waits hXY hgets) ?_
        · rw [hopen.snapshots]
          simp [chainIn]
        · intro t'
          rw [hopen.stores]
          exact hfresh.2 t'
        · rw [history, hopen.appended]
          simp [chainIn]
      · have hec' : m.clients c = some ec := by
          simpa [chainIn, Ne.symm hc] using hec
        have hregs : ¬ m.Registers c ∧ ¬ (m.addEventClient t clientId clio).Registers c :=
          ⟨by simp [Registers, hnone], not_registers_of_ne hopen.registration hc⟩
        exact (h ec hec' hgets).same (Or.inr hregs)
          (by rw [hopen.snapshots]; simp [chainIn, Ne.symm hc])
          (by rw [hopen.appended]; simp [chainIn, Ne.symm hc]) hopen.processed hqueue
          (fun t' => Or.inl (hopen.stores t'))
  | totalUpdateEvent =>
      simp only [EventMaster.step] at hs
      split at hs
      · rename_i t clientId type rest hreg
        cases hs
        intro ec hec hgets
        by_cases hc : clientId = c
        · subst hc
          have hec' : m.clients clientId = some ec := by
            rw [← totalUpdateEvent_clients t clientId type]
            exact hec
          exact (h ec hec' hgets).totalUpdateEvent hwf hXY hreg hec' hgets
        · have hother := totalUpdateEvent_other (X := X) (hwf.registering _ hreg) hc
          have hec' : m.clients c = some ec := by
            rw [← totalUpdateEvent_clients t clientId type]
            exact hec
          have hphase := h ec hec' hgets
          have hfree : ∀ rest', m.registration ≠ some ⟨t, c, rest'⟩ := by
            intro rest' heq
            rw [hreg] at heq
            cases heq
            exact hc rfl
          refine hphase.same (Or.inr ⟨not_registers_of_ne hreg hc, ?_⟩) hother.1 hother.2.1
            hother.2.2.1 hother.2.2.2.1 ?_
          · exact not_registers_of_ne (m := { m.totalUpdateEvent t clientId type with
              registration := some ⟨t, clientId, rest⟩ }) rfl hc
          · intro t'
            rcases hother.2.2.2.2 t' with hsame | ⟨rfl, r, hr, happ⟩
            · exact Or.inl hsame
            · have hlacks : Lacks c X (m.uncommitted t' ++ [r]) :=
                lacks_append.mpr ⟨hphase.lacks_store hfree, lacks_cons.mpr ⟨hr, .nil⟩⟩
              rw [← happ] at hlacks
              exact Or.inr ⟨hfree, hlacks⟩
      · cases hs
  | endTotalUpdate =>
      simp only [EventMaster.step] at hs
      split at hs
      · rename_i t clientId hreg
        cases hs
        have hcommit : Commits m (m.sgeCommit t) t := sgeCommit_commits
        intro ec hec hgets
        have hec' : m.clients c = some ec := hcommit.clients ▸ hec
        have hphase := h ec hec' hgets
        by_cases hc : clientId = c
        · subst hc
          exact hphase.endTotalUpdate hwf hreg
        · have hopen := (hwf.registering _ hreg).1
          have hfree : ∀ rest', m.registration ≠ some ⟨t, c, rest'⟩ := by
            intro rest' heq
            rw [hreg] at heq
            cases heq
            exact hc rfl
          have hqueue := hcommit.queue
          rw [if_pos hopen] at hqueue
          have htimely := hu.timely
          simp only [incoming, hreg] at htimely
          refine hphase.frame (m.uncommitted t)
            (Or.inr ⟨not_registers_of_ne hreg hc, by simp [Registers]⟩) (by rw [hcommit.snapshots])
            (by rw [hcommit.appended]) hcommit.processed hqueue ?_ (hphase.lacks_store hfree) htimely
          intro t'
          have hstores := hcommit.stores t'
          split_ifs at hstores with hsame
          · exact Or.inr ⟨hsame.1 ▸ hfree, by rw [uncommitted] at hstores ⊢; rw [hstores]; exact .nil⟩
          · exact Or.inl hstores
      · cases hs
  | removeEventClient clientId =>
      simp only [EventMaster.step] at hs
      split_ifs at hs with hguard
      cases hs
      intro ec hec hgets
      by_cases hc : clientId = c
      · subst hc
        simp at hec
      · have hec' : m.clients c = some ec := by simpa [Ne.symm hc] using hec
        exact (h ec hec' hgets).same (Or.inl rfl) rfl rfl rfl rfl (fun t => Or.inl rfl)
  | takeRequests =>
      simp only [EventMaster.step] at hs
      split_ifs at hs with htaken
      cases hs
      rw [List.isEmpty_iff] at htaken
      intro ec hec hgets
      exact (h ec hec hgets).same (Or.inl rfl) rfl rfl rfl (by simp [htaken]) (fun t => Or.inl rfl)
  | processRequest =>
      simp only [EventMaster.step] at hs
      split_ifs at hs with hfree
      split at hs
      · cases hs
      · rename_i request rest htaken
        cases hs
        exact h.processRequest hwf hXY (by simpa using hfree) htaken

/-- The events that client `c` should have got under `X` and `Y`: the list as it was copied, then
all changes queued since. -/
def expected (m : EventMaster P) (c : ℕ) (X Y : EvEvent) : List (EvEvent × Option P) :=
  match m.snapshots c X with
  | none => []
  | some (n, list) => (X, list) :: deltas c Y n m.queued

/-- The list first, then the changes in queue order, without gaps; nothing is missing when the
registration is over and all requests are processed. -/
structure SnapshotThenDeltas (m : EventMaster P) (c : ℕ) (X Y : EvEvent) : Prop where
  inOrder : m.history c X Y <+: m.expected c X Y
  complete : m.registration = none → m.taken = [] → m.requests = [] →
    (m.snapshots c X).isSome ∧ m.history c X Y = m.expected c X Y

theorem Phase.snapshotThenDeltas (h : m.Phase c X Y ec) : m.SnapshotThenDeltas c X Y := by
  cases h with
  | announced hreg hX hsnap hqueue hstores hwait hhist =>
      constructor
      · rw [hhist]
        exact List.nil_prefix
      · intro hnone
        rw [hnone] at hreg
        cases hreg
  | copied hreg hX hsnap hqueue hstores hstore hbefore hafter hchanges hold hwait hhist =>
      constructor
      · rw [hhist]
        exact List.nil_prefix
      · intro hnone
        rw [hnone] at hreg
        cases hreg
  | queued hreg hsnap hqueue hbefore hafter hstores hold hnew hwait hhist =>
      constructor
      · rw [hhist]
        exact List.nil_prefix
      · intro _ htaken hrequests
        rw [htaken, hrequests] at hqueue
        simp at hqueue
  | @delivered n list hreg hsnap hqueue hstores hnew hwait hhist =>
      have hexpected : m.expected c X Y =
          m.history c X Y ++ deltas c Y n (m.taken ++ m.requests) := by
        rw [hhist, List.cons_append, ← deltas_append]
        simp only [expected, hsnap, EventMaster.queued]
      constructor
      · rw [hexpected]
        exact List.prefix_append _ _
      · intro _ htaken hrequests
        rw [hexpected, htaken, hrequests, hsnap]
        exact ⟨rfl, (List.append_nil _).symm⟩

end EventMaster

/-- Every step of the run leaves the registrations of the client undisturbed. -/
def UndisturbedStep (c : ℕ) (X Y : EvEvent) (m : EventMaster P) (op : EventMasterOp P)
    (m' : EventMaster P) : Prop :=
  m.Undisturbed c X Y op ∧ m.step op = some m'

/-- A client that is registered while nothing disturbs the copy of a list gets the list and then
exactly the later changes. -/
theorem registration_snapshotThenDeltas (c : ℕ) {X Y : EvEvent} (hXY : Y ∈ blockRow X)
    (lists : EvEvent → Option P) {hist : List (EventMasterOp P)} {m : EventMaster P}
    (hrun : Run (UndisturbedStep c X Y) (EventMaster.initial lists) hist m)
    {ec : EventClient P} (hec : m.clients c = some ec) (hsession : ec.session = none)
    (hX : (ec.subArray X).subscribed = true) (hY : (ec.subArray Y).subscribed = true)
    (hfilterX : (ec.subArray X).filter = none) (hfilterY : (ec.subArray Y).filter = none) :
    m.SnapshotThenDeltas c X Y := by
  have hinv : m.WellFormed ∧ m.Inv c X Y := by
    apply hrun.invariant (P := fun _ m => m.WellFormed ∧ m.Inv c X Y)
    · constructor
      · exact EventMaster.initial_wellFormed
      · intro ec hec
        cases hec
    · intro _ m op m' h hs
      exact ⟨h.1.step hs.2, h.2.step h.1 hXY hs.1 hs.2⟩
  exact (hinv.2 ec hec ⟨hsession, hX, hY, hfilterX, hfilterY⟩).snapshotThenDeltas

namespace EventMaster
variable {m m' : EventMaster P} {op : EventMasterOp P}

instance (c : ℕ) (type : EvEvent) : DecidablePred (Request.Reaches (P := P) c type)
  | .addEvent clientId _ event _ =>
      inferInstanceAs (Decidable ((clientId = 0 ∨ clientId = c) ∧ event.type = type))
  | .ackEvent _ _ => inferInstanceAs (Decidable False)

/-- No step of the sequence adds a client or enters a change of `Y` for client `c`. -/
def lacksAlong (c : ℕ) (Y : EvEvent) : List (EventMasterOp P) → EventMaster P → Bool
  | [], _ => true
  | .addEventClient _ _ _ :: _, _ => false
  | op :: ops, m => (m.incoming op).all (fun r => !decide (r.Reaches c Y)) &&
      (match m.step op with
      | none => false
      | some m' => lacksAlong c Y ops m')

theorem undisturbedRun {hist ops : List (EventMasterOp P)} {m₀ : EventMaster P}
    (hrun : Run (UndisturbedStep c X Y) m₀ hist m) (hops : lacksAlong c Y ops m = true) :
    ∃ m', ops.foldlM step m = some m' ∧ Run (UndisturbedStep c X Y) m₀ (hist ++ ops) m' := by
  induction ops generalizing hist m with
  | nil => exact ⟨m, rfl, by rwa [List.append_nil]⟩
  | cons op ops ih =>
      have hadd : ∀ t clio, op ≠ .addEventClient t c clio := by
        intro t clio heq
        rw [heq, lacksAlong] at hops
        cases hops
      have hcons : (m.incoming op).all (fun r => !decide (r.Reaches c Y)) = true ∧
          ∃ m', m.step op = some m' ∧ lacksAlong c Y ops m' = true := by
        cases hs : m.step op with
        | none => cases op <;> simp [lacksAlong, hs] at hops
        | some m' => cases op <;> simp_all [lacksAlong]
      obtain ⟨hall, m', hs, hrest⟩ := hcons
      have hundisturbed : m.Undisturbed c X Y op := by
        constructor
        · exact fun t clio heq => absurd heq (hadd t clio)
        · intro n list _ r hr hY
          have hlacks := List.all_eq_true.mp hall r hr
          simp [hY] at hlacks
      obtain ⟨m'', hfold, hrun'⟩ := ih (hrun.snoc ⟨hundisturbed, hs⟩) hrest
      rw [List.append_assoc, List.singleton_append] at hrun'
      exact ⟨m'', by rw [List.foldlM_cons, hs]; exact hfold, hrun'⟩

end EventMaster

/-- A client of the job list and of new jobs. -/
def jobClient : EventClient ℕ where
  state := .subscribing
  nextNumber := 0
  events := []
  subArray := fun type => ⟨type = .jobList ∨ type = .jobAdd, false, none⟩
  session := none

/-- The rest of a registration and the work of the event master, with the steps of others after the
job list has been copied. -/
def registrationOps (others : List (EventMasterOp ℕ)) : List (EventMasterOp ℕ) :=
  List.replicate 7 .totalUpdateEvent ++ others ++ List.replicate 15 .totalUpdateEvent ++
    [.endTotalUpdate, .takeRequests, .processRequest]

/-- The state after thread 0 began to register the client of the job list. -/
def jobRegistration : EventMaster ℕ :=
  (EventMaster.initial fun _ => some 7).addEventClient 0 1 jobClient

/-- The registration of a client of the job list that nothing disturbs. -/
theorem quietRegistration_snapshotThenDeltas :
    ∃ (hist : List (EventMasterOp ℕ)) (m : EventMaster ℕ),
      Run (UndisturbedStep 1 .jobList .jobAdd) (EventMaster.initial fun _ => some 7) hist m ∧
      m.snapshots 1 .jobList = some (0, some 7) ∧ m.SnapshotThenDeltas 1 .jobList .jobAdd := by
  have hadd : UndisturbedStep 1 .jobList .jobAdd (EventMaster.initial fun _ => some 7)
      (.addEventClient 0 1 jobClient) jobRegistration := by
    refine ⟨⟨fun t clio _ => ⟨.nil, fun t => .nil⟩, ?_⟩, rfl⟩
    intro n list hsnap
    cases hsnap
  have hlacks : EventMaster.lacksAlong 1 .jobAdd (registrationOps []) jobRegistration = true := by
    decide +kernel
  obtain ⟨m, hfold, hrun⟩ := EventMaster.undisturbedRun (Run.nil.snoc hadd) hlacks
  have hclient : ((registrationOps []).foldlM EventMaster.step jobRegistration).map (fun m =>
      (m.snapshots 1 .jobList, (m.clients 1).map fun ec => [ec.session.isNone,
        (ec.subArray .jobList).subscribed, (ec.subArray .jobAdd).subscribed,
        (ec.subArray .jobList).filter.isNone, (ec.subArray .jobAdd).filter.isNone])) =
      some (some (0, some 7), some [true, true, true, true, true]) := by decide +kernel
  rw [hfold] at hclient
  simp only [Option.map_some, Option.some.injEq, Prod.mk.injEq, Option.map_eq_some_iff,
    List.cons.injEq, Option.isNone_iff_eq_none] at hclient
  obtain ⟨hsnap, ec, hec, hsession, hX, hY, hfilterX, hfilterY, _⟩ := hclient
  exact ⟨_, m, hrun, hsnap, registration_snapshotThenDeltas 1 (by decide) _ hrun hec hsession hX hY
    hfilterX hfilterY⟩

/-- A job is added, and its event queued, after the job list has been copied and before the
transaction of the registration is committed: the event is blocked, and lost. -/
theorem changeDuringRegistration_lost :
    ∃ (hist : List (EventMasterOp ℕ)) (m : EventMaster ℕ) (ec : EventClient ℕ),
      Run (fun m op m' => m.step op = some m') (EventMaster.initial fun _ => some 7) hist m ∧
      m.clients 1 = some ec ∧ ec.session = none ∧
      (ec.subArray .jobList).subscribed = true ∧ (ec.subArray .jobAdd).subscribed = true ∧
      (ec.subArray .jobList).filter = none ∧ (ec.subArray .jobAdd).filter = none ∧
      ¬ m.SnapshotThenDeltas 1 .jobList .jobAdd := by
  let ops : List (EventMasterOp ℕ) := .addEventClient 0 1 jobClient :: registrationOps
    [.changeList .jobList (some 8), .addEvent 1 0 .jobAdd none (some 1)] ++ [.processRequest]
  have hhistory : (ops.foldlM EventMaster.step (EventMaster.initial fun _ => some 7)).map (fun m =>
      (m.history 1 .jobList .jobAdd, m.expected 1 .jobList .jobAdd)) =
      some ([(.jobList, some 7)], [(.jobList, some 7), (.jobAdd, some 1)]) := by decide +kernel
  have hclient : (ops.foldlM EventMaster.step (EventMaster.initial fun _ => some 7)).map (fun m =>
      ([m.taken.isEmpty, m.requests.isEmpty, m.registration.isNone],
        (m.clients 1).map fun ec => [ec.session.isNone,
        (ec.subArray .jobList).subscribed, (ec.subArray .jobAdd).subscribed,
        (ec.subArray .jobList).filter.isNone, (ec.subArray .jobAdd).filter.isNone])) =
      some ([true, true, true], some [true, true, true, true, true]) := by decide +kernel
  obtain ⟨m, hfold, hlists⟩ := Option.map_eq_some_iff.mp hhistory
  obtain ⟨hhist, hexpected⟩ := Prod.mk.inj hlists
  rw [hfold] at hclient
  simp only [Option.map_some, Option.some.injEq, Prod.mk.injEq, Option.map_eq_some_iff,
    Option.isNone_iff_eq_none, List.cons.injEq, List.isEmpty_iff] at hclient
  obtain ⟨⟨htaken, hrequests, hreg, _⟩, ec, hec, hsession, hX, hY, hfilterX, hfilterY, _⟩ := hclient
  refine ⟨ops, m, ec, Run.of_foldlM ops hfold, hec, hsession, hX, hY, hfilterX, hfilterY, ?_⟩
  intro h
  have hsame := (h.complete hreg htaken hrequests).2
  rw [hhist, hexpected] at hsame
  cases hsame

end GridEngine
