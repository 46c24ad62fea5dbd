import GridEngine.EventRequests

/-!
# The way of a list to its client

The request that carries a list is not built yet, in the transaction of the registering thread, in
the queue, or processed. Each phase says where the change events of the list may be meanwhile, and
every operation leads from one phase to the same or the next one.
-/

namespace GridEngine

variable {P : Type*} {c n : ℕ} {X Y T : EvEvent}

namespace EventMaster
variable {m m' : EventMaster P} {ec : EventClient P}

/-- The `X` and `Y` events appended for the client. -/
def history (m : EventMaster P) (c : ℕ) (X Y : EvEvent) : List (EvEvent × Option P) :=
  ((m.appended c).filter fun ev => ev.type = X ∨ ev.type = Y).map
    fun ev => (ev.type, ev.newVersion)

/-- Where the list `X` is on its way to the client. -/
inductive Phase (m : EventMaster P) (c : ℕ) (X Y : EvEvent) (ec : EventClient P) : Prop
  | announced {t : ℕ} {rest : List EvEvent} (hreg : m.registration = some ⟨t, c, rest⟩)
      (hX : X ∈ rest) (hsnap : m.snapshots c X = none)
      (hqueue : Lacks c X (m.taken ++ m.requests)) (hstores : ∀ t, Lacks c X (m.uncommitted t))
      (hwait : ec.Waits X Y true) (hhist : m.history c X Y = [])
  | copied {t n : ℕ} {rest : List EvEvent} {list : Option P} {before after : List (Request P)}
      (hreg : m.registration = some ⟨t, c, rest⟩) (hX : X ∉ rest)
      (hsnap : m.snapshots c X = some (n, list)) (hqueue : Lacks c X (m.taken ++ m.requests))
      (hstores : ∀ t', t' ≠ t → Lacks c X (m.uncommitted t'))
      (hstore : m.uncommitted t = before ++ listRequest c X n list :: after)
      (hbefore : Lacks c X before) (hafter : Lacks c X after) (hchanges : Lacks c Y after)
      (hold : deltas c Y n (m.queued ++ before) = [])
      (hwait : ec.Waits X Y true) (hhist : m.history c X Y = [])
  | queued {n : ℕ} {list : Option P} {before after : List (Request P)}
      (hreg : ¬ m.Registers c) (hsnap : m.snapshots c X = some (n, list))
      (hqueue : m.taken ++ m.requests = before ++ listRequest c X n list :: after)
      (hbefore : Lacks c X before) (hafter : Lacks c X after)
      (hstores : ∀ t, Lacks c X (m.uncommitted t))
      (hold : deltas c Y n (m.processed ++ before) = [])
      (hnew : ∀ r ∈ after, r.Reaches c Y → n ≤ r.call)
      (hwait : ec.Waits X Y true) (hhist : m.history c X Y = [])
  | delivered {n : ℕ} {list : Option P} (hreg : ¬ m.Registers c)
      (hsnap : m.snapshots c X = some (n, list)) (hqueue : Lacks c X (m.taken ++ m.requests))
      (hstores : ∀ t, Lacks c X (m.uncommitted t))
      (hnew : ∀ r ∈ m.taken ++ m.requests, r.Reaches c Y → n ≤ r.call)
      (hwait : ec.Waits X Y false)
      (hhist : m.history c X Y = (X, list) :: deltas c Y n m.processed)

theorem Registers.of_eq {t : ℕ} {rest : List EvEvent} (h : m.registration = some ⟨t, c, rest⟩) :
    m.Registers c := ⟨_, h, rfl⟩

theorem Phase.lacks_store (h : m.Phase c X Y ec) {t : ℕ}
    (ht : ∀ rest, m.registration ≠ some ⟨t, c, rest⟩) : Lacks c X (m.uncommitted t) := by
  cases h with
  | announced hreg hX hsnap hqueue hstores hwait hhist => exact hstores t
  | copied hreg hX hsnap hqueue hstores hstore hbefore hafter hchanges hold hwait hhist =>
      apply hstores
      intro heq
      exact ht _ (heq ▸ hreg)
  | queued hreg hsnap hqueue hbefore hafter hstores hold hnew hwait hhist => exact hstores t
  | delivered hreg hsnap hqueue hstores hnew hwait hhist => exact hstores t

theorem Phase.frame (h : m.Phase c X Y ec) (rs : List (Request P))
    (hreg : m'.registration = m.registration ∨ ¬ m.Registers c ∧ ¬ m'.Registers c)
    (hsnap : m'.snapshots c X = m.snapshots c X) (happ : m'.appended c = m.appended c)
    (hproc : m'.processed = m.processed)
    (hqueue : m'.taken ++ m'.requests = (m.taken ++ m.requests) ++ rs)
    (hstores : ∀ t, m'.uncommitted t = m.uncommitted t ∨
      (∀ rest, m.registration ≠ some ⟨t, c, rest⟩) ∧ Lacks c X (m'.uncommitted t))
    (hrs : Lacks c X rs)
    (htimely : ∀ n list, m.snapshots c X = some (n, list) → ∀ r ∈ rs, r.Reaches c Y →
      (m.Registers c → r.call < n) ∧ (¬ m.Registers c → n ≤ r.call)) :
    m'.Phase c X Y ec := by
  have hhist' : m'.history c X Y = m.history c X Y := by rw [history, happ, history]
  have hstores' : ∀ t, Lacks c X (m.uncommitted t) → Lacks c X (m'.uncommitted t) := by
    intro t ht
    rcases hstores t with heq | hnew
    · rw [heq]
      exact ht
    · exact hnew.2
  have hregs : ¬ m.Registers c → ¬ m'.Registers c := by
    intro hno
    rcases hreg with heq | hboth
    · rw [Registers, heq]
      exact hno
    · exact hboth.2
  cases h with
  | announced hreg' hX hsnap' hqueue' hstores'' hwait hhist =>
      have heq := hreg.resolve_right fun hno => hno.1 (.of_eq hreg')
      exact .announced (heq.trans hreg') hX (hsnap.trans hsnap')
        (hqueue ▸ lacks_append.mpr ⟨hqueue', hrs⟩) (fun t => hstores' t (hstores'' t)) hwait
        (hhist'.trans hhist)
  | @copied t n rest list before after hreg' hX hsnap' hqueue' hstores'' hstore hbefore hafter
      hchanges hold hwait hhist =>
      have heq := hreg.resolve_right fun hno => hno.1 (.of_eq hreg')
      have hkeep : m'.uncommitted t = m.uncommitted t :=
        (hstores t).resolve_right fun hno => hno.1 rest hreg'
      have hold' : deltas c Y n (m'.queued ++ before) = [] := by
        have hnil : deltas c Y n rs = [] := deltas_eq_nil_iff.mpr fun r hr hY =>
          (htimely n list hsnap' r hr hY).1 (.of_eq hreg')
        rw [deltas_append, EventMaster.queued, deltas_append] at hold
        rw [deltas_append, EventMaster.queued, hproc, hqueue, deltas_append, deltas_append, hnil,
          List.append_nil]
        exact hold
      exact .copied (heq.trans hreg') hX (hsnap.trans hsnap')
        (hqueue ▸ lacks_append.mpr ⟨hqueue', hrs⟩) (fun t' ht' => hstores' t' (hstores'' t' ht'))
        (hkeep.trans hstore) hbefore hafter hchanges hold' hwait (hhist'.trans hhist)
  | @queued n list before after hreg' hsnap' hqueue' hbefore hafter hstores'' hold hnew hwait
      hhist =>
      have hqueue'' : m'.taken ++ m'.requests =
          before ++ listRequest c X n list :: (after ++ rs) := by
        rw [hqueue, hqueue', List.append_assoc, List.cons_append]
      have hnew' : ∀ r ∈ after ++ rs, r.Reaches c Y → n ≤ r.call := by
        intro r hr hY
        rcases List.mem_append.mp hr with hr | hr
        · exact hnew r hr hY
        · exact (htimely n list hsnap' r hr hY).2 hreg'
      exact .queued (hregs hreg') (hsnap.trans hsnap') hqueue'' hbefore
        (lacks_append.mpr ⟨hafter, hrs⟩) (fun t => hstores' t (hstores'' t)) (hproc ▸ hold) hnew'
        hwait (hhist'.trans hhist)
  | @delivered n list hreg' hsnap' hqueue' hstores'' hnew hwait hhist =>
      have hnew' : ∀ r ∈ m'.taken ++ m'.requests, r.Reaches c Y → n ≤ r.call := by
        intro r hr hY
        rw [hqueue] at hr
        rcases List.mem_append.mp hr with hr | hr
        · exact hnew r hr hY
        · exact (htimely n list hsnap' r hr hY).2 hreg'
      exact .delivered (hregs hreg') (hsnap.trans hsnap')
        (hqueue ▸ lacks_append.mpr ⟨hqueue', hrs⟩) (fun t => hstores' t (hstores'' t)) hnew' hwait
        (hhist'.trans (hproc ▸ hhist))

theorem Phase.same (h : m.Phase c X Y ec)
    (hreg : m'.registration = m.registration ∨ ¬ m.Registers c ∧ ¬ m'.Registers c)
    (hsnap : m'.snapshots c X = m.snapshots c X) (happ : m'.appended c = m.appended c)
    (hproc : m'.processed = m.processed)
    (hqueue : m'.taken ++ m'.requests = m.taken ++ m.requests)
    (hstores : ∀ t, m'.uncommitted t = m.uncommitted t ∨
      (∀ rest, m.registration ≠ some ⟨t, c, rest⟩) ∧ Lacks c X (m'.uncommitted t)) :
    m'.Phase c X Y ec := by
  apply h.frame [] hreg hsnap happ hproc (by rw [hqueue, List.append_nil]) hstores .nil
  intro n list _ r hr
  cases hr

theorem not_registers_of_ne {reg : Registration} (hreg : m.registration = some reg)
    (hne : reg.clientId ≠ c) : ¬ m.Registers c := by
  intro hregs
  obtain ⟨reg', hreg', hc⟩ := hregs
  rw [hreg] at hreg'
  cases hreg'
  exact hne hc

theorem totalUpdateEvent_clients (t clientId : ℕ) (type : EvEvent) :
    (m.totalUpdateEvent t clientId type).clients = m.clients := by
  unfold EventMaster.totalUpdateEvent
  split
  · rfl
  · split_ifs
    · rw [addListEventForClient_adds.clients]
      rfl
    · rfl

theorem totalUpdateEvent_other {t clientId : ℕ} {type : EvEvent} {rest : List EvEvent}
    (hreg : (m.transactions t).isTransaction = true ∧ clientId ≠ 0 ∧ (type :: rest).Nodup ∧
      ∀ T ∈ type :: rest, T ∈ totalUpdateEvents.map Prod.fst) (hc : clientId ≠ c) :
    (m.totalUpdateEvent t clientId type).snapshots c X = m.snapshots c X ∧
    (m.totalUpdateEvent t clientId type).appended c = m.appended c ∧
    (m.totalUpdateEvent t clientId type).processed = m.processed ∧
    (m.totalUpdateEvent t clientId type).taken ++ (m.totalUpdateEvent t clientId type).requests =
      m.taken ++ m.requests ∧
    ∀ t', (m.totalUpdateEvent t clientId type).uncommitted t' = m.uncommitted t' ∨
      t' = t ∧ ∃ r, ¬ r.Reaches c X ∧
        (m.totalUpdateEvent t clientId type).uncommitted t' = m.uncommitted t' ++ [r] := by
  unfold EventMaster.totalUpdateEvent
  split
  · exact ⟨rfl, rfl, rfl, rfl, fun t' => Or.inl rfl⟩
  · split_ifs with hsub
    · have hadd : AddsRequest (m.recordSnapshot clientId type) _ t
          (listRequest clientId type m.calls (m.lists type)) := addListEventForClient_adds
      have hopen : ((m.recordSnapshot clientId type).transactions t).isTransaction = true := hreg.1
      refine ⟨?_, by rw [hadd.appended]; rfl, hadd.processed, ?_, fun t' => ?_⟩
      · rw [hadd.snapshots]
        simp [recordSnapshot, Ne.symm hc]
      · rw [hadd.queue, if_pos hopen, List.append_nil]
        rfl
      · rw [hadd.stores]
        split_ifs with hsame
        · refine Or.inr ⟨hsame.1, _, ?_, rfl⟩
          exact fun hreach => hreach.1.elim hreg.2.1 hc
        · exact Or.inl rfl
    · exact ⟨rfl, rfl, rfl, rfl, fun t' => Or.inl rfl⟩

/-- The list is copied into the transaction of the registering thread. -/
theorem Phase.totalUpdateEvent (hwf : m.WellFormed) (hXY : Y ∈ blockRow X) {t : ℕ} {rest : List EvEvent}
    (hreg : m.registration = some ⟨t, c, T :: rest⟩) (hec : m.clients c = some ec)
    (hgets : ec.Gets X Y) (h : m.Phase c X Y ec) :
    EventMaster.Phase { m.totalUpdateEvent t c T with registration := some ⟨t, c, rest⟩ }
      c X Y ec := by
  have hlists := hwf.registering _ hreg
  have hopen : (m.transactions t).isTransaction = true := hlists.1
  have hnodup := List.nodup_cons.mp hlists.2.2.1
  have hT : T ≠ Y := fun heq =>
    change_not_mem_lists hXY (heq ▸ hlists.2.2.2 T List.mem_cons_self)
  by_cases hsub : ec.eventclientSubscribed T none = true
  · have hcopy : m.totalUpdateEvent t c T =
        (m.recordSnapshot c T).addListEventForClient t c T none (m.lists T) := by
      rw [EventMaster.totalUpdateEvent, hec]
      simp only [hsub, if_true]
    have hadd : AddsRequest (m.recordSnapshot c T)
        ((m.recordSnapshot c T).addListEventForClient t c T none (m.lists T)) t
        (listRequest c T m.calls (m.lists T)) := addListEventForClient_adds
    rw [← hcopy] at hadd
    generalize m.totalUpdateEvent t c T = m₁ at hadd
    have hqueue : m₁.taken ++ m₁.requests = m.taken ++ m.requests := by
      rw [hadd.queue, recordSnapshot, if_pos hopen, List.append_nil]
    have hqueued : m₁.queued = m.queued := by
      rw [EventMaster.queued, hqueue, hadd.processed]
      rfl
    have hhist : m₁.history c X Y = m.history c X Y := by
      rw [history, hadd.appended]
      rfl
    have hstore : m₁.uncommitted t = m.uncommitted t ++ [listRequest c T m.calls (m.lists T)] := by
      rw [hadd.stores, if_pos ⟨rfl, hopen⟩]
      rfl
    have hother : ∀ t', t' ≠ t → m₁.uncommitted t' = m.uncommitted t' := by
      intro t' hne
      rw [hadd.stores, if_neg (fun h => hne h.1)]
      rfl
    have hY : ¬ (listRequest c T m.calls (m.lists T)).Reaches c Y := fun hreach => hT hreach.2
    by_cases hTX : T = X
    · subst hTX
      have hsnap : m₁.snapshots c T = some (m.calls, m.lists T) := by
        rw [hadd.snapshots]
        simp [recordSnapshot]
      cases h with
      | announced hreg' hX hsnap' hqueue' hstores hwait hhist' =>
          have hold : deltas c Y m.calls (m₁.queued ++ m.uncommitted t) = [] := by
            rw [hqueued]
            apply deltas_of_valid
            intro r hr
            rcases List.mem_append.mp hr with hr | hr
            · exact hwf.valid r hr
            · exact hwf.validStores t r hr
          exact .copied rfl hnodup.1 hsnap (hqueue ▸ hqueue')
            (fun t' hne => (hother t' hne).symm ▸ hstores t') hstore (hstores t) .nil .nil hold hwait
            (hhist.trans hhist')
      | copied hreg' hX hsnap' hqueue' hstores hstore' hbefore hafter hchanges hold hwait hhist' =>
          rw [hreg] at hreg'
          cases hreg'
          exact absurd List.mem_cons_self hX
      | queued hreg' hsnap' hqueue' hbefore hafter hstores hold hnew hwait hhist' =>
          exact absurd (.of_eq hreg) hreg'
      | delivered hreg' hsnap' hqueue' hstores hnew hwait hhist' =>
          exact absurd (.of_eq hreg) hreg'
    · have hX : ¬ (listRequest c T m.calls (m.lists T)).Reaches c X := fun hreach => hTX hreach.2
      have hsnap : m₁.snapshots c X = m.snapshots c X := by
        rw [hadd.snapshots]
        simp [recordSnapshot, Ne.symm hTX]
      have hlacks : ∀ t', Lacks c X (m.uncommitted t') → Lacks c X (m₁.uncommitted t') := by
        intro t' ht'
        by_cases hne : t' = t
        · rw [hne, hstore]
          rw [hne] at ht'
          exact lacks_append.mpr ⟨ht', lacks_cons.mpr ⟨hX, .nil⟩⟩
        · rw [hother t' hne]
          exact ht'
      cases h with
      | announced hreg' hmem hsnap' hqueue' hstores hwait hhist' =>
          rw [hreg] at hreg'
          cases hreg'
          have hmem' : X ∈ rest := (List.mem_cons.mp hmem).resolve_left (Ne.symm hTX)
          exact .announced rfl hmem' (hsnap.trans hsnap') (hqueue ▸ hqueue')
            (fun t' => hlacks t' (hstores t')) hwait (hhist.trans hhist')
      | copied hreg' hmem hsnap' hqueue' hstores hstore' hbefore hafter hchanges hold hwait hhist' =>
          rw [hreg] at hreg'
          cases hreg'
          rw [hstore', List.append_assoc, List.cons_append] at hstore
          exact .copied rfl (fun hX' => hmem (List.mem_cons_of_mem _ hX')) (hsnap.trans hsnap')
            (hqueue ▸ hqueue') (fun t' hne => hlacks t' (hstores t' hne)) hstore hbefore
            (lacks_append.mpr ⟨hafter, lacks_cons.mpr ⟨hX, .nil⟩⟩)
            (lacks_append.mpr ⟨hchanges, lacks_cons.mpr ⟨hY, .nil⟩⟩) (hqueued ▸ hold) hwait
            (hhist.trans hhist')
      | queued hreg' hsnap' hqueue' hbefore hafter hstores hold hnew hwait hhist' =>
          exact absurd (.of_eq hreg) hreg'
      | delivered hreg' hsnap' hqueue' hstores hnew hwait hhist' =>
          exact absurd (.of_eq hreg) hreg'
  · have hcopy : m.totalUpdateEvent t c T = m := by
      rw [EventMaster.totalUpdateEvent, hec]
      simp only [hsub]
      rfl
    rw [hcopy]
    cases h with
    | announced hreg' hmem hsnap hqueue hstores hwait hhist =>
        rw [hreg] at hreg'
        cases hreg'
        have hTX : X ≠ T := by
          intro heq
          rw [← heq, EventClient.eventclientSubscribed_of_session hgets.session, hgets.list,
            hwait.list] at hsub
          exact hsub rfl
        exact .announced rfl ((List.mem_cons.mp hmem).resolve_left hTX) hsnap hqueue hstores hwait hhist
    | copied hreg' hmem hsnap hqueue hstores hstore hbefore hafter hchanges hold hwait hhist =>
        rw [hreg] at hreg'
        cases hreg'
        exact .copied rfl (fun hX => hmem (List.mem_cons_of_mem _ hX)) hsnap hqueue hstores hstore
          hbefore hafter hchanges hold hwait hhist
    | queued hreg' hsnap hqueue hbefore hafter hstores hold hnew hwait hhist =>
        exact absurd (.of_eq hreg) hreg'
    | delivered hreg' hsnap hqueue hstores hnew hwait hhist =>
        exact absurd (.of_eq hreg) hreg'

theorem Phase.endTotalUpdate (hwf : m.WellFormed) {t : ℕ}
    (hreg : m.registration = some ⟨t, c, []⟩) (h : m.Phase c X Y ec) :
    EventMaster.Phase { m.sgeCommit t with registration := none } c X Y ec := by
  have hopen : (m.transactions t).isTransaction = true := (hwf.registering _ hreg).1
  have hcommit : Commits m (m.sgeCommit t) t := sgeCommit_commits
  have hnone : ¬ EventMaster.Registers { m.sgeCommit t with registration := none } c := by
    simp [Registers]
  cases h with
  | announced hreg' hmem hsnap hqueue hstores hwait hhist =>
      rw [hreg] at hreg'
      cases hreg'
      cases hmem
  | @copied t' n rest list before after hreg' hmem hsnap hqueue hstores hstore hbefore hafter
      hchanges hold hwait hhist =>
      rw [hreg] at hreg'
      cases hreg'
      have hqueue' := hcommit.queue
      rw [if_pos hopen, hstore, ← List.append_assoc] at hqueue'
      have hstores' : ∀ t', Lacks c X ((m.sgeCommit t).uncommitted t') := by
        intro t'
        rw [hcommit.stores]
        split_ifs with hsame
        · exact .nil
        · exact hstores t' fun heq => hsame ⟨heq, hopen⟩
      have hold' : deltas c Y n ((m.sgeCommit t).processed ++ (m.taken ++ m.requests ++ before)) =
          [] := by
        rw [hcommit.processed, ← List.append_assoc]
        exact hold
      have hhist' : (m.sgeCommit t).history c X Y = [] := by
        rw [history, hcommit.appended]
        exact hhist
      exact .queued hnone (hcommit.snapshots ▸ hsnap) hqueue'
        (lacks_append.mpr ⟨hqueue, hbefore⟩) hafter hstores' hold'
        (fun r hr hY => absurd hY (hchanges r hr)) hwait hhist'
  | queued hreg' hsnap hqueue hbefore hafter hstores hold hnew hwait hhist =>
      exact absurd (.of_eq hreg) hreg'
  | delivered hreg' hsnap hqueue hstores hnew hwait hhist =>
      exact absurd (.of_eq hreg) hreg'

theorem history_append_other {added : List (Event P)} (happ : m'.appended c = m.appended c ++ added)
    (hadded : ∀ ev ∈ added, ev.type = T) (hX : T ≠ X) (hY : T ≠ Y) :
    m'.history c X Y = m.history c X Y := by
  have hnil : added.filter (fun ev => ev.type = X ∨ ev.type = Y) = [] := by
    apply List.filter_eq_nil_iff.mpr
    intro ev hev
    simp [hadded ev hev, hX, hY]
  rw [history, happ, List.filter_append, hnil, List.append_nil, history]

theorem history_append {added : List (Event P)} (happ : m'.appended c = m.appended c ++ added)
    (hadded : ∀ ev ∈ added, ev.type = T) (hT : T = X ∨ T = Y) :
    m'.history c X Y = m.history c X Y ++ added.map (fun ev => (ev.type, ev.newVersion)) := by
  have hall : added.filter (fun ev => ev.type = X ∨ ev.type = Y) = added := by
    apply List.filter_eq_self.mpr
    intro ev hev
    simp [hadded ev hev, hT]
  rw [history, happ, List.filter_append, hall, List.map_append, history]

/-- What a processed request does to the client, in terms of its two event types. -/
structure Handles (m m' : EventMaster P) (c : ℕ) (X Y : EvEvent) (ec ec' : EventClient P)
    (r : Request P) : Prop where
  list : ∀ n list, r = listRequest c X n list → ∀ blocked, ec.Waits X Y blocked →
    ec'.Waits X Y false ∧ m'.history c X Y = m.history c X Y ++ [(X, list)]
  change : r.Reaches c Y → ∀ blocked, ec.Waits X Y blocked → ec'.Waits X Y blocked ∧
    m'.history c X Y = m.history c X Y ++ if blocked then [] else deltas c Y 0 [r]
  other : ¬ r.Reaches c X → ¬ r.Reaches c Y → ∀ blocked, ec.Waits X Y blocked →
    ec'.Waits X Y blocked ∧ m'.history c X Y = m.history c X Y

theorem Phase.process {r : Request P} {ec' : EventClient P} (hXY : Y ∈ blockRow X)
    (h : m.Phase c X Y ec) (hnone : ¬ m.Registers c) (hreg : ¬ m'.Registers c)
    (hsnap : m'.snapshots c X = m.snapshots c X)
    (hqueue : m.taken ++ m.requests = r :: (m'.taken ++ m'.requests))
    (hproc : m'.processed = m.processed ++ [r])
    (hstores : ∀ t, m'.uncommitted t = m.uncommitted t)
    (hhandles : Handles m m' c X Y ec ec' r) : m'.Phase c X Y ec' := by
  have hne : r.Reaches c X → ¬ r.Reaches c Y := by
    intro hX hY
    cases r with
    | addEvent clientId session event call => exact list_ne_change hXY (hX.2.symm.trans hY.2)
    | ackEvent clientId number => exact hX
  cases h with
  | announced hreg' hX hsnap' hqueue' hstores' hwait hhist => exact absurd (.of_eq hreg') hnone
  | copied hreg' hX hsnap' hqueue' hstores' hstore hbefore hafter hchanges hold hwait hhist =>
      exact absurd (.of_eq hreg') hnone
  | @queued n list before after hreg' hsnap' hqueue' hbefore hafter hstores' hold hnew hwait
      hhist =>
      have hstores'' : ∀ t, Lacks c X (m'.uncommitted t) := fun t => hstores t ▸ hstores' t
      rw [hqueue] at hqueue'
      cases before with
      | nil =>
          obtain ⟨hr, hrest⟩ := List.cons.inj hqueue'
          obtain ⟨hwait', hhist'⟩ := hhandles.list n list hr true hwait
          have hdeltas : deltas c Y n m'.processed = [] := by
            have hrX : r.Reaches c X := hr ▸ ⟨Or.inr rfl, rfl⟩
            have hrY : Lacks c Y [r] := lacks_cons.mpr ⟨hne hrX, .nil⟩
            rw [List.append_nil] at hold
            rw [hproc, deltas_append, hold, hrY.deltas_eq_nil, List.append_nil]
          have hhist'' : m'.history c X Y = (X, list) :: deltas c Y n m'.processed := by
            rw [hhist', hhist, hdeltas]
            rfl
          exact .delivered hreg (hsnap.trans hsnap') (hrest ▸ hafter) hstores'' (hrest ▸ hnew) hwait'
            hhist''
      | cons r' before =>
          obtain ⟨hr, hrest⟩ := List.cons.inj hqueue'
          subst hr
          obtain ⟨hrX, hbefore'⟩ := lacks_cons.mp hbefore
          have hold' : deltas c Y n (m'.processed ++ before) = [] := by
            rw [hproc, List.append_assoc]
            exact hold
          have hsame : ec'.Waits X Y true ∧ m'.history c X Y = [] := by
            by_cases hrY : r.Reaches c Y
            · have hchange := hhandles.change hrY true hwait
              rw [hhist] at hchange
              exact hchange
            · have hother := hhandles.other hrX hrY true hwait
              rw [hhist] at hother
              exact hother
          exact .queued hreg (hsnap.trans hsnap') hrest hbefore' hafter hstores'' hold' hnew
            hsame.1 hsame.2
  | @delivered n list hreg' hsnap' hqueue' hstores' hnew hwait hhist =>
      rw [hqueue] at hqueue' hnew
      obtain ⟨hrX, hqueue''⟩ := lacks_cons.mp hqueue'
      have hnew' : ∀ r ∈ m'.taken ++ m'.requests, r.Reaches c Y → n ≤ r.call :=
        fun r' hr' => hnew r' (List.mem_cons_of_mem _ hr')
      have hnext : ec'.Waits X Y false ∧
          m'.history c X Y = (X, list) :: deltas c Y n m'.processed := by
        rw [hproc, deltas_append]
        by_cases hrY : r.Reaches c Y
        · have hchange := hhandles.change hrY false hwait
          rw [hhist] at hchange
          rw [deltas_of_le hrY (hnew r List.mem_cons_self hrY)]
          exact hchange
        · have hother := hhandles.other hrX hrY false hwait
          have hlacks : Lacks c Y [r] := lacks_cons.mpr ⟨hrY, .nil⟩
          rw [hhist] at hother
          rw [hlacks.deltas_eq_nil, List.append_nil]
          exact hother
      exact .delivered hreg (hsnap.trans hsnap') hqueue'' (fun t => hstores t ▸ hstores' t) hnew'
        hnext.1 hnext.2

theorem processSend_handles (hXY : Y ∈ blockRow X) {clientId call : ℕ} {session : Option String}
    {event : Event P} (hvalid : (Request.addEvent clientId session event call).Valid m.calls)
    (hec : m.clients c = some ec) (hid : clientId = 0 ∨ clientId = c) (hgets : ec.Gets X Y)
    (happ : m'.appended c = (m.processSend clientId session event).appended c) :
    Handles m m' c X Y ec (offer ec event session)
      (.addEvent clientId session event call) := by
  have happ' : m'.appended c =
      m.appended c ++ (offer ec event session).events.drop ec.events.length := by
    rw [happ]
    simp [EventMaster.processSend, hid, hec]
  have hsubscribed : ec.eventclientSubscribed event.type session =
      ((ec.subArray event.type).subscribed && !(ec.subArray event.type).blocked) :=
    EventClient.eventclientSubscribed_of_session hgets.session session
  have hdelta : event.type = Y → deltas c Y 0 [.addEvent clientId session event call] =
      [(event.type, event.newVersion)] := by
    intro htype
    simp [deltas, Request.delta, hid, htype]
  have hpass : ∀ blocked, ec.Waits X Y blocked →
      ec.eventclientSubscribed event.type session = true →
      (offer ec event session).Waits X Y (blocked && decide (event.type ≠ X)) ∧
      (event.type ≠ X → event.type ≠ Y → m'.history c X Y = m.history c X Y) ∧
      (event.type = X ∨ event.type = Y → (ec.subArray event.type).filter = none →
        m'.history c X Y = m.history c X Y ++ [(event.type, event.newVersion)]) := by
    intro blocked hwait hsub
    have hadds : ec.Adds event (offer ec event session) := by
      rw [offer, if_pos hsub]
      exact EventClient.addListEventDirect_adds hwait.state hvalid.2.1
    obtain ⟨added, hevents, htypes, hcontent⟩ := hadds.events
    rw [hevents, List.drop_left] at happ'
    exact ⟨hadds.waits hXY hvalid.2.2 hwait, fun hX hY => history_append_other happ' htypes hX hY,
      fun hXY' hfilter => (history_append happ' htypes hXY').trans (by rw [hcontent hfilter])⟩
  have hskip : ec.eventclientSubscribed event.type session ≠ true →
      offer ec event session = ec ∧ m'.history c X Y = m.history c X Y := by
    intro hsub
    have hoffer : offer ec event session = ec := by rw [offer, if_neg hsub]
    rw [hoffer, List.drop_length, List.append_nil] at happ'
    exact ⟨hoffer, by rw [history, happ', history]⟩
  constructor
  · intro n list hr blocked hwait
    cases hr
    have hsub : ec.eventclientSubscribed X none = true := by
      rw [hsubscribed, hgets.list, hwait.list]
      rfl
    obtain ⟨hwait', _, hhist⟩ := hpass blocked hwait hsub
    rw [decide_eq_false (not_not.mpr rfl), Bool.and_false] at hwait'
    exact ⟨hwait', hhist (Or.inl rfl) hgets.listFilter⟩
  · intro hreach blocked hwait
    have htype : event.type = Y := hreach.2
    have hX : event.type ≠ X := fun heq => list_ne_change hXY (heq.symm.trans htype)
    by_cases hsub : ec.eventclientSubscribed event.type session = true
    · obtain ⟨hwait', _, hhist⟩ := hpass blocked hwait hsub
      rw [hsubscribed, htype, hgets.change, hwait.change] at hsub
      have hblocked : blocked = false := by simpa using hsub
      rw [decide_eq_true hX, Bool.and_true] at hwait'
      rw [hhist (Or.inr htype) (htype ▸ hgets.changeFilter), hdelta htype, hblocked]
      exact ⟨hblocked ▸ hwait', rfl⟩
    · obtain ⟨hoffer, hhist⟩ := hskip hsub
      rw [hsubscribed, htype, hgets.change, hwait.change] at hsub
      have hblocked : blocked = true := by simpa using hsub
      rw [hoffer, hhist, hblocked]
      exact ⟨hblocked ▸ hwait, (List.append_nil _).symm⟩
  · intro hX hY blocked hwait
    have hX' : event.type ≠ X := fun heq => hX ⟨hid, heq⟩
    have hY' : event.type ≠ Y := fun heq => hY ⟨hid, heq⟩
    by_cases hsub : ec.eventclientSubscribed event.type session = true
    · obtain ⟨hwait', hhist, _⟩ := hpass blocked hwait hsub
      rw [decide_eq_true hX', Bool.and_true] at hwait'
      exact ⟨hwait', hhist hX' hY'⟩
    · obtain ⟨hoffer, hhist⟩ := hskip hsub
      rw [hoffer]
      exact ⟨hwait, hhist⟩

theorem handles_of_same {r : Request P} (hX : ¬ r.Reaches c X) (hY : ¬ r.Reaches c Y)
    (hhist : m'.appended c = m.appended c) {ec' : EventClient P}
    (hwait : ∀ blocked, ec.Waits X Y blocked → ec'.Waits X Y blocked) :
    Handles m m' c X Y ec ec' r := by
  have hsame : m'.history c X Y = m.history c X Y := by rw [history, hhist, history]
  constructor
  · intro n list hr
    exact absurd (hr ▸ ⟨Or.inr rfl, rfl⟩) hX
  · exact fun hreach => absurd hreach hY
  · exact fun _ _ blocked h => ⟨hwait blocked h, hsame⟩

end EventMaster

end GridEngine
