import GridEngine.EventMaster

/-!
# Requests and transactions

Which events a list of requests brings to a client, and what the operations of the threads change
in the state of the event master. Every request belongs to an earlier call, and a thread that
registers a client has an open transaction.
-/

namespace GridEngine

variable {P : Type*} {c n : ℕ} {X Y T : EvEvent}

section Requests
variable {r : Request P} {rs rs' : List (Request P)}

/-- The request brings an event of this type to the client. -/
def Request.Reaches (c : ℕ) (type : EvEvent) : Request P → Prop
  | .addEvent clientId _ event _ => (clientId = 0 ∨ clientId = c) ∧ event.type = type
  | .ackEvent _ _ => False

def Request.call : Request P → ℕ
  | .addEvent _ _ _ call => call
  | .ackEvent _ _ => 0

/-- The call that built the request is over, and the request is no special one. -/
def Request.Valid (calls : ℕ) : Request P → Prop
  | .addEvent _ _ event call => call < calls ∧ event.type ≠ .allEvents ∧ event.type ≠ .shutdown
  | .ackEvent _ _ => True

/-- What the request brings to the client under type `Y`, from call `n` on. -/
def Request.delta (c : ℕ) (Y : EvEvent) (n : ℕ) : Request P → Option (EvEvent × Option P)
  | .addEvent clientId _ event call =>
      if (clientId = 0 ∨ clientId = c) ∧ event.type = Y ∧ n ≤ call then
        some (event.type, event.newVersion)
      else none
  | .ackEvent _ _ => none

def deltas (c : ℕ) (Y : EvEvent) (n : ℕ) (rs : List (Request P)) : List (EvEvent × Option P) :=
  rs.filterMap (Request.delta c Y n)

theorem Request.delta_eq_none_iff : r.delta c Y n = none ↔ (r.Reaches c Y → r.call < n) := by
  cases r with
  | addEvent clientId session event call =>
      simp only [Request.delta, Request.Reaches, Request.call]
      split_ifs with h
      · simp only [false_iff, not_forall]
        exact ⟨⟨h.1, h.2.1⟩, by omega⟩
      · simp only [true_iff]
        intro hreach
        by_contra hn
        exact h ⟨hreach.1, hreach.2, by omega⟩
  | ackEvent clientId number => simp [Request.delta, Request.Reaches]

theorem deltas_append : deltas c Y n (rs ++ rs') = deltas c Y n rs ++ deltas c Y n rs' :=
  List.filterMap_append

/-- Requests bring no deltas when their calls were before `n`. -/
theorem deltas_eq_nil_iff : deltas c Y n rs = [] ↔ ∀ r ∈ rs, r.Reaches c Y → r.call < n := by
  simp only [deltas, List.filterMap_eq_nil_iff, Request.delta_eq_none_iff]

/-- No request brings the list to the client. -/
def Lacks (c : ℕ) (X : EvEvent) (rs : List (Request P)) : Prop := ∀ r ∈ rs, ¬ r.Reaches c X

theorem Lacks.nil : Lacks c X ([] : List (Request P)) := by simp [Lacks]

theorem lacks_append : Lacks c X (rs ++ rs') ↔ Lacks c X rs ∧ Lacks c X rs' :=
  List.forall_mem_append

theorem lacks_cons : Lacks c X (r :: rs) ↔ ¬ r.Reaches c X ∧ Lacks c X rs :=
  List.forall_mem_cons

theorem Lacks.deltas_eq_nil (h : Lacks c Y rs) : deltas c Y n rs = [] :=
  deltas_eq_nil_iff.mpr fun r hr hY => absurd hY (h r hr)

theorem Request.Valid.mono {r : Request P} {calls calls' : ℕ} (h : r.Valid calls)
    (hle : calls ≤ calls') : r.Valid calls' := by
  cases r with
  | addEvent clientId session event call => exact ⟨lt_of_lt_of_le h.1 hle, h.2⟩
  | ackEvent clientId number => trivial

theorem deltas_of_valid {rs : List (Request P)} (h : ∀ r ∈ rs, r.Valid n) :
    deltas c Y n rs = [] := by
  apply deltas_eq_nil_iff.mpr
  intro r hr hY
  cases r with
  | addEvent clientId session event call => exact (h _ hr).1
  | ackEvent clientId number => exact hY.elim

theorem deltas_of_le {r : Request P} (hY : r.Reaches c Y) (hn : n ≤ r.call) :
    deltas c Y n [r] = deltas c Y 0 [r] := by
  cases r with
  | addEvent clientId session event call =>
      simp only [Request.call] at hn
      simp [deltas, List.filterMap_cons, Request.delta, hn]
  | ackEvent clientId number => exact hY.elim

end Requests

namespace EventMaster
variable {m m' : EventMaster P} {ec : EventClient P} {op : EventMasterOp P}

/-- The requests a thread has not committed. -/
def uncommitted (m : EventMaster P) (thread : ℕ) : List (Request P) :=
  (m.transactions thread).transactionRequests

/-- The client is being registered. -/
def Registers (m : EventMaster P) (c : ℕ) : Prop :=
  ∃ reg, m.registration = some reg ∧ reg.clientId = c

/-- The request that carries the list. -/
def listRequest (c : ℕ) (X : EvEvent) (n : ℕ) (list : Option P) : Request P :=
  .addEvent c none ⟨0, X, list⟩ n

/-- What holds for all clients: a registering thread has an open transaction, and all requests are
of earlier calls. -/
structure WellFormed (m : EventMaster P) : Prop where
  registering : ∀ reg, m.registration = some reg →
    (m.transactions reg.thread).isTransaction = true ∧ reg.clientId ≠ 0 ∧ reg.lists.Nodup ∧
      ∀ type ∈ reg.lists, type ∈ totalUpdateEvents.map Prod.fst
  valid : ∀ r ∈ m.queued, r.Valid m.calls
  validStores : ∀ t, ∀ r ∈ m.uncommitted t, r.Valid m.calls

section Operations
variable {t : ℕ} {clientId : ℕ} {type : EvEvent} {session : Option String} {list : Option P}

theorem uncommitted_setTransaction {store : Transaction P} (t' : ℕ) :
    (m.setTransaction t store).uncommitted t' =
      if t' = t then store.transactionRequests else m.uncommitted t' := by
  unfold uncommitted setTransaction
  by_cases h : t' = t
  · subst h
    simp
  · simp [h]

/-- What `add_list_event_for_client` leaves alone, and the two places for the request. -/
structure AddsRequest (m m' : EventMaster P) (t : ℕ) (r : Request P) : Prop where
  registration : m'.registration = m.registration
  clients : m'.clients = m.clients
  appended : m'.appended = m.appended
  snapshots : m'.snapshots = m.snapshots
  processed : m'.processed = m.processed
  calls : m'.calls = m.calls + 1
  isTransaction : ∀ t', (m'.transactions t').isTransaction = (m.transactions t').isTransaction
  queue : m'.taken ++ m'.requests = (m.taken ++ m.requests) ++
    if (m.transactions t).isTransaction then [] else [r]
  stores : ∀ t', m'.uncommitted t' =
    if t' = t ∧ (m.transactions t).isTransaction then m.uncommitted t' ++ [r] else m.uncommitted t'

theorem addListEventForClient_adds :
    AddsRequest m (m.addListEventForClient t clientId type session list) t
      (.addEvent clientId session ⟨0, type, list⟩ m.calls) := by
  by_cases hopen : (m.transactions t).isTransaction = true
  · rw [addListEventForClient]
    simp only [hopen, if_true]
    refine ⟨rfl, rfl, rfl, rfl, rfl, rfl, fun t' => ?_, by simp [setTransaction, hopen],
      fun t' => ?_⟩
    · by_cases h : t' = t
      · subst h
        simp [setTransaction, hopen]
      · simp [setTransaction, h]
    · rw [uncommitted_setTransaction]
      by_cases h : t' = t
      · subst h
        simp [hopen, uncommitted]
      · simp [h, uncommitted]
  · rw [addListEventForClient]
    simp only [hopen]
    refine ⟨rfl, rfl, rfl, rfl, rfl, rfl, fun t' => rfl, by simp [hopen], fun t' => ?_⟩
    simp [hopen, uncommitted]

/-- What `sge_commit` leaves alone, and the move of the transaction. -/
structure Commits (m m' : EventMaster P) (t : ℕ) : Prop where
  registration : m'.registration = m.registration
  clients : m'.clients = m.clients
  appended : m'.appended = m.appended
  snapshots : m'.snapshots = m.snapshots
  processed : m'.processed = m.processed
  calls : m'.calls = m.calls
  isTransaction : ∀ t', t' ≠ t →
    (m'.transactions t').isTransaction = (m.transactions t').isTransaction
  queue : m'.taken ++ m'.requests = (m.taken ++ m.requests) ++
    if (m.transactions t).isTransaction then m.uncommitted t else []
  stores : ∀ t', m'.uncommitted t' =
    if t' = t ∧ (m.transactions t).isTransaction then [] else m.uncommitted t'

theorem sgeCommit_commits : Commits m (m.sgeCommit t) t := by
  by_cases hopen : (m.transactions t).isTransaction = true
  · rw [sgeCommit]
    simp only [hopen, if_true]
    refine ⟨rfl, rfl, rfl, rfl, rfl, rfl, fun t' h => by simp [setTransaction, h],
      by simp [setTransaction, uncommitted, hopen], fun t' => ?_⟩
    rw [uncommitted_setTransaction]
    by_cases h : t' = t <;> simp [h, hopen, uncommitted]
  · rw [sgeCommit]
    simp only [hopen]
    exact ⟨rfl, rfl, rfl, rfl, rfl, rfl, fun t' h => rfl, by simp [hopen], fun t' => by simp [hopen]⟩

/-- What `sge_set_commit_required` leaves alone. -/
structure Opens (m m' : EventMaster P) (t : ℕ) : Prop where
  registration : m'.registration = m.registration
  clients : m'.clients = m.clients
  appended : m'.appended = m.appended
  snapshots : m'.snapshots = m.snapshots
  processed : m'.processed = m.processed
  taken : m'.taken = m.taken
  requests : m'.requests = m.requests
  calls : m'.calls = m.calls
  isTransaction : ∀ t', (m'.transactions t').isTransaction = true ↔
    t' = t ∨ (m.transactions t').isTransaction = true
  stores : ∀ t', m'.uncommitted t' = m.uncommitted t'

theorem sgeSetCommitRequired_opens : Opens m (m.sgeSetCommitRequired t) t := by
  by_cases hopen : (m.transactions t).isTransaction = true
  · rw [sgeSetCommitRequired]
    simp only [hopen, if_true]
    refine ⟨rfl, rfl, rfl, rfl, rfl, rfl, rfl, rfl, fun t' => ⟨Or.inr, fun h => ?_⟩, fun t' => rfl⟩
    rcases h with rfl | h
    · exact hopen
    · exact h
  · rw [sgeSetCommitRequired]
    simp only [hopen]
    refine ⟨rfl, rfl, rfl, rfl, rfl, rfl, rfl, rfl, fun t' => ?_, fun t' => ?_⟩
    · by_cases h : t' = t <;> simp [setTransaction, h]
    · simp only [Bool.false_eq_true, if_false, uncommitted_setTransaction]
      by_cases h : t' = t <;> simp [h, uncommitted]

end Operations

/-- The requests of the other state have been requests before, or are valid. -/
theorem WellFormed.of_requests (h : m.WellFormed) (hcalls : m.calls ≤ m'.calls)
    (hreg : ∀ reg, m'.registration = some reg →
      (m'.transactions reg.thread).isTransaction = true ∧ reg.clientId ≠ 0 ∧ reg.lists.Nodup ∧
        ∀ type ∈ reg.lists, type ∈ totalUpdateEvents.map Prod.fst)
    (hqueue : ∀ r ∈ m'.queued, r ∈ m.queued ∨ (∃ t, r ∈ m.uncommitted t) ∨ r.Valid m'.calls)
    (hstores : ∀ t, ∀ r ∈ m'.uncommitted t, r ∈ m.uncommitted t ∨ r.Valid m'.calls) :
    m'.WellFormed := by
  constructor
  · exact hreg
  · intro r hr
    rcases hqueue r hr with hr | ⟨t, hr⟩ | hr
    · exact (h.valid r hr).mono hcalls
    · exact (h.validStores t r hr).mono hcalls
    · exact hr
  · intro t r hr
    rcases hstores t r hr with hr | hr
    · exact (h.validStores t r hr).mono hcalls
    · exact hr

theorem initial_wellFormed {lists : EvEvent → Option P} :
    (EventMaster.initial lists).WellFormed := by
  constructor
  · intro reg hreg
    cases hreg
  · intro r hr
    cases hr
  · intro t r hr
    cases hr

theorem WellFormed.addsRequest (h : m.WellFormed) {t : ℕ} {r : Request P}
    (hadd : AddsRequest m m' t r) (hr : r.Valid m'.calls) : m'.WellFormed := by
  apply h.of_requests (by rw [hadd.calls]; omega)
  · intro reg hreg
    rw [hadd.registration] at hreg
    rw [hadd.isTransaction]
    exact h.registering reg hreg
  · intro r' hr'
    rw [queued, hadd.queue, hadd.processed, ← List.append_assoc] at hr'
    rcases List.mem_append.mp hr' with hr' | hr'
    · exact Or.inl hr'
    · split_ifs at hr' with hopen
      · cases hr'
      · rw [List.mem_singleton.mp hr']
        exact Or.inr (Or.inr hr)
  · intro t' r' hr'
    rw [hadd.stores] at hr'
    split_ifs at hr' with hopen
    · rcases List.mem_append.mp hr' with hr' | hr'
      · exact Or.inl hr'
      · rw [List.mem_singleton.mp hr']
        exact Or.inr hr
    · exact Or.inl hr'

theorem WellFormed.commits (h : m.WellFormed) {t : ℕ} (hcommit : Commits m m' t)
    (hreg : ∀ reg, m'.registration = some reg → m.registration = some reg ∧ reg.thread ≠ t) :
    m'.WellFormed := by
  apply h.of_requests (le_of_eq hcommit.calls.symm)
  · intro reg hreg'
    obtain ⟨hm, hne⟩ := hreg reg hreg'
    rw [hcommit.isTransaction _ hne]
    exact h.registering reg hm
  · intro r hr
    rw [queued, hcommit.queue, hcommit.processed, ← List.append_assoc] at hr
    rcases List.mem_append.mp hr with hr | hr
    · exact Or.inl hr
    · split_ifs at hr with hopen
      · exact Or.inr (Or.inl ⟨t, hr⟩)
      · cases hr
  · intro t' r hr
    rw [hcommit.stores] at hr
    split_ifs at hr with hopen
    · cases hr
    · exact Or.inl hr

theorem isFree_iff {t : ℕ} :
    m.isFree t = true ↔ ∀ reg, m.registration = some reg → reg.thread ≠ t := by
  unfold isFree
  cases m.registration with
  | none => simp
  | some reg => simp

theorem WellFormed.step (h : m.WellFormed) (hs : m.step op = some m') : m'.WellFormed := by
  cases op with
  | changeList type list =>
      cases hs
      exact ⟨h.registering, h.valid, h.validStores⟩
  | setCommitRequired t =>
      simp only [EventMaster.step] at hs
      split_ifs at hs with hfree
      cases hs
      have hopen := sgeSetCommitRequired_opens (m := m) (t := t)
      refine h.of_requests (le_of_eq hopen.calls.symm) ?_ ?_ ?_
      · intro reg hreg
        rw [hopen.registration] at hreg
        rw [hopen.isTransaction]
        obtain ⟨htrans, hrest⟩ := h.registering reg hreg
        exact ⟨Or.inr htrans, hrest⟩
      · intro r hr
        rw [queued, hopen.processed, hopen.taken, hopen.requests] at hr
        exact Or.inl hr
      · intro t' r hr
        rw [hopen.stores] at hr
        exact Or.inl hr
  | addEvent t clientId type session list =>
      simp only [EventMaster.step] at hs
      split_ifs at hs with hguard
      cases hs
      apply h.addsRequest addListEventForClient_adds
      have hchange := hguard.2
      simp only [isChangeEvent, Bool.and_eq_true, decide_eq_true_eq] at hchange
      exact ⟨by rw [addListEventForClient_adds.calls]; omega, hchange.1.1, hchange.1.2⟩
  | commit t =>
      simp only [EventMaster.step] at hs
      split_ifs at hs with hfree
      cases hs
      apply h.commits sgeCommit_commits
      intro reg hreg
      rw [sgeCommit_commits.registration] at hreg
      exact ⟨hreg, isFree_iff.mp hfree reg hreg⟩
  | handleEventAck clientId number =>
      cases hs
      refine h.of_requests le_rfl h.registering ?_ ?_
      · intro r hr
        simp only [queued] at hr ⊢
        rw [← List.append_assoc, ← List.append_assoc] at hr
        rcases List.mem_append.mp hr with hr | hr
        · rw [List.append_assoc] at hr
          exact Or.inl hr
        · rw [List.mem_singleton.mp hr]
          exact Or.inr (Or.inr trivial)
      · exact fun t r hr => Or.inl hr
  | addEventClient t clientId clio =>
      simp only [EventMaster.step] at hs
      split_ifs at hs with hguard
      cases hs
      have hopen : Opens (m.chainIn t clientId clio) (m.addEventClient t clientId clio) t :=
        sgeSetCommitRequired_opens
      refine h.of_requests (le_of_eq hopen.calls.symm) ?_ ?_ ?_
      · intro reg hreg
        rw [hopen.registration] at hreg
        cases hreg
        exact ⟨(hopen.isTransaction t).mpr (Or.inl rfl), hguard.2, lists_nodup, fun _ => id⟩
      · intro r hr
        rw [queued, hopen.processed, hopen.taken, hopen.requests] at hr
        exact Or.inl hr
      · intro t' r hr
        rw [hopen.stores] at hr
        exact Or.inl hr
  | totalUpdateEvent =>
      simp only [EventMaster.step] at hs
      split at hs
      · rename_i t clientId type rest hreg
        cases hs
        have hlists := h.registering _ hreg
        have htype := hlists.2.2.2 type List.mem_cons_self
        have hkeep : (m.totalUpdateEvent t clientId type).WellFormed ∧
            ∀ t', ((m.totalUpdateEvent t clientId type).transactions t').isTransaction =
              (m.transactions t').isTransaction := by
          unfold totalUpdateEvent
          split
          · exact ⟨h, fun _ => rfl⟩
          · split_ifs with hsub
            · have hadd : AddsRequest (m.recordSnapshot clientId type) _ t
                  (listRequest clientId type m.calls (m.lists type)) := addListEventForClient_adds
              have hrecord : (m.recordSnapshot clientId type).WellFormed :=
                ⟨h.registering, h.valid, h.validStores⟩
              exact ⟨hrecord.addsRequest hadd ⟨hadd.calls ▸ Nat.lt_succ_self _, lists_ne type htype⟩,
                hadd.isTransaction⟩
            · exact ⟨h, fun _ => rfl⟩
        refine ⟨fun reg hreg' => ?_, hkeep.1.valid, hkeep.1.validStores⟩
        cases hreg'
        refine ⟨(hkeep.2 t).trans hlists.1, hlists.2.1, (List.nodup_cons.mp hlists.2.2.1).2, ?_⟩
        exact fun type' hmem => hlists.2.2.2 type' (List.mem_cons_of_mem _ hmem)
      · cases hs
  | endTotalUpdate =>
      simp only [EventMaster.step] at hs
      split at hs
      · rename_i t clientId hreg
        cases hs
        have hcommit := sgeCommit_commits (m := m) (t := t)
        refine h.of_requests (le_of_eq hcommit.calls.symm) ?_ ?_ ?_
        · intro reg hreg'
          cases hreg'
        · intro r hr
          simp only [queued] at hr
          rw [hcommit.queue, hcommit.processed, ← List.append_assoc] at hr
          rcases List.mem_append.mp hr with hr | hr
          · exact Or.inl hr
          · split_ifs at hr with hopen
            · exact Or.inr (Or.inl ⟨t, hr⟩)
            · cases hr
        · intro t' r hr
          simp only [uncommitted] at hr
          have hstores := hcommit.stores t'
          simp only [uncommitted] at hstores
          rw [hstores] at hr
          split_ifs at hr with hopen
          · cases hr
          · exact Or.inl hr
      · cases hs
  | removeEventClient clientId =>
      simp only [EventMaster.step] at hs
      split_ifs at hs with hguard
      cases hs
      exact ⟨h.registering, h.valid, h.validStores⟩
  | takeRequests =>
      simp only [EventMaster.step] at hs
      split_ifs at hs with htaken
      cases hs
      rw [List.isEmpty_iff] at htaken
      refine h.of_requests le_rfl h.registering ?_ ?_
      · intro r hr
        simp only [queued, List.append_nil] at hr
        simp only [queued, htaken, List.nil_append]
        exact Or.inl hr
      · exact fun t r hr => Or.inl hr
  | processRequest =>
      simp only [EventMaster.step] at hs
      split_ifs at hs with hfree
      split at hs
      · cases hs
      · rename_i request rest htaken
        cases hs
        have hsame : (m.processRequest request).calls = m.calls ∧
            (m.processRequest request).registration = m.registration ∧
            (m.processRequest request).transactions = m.transactions ∧
            (m.processRequest request).requests = m.requests := by
          cases request <;> exact ⟨rfl, rfl, rfl, rfl⟩
        obtain ⟨hcalls, hregs, htrans, hreqs⟩ := hsame
        refine h.of_requests (le_of_eq hcalls.symm) ?_ ?_ ?_
        · intro reg hreg
          simp only [hregs] at hreg
          simp only [htrans]
          exact h.registering reg hreg
        · intro r hr
          simp only [queued, hreqs] at hr
          simp only [queued, htaken]
          left
          simpa using hr
        · intro t r hr
          simp only [uncommitted, htrans] at hr
          exact Or.inl hr

end EventMaster

end GridEngine
