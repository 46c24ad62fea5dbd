import GridEngine.EventClient
import GridEngine.RangeSets
import GridEngine.PeSlots
import GridEngine.Machine

/-!
# Ids of dynamic event clients

`client_ids` is the range list of the ids that no event client has. `sge_add_event_client` takes
its first id, `remove_event_client` returns the id that it is called with, and
`sge_set_max_dynamic_event_clients` builds the list anew. When a client registers from the address
of a registered one the old client is removed under the id of the request, which is `EV_ID_ANY`.
-/

namespace GridEngine
open Segments Machine

/-- `EV_ID_ANY` and `EV_ID_FIRST_DYNAMIC`. -/
def evIdAny : ℕ := 0

def evIdFirstDynamic : ℕ := 11

/-- `EVENT_MASTER_MIN_FREE_DESCRIPTORS`. -/
def eventMasterMinFreeDescriptors : ℕ := 25

/-- What the event master reads of a registered `EV_Type` element. -/
structure EvClient where
  id : ℕ
  host : String
  commproc : String
  commid : ℕ
  state : EvState
deriving DecidableEq

/-- A registration; `allowed` says that it comes from an internal client or a manager. -/
structure Clio where
  id : ℕ
  host : String
  commproc : String
  commid : ℕ
  changed : Bool
  subscribed : Bool
  allowed : Bool

/-- The fields of `Event_Master_Control` that hold the clients and the ids. -/
structure EventMasterControl where
  maxEventClients : ℕ
  isPrepareShutdown : Bool
  clients : List EvClient
  clientIds : Option (List Range)
deriving DecidableEq

inductive AnStatus
  | ok | esemantic
deriving DecidableEq

/-- `range_list_is_empty`. -/
def rangeListIsEmpty (l : Option (List Range)) : Bool := rangeListGetNumberOfIds (l.getD []) = 0

namespace EventMasterControl

variable (srt : PSortList Range Range.min) (sgeHostcmp : String → String → ℤ)

def allocateNewDynamicId (m : EventMasterControl) : ℕ × EventMasterControl :=
  if rangeListIsEmpty m.clientIds then (0, m)
  else
    let id := rangeListGetFirstId (m.clientIds.getD [])
    if id ≠ 0 then
      (id, { m with clientIds := (rangeListRemoveId m.clientIds id).map rangeListCompress })
    else (id, m)

def freeDynamicId (m : EventMasterControl) (id : ℕ) : EventMasterControl :=
  if id < wadd m.maxEventClients evIdFirstDynamic then
    { m with clientIds := (rangeListInsertIdOpt srt m.clientIds id).map rangeListCompress }
  else m

/-- `remove_event_client`, with the clients that are left. The id is an `int` there. -/
def removeEventClient (m : EventMasterControl) (rest : List EvClient) (eventClientId : ℕ) :
    EventMasterControl :=
  let m := { m with clients := rest }
  if toInt eventClientId ≥ evIdFirstDynamic then freeDynamicId srt m eventClientId else m

/-- The test of `eventclient_list_locate_by_adress`. -/
def hasAdress (clio : Clio) (ep : EvClient) : Bool :=
  ep.commid = clio.commid ∧ sgeHostcmp ep.host clio.host = 0 ∧ ep.commproc = clio.commproc

def appendClient (m : EventMasterControl) (id : ℕ) (clio : Clio) : EventMasterControl :=
  { m with clients := m.clients ++ [⟨id, clio.host, clio.commproc, clio.commid, .connected⟩] }

/-- `sge_add_event_client`. -/
def sgeAddEventClient (m : EventMasterControl) (clio : Clio) : AnStatus × EventMasterControl :=
  if clio.id ≥ evIdFirstDynamic then (.esemantic, m)
  else if clio.changed ∧ ¬ clio.subscribed then (.esemantic, m)
  else if m.isPrepareShutdown then (.esemantic, m)
  else if clio.id = evIdAny then
    let m :=
      if m.clients.any (hasAdress sgeHostcmp clio) then
        removeEventClient srt m (m.clients.eraseP (hasAdress sgeHostcmp clio)) clio.id
      else m
    let r := allocateNewDynamicId m
    if r.1 = 0 then (.esemantic, r.2) else (.ok, appendClient r.2 r.1 clio)
  else if ¬ clio.allowed then (.esemantic, m)
  else
    let m :=
      if m.clients.any (fun ep => ep.id = clio.id) then
        removeEventClient srt m (m.clients.eraseP fun ep => ep.id = clio.id) clio.id
      else m
    (.ok, appendClient m clio.id clio)

/-- The state of the first client with this id becomes `EV_terminated`. -/
def terminate (eventClientId : ℕ) : List EvClient → List EvClient
  | [] => []
  | client :: rest =>
      if client.id = eventClientId then { client with state := .terminated } :: rest
      else client :: terminate eventClientId rest

/-- `sge_remove_event_client`. -/
def sgeRemoveEventClient (m : EventMasterControl) (eventClientId : ℕ) : EventMasterControl :=
  { m with clients := terminate eventClientId m.clients }

/-- The loop of `sge_event_master_send_events`; `timedOut` says which clients have timed out, by
their places in the list. -/
def sendLoop (timedOut : ℕ → Bool) (m : EventMasterControl) (place : ℕ) (kept : List EvClient) :
    List EvClient → EventMasterControl
  | [] => m
  | client :: rest =>
      if client.state = .terminated ∨ timedOut place then
        sendLoop timedOut (removeEventClient srt m (kept ++ rest) client.id) (place + 1) kept rest
      else sendLoop timedOut m (place + 1) (kept ++ [client]) rest

def sgeEventMasterSendEvents (timedOut : ℕ → Bool) (m : EventMasterControl) : EventMasterControl :=
  sendLoop srt timedOut m 0 [] m.clients

/-- The maximum after the check against the file handles of the commlib handle, if there is one. -/
def allowedMax (m : EventMasterControl) (newValue : ℕ) (maxFileHandles : Option ℕ) : ℕ :=
  if newValue ≠ m.maxEventClients then
    match maxFileHandles with
    | none => newValue
    | some handles =>
        let maxAllowed :=
          if handles ≥ eventMasterMinFreeDescriptors then
            wsub (handles % 2 ^ 32) eventMasterMinFreeDescriptors
          else 1
        if newValue > maxAllowed then maxAllowed else newValue
  else newValue

/-- The loop over the clients that takes their ids out of the new list. -/
def removeHeldIds (clientIds : Option (List Range)) (clients : List EvClient) :
    Option (List Range) :=
  clients.foldl (fun clientIds client =>
    if client.id ≥ evIdFirstDynamic ∧ rangeListIsIdWithin (clientIds.getD []) client.id then
      rangeListRemoveId clientIds client.id
    else clientIds) clientIds

/-- `sge_set_max_dynamic_event_clients`. -/
def sgeSetMaxDynamicEventClients (m : EventMasterControl) (newValue : ℕ)
    (maxFileHandles : Option ℕ) : EventMasterControl :=
  let max := allowedMax m newValue maxFileHandles
  if max ≠ m.maxEventClients then
    let newRange := rangeSetAllIds evIdFirstDynamic (wadd (wsub max 1) evIdFirstDynamic) 1
    { m with
      maxEventClients := max
      clientIds := (removeHeldIds (some [newRange]) m.clients).map rangeListCompress }
  else m

/-- `sge_event_master_init`. -/
def init : EventMasterControl := ⟨0, false, [], some []⟩

end EventMasterControl

/-- The calls, with what the commlib handle says and the clients that have timed out. -/
inductive EventIdOp
  | setMax (newValue : ℕ) (maxFileHandles : Option ℕ)
  | add (clio : Clio)
  | remove (eventClientId : ℕ)
  | sendEvents (timedOut : ℕ → Bool)

namespace EventMasterControl

section Steps
variable (srt : PSortList Range Range.min) (sgeHostcmp : String → String → ℤ)

def next (m : EventMasterControl) : EventIdOp → EventMasterControl
  | .setMax newValue maxFileHandles => sgeSetMaxDynamicEventClients m newValue maxFileHandles
  | .add clio => (sgeAddEventClient srt sgeHostcmp m clio).2
  | .remove eventClientId => sgeRemoveEventClient m eventClientId
  | .sendEvents timedOut => sgeEventMasterSendEvents srt timedOut m

/-- The ids that the maximum admits. -/
def admitted (m : EventMasterControl) : Set ℕ :=
  {id | evIdFirstDynamic ≤ id ∧ id ≤ evIdFirstDynamic + m.maxEventClients - 1 ∧ 1 ≤ m.maxEventClients}

def holds (m : EventMasterControl) (id : ℕ) : Prop := ∃ client ∈ m.clients, client.id = id

/-- No dynamic id is held twice, the free ids are those that nobody holds, and a registration is
refused only if all ids are held. -/
structure Conserved (m : EventMasterControl) : Prop where
  unique : m.clients.Pairwise fun a b => evIdFirstDynamic ≤ a.id → a.id ≠ b.id
  free : ids (m.clientIds.getD []) = {id | id ∈ m.admitted ∧ ¬ m.holds id}
  refused : ∀ clio : Clio, clio.id = evIdAny → (clio.changed → clio.subscribed) →
    (sgeAddEventClient srt sgeHostcmp m clio).1 ≠ .ok → ∀ id ∈ m.admitted, m.holds id

/-- No client registers from the address of one that holds an admitted id, and the ids are
positive as an `int`. -/
def Keeps (m : EventMasterControl) : EventIdOp → Prop
  | .setMax newValue maxFileHandles =>
      evIdFirstDynamic + m.allowedMax newValue maxFileHandles ≤ 2 ^ 31
  | .add clio => clio.id = evIdAny →
      ∀ client, m.clients.find? (hasAdress sgeHostcmp clio) = some client → client.id ∉ m.admitted
  | _ => True

end Steps

section Invariant
variable {srt : PSortList Range Range.min} {sgeHostcmp : String → String → ℤ}
variable {m : EventMasterControl} {clients rest : List EvClient} {client : EvClient} {id : ℕ}

/-- The list is canonical, or the maximum is 0 and its only range ends before it begins. -/
def ListOk (m : EventMasterControl) : Prop :=
  Canonical (m.clientIds.getD []) ∨
    (m.maxEventClients = 0 ∧ m.clientIds = some [⟨evIdFirstDynamic, 10, 1⟩])

structure Inv (m : EventMasterControl) : Prop where
  running : m.isPrepareShutdown = false
  bounded : evIdFirstDynamic + m.maxEventClients ≤ 2 ^ 31
  list : m.ListOk
  small : ∀ client ∈ m.clients, client.id < 2 ^ 31
  unique : m.clients.Pairwise fun a b => evIdFirstDynamic ≤ a.id → a.id ≠ b.id
  free : ids (m.clientIds.getD []) = {id | id ∈ m.admitted ∧ ¬ m.holds id}

theorem init_inv : Inv init where
  running := rfl
  bounded := by norm_num [init, evIdFirstDynamic]
  list := .inl Canonical.nil
  small := by simp [init]
  unique := List.Pairwise.nil
  free := by simp [init, admitted]

theorem unique_perm {l l' : List EvClient} (h : l.Perm l') :
    l.Pairwise (fun a b => evIdFirstDynamic ≤ a.id → a.id ≠ b.id) ↔
      l'.Pairwise (fun a b => evIdFirstDynamic ≤ a.id → a.id ≠ b.id) := by
  apply h.pairwise_iff
  intro a b hab hb heq
  exact hab (heq ▸ hb) heq.symm

/-- A client without an admitted id may go without its id being returned. -/
theorem Inv.drop (h : m.Inv) (hperm : m.clients.Perm (client :: rest))
    (hid : client.id ∉ m.admitted) : Inv { m with clients := rest } := by
  have hmem : ∀ c, c ∈ m.clients ↔ c = client ∨ c ∈ rest := fun c => by
    rw [hperm.mem_iff, List.mem_cons]
  refine ⟨h.running, h.bounded, h.list, fun c hc => h.small c ((hmem c).mpr (.inr hc)), ?_, ?_⟩
  · exact (List.pairwise_cons.mp ((unique_perm hperm).mp h.unique)).2
  · rw [h.free]
    ext x
    constructor
    · rintro ⟨hx, hfree⟩
      exact ⟨hx, fun ⟨c, hc, hcx⟩ => hfree ⟨c, (hmem c).mpr (.inr hc), hcx⟩⟩
    · rintro ⟨hx, hfree⟩
      refine ⟨hx, fun ⟨c, hc, hcx⟩ => ?_⟩
      rcases (hmem c).mp hc with rfl | hc
      · exact hid (hcx ▸ hx)
      · exact hfree ⟨c, hc, hcx⟩

theorem Inv.remove (h : m.Inv) (hperm : m.clients.Perm (client :: rest)) :
    Inv (removeEventClient srt m rest client.id) := by
  have hmem : ∀ c, c ∈ m.clients ↔ c = client ∨ c ∈ rest := fun c => by
    rw [hperm.mem_iff, List.mem_cons]
  have hsmall := h.small client ((hmem client).mpr (.inl rfl))
  have hbounded := h.bounded
  unfold removeEventClient
  simp only [toInt_eq hsmall]
  by_cases hdyn : evIdFirstDynamic ≤ client.id
  · rw [if_pos (by exact_mod_cast hdyn), freeDynamicId]
    have hsum : wadd m.maxEventClients evIdFirstDynamic = m.maxEventClients + evIdFirstDynamic :=
      wadd_eq (by omega)
    simp only [hsum]
    by_cases hlt : client.id < m.maxEventClients + evIdFirstDynamic
    · rw [if_pos hlt]
      have hin : client.id ∈ m.admitted := ⟨hdyn, by omega, by omega⟩
      have hcan : Canonical (m.clientIds.getD []) := by
        rcases h.list with hcan | ⟨hzero, -⟩
        · exact hcan
        · exact absurd hin.2.2 (by omega)
      obtain ⟨hins, hinsIds⟩ := rangeListInsertIdOpt_spec srt hcan hsmall
      obtain ⟨hcomp, hcompIds⟩ := compressOpt_spec hins
      have hpair := (unique_perm hperm).mp h.unique
      obtain ⟨hother, hrest⟩ := List.pairwise_cons.mp hpair
      refine ⟨h.running, hbounded, .inl hcomp, fun c hc => h.small c ((hmem c).mpr (.inr hc)),
        hrest, ?_⟩
      rw [hcompIds, hinsIds, h.free]
      ext x
      constructor
      · rintro (rfl | ⟨hx, hfree⟩)
        · exact ⟨hin, fun ⟨c, hc, hcx⟩ => hother c hc hdyn hcx.symm⟩
        · exact ⟨hx, fun ⟨c, hc, hcx⟩ => hfree ⟨c, (hmem c).mpr (.inr hc), hcx⟩⟩
      · rintro ⟨hx, hfree⟩
        by_cases heq : x = client.id
        · exact .inl heq
        · refine .inr ⟨hx, fun ⟨c, hc, hcx⟩ => ?_⟩
          rcases (hmem c).mp hc with rfl | hc
          · exact heq hcx.symm
          · exact hfree ⟨c, hc, hcx⟩
    · rw [if_neg hlt]
      exact h.drop hperm fun hin => hlt (by have := hin.2.1; have := hin.2.2; omega)
  · rw [if_neg (by exact_mod_cast hdyn)]
    exact h.drop hperm fun hin => hdyn hin.1

theorem ids_noRange : ids [(⟨evIdFirstDynamic, 10, 1⟩ : Range)] = ∅ := by
  rw [ids_cons, ids_nil, Set.union_empty, Range.ids]
  exact segment_eq_empty (by norm_num [evIdFirstDynamic])

theorem Inv.isEmpty_iff (h : m.Inv) :
    rangeListIsEmpty m.clientIds = true ↔ ∀ id ∈ m.admitted, m.holds id := by
  have hfree : (ids (m.clientIds.getD []) = ∅) ↔ ∀ id ∈ m.admitted, m.holds id := by
    rw [h.free, Set.eq_empty_iff_forall_notMem]
    constructor
    · intro hnone id hid
      by_contra hnot
      exact hnone id ⟨hid, hnot⟩
    · rintro hall id ⟨hid, hnot⟩
      exact hnot (hall id hid)
  rw [← hfree, rangeListIsEmpty, decide_eq_true_eq]
  rcases h.list with hcan | ⟨-, hlist⟩
  · rw [rangeListGetNumberOfIds_eq hcan, Set.ncard_eq_zero ids_finite]
  · rw [hlist, Option.getD_some]
    rw [ids_noRange]
    exact iff_of_true (by decide) rfl

theorem firstId_mem {l : List Range} (h : Canonical l) (hne : ids l ≠ ∅) :
    rangeListGetFirstId l ∈ ids l := by
  cases l with
  | nil => exact absurd ids_nil hne
  | cons r l => exact ⟨r, List.mem_cons_self, (h.ok r List.mem_cons_self).min_mem⟩

/-- What `allocate_new_dynamic_id` does. -/
theorem Inv.allocate (h : m.Inv) :
    (rangeListIsEmpty m.clientIds = true ∧ allocateNewDynamicId m = (0, m)) ∨
      ∃ id l, id ∈ m.admitted ∧ ¬ m.holds id ∧
        allocateNewDynamicId m = (id, { m with clientIds := l }) ∧ Canonical (l.getD []) ∧
        ids (l.getD []) = {x | x ∈ m.admitted ∧ ¬ m.holds x} \ {id} := by
  by_cases hempty : rangeListIsEmpty m.clientIds = true
  · exact .inl ⟨hempty, if_pos hempty⟩
  · right
    have hne : ids (m.clientIds.getD []) ≠ ∅ := by
      intro hids
      refine hempty (h.isEmpty_iff.mpr fun id hid => ?_)
      by_contra hnot
      have hmem : id ∈ ids (m.clientIds.getD []) := h.free ▸ ⟨hid, hnot⟩
      rw [hids] at hmem
      exact hmem
    have hcan : Canonical (m.clientIds.getD []) := by
      rcases h.list with hcan | ⟨hzero, -⟩
      · exact hcan
      · refine absurd ?_ hempty
        exact h.isEmpty_iff.mpr fun id hid => absurd hid.2.2 (by omega)
    have hfirst := firstId_mem hcan hne
    have hfree := hfirst
    rw [h.free] at hfree
    have hzero : rangeListGetFirstId (m.clientIds.getD []) ≠ 0 := by
      have hge := hfree.1.1
      unfold evIdFirstDynamic at hge
      omega
    obtain ⟨hrem, hremIds⟩ :=
      rangeListRemoveId_spec (rangeListGetFirstId (m.clientIds.getD [])) hcan
    obtain ⟨hcomp, hcompIds⟩ := compressOpt_spec hrem
    refine ⟨_, _, hfree.1, hfree.2, ?_, hcomp, by rw [hcompIds, hremIds, h.free]⟩
    simp only [allocateNewDynamicId, if_neg hempty, if_pos hzero]

theorem appendClient_clients (m : EventMasterControl) (id : ℕ) (clio : Clio) :
    (appendClient m id clio).clients =
      m.clients ++ [⟨id, clio.host, clio.commproc, clio.commid, .connected⟩] := rfl

theorem mem_appendClient {clio : Clio} {c : EvClient} : c ∈ (appendClient m id clio).clients ↔
    c ∈ m.clients ∨ c = ⟨id, clio.host, clio.commproc, clio.commid, .connected⟩ := by
  rw [appendClient_clients, List.mem_append, List.mem_singleton]

theorem Inv.append {l : Option (List Range)} {clio : Clio} (h : m.Inv) (hid : id < 2 ^ 31)
    (hnew : evIdFirstDynamic ≤ id → ¬ m.holds id)
    (hlist : ListOk { m with clientIds := l })
    (hids : ids (l.getD []) = {x | x ∈ m.admitted ∧ ¬ m.holds x} \ {id}) :
    Inv (appendClient { m with clientIds := l } id clio) := by
  refine ⟨h.running, h.bounded, hlist, ?_, ?_, ?_⟩
  · intro c hc
    rcases mem_appendClient.mp hc with hc | rfl
    · exact h.small c hc
    · exact hid
  · rw [appendClient_clients, List.pairwise_append]
    refine ⟨h.unique, List.pairwise_singleton _ _, fun a ha b hb hdyn heq => ?_⟩
    obtain rfl := List.mem_singleton.mp hb
    have hheld : a.id = id := heq
    exact hnew (hheld ▸ hdyn) ⟨a, ha, hheld⟩
  · rw [show (appendClient { m with clientIds := l } id clio).clientIds = l from rfl, hids]
    ext x
    constructor
    · rintro ⟨⟨hx, hfree⟩, hne⟩
      refine ⟨hx, fun ⟨c, hc, hcx⟩ => ?_⟩
      rcases mem_appendClient.mp hc with hc | rfl
      · exact hfree ⟨c, hc, hcx⟩
      · exact hne hcx.symm
    · rintro ⟨hx, hfree⟩
      refine ⟨⟨hx, fun ⟨c, hc, hcx⟩ => hfree ⟨c, mem_appendClient.mpr (.inl hc), hcx⟩⟩, ?_⟩
      rintro rfl
      exact hfree ⟨_, mem_appendClient.mpr (.inr rfl), rfl⟩

theorem eraseP_perm {p : EvClient → Bool} {l : List EvClient} (h : l.any p = true) :
    ∃ a, l.find? p = some a ∧ p a = true ∧ l.Perm (a :: l.eraseP p) := by
  induction l with
  | nil => exact absurd h nofun
  | cons c l ih =>
      by_cases hc : p c = true
      · refine ⟨c, List.find?_cons_of_pos hc, hc, ?_⟩
        rw [List.eraseP_cons_of_pos hc]
      · have htail : l.any p = true := by
          rw [List.any_cons, Bool.or_eq_true] at h
          exact h.resolve_left hc
        obtain ⟨a, hfind, ha, hperm⟩ := ih htail
        refine ⟨a, by rw [List.find?_cons_of_neg hc, hfind], ha, ?_⟩
        rw [List.eraseP_cons_of_neg hc]
        exact (hperm.cons c).trans (List.Perm.swap a c _)

theorem removeEventClient_any :
    removeEventClient srt m rest evIdAny = { m with clients := rest } := rfl

/-- The part of a registration that may remove a client from the same address. -/
theorem Inv.reregister (h : m.Inv) {clio : Clio} (hany : clio.id = evIdAny)
    (hkeep : m.Keeps sgeHostcmp (.add clio)) :
    Inv (if m.clients.any (hasAdress sgeHostcmp clio) then
      removeEventClient srt m (m.clients.eraseP (hasAdress sgeHostcmp clio)) clio.id else m) := by
  split_ifs with hfound
  · obtain ⟨client, hfind, -, hperm⟩ := eraseP_perm hfound
    rw [hany, removeEventClient_any]
    exact h.drop hperm (hkeep hany client hfind)
  · exact h

theorem Inv.add (h : m.Inv) (clio : Clio) (hkeep : m.Keeps sgeHostcmp (.add clio)) :
    Inv (sgeAddEventClient srt sgeHostcmp m clio).2 := by
  unfold sgeAddEventClient
  by_cases hdyn : clio.id ≥ evIdFirstDynamic
  · rw [if_pos hdyn]
    exact h
  rw [if_neg hdyn]
  by_cases hchanged : clio.changed ∧ ¬ clio.subscribed
  · rw [if_pos hchanged]
    exact h
  rw [if_neg hchanged, h.running, if_neg Bool.false_ne_true]
  by_cases hany : clio.id = evIdAny
  · rw [if_pos hany]
    have hmid := @Inv.reregister srt sgeHostcmp m h clio hany hkeep
    revert hmid
    generalize (if m.clients.any (hasAdress sgeHostcmp clio) then
      removeEventClient srt m (m.clients.eraseP (hasAdress sgeHostcmp clio)) clio.id else m) = m₁
    intro hmid
    dsimp only
    rcases hmid.allocate with ⟨-, halloc⟩ | ⟨id, l, hid, hfree, halloc, hcan, hids⟩
    · rw [halloc, if_pos rfl]
      exact hmid
    · have hpos : id ≠ 0 := by
        have hge := hid.1
        unfold evIdFirstDynamic at hge
        omega
      have hlt : id < 2 ^ 31 := by
        have hbounded := hmid.bounded
        have hle := hid.2.1
        have hmax := hid.2.2
        omega
      rw [halloc, if_neg hpos]
      exact hmid.append hlt (fun _ => hfree) (.inl hcan) hids
  · rw [if_neg hany]
    by_cases hallowed : ¬ clio.allowed = true
    · rw [if_pos hallowed]
      exact h
    · rw [if_neg hallowed]
      have hmid : Inv (if m.clients.any (fun ep => ep.id = clio.id) then
          removeEventClient srt m (m.clients.eraseP fun ep => ep.id = clio.id) clio.id else m) := by
        split_ifs with hfound
        · obtain ⟨client, -, hclient, hperm⟩ := eraseP_perm hfound
          rw [← of_decide_eq_true hclient]
          simpa [of_decide_eq_true hclient] using @Inv.remove srt m _ client h hperm
        · exact h
      revert hmid
      generalize (if m.clients.any (fun ep => ep.id = clio.id) then
        removeEventClient srt m (m.clients.eraseP fun ep => ep.id = clio.id) clio.id else m) = m₁
      intro hmid
      have hsmall : clio.id < 2 ^ 31 := by
        unfold evIdFirstDynamic at hdyn
        omega
      refine hmid.append (l := m₁.clientIds) hsmall (fun hge => absurd hge hdyn) hmid.list ?_
      rw [hmid.free, Set.sdiff_singleton_eq_self]
      exact fun hin => hdyn hin.1.1

theorem mem_terminate_id {eventClientId : ℕ} :
    (terminate eventClientId clients).map EvClient.id = clients.map EvClient.id := by
  induction clients with
  | nil => rfl
  | cons c clients ih =>
      rw [terminate]
      split_ifs with hc
      · rfl
      · rw [List.map_cons, List.map_cons, ih]

theorem Inv.of_ids (h : m.Inv) {l : List EvClient}
    (hids : l.map EvClient.id = m.clients.map EvClient.id) : Inv { m with clients := l } := by
  have hmem : ∀ id, (∃ c ∈ l, c.id = id) ↔ ∃ c ∈ m.clients, c.id = id := by
    intro id
    rw [← List.mem_map, ← List.mem_map, hids]
  refine ⟨h.running, h.bounded, h.list, ?_, ?_, ?_⟩
  · intro c hc
    obtain ⟨c', hc', heq⟩ := (hmem c.id).mp ⟨c, hc, rfl⟩
    rw [← heq]
    exact h.small c' hc'
  · have hpair := h.unique
    have hmap : ∀ l : List EvClient,
        (l.Pairwise fun a b => evIdFirstDynamic ≤ a.id → a.id ≠ b.id) ↔
          (l.map EvClient.id).Pairwise fun a b => evIdFirstDynamic ≤ a → a ≠ b := by
      intro l
      rw [List.pairwise_map]
    rw [hmap] at hpair ⊢
    rwa [hids]
  · rw [h.free]
    ext x
    exact and_congr_right fun _ => not_congr (hmem x).symm

theorem Inv.sendLoop {timedOut : ℕ → Bool} {place : ℕ} {kept : List EvClient} (h : m.Inv)
    (hclients : m.clients = kept ++ clients) :
    Inv (EventMasterControl.sendLoop srt timedOut m place kept clients) := by
  induction clients generalizing m place kept with
  | nil => exact h
  | cons client rest ih =>
      rw [EventMasterControl.sendLoop]
      split_ifs with hremove
      · have hperm : m.clients.Perm (client :: (kept ++ rest)) := by
          rw [hclients]
          exact List.perm_middle
        refine ih (h.remove hperm) ?_
        unfold removeEventClient freeDynamicId
        dsimp only
        split_ifs <;> rfl
      · exact ih h (by simp [hclients])

theorem removeHeldIds_spec {o : Option (List Range)} (h : Canonical (o.getD [])) :
    Canonical ((removeHeldIds o clients).getD []) ∧ ids ((removeHeldIds o clients).getD []) =
      {x | x ∈ ids (o.getD []) ∧ ∀ c ∈ clients, evIdFirstDynamic ≤ c.id → c.id ≠ x} := by
  induction clients generalizing o with
  | nil => exact ⟨h, by simp [removeHeldIds]⟩
  | cons c clients ih =>
      rw [removeHeldIds, List.foldl_cons, ← removeHeldIds]
      have hstep : ∀ o' : Option (List Range), Canonical (o'.getD []) →
          (∀ x, x ∈ ids (o'.getD []) ↔
            x ∈ ids (o.getD []) ∧ (evIdFirstDynamic ≤ c.id → c.id ≠ x)) →
          Canonical ((removeHeldIds o' clients).getD []) ∧
            ids ((removeHeldIds o' clients).getD []) = {x | x ∈ ids (o.getD []) ∧
              ∀ c' ∈ c :: clients, evIdFirstDynamic ≤ c'.id → c'.id ≠ x} := by
        intro o' hcan hmem
        obtain ⟨hout, hids⟩ := ih hcan
        refine ⟨hout, hids.trans ?_⟩
        ext x
        rw [Set.mem_ofPred_eq, Set.mem_ofPred_eq, hmem, List.forall_mem_cons, and_assoc]
      split_ifs with hheld
      · obtain ⟨hcan, hids⟩ := rangeListRemoveId_spec c.id h
        refine hstep _ hcan fun x => ?_
        rw [hids, Set.mem_sdiff, Set.mem_singleton_iff]
        exact and_congr_right fun _ => ⟨fun hne _ heq => hne heq.symm,
          fun hne heq => hne hheld.1 heq.symm⟩
      · refine hstep o h fun x => ?_
        constructor
        · intro hx
          refine ⟨hx, fun hdyn heq => hheld ⟨hdyn, ?_⟩⟩
          rw [rangeListIsIdWithin_iff, heq]
          exact hx
        · exact fun hx => hx.1

theorem removeHeldIds_noRange :
    removeHeldIds (some [⟨evIdFirstDynamic, 10, 1⟩]) clients =
      some [⟨evIdFirstDynamic, 10, 1⟩] := by
  induction clients with
  | nil => rfl
  | cons c clients ih =>
      have hnot : ¬ rangeListIsIdWithin [⟨evIdFirstDynamic, 10, 1⟩] c.id = true := by
        rw [rangeListIsIdWithin_iff, ids_noRange]
        exact Set.notMem_empty c.id
      rw [removeHeldIds, List.foldl_cons, ← removeHeldIds, if_neg fun hheld => hnot hheld.2, ih]

theorem Inv.setMax (h : m.Inv) {newValue : ℕ} {maxFileHandles : Option ℕ}
    (hbounded : evIdFirstDynamic + m.allowedMax newValue maxFileHandles ≤ 2 ^ 31) :
    Inv (sgeSetMaxDynamicEventClients m newValue maxFileHandles) := by
  unfold sgeSetMaxDynamicEventClients
  generalize m.allowedMax newValue maxFileHandles = max at hbounded
  dsimp only
  by_cases hsame : max ≠ m.maxEventClients
  swap
  · rw [if_neg hsame]
    exact h
  rw [if_pos hsame]
  unfold evIdFirstDynamic at hbounded
  by_cases hzero : max = 0
  · have hend : rangeSetAllIds evIdFirstDynamic (wadd (wsub max 1) evIdFirstDynamic) 1 =
        ⟨evIdFirstDynamic, 10, 1⟩ := by
      rw [hzero]
      rfl
    rw [hend, removeHeldIds_noRange]
    refine ⟨h.running, ?_, .inr ⟨hzero, rfl⟩, h.small, h.unique, ?_⟩
    · simp only [evIdFirstDynamic]
      omega
    · rw [show ((some [(⟨evIdFirstDynamic, 10, 1⟩ : Range)]).map rangeListCompress).getD [] =
        [⟨evIdFirstDynamic, 10, 1⟩] from rfl, ids_noRange]
      exact (Set.eq_empty_iff_forall_notMem.mpr fun x hx => by
        have hpos := hx.1.2.2
        simp only at hpos
        omega).symm
  · have hend : wadd (wsub max 1) evIdFirstDynamic = evIdFirstDynamic + max - 1 := by
      unfold evIdFirstDynamic
      rw [wsub_eq (by omega) (by omega), wadd_eq (by omega)]
      omega
    rw [hend]
    have hgrid : ∀ x, x ∈ grid evIdFirstDynamic 1 ↔ evIdFirstDynamic ≤ x := fun x => by
      rw [mem_grid_iff_mod, Nat.mod_one, and_iff_left rfl]
    have hcan : Canonical ((some [rangeSetAllIds evIdFirstDynamic
        (evIdFirstDynamic + max - 1) 1]).getD []) := by
      rw [Option.getD_some]
      have hlt : evIdFirstDynamic + max - 1 < 2 ^ 31 := by
        unfold evIdFirstDynamic
        omega
      have hmem := (hgrid (evIdFirstDynamic + max - 1)).mpr (by omega)
      exact Canonical.singleton (rangeSetAllIds_ok hmem hlt le_rfl (by norm_num))
    obtain ⟨hout, hids⟩ := @removeHeldIds_spec m.clients _ hcan
    obtain ⟨hcomp, hcompIds⟩ := compressOpt_spec hout
    refine ⟨h.running, ?_, .inl hcomp, h.small, h.unique, ?_⟩
    · simp only [evIdFirstDynamic]
      omega
    · rw [hcompIds, hids]
      ext x
      rw [Set.mem_ofPred_eq, Option.getD_some, ids_cons, ids_nil, Set.union_empty,
        rangeSetAllIds_ids, mem_segment, hgrid]
      constructor
      · rintro ⟨⟨hge, hle⟩, hnot⟩
        refine ⟨⟨hge, hle, by simp only; omega⟩, fun ⟨c, hc, hcx⟩ => ?_⟩
        exact hnot c hc (hcx ▸ hge) hcx
      · rintro ⟨⟨hge, hle, -⟩, hnot⟩
        exact ⟨⟨hge, hle⟩, fun c hc _ hcx => hnot ⟨c, hc, hcx⟩⟩

theorem Inv.next (h : m.Inv) {op : EventIdOp} (hkeep : m.Keeps sgeHostcmp op) :
    Inv (m.next srt sgeHostcmp op) := by
  cases op with
  | setMax newValue maxFileHandles => exact h.setMax hkeep
  | add clio => exact h.add clio hkeep
  | remove eventClientId => exact h.of_ids mem_terminate_id
  | sendEvents timedOut => exact h.sendLoop rfl

theorem Inv.refused (h : m.Inv) (clio : Clio) (hany : clio.id = evIdAny)
    (hchanged : clio.changed → clio.subscribed)
    (hstatus : (sgeAddEventClient srt sgeHostcmp m clio).1 ≠ .ok) :
    ∀ id ∈ m.admitted, m.holds id := by
  have hdyn : ¬ clio.id ≥ evIdFirstDynamic := by
    rw [hany]
    decide
  have hsame : ∀ m₁ : EventMasterControl, m₁.clientIds = m.clientIds →
      (allocateNewDynamicId m₁).1 = (allocateNewDynamicId m).1 := by
    intro m₁ heq
    unfold allocateNewDynamicId
    rw [heq]
    dsimp only
    split_ifs <;> rfl
  have hzero : (allocateNewDynamicId m).1 = 0 := by
    by_contra hne
    apply hstatus
    unfold sgeAddEventClient
    rw [if_neg hdyn, if_neg fun hnot => hnot.2 (hchanged hnot.1), h.running,
      if_neg Bool.false_ne_true, if_pos hany]
    dsimp only
    rw [if_neg]
    rw [hsame]
    · exact hne
    · rw [hany, removeEventClient_any]
      split_ifs <;> rfl
  rcases h.allocate with ⟨hempty, -⟩ | ⟨id, l, hid, -, halloc, -⟩
  · exact h.isEmpty_iff.mp hempty
  · rw [halloc] at hzero
    obtain rfl : id = 0 := hzero
    exact absurd hid.1 (by decide)

theorem Inv.conserved (h : m.Inv) : m.Conserved srt sgeHostcmp :=
  ⟨h.unique, h.free, h.refused⟩

end Invariant

section Runs
variable (srt : PSortList Range Range.min) (sgeHostcmp : String → String → ℤ)

/-- In every run of steps that keep the ids, they are conserved in every state. -/
theorem clientIds_conserved {hist : List EventIdOp} {m : EventMasterControl}
    (h : Run (fun m op m' => m.Keeps sgeHostcmp op ∧ m.next srt sgeHostcmp op = m') init hist m) :
    m.Conserved srt sgeHostcmp := by
  have hinv : m.Inv := by
    apply h.invariant (P := fun _ m => m.Inv) init_inv
    rintro hist m op _ hm ⟨hkeep, rfl⟩
    exact hm.next hkeep
  exact hinv.conserved

end Runs

def sameHost (a b : String) : ℤ := if a = b then 0 else 1

def statClient : Clio := ⟨evIdAny, "hosta", "qevent", 1, false, true, false⟩

def otherClient : Clio := ⟨evIdAny, "hostb", "qevent", 1, false, true, false⟩

/-- The state after these calls. -/
def after (hist : List EventIdOp) : EventMasterControl :=
  hist.foldl (next (PSortList.stable Range Range.min) sameHost) init

theorem run_snoc {hist : List EventIdOp} {op : EventIdOp}
    (h : Run (fun m op m' => m.Keeps sameHost op ∧
      m.next (PSortList.stable Range Range.min) sameHost op = m') init hist (after hist))
    (hkeep : (after hist).Keeps sameHost op) :
    Run (fun m op m' => m.Keeps sameHost op ∧
      m.next (PSortList.stable Range Range.min) sameHost op = m') init (hist ++ [op])
      (after (hist ++ [op])) := by
  refine h.snoc ⟨hkeep, ?_⟩
  rw [after, after, List.foldl_append, List.foldl_cons, List.foldl_nil]

theorem keeps_of_find {m : EventMasterControl} {clio : Clio}
    (h : m.clients.find? (hasAdress sameHost clio) = none) : m.Keeps sameHost (.add clio) := by
  intro _ client hfind
  rw [h] at hfind
  exact absurd hfind nofun

/-- A client that is removed before it registers again from the same address. -/
theorem removed_conserved :
    (after [.setMax 2 (some 1024), .add statClient, .remove 11, .sendEvents fun _ => false,
      .add statClient]).Conserved (PSortList.stable Range Range.min) sameHost := by
  have hmax : (after []).Keeps sameHost (.setMax 2 (some 1024)) := by
    change evIdFirstDynamic + init.allowedMax 2 (some 1024) ≤ 2 ^ 31
    decide
  have hfirst : (after [.setMax 2 (some 1024)]).Keeps sameHost (.add statClient) :=
    keeps_of_find (by decide)
  have hsecond : (after [.setMax 2 (some 1024), .add statClient, .remove 11,
      .sendEvents fun _ => false]).Keeps sameHost (.add statClient) :=
    keeps_of_find (by decide)
  have hadded := run_snoc (run_snoc .nil hmax) hfirst
  have hremoved := @run_snoc _ (.remove 11) hadded trivial
  have hsent := @run_snoc _ (.sendEvents fun _ => false) hremoved trivial
  exact clientIds_conserved (PSortList.stable Range Range.min) sameHost (run_snoc hsent hsecond)

/-- After a second registration from the same address the id 11 belongs to nobody, and another
client is refused. -/
theorem reregistration_leaks :
    after [.setMax 2 none, .add statClient, .add statClient] =
      ⟨2, false, [⟨12, "hosta", "qevent", 1, .connected⟩], none⟩ ∧
    (sgeAddEventClient (PSortList.stable Range Range.min) sameHost
      (after [.setMax 2 none, .add statClient, .add statClient]) otherClient).1 = .esemantic ∧
    ¬ (after [.setMax 2 none, .add statClient, .add statClient]).Conserved
      (PSortList.stable Range Range.min) sameHost := by
  have hafter : after [.setMax 2 none, .add statClient, .add statClient] =
      ⟨2, false, [⟨12, "hosta", "qevent", 1, .connected⟩], none⟩ := by decide
  refine ⟨hafter, by decide, fun h => ?_⟩
  have hfree := h.free
  rw [hafter] at hfree
  have hmem : 11 ∈ ids ((none : Option (List Range)).getD []) := by
    refine hfree ▸ ⟨⟨by decide, by decide, by decide⟩, ?_⟩
    rintro ⟨client, hclient, hid⟩
    obtain rfl := List.mem_singleton.mp hclient
    exact absurd hid (by decide)
  simp at hmem

end EventMasterControl

end GridEngine
