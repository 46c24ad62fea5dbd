import GridEngine.PeSlots

/-!
# Harvesting slots for a parallel job

`parallel_tag_queues_suitable4job` visits the hosts in turn. At each host it takes slots from the
tagged queue instances and debits them on the limits of the resource quotas. When the host does not
give enough slots all of that is reverted. Slots that become free later are collected beside in an
account of their own.
-/

namespace GridEngine

/-- Slots that are free now, and slots that become free at the queue end. -/
inductive SlotTime
  | now | qend
deriving DecidableEq, Repr

namespace SlotTime

/-- The slots of `parallel_check_and_debit_rqs_slots`, in `slots` or in `slots_qend`. -/
def amount : SlotTime → ℤ → ℤ × ℤ
  | now, slots => (slots, 0)
  | qend, slotsQend => (0, slotsQend)

def entry : SlotTime → ℤ × ℤ → ℤ
  | now, slots => slots.1
  | qend, slots => slots.2

/-- `QU_tagged4schedule` of a queue instance that takes slave tasks only. -/
def slaveQueue : SlotTime → Fin 3 → Bool
  | now, tagged => tagged < 2
  | qend, tagged => tagged = 0

end SlotTime

/-- The assignment of a parallel job. `limitName` is the entry of the limit list that the matching
rule of a rule set names for a queue instance. It is missing for a rule set that is not enabled and
where no rule matches. `newLimit` is what `parallel_rqs_slots_by_time` finds for a new entry. -/
structure ParallelAssignment (Q H L R : Type*) where
  slots : ℕ
  slots_pos : 0 < slots
  pe : ParallelEnvironment
  ar : Bool
  isReservation : Bool
  careReservation : Bool
  isSoft : Bool
  haveMasterqRequest : Bool
  haveHardQueueRequest : Bool
  queueList : List Q
  queueList_nodup : queueList.Nodup
  qhostname : Q → H
  cqRejected : Q → Bool
  softViolation : Q → ℕ
  hostList : List H
  hostList_nodup : hostList.Nodup
  rqsList : List R
  rqsList_nodup : rqsList.Nodup
  limitName : R → Q → Option L
  limitName_inj : ∀ rqs ∈ rqsList, ∀ rqs' ∈ rqsList, ∀ q, ∀ l ∈ limitName rqs q,
    l ∈ limitName rqs' q → rqs = rqs'
  newLimit : L → ℤ × ℤ
  newLimit_nonneg : ∀ l, 0 ≤ newLimit l

/-- A `JG_Type` object. -/
structure GrantedQueue (Q : Type*) where
  qname : Q
  slots : ℤ
deriving DecidableEq, Repr

/-- `QU_tag` or `QU_tag_qend` of the queue instances and the variables of the same time. For the
queue end `gdil` records the slots in `accu_host_slots_qend` by queue instance. -/
structure SlotAccount (Q : Type*) where
  tag : Q → ℤ
  accuHostSlots : ℤ
  haveMasterHost : Bool
  gdil : List (GrantedQueue Q)

/-- The variables of `parallel_tag_queues_suitable4job` and what it changes in the assignment. -/
structure GrantState (Q H L : Type*) where
  account : SlotTime → SlotAccount Q
  tagged4schedule : Q → Fin 3
  limitList : L → Option (ℤ × ℤ)
  softViolations : ℤ
  careReservation : Bool
  pending : List H
  lastAccuHostSlots : ℤ × ℤ
  done : Bool

/-- The results of `parallel_tag_hosts_queues` at a host. -/
structure HostTags (Q L : Type*) where
  hslots : SlotTime → ℤ
  tag : SlotTime → Q → ℕ
  tagged4schedule : Q → Fin 3
  newLimits : List L

/-- The variables of the loop over the queue instances of a host. -/
structure Harvest (Q H L : Type*) where
  state : GrantState Q H L
  rqsHslots : ℤ
  gotMasterQueue : Bool

/-- The rounds of the loop over the hosts. -/
inductive HostRound (Q L : Type*)
  | skip
  | visit (tags : HostTags Q L)
  | nextRound

section Lists
variable {Q : Type*} [DecidableEq Q]

/-- `lAddUlong` of the slots of the granted queue. -/
def addJgSlots (q : Q) (slots : ℤ) : List (GrantedQueue Q) → List (GrantedQueue Q)
  | [] => []
  | jg :: gdil =>
      if jg.qname = q then ⟨q, jg.slots + slots⟩ :: gdil else jg :: addJgSlots q slots gdil

/-- The granted queue that `lGetElemStr` finds. -/
def locateJg (gdil : List (GrantedQueue Q)) (q : Q) : Option (GrantedQueue Q) :=
  gdil.find? fun jg => jg.qname = q

/-- Grants slots of a queue. The master queue must be at first position. -/
def grantSlots (gdil : List (GrantedQueue Q)) (q : Q) (slots : ℤ) (master : Bool) :
    List (GrantedQueue Q) :=
  match locateJg gdil q with
  | some _ => addJgSlots q slots gdil
  | none => if master then ⟨q, slots⟩ :: gdil else gdil ++ [⟨q, slots⟩]

/-- Takes granted slots of a queue back. -/
def ungrantSlots (gdil : List (GrantedQueue Q)) (q : Q) (slots : ℤ) : List (GrantedQueue Q) :=
  match locateJg gdil q with
  | none => gdil
  | some jg =>
      if jg.slots - slots ≠ 0 then addJgSlots q (-slots) gdil
      else gdil.eraseP fun jg => jg.qname = q

end Lists

/-- Changes an account. -/
def GrantState.setAccount {Q H L : Type*} (s : GrantState Q H L) (t : SlotTime)
    (account : SlotAccount Q) : GrantState Q H L :=
  { s with account := Function.update s.account t account }

namespace ParallelAssignment
variable {Q H L R : Type*} [DecidableEq Q] [DecidableEq H] [DecidableEq L]
  (a : ParallelAssignment Q H L R)

/-- The queue instances of a host, in the order of the queue list. -/
def queuesOf (h : H) : List Q := a.queueList.filter fun q => a.qhostname q = h

def allocationRule : ℤ := sgePeSlotsPerHost a.pe a.slots

def minslots : ℤ := if 0 < a.allocationRule then a.allocationRule else 1

def maxslots (accu hslots : ℤ) : ℤ :=
  if 0 < a.allocationRule then a.allocationRule
  else if a.allocationRule = -1 then min (a.slots - accu) hslots
  else 1

/-- The rule sets whose limits are checked. There are none for a job in an advance reservation and
for an advance reservation. -/
def checkedRqs : List R := if a.ar then [] else a.rqsList

/-- Adds to the entry of the limit list that a rule set names for a queue instance. -/
def postRqs (q : Q) (slots : ℤ × ℤ) (limitList : L → Option (ℤ × ℤ)) (rqs : R) :
    L → Option (ℤ × ℤ) :=
  match a.limitName rqs q with
  | none => limitList
  | some l => Function.update limitList l ((limitList l).map (· + slots))

/-- Adds to all entries that a queue instance falls under, as `parallel_revert_rqs_slot_debitation`
does. -/
def postSlots (q : Q) (slots : ℤ × ℤ) (limitList : L → Option (ℤ × ℤ)) : L → Option (ℤ × ℤ) :=
  a.checkedRqs.foldl (a.postRqs q slots) limitList

/-- The first step of `parallel_check_and_debit_rqs_slots`. -/
def slotsLeft (q : Q) (limitList : L → Option (ℤ × ℤ)) : List R → ℤ × ℤ → ℤ × ℤ
  | [], slots => slots
  | rqs :: rqsList, slots =>
      let slots :=
        match a.limitName rqs q with
        | none => slots
        | some l =>
            match limitList l with
            | some rql => (min slots.1 rql.1, min slots.2 rql.2)
            | none => 0
      if slots = 0 then slots else slotsLeft q limitList rqsList slots

/-- `parallel_check_and_debit_rqs_slots`. -/
def checkAndDebit (q : Q) (slots : ℤ × ℤ) (limitList : L → Option (ℤ × ℤ)) :
    (ℤ × ℤ) × (L → Option (ℤ × ℤ)) :=
  let slots := a.slotsLeft q limitList a.checkedRqs slots
  (slots, if slots ≠ 0 then a.postSlots q (-slots) limitList else limitList)

/-- How much of a queue instance is still needed. One slot is kept for a master queue, and of a
queue that was asked for the master task only no more than one slot is taken. -/
def slotsNeeded (t : SlotTime) (maxslots : ℤ) (v : Harvest Q H L) (q : Q) : ℤ :=
  let account := v.state.account t
  let slots := min (account.tag q) (maxslots - v.rqsHslots)
  if account.haveMasterHost || v.gotMasterQueue then slots
  else if t.slaveQueue (v.state.tagged4schedule q) then
    if account.accuHostSlots + v.rqsHslots + slots = a.slots then slots - 1 else slots
  else if a.haveMasterqRequest && a.haveHardQueueRequest && a.cqRejected q then min slots 1
  else slots

/-- The queue gets the master task. For the slots that are free now it has to be new in the list of
granted queues. -/
def isMasterQueue (t : SlotTime) (s : GrantState Q H L) (q : Q) : Bool :=
  !(s.account t).haveMasterHost && !t.slaveQueue (s.tagged4schedule q) &&
    (decide (t = .qend) || (locateJg (s.account t).gdil q).isNone)

/-- Takes slots of a queue instance. -/
def harvestQueue (t : SlotTime) (maxslots : ℤ) (v : Harvest Q H L) (q : Q) : Harvest Q H L :=
  let s := v.state
  let account := s.account t
  let debited := a.checkAndDebit q (t.amount (a.slotsNeeded t maxslots v q)) s.limitList
  let slots := t.entry debited.1
  let master := isMasterQueue t s q
  { state :=
      { s.setAccount t
          { account with
            tag := Function.update account.tag q slots
            gdil := if 0 < slots then grantSlots account.gdil q slots master else account.gdil }
        with
        limitList := debited.2
        softViolations :=
          if 0 < slots ∧ t = .now ∧ a.isSoft then s.softViolations + slots * a.softViolation q
          else s.softViolations }
    rqsHslots := v.rqsHslots + slots
    gotMasterQueue := v.gotMasterQueue || (decide (0 < slots) && master) }

end ParallelAssignment

/-- The loop over the queue instances of a host. It skips what is not tagged and ends when enough is
found. -/
def harvestLoop {Q H L : Type*} (t : SlotTime) (harvestQueue : Harvest Q H L → Q → Harvest Q H L)
    (maxslots : ℤ) : List Q → Harvest Q H L → Harvest Q H L
  | [], v => v
  | q :: qs, v =>
      if (v.state.account t).tag q = 0 then harvestLoop t harvestQueue maxslots qs v
      else if (harvestQueue v q).rqsHslots = maxslots then harvestQueue v q
      else harvestLoop t harvestQueue maxslots qs (harvestQueue v q)

namespace ParallelAssignment
variable {Q H L R : Type*} [DecidableEq Q] [DecidableEq H] [DecidableEq L]
  (a : ParallelAssignment Q H L R)

/-- Reverts the debitation of a queue instance that is still tagged. -/
def revertQueue (t : SlotTime) (s : GrantState Q H L) (q : Q) : GrantState Q H L :=
  let account := s.account t
  let slots := account.tag q
  if slots = 0 then s
  else
    { s.setAccount t
        { account with
          tag := Function.update account.tag q 0
          gdil := ungrantSlots account.gdil q slots }
      with
      limitList := a.postSlots q (t.amount slots) s.limitList
      softViolations :=
        if t = .now then s.softViolations - slots * a.softViolation q else s.softViolations }

/-- The loop that debits on the limits at a host. -/
def harvest (t : SlotTime) (s : GrantState Q H L) (h : H) (hslots : ℤ) : Harvest Q H L :=
  let maxslots := a.maxslots (s.account t).accuHostSlots hslots
  harvestLoop t (a.harvestQueue t maxslots) maxslots (a.queuesOf h)
    ⟨s, 0, (s.account t).haveMasterHost⟩

/-- Collects the slots of a host. -/
def collect (t : SlotTime) (s : GrantState Q H L) (h : H) (hslots : ℤ) : GrantState Q H L :=
  let v := a.harvest t s h hslots
  let account := v.state.account t
  if v.rqsHslots < a.minslots then (a.queuesOf h).foldl (a.revertQueue t) v.state
  else v.state.setAccount t
    { account with
      haveMasterHost := account.haveMasterHost || v.gotMasterQueue
      accuHostSlots := account.accuHostSlots + v.rqsHslots }

/-- `parallel_tag_hosts_queues` tags the queue instances and adds entries to the limit list. -/
def tagHostsQueues (s : GrantState Q H L) (tags : HostTags Q L) : GrantState Q H L :=
  { s with
    account := fun t => { s.account t with tag := fun q => tags.tag t q }
    tagged4schedule := tags.tagged4schedule
    limitList := fun l =>
      match s.limitList l with
      | some rql => some rql
      | none => if l ∈ tags.newLimits then some (a.newLimit l) else none }

def complete (account : SlotAccount Q) : Bool :=
  decide (a.slots ≤ account.accuHostSlots) && account.haveMasterHost

/-- The end of the loop over the hosts. -/
def checkExit (s : GrantState Q H L) : GrantState Q H L :=
  if a.complete (s.account .now) &&
      (!s.careReservation || a.isReservation || a.complete (s.account .qend)) then
    { s with done := true }
  else if s.careReservation && a.complete (s.account .qend) then { s with careReservation := false }
  else s

/-- The slots that are free now. -/
def visitNow (s : GrantState Q H L) (h : H) (hslots : ℤ) : GrantState Q H L :=
  if a.minslots ≤ hslots then a.collect .now s h hslots else s

/-- The slots that become free later. They are collected for a job that wants a reservation. -/
def visitQend (s : GrantState Q H L) (h : H) (hslotsQend : ℤ) : GrantState Q H L :=
  if a.minslots ≤ hslotsQend ∧ s.careReservation ∧ ¬ a.isReservation then
    a.collect .qend s h hslotsQend
  else s

/-- A host is processed. -/
def visit (s : GrantState Q H L) (h : H) (tags : HostTags Q L) : GrantState Q H L :=
  if a.queuesOf h = [] then a.checkExit s
  else
    let s := a.visitNow (a.tagHostsQueues s tags) h (tags.hslots .now)
    a.checkExit (a.visitQend s h (tags.hslots .qend))

def start : GrantState Q H L where
  account := fun _ => ⟨fun _ => 0, 0, false, []⟩
  tagged4schedule := fun _ => 0
  limitList := fun _ => none
  softViolations := 0
  careReservation := a.careReservation
  pending := a.hostList
  lastAccuHostSlots := 0
  done := false

/-- A round of the loop over the hosts. With `$round_robin` the hosts are visited again as long as
that gives slots. -/
def step (s : GrantState Q H L) : HostRound Q L → Option (GrantState Q H L)
  | .skip =>
      match s.pending with
      | _ :: pending => if s.done then none else some { s with pending := pending }
      | [] => none
  | .visit tags =>
      match s.pending with
      | h :: pending => if s.done then none else some (a.visit { s with pending := pending } h tags)
      | [] => none
  | .nextRound =>
      let accu := ((s.account .now).accuHostSlots, (s.account .qend).accuHostSlots)
      if s.pending = [] ∧ a.allocationRule = -2 ∧ ¬ s.done ∧ s.lastAccuHostSlots ≠ accu then
        some { s with pending := a.hostList, lastAccuHostSlots := accu }
      else none

/-- The rounds from the start on. -/
def run (rounds : List (HostRound Q L)) : Option (GrantState Q H L) := rounds.foldlM a.step a.start

end ParallelAssignment

end GridEngine
