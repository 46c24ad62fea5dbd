import Mathlib.Algebra.Group.Int.Defs
import Mathlib.Data.List.Sort

/-!
# Timed events

`Event_Control` of `daemons/qmaster/sge_qmaster_timed_event.c`, the functions that add and delete
events, and the loop of `sge_timer_main`. What runs between getting and releasing
`Event_Control.mutex`, or waiting on its condition, is one step. The thread wakes with or without
a signal, and the clock shows any value at any time.
-/

namespace GridEngine

/-- `te_mode_t` -/
inductive TeMode where
  | oneTime
  | recurring
deriving DecidableEq, Repr

/-- `struct te_event`, and the fields of `TE_Type`. `seqno` tells the elements of the event list
apart, `origin` is the number of the call that brought the event in. -/
structure TimedEvent where
  when : ℤ
  interval : ℤ
  type : ℕ
  mode : TeMode
  uval0 : ℕ
  uval1 : ℕ
  sval : Option String
  seqno : ℕ
  origin : ℕ
deriving DecidableEq, Repr

/-- `event_control_t` -/
structure EventControl where
  list : List TimedEvent
  seqNo : ℕ
  delete : Bool
  last : ℤ
  next : ℤ
deriving DecidableEq, Repr

/-- The range of `u_long32` -/
def teRange : ℤ := 2 ^ 32

/-- `te_new_event` -/
def teNewEvent (aTime : ℤ) (aType : ℕ) (aMode : TeMode) (aKey1 aKey2 : ℕ)
    (aStrKey : Option String) : TimedEvent where
  when := if aMode = .oneTime then aTime else 0
  interval := if aMode = .oneTime then 0 else aTime
  type := aType
  mode := aMode
  uval0 := aKey1
  uval1 := aKey2
  sval := aStrKey
  seqno := 0
  origin := 0

/-- The variable `when` of `te_add_event`. -/
def dueTime (anEvent : TimedEvent) (time : ℕ) : ℤ :=
  if anEvent.mode = .oneTime then anEvent.when else time + anEvent.interval

/-- The element `te_add_event` makes of an event. -/
def teElement (anEvent : TimedEvent) (time seqNo : ℕ) : TimedEvent :=
  { anEvent with
    when := dueTime anEvent time % teRange
    interval := anEvent.interval % teRange
    seqno := seqNo }

/-- `lInsertSorted` with the sort order `TE_when`. -/
def lInsertSorted (ep : TimedEvent) (lp : List TimedEvent) : List TimedEvent :=
  lp.orderedInsert (fun a b => a.when ≤ b.when) ep

/-- `te_add_event`, with the time it reads. The second result tells whether the condition is
signaled. -/
def teAddEvent (anEvent : TimedEvent) (time : ℕ) (ctl : EventControl) : EventControl × Bool :=
  let when := dueTime anEvent time
  let ctl := { ctl with
    list := lInsertSorted (teElement anEvent time ctl.seqNo) ctl.list
    seqNo := ctl.seqNo + 1 }
  if ctl.next = 0 ∨ when < ctl.next then ({ ctl with next := when }, true)
  else (ctl, false)

/-- The arguments of `te_delete_all_or_one_time_event`. -/
structure TeDelete where
  type : ℕ
  key1 : ℕ
  key2 : ℕ
  strKey : Option String
  ignoreKeys : Bool
deriving DecidableEq, Repr

/-- The events that are deleted. `lCompare` with a string that is not there fails, so that an
event without a string has any. -/
def TeDelete.selects (d : TeDelete) (le : TimedEvent) : Bool :=
  le.type = d.type ∧ le.mode = .oneTime ∧ (d.ignoreKeys = true ∨
    le.uval0 = d.key1 ∧ le.uval1 = d.key2 ∧ ∀ key ∈ d.strKey, ∀ sval ∈ le.sval, sval = key)

/-- `te_delete_all_or_one_time_event`, with the events it deletes. -/
def teDelete (d : TeDelete) (ctl : EventControl) : EventControl × List TimedEvent :=
  let removed := ctl.list.filter fun le => d.selects le
  ({ ctl with
    list := ctl.list.filter fun le => !d.selects le
    delete := ctl.delete || decide (removed ≠ []) }, removed)

/-- `te_check_time` -/
def teCheckTime (aTime : ℤ) (ctl : EventControl) : EventControl :=
  if aTime < ctl.last then
    let delta := ctl.last - aTime
    { ctl with
      list := ctl.list.map fun le => { le with when := (le.when - delta) % teRange }
      last := aTime
      next := ctl.next - delta }
  else ctl

/-- Where the thread of `sge_timer_main` does not have the mutex: at the start of the loop, in one
of the two waits, or in `te_scan_table_and_deliver`. -/
inductive TimerPlace where
  | atStart
  | waitEmpty
  | waitNext (le : ℕ) (te : TimedEvent)
  | delivering (te : TimedEvent)
deriving DecidableEq, Repr

/-- A call of `te_scan_table_and_deliver`: the event, the element that was dechained for it, and
the time. -/
structure Handover where
  te : TimedEvent
  element : Option TimedEvent
  clock : ℕ
deriving DecidableEq, Repr

/-- The event list, the thread, and the history of the events. -/
structure TimerSystem where
  ctl : EventControl
  clock : ℕ
  place : TimerPlace
  signalPending : Bool
  added : List TeMode
  handedOver : List Handover
  deleted : List ℕ
deriving DecidableEq, Repr

namespace TimerSystem

def init (clock : ℕ) : TimerSystem where
  ctl := ⟨[], 0, false, 0, 0⟩
  clock := clock
  place := .atStart
  signalPending := false
  added := []
  handedOver := []
  deleted := []

/-- The thread is in one of its two waits. -/
def blocked (s : TimerSystem) : Bool :=
  match s.place with
  | .waitEmpty => true
  | .waitNext _ _ => true
  | _ => false

/-- A signal is lost if nobody waits. -/
def signal (s : TimerSystem) (sent : Bool) : TimerSystem :=
  { s with signalPending := s.signalPending || sent && s.blocked }

/-- The thread goes on to another place. -/
def goTo (s : TimerSystem) (place : TimerPlace) : TimerSystem :=
  { s with place := place, signalPending := false }

/-- An event comes in for the first time. -/
def add (s : TimerSystem) (anEvent : TimedEvent) (time : ℕ) : TimerSystem :=
  let result := teAddEvent { anEvent with origin := s.added.length } time s.ctl
  signal { s with ctl := result.1, added := s.added ++ [anEvent.mode] } result.2

def delete (s : TimerSystem) (d : TeDelete) : TimerSystem :=
  let result := teDelete d s.ctl
  signal { s with
    ctl := result.1
    deleted := s.deleted ++ result.2.map fun e => e.origin } (decide (result.2 ≠ []))

/-- `lDechainElem` of the element `le`, and on to the delivery of `te`. -/
def dechain (s : TimerSystem) (le : ℕ) (te : TimedEvent) : TimerSystem :=
  goTo { s with
    ctl := { s.ctl with list := s.ctl.list.eraseP fun e => e.seqno = le }
    handedOver := s.handedOver ++
      [⟨te, s.ctl.list.find? fun e => e.seqno = le, s.clock⟩] } (.delivering te)

/-- From the test of `te_wait_empty` to the next wait or to the delivery. -/
def afterEmpty (s : TimerSystem) : TimerSystem :=
  match s.ctl.list with
  | [] => goTo { s with ctl := { s.ctl with next := 0 } } .waitEmpty
  | le :: _ =>
      if s.clock < le.when then
        goTo { s with ctl := { s.ctl with next := le.when, delete := false } }
          (.waitNext le.seqno le)
      else dechain { s with ctl := { s.ctl with next := s.clock } } le.seqno le

/-- The loop up to the test of `te_wait_empty`. -/
def start (s : TimerSystem) : TimerSystem :=
  afterEmpty { s with ctl := { teCheckTime s.clock s.ctl with last := s.clock } }

/-- The loop after `te_wait_next`. -/
def afterNext (s : TimerSystem) (le : ℕ) (te : TimedEvent) : TimerSystem :=
  if s.ctl.next < te.when ∨ s.ctl.delete = true then s.goTo .atStart
  else s.dechain le te

/-- The end of `te_scan_table_and_deliver`, with the time it reads for the next delivery. -/
def finish (s : TimerSystem) (te : TimedEvent) (time : ℕ) : TimerSystem :=
  if te.mode = .recurring then
    goTo { s with ctl := (teAddEvent te time s.ctl).1 } .atStart
  else s.goTo .atStart

end TimerSystem

inductive TimerAction where
  | tick (clock : ℕ)
  | add (aTime : ℤ) (aType : ℕ) (aMode : TeMode) (aKey1 aKey2 : ℕ) (aStrKey : Option String)
      (time : ℕ)
  | delete (d : TeDelete)
  | start
  | wake
  | timeOut
  | finish (time : ℕ)
deriving DecidableEq, Repr

/-- Events come in for times that `TE_when` holds and that are not the mark of an empty list. -/
def TimerAction.Timely : TimerAction → Prop
  | .add aTime aType aMode aKey1 aKey2 aStrKey time =>
      let when := dueTime (teNewEvent aTime aType aMode aKey1 aKey2 aStrKey) time
      when ≠ 0 ∧ when < teRange
  | _ => True

namespace TimerSystem

/-- What an action does, where it can be taken. -/
def next? (s : TimerSystem) : TimerAction → Option TimerSystem
  | .tick clock => some { s with clock := clock }
  | .add aTime aType aMode aKey1 aKey2 aStrKey time =>
      some (s.add (teNewEvent aTime aType aMode aKey1 aKey2 aStrKey) time)
  | .delete d => some (s.delete d)
  | .start => if s.place = .atStart then some s.start else none
  | .wake =>
      match s.place with
      | .waitEmpty => some s.afterEmpty
      | .waitNext le te =>
          if s.ctl.next = te.when then some (s.goTo (.waitNext le te))
          else some (s.afterNext le te)
      | _ => none
  | .timeOut =>
      match s.place with
      | .waitNext le te => if te.when ≤ s.clock then some (s.afterNext le te) else none
      | _ => none
  | .finish time =>
      match s.place with
      | .delivering te => some (s.finish te time)
      | _ => none

/-- No step back of the clock that `te_check_time` sees exceeds the time of a pending event. -/
def StepsBack (s : TimerSystem) (action : TimerAction) : Prop :=
  action = .start → ∀ e ∈ s.ctl.list, s.ctl.last - s.clock ≤ e.when

instance (s : TimerSystem) (action : TimerAction) : Decidable (s.StepsBack action) :=
  inferInstanceAs (Decidable (action = .start → ∀ e ∈ s.ctl.list, _))

/-- The event that is being delivered. -/
def inHand (s : TimerSystem) : List ℕ :=
  match s.place with
  | .delivering te => [te.origin]
  | _ => []

/-- What the timed events promise in a state. -/
structure FiresOnce (s : TimerSystem) : Prop where
  sorted : s.ctl.list.Pairwise fun a b => a.when ≤ b.when
  oneTime : ∀ o, s.added[o]? = some .oneTime →
    (s.ctl.list.map (·.origin)).count o + (s.handedOver.map (·.te.origin)).count o +
      s.deleted.count o = 1
  recurring : ∀ o, s.added[o]? = some .recurring →
    (s.ctl.list.map (·.origin)).count o + s.inHand.count o = 1
  dechained : ∀ h ∈ s.handedOver, h.element = some h.te
  due : ∀ h ∈ s.handedOver, h.te.when ≤ h.clock
  deleted : ∀ h ∈ s.handedOver, h.te.origin ∉ s.deleted
  waitEmpty : s.place = .waitEmpty → s.signalPending = false → s.ctl.list = [] ∧ s.ctl.next = 0
  waitNext : ∀ le te, s.place = .waitNext le te → s.signalPending = false →
    s.ctl.next = te.when ∧ ∀ e ∈ s.ctl.list, s.ctl.next ≤ e.when

end TimerSystem
end GridEngine
