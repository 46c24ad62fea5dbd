import GridEngine.EventClient
import GridEngine.Machine

/-!
# Delivery over an unreliable network

The event master numbers the events of a client, sends all events it still keeps with every
report, and drops what is acknowledged. The client skips what it has seen and delivers the rest.
Reports and acknowledgements may be lost, duplicated and reordered: whatever was sent once can
be taken out of the network at any later time, any number of times or never.

The joint invariant splits the events added so far at two points, the number of purged events and
the number of delivered ones; every message in flight is a cut of the same sequence.
-/

namespace GridEngine
open Machine

variable {P : Type*}

/-- The check that numbers increase from `i` on; the result is the next number. -/
def checkNumbers (i : ℕ) : List (Event P) → Option ℕ
  | [] => some i
  | ep :: rest => if ep.number ≠ i then none else checkNumbers (wadd i 1) rest

/-- The result of `ck_event_number`: its return value, the list it leaves and `waiting_for`. -/
structure CkResult (P : Type*) where
  ok : Bool
  events : List (Event P)
  waitingFor : ℕ

/-- `ck_event_number`. -/
def ckEventNumber (lp : List (Event P)) (waitingFor : ℕ) : CkResult P :=
  match lp with
  | [] => ⟨true, [], waitingFor⟩
  | first :: _ =>
      if waitingFor < first.number then ⟨false, lp, waitingFor⟩
      else
        let left := lp.dropWhile (fun ep => decide (ep.number < waitingFor))
        match checkNumbers waitingFor left with
        | some i => ⟨true, left, i⟩
        | none => ⟨false, left, waitingFor⟩

/-- Event master, network and client of one registration. -/
structure Delivery (P : Type*) where
  server : EventClient P
  /-- Every event that entered `EV_events`. -/
  added : List (Event P)
  reports : List (List (Event P))
  acks : List ℕ
  waitingFor : ℕ
  delivered : List (Event P)
  /-- The client gave up this registration because of a wrong event number. -/
  rejected : Bool

inductive DeliveryOp (P : Type*)
  | add (event : Event P)
  | sendEvents
  | processAck (eventNumber : ℕ)
  | receive (report : List (Event P))
  | acknowledge

namespace Delivery

def addEvent (d : Delivery P) (event : Event P) : Delivery P :=
  let server := d.server.addListEventDirect event
  { d with server := server, added := d.added ++ server.events.drop d.server.events.length }

/-- The client takes a report, as in `ec2_get`. -/
def receive (d : Delivery P) (report : List (Event P)) : Delivery P :=
  let result := ckEventNumber report d.waitingFor
  if result.ok then
    { d with waitingFor := result.waitingFor, delivered := d.delivered ++ result.events }
  else { d with rejected := true }

/-- Any report or acknowledgement that was ever sent may arrive. -/
inductive Step : Delivery P → DeliveryOp P → Delivery P → Prop
  | add (d : Delivery P) (event : Event P) : Step d (.add event) (d.addEvent event)
  | sendEvents (d : Delivery P) :
      Step d .sendEvents { d with reports := d.reports ++ [d.server.events] }
  | processAck (d : Delivery P) (n : ℕ) (h : n ∈ d.acks) : Step d (.processAck n)
      { d with server := { d.server with events := purgeEventList d.server.events n } }
  | receive (d : Delivery P) (report : List (Event P)) (h : report ∈ d.reports) :
      Step d (.receive report) (d.receive report)
  | acknowledge (d : Delivery P) :
      Step d .acknowledge { d with acks := d.acks ++ [wsub d.waitingFor 1] }

/-- A new registration. -/
def initial (ec : EventClient P) : Delivery P where
  server := { ec with nextNumber := 1, events := [] }
  added := []
  reports := []
  acks := []
  waitingFor := 1
  delivered := []
  rejected := false

end Delivery

section Numbered
variable {l l' : List (Event P)} {i w : ℕ}

/-- The events carry the numbers `i, i + 1, ...`. -/
def NumberedFrom (i : ℕ) (l : List (Event P)) : Prop :=
  l.map Event.number = List.range' i l.length

theorem numberedFrom_nil : NumberedFrom i ([] : List (Event P)) := rfl

theorem numberedFrom_cons {e : Event P} :
    NumberedFrom i (e :: l) ↔ e.number = i ∧ NumberedFrom (i + 1) l := by
  simp [NumberedFrom, List.range'_succ]

theorem numberedFrom_append : NumberedFrom i (l ++ l') ↔
    NumberedFrom i l ∧ NumberedFrom (i + l.length) l' := by
  induction l generalizing i with
  | nil => simp [numberedFrom_nil]
  | cons e l ih =>
      rw [List.cons_append, numberedFrom_cons, numberedFrom_cons, ih, List.length_cons, and_assoc,
        Nat.add_right_comm, Nat.add_assoc]

theorem NumberedFrom.take (h : NumberedFrom i l) (b : ℕ) : NumberedFrom i (l.take b) := by
  rw [← List.take_append_drop b l, numberedFrom_append] at h
  exact h.1

theorem NumberedFrom.drop (h : NumberedFrom i l) (a : ℕ) : NumberedFrom (i + a) (l.drop a) := by
  by_cases ha : a ≤ l.length
  · rw [← List.take_append_drop a l, numberedFrom_append, List.length_take_of_le ha] at h
    exact h.2
  · rw [List.drop_eq_nil_of_le (by omega)]
    exact numberedFrom_nil

theorem NumberedFrom.dropWhile_lt (h : NumberedFrom i l) (w : ℕ) :
    l.dropWhile (fun e => decide (e.number < w)) = l.drop (w - i) := by
  induction l generalizing i with
  | nil => simp
  | cons e l ih =>
      obtain ⟨he, hl⟩ := numberedFrom_cons.mp h
      by_cases hlt : e.number < w
      · obtain ⟨k, hk⟩ : ∃ k, w - i = k + 1 := ⟨w - i - 1, by omega⟩
        have hk' : w - (i + 1) = k := by omega
        rw [List.dropWhile_cons_of_pos (by simpa using hlt), ih hl, hk, hk', List.drop_succ_cons]
      · rw [List.dropWhile_cons_of_neg (by simpa using hlt)]
        have h0 : w - i = 0 := by omega
        rw [h0, List.drop_zero]

theorem checkNumbers_numbered (h : NumberedFrom i l) (hlt : i + l.length < 2 ^ 32) :
    checkNumbers i l = some (i + l.length) := by
  induction l generalizing i with
  | nil => rfl
  | cons e l ih =>
      obtain ⟨he, hl⟩ := numberedFrom_cons.mp h
      rw [List.length_cons] at hlt
      rw [checkNumbers, if_neg (by simp [he]), wadd_eq (by omega), ih hl (by omega),
        List.length_cons, Nat.add_assoc, Nat.add_comm 1]

/-- A report that starts no later than the awaited number is accepted, and what it adds to the
events below that number is left. -/
theorem ckEventNumber_numbered (h : NumberedFrom i l) (hi : i ≤ w) (hlt : i + l.length < 2 ^ 32) :
    ckEventNumber l w = ⟨true, l.drop (w - i), w + (l.drop (w - i)).length⟩ := by
  cases l with
  | nil => simp [ckEventNumber]
  | cons first rest =>
      have hfirst := (numberedFrom_cons.mp h).1
      have hdrop := h.drop (w - i)
      have hwi : i + (w - i) = w := by omega
      rw [hwi] at hdrop
      simp only [ckEventNumber]
      rw [if_neg (by omega), h.dropWhile_lt]
      by_cases hlen : w - i ≤ (first :: rest).length
      · rw [checkNumbers_numbered hdrop (by rw [List.length_drop]; omega)]
      · rw [List.drop_eq_nil_of_le (by omega)]
        rfl

theorem purgeEventList_numbered (h : NumberedFrom i l) (n : ℕ) :
    ∃ k, k ≤ n + 1 - i ∧ purgeEventList l n = l.drop k := by
  unfold purgeEventList
  split_ifs with hn
  · exact ⟨0, by omega, by simp⟩
  · refine ⟨n + 1 - i, le_rfl, ?_⟩
    rw [← h.dropWhile_lt]
    simp only [Nat.lt_succ_iff]

end Numbered

namespace Delivery
variable {d d' : Delivery P}

/-- Everything in the system is a cut of the events added so far. -/
structure Inv (d : Delivery P) : Prop where
  numbered : NumberedFrom 1 d.added
  nextNumber : d.server.nextNumber = d.added.length + 1
  events : ∃ p, p < d.waitingFor ∧ d.server.events = d.added.drop p
  reports : ∀ report ∈ d.reports, ∃ a b, a < d.waitingFor ∧ b ≤ d.added.length ∧
    report = (d.added.take b).drop a
  acks : ∀ n ∈ d.acks, n < d.waitingFor
  waitingFor : d.waitingFor ≤ d.added.length + 1
  delivered : d.delivered = d.added.take (d.waitingFor - 1)
  accepted : d.rejected = false

theorem inv_initial (ec : EventClient P) : (initial ec).Inv where
  numbered := numberedFrom_nil
  nextNumber := rfl
  events := ⟨0, Nat.one_pos, rfl⟩
  reports := by simp [initial]
  acks := by simp [initial]
  waitingFor := le_rfl
  delivered := rfl
  accepted := rfl

/-- A report in flight is accepted and leaves the events from `waitingFor` on. -/
theorem Inv.ckEventNumber_eq (h : d.Inv) (hlt : d.added.length + 1 < 2 ^ 32)
    {report : List (Event P)} (hmem : report ∈ d.reports) :
    ∃ b, d.waitingFor ≤ b + 1 ∧ b ≤ d.added.length ∧ ckEventNumber report d.waitingFor =
      ⟨true, (d.added.take b).drop (d.waitingFor - 1), b + 1⟩ := by
  obtain ⟨a, b, ha, hb, rfl⟩ := h.reports report hmem
  have hnum := (h.numbered.take b).drop a
  have hlen : ((d.added.take b).drop a).length = b - a := by
    rw [List.length_drop, List.length_take_of_le hb]
  have hw := h.waitingFor
  have hck := ckEventNumber_numbered hnum (by omega : 1 + a ≤ d.waitingFor) (by omega)
  have hdrop : ((d.added.take b).drop a).drop (d.waitingFor - (1 + a)) =
      (d.added.take b).drop (d.waitingFor - 1) := by
    rw [List.drop_drop]
    congr 1
    omega
  have hrest : ((d.added.take b).drop (d.waitingFor - 1)).length = b - (d.waitingFor - 1) := by
    rw [List.length_drop, List.length_take_of_le hb]
  rw [hck, hdrop, hrest]
  by_cases hwb : d.waitingFor ≤ b + 1
  · refine ⟨b, hwb, hb, ?_⟩
    congr 1
    omega
  · refine ⟨d.waitingFor - 1, by omega, by omega, ?_⟩
    rw [List.drop_eq_nil_of_le (by rw [List.length_take_of_le hb]; omega),
      List.drop_eq_nil_of_le (by rw [List.length_take_of_le (by omega)])]
    congr 1
    omega

theorem Inv.addEvent (h : d.Inv) (event : Event P)
    (hlt : (d.addEvent event).added.length + 1 < 2 ^ 32) :
    (d.addEvent event).Inv := by
  obtain ⟨p, hp, hevents⟩ := h.events
  have hw := h.waitingFor
  rcases d.server.addListEventDirect_cases event with ⟨hev, hnext⟩ | ⟨newVersion, hev, hnext⟩
  · have hadded : (d.addEvent event).added = d.added := by
      simp [Delivery.addEvent, hev]
    refine ⟨by rw [hadded]; exact h.numbered, ?_, ⟨p, hp, ?_⟩, ?_, h.acks, ?_, ?_, h.accepted⟩
    · rw [hadded]
      exact hnext.trans h.nextNumber
    · rw [hadded]
      exact hev.trans hevents
    · rw [hadded]
      exact h.reports
    · rw [hadded]
      exact hw
    · rw [hadded]
      exact h.delivered
  · set e : Event P := ⟨d.server.nextNumber, event.type, newVersion⟩ with he
    have hadded : (d.addEvent event).added = d.added ++ [e] := by
      simp [Delivery.addEvent, hev]
    have hlen : (d.added ++ [e]).length = d.added.length + 1 := by simp
    refine ⟨?_, ?_, ⟨p, hp, ?_⟩, ?_, h.acks, ?_, ?_, h.accepted⟩
    · rw [hadded, numberedFrom_append, numberedFrom_cons]
      exact ⟨h.numbered, h.nextNumber.trans (Nat.add_comm _ 1), numberedFrom_nil⟩
    · rw [hadded, hlen]
      refine hnext.trans ?_
      rw [hadded, hlen] at hlt
      rw [h.nextNumber, wadd_eq (by omega)]
    · rw [hadded, List.drop_append_of_le_length (by omega), ← hevents]
      exact hev
    · intro report hmem
      obtain ⟨a, b, ha, hb, rfl⟩ := h.reports report hmem
      refine ⟨a, b, ha, by rw [hadded, hlen]; omega, ?_⟩
      rw [hadded, List.take_append_of_le_length hb]
    · rw [hadded, hlen]
      exact hw.trans (Nat.le_succ _)
    · rw [hadded, List.take_append_of_le_length (by
        show d.waitingFor - 1 ≤ d.added.length
        omega)]
      exact h.delivered

theorem Inv.receive (h : d.Inv) (hlt : d.added.length + 1 < 2 ^ 32) {report : List (Event P)}
    (hmem : report ∈ d.reports) : (d.receive report).Inv := by
  obtain ⟨b, hwb, hb, hck⟩ := h.ckEventNumber_eq hlt hmem
  have hrec : d.receive report = { d with
      waitingFor := b + 1
      delivered := d.delivered ++ (d.added.take b).drop (d.waitingFor - 1) } := by
    simp only [Delivery.receive, hck, if_true]
  obtain ⟨p, hp, hevents⟩ := h.events
  rw [hrec]
  refine ⟨h.numbered, h.nextNumber, ⟨p, hp.trans_le hwb, hevents⟩, ?_, ?_, ?_, ?_, h.accepted⟩
  · intro report' hmem'
    obtain ⟨a, b', ha, hb', heq⟩ := h.reports report' hmem'
    exact ⟨a, b', ha.trans_le hwb, hb', heq⟩
  · exact fun n hn => (h.acks n hn).trans_le hwb
  · exact Nat.succ_le_succ hb
  · have htake : d.added.take (d.waitingFor - 1) = (d.added.take b).take (d.waitingFor - 1) := by
      rw [List.take_take, min_eq_left (by omega)]
    rw [h.delivered, htake, List.take_append_drop]
    rfl

theorem Inv.step {op : DeliveryOp P} (h : d.Inv) (hlt : d'.added.length + 1 < 2 ^ 32)
    (hstep : Step d op d') : d'.Inv := by
  have hw := h.waitingFor
  obtain ⟨p, hp, hevents⟩ := h.events
  cases hstep with
  | add event => exact h.addEvent event hlt
  | sendEvents =>
      refine ⟨h.numbered, h.nextNumber, h.events, ?_, h.acks, hw, h.delivered, h.accepted⟩
      intro report hmem
      rcases List.mem_append.mp hmem with hmem | hmem
      · exact h.reports report hmem
      · obtain rfl := List.mem_singleton.mp hmem
        exact ⟨p, d.added.length, hp, le_rfl, by rw [List.take_length]; exact hevents⟩
  | processAck n hn =>
      have hnw := h.acks n hn
      obtain ⟨k, hk, hpurge⟩ := purgeEventList_numbered (h.numbered.drop p) n
      refine ⟨h.numbered, h.nextNumber, ⟨p + k, ?_, ?_⟩, h.reports, h.acks, hw, h.delivered,
        h.accepted⟩
      · show p + k < d.waitingFor
        omega
      · show purgeEventList d.server.events n = d.added.drop (p + k)
        rw [hevents, hpurge, List.drop_drop]
  | receive report hmem =>
      have hadded : (d.receive report).added = d.added := by
        simp only [Delivery.receive]
        split_ifs <;> rfl
      exact h.receive (by rwa [hadded] at hlt) hmem
  | acknowledge =>
      replace hlt : d.added.length + 1 < 2 ^ 32 := hlt
      refine ⟨h.numbered, h.nextNumber, h.events, h.reports, ?_, hw, h.delivered, h.accepted⟩
      intro n hn
      rcases List.mem_append.mp hn with hn | hn
      · exact h.acks n hn
      · have hsub : wsub d.waitingFor 1 = d.waitingFor - 1 := wsub_eq (by omega) (by omega)
        have heq := List.mem_singleton.mp hn
        show n < d.waitingFor
        omega

theorem added_le {op : DeliveryOp P} (hstep : Step d op d') : d.added.length ≤ d'.added.length := by
  cases hstep with
  | add event => simp [Delivery.addEvent]
  | receive report hmem =>
      simp only [Delivery.receive]
      split_ifs <;> rfl
  | _ => rfl

/-- What a registration guarantees to both sides. -/
structure ExactlyOnce (d : Delivery P) : Prop where
  /-- `EV_events` has consecutive numbers that end at `EV_next_number - 1`. -/
  numbered : d.server.events.length < d.server.nextNumber ∧ d.server.events.map Event.number =
    List.range' (d.server.nextNumber - d.server.events.length) d.server.events.length
  /-- The delivered events are the first ones that were added, each once and in order. -/
  delivered : d.delivered = d.added.take (d.waitingFor - 1) ∧
    d.delivered.map Event.number = List.range' 1 (d.waitingFor - 1)
  kept : ∀ e ∈ d.added, d.waitingFor ≤ e.number → e ∈ d.server.events
  accepted : d.rejected = false ∧
    ∀ report ∈ d.reports, (ckEventNumber report d.waitingFor).ok = true

theorem Inv.exactlyOnce (h : d.Inv) (hlt : d.added.length + 1 < 2 ^ 32) : d.ExactlyOnce := by
  obtain ⟨p, hp, hevents⟩ := h.events
  have hw := h.waitingFor
  have hnext := h.nextNumber
  have hlen : d.server.events.length = d.added.length - p := by rw [hevents, List.length_drop]
  refine ⟨⟨by omega, ?_⟩, ⟨h.delivered, ?_⟩, fun e he hwe => ?_, h.accepted, fun report hmem => ?_⟩
  · have hnum := h.numbered.drop p
    rw [← hevents] at hnum
    have hstart : d.server.nextNumber - d.server.events.length = 1 + p := by omega
    rw [hstart]
    exact hnum
  · have hnum := h.numbered.take (d.waitingFor - 1)
    rw [← h.delivered] at hnum
    have hlenD : d.delivered.length = d.waitingFor - 1 := by
      rw [h.delivered, List.length_take_of_le (by omega)]
    rw [← hlenD]
    exact hnum
  · rw [hevents]
    rw [← List.take_append_drop p d.added, List.mem_append] at he
    rcases he with he | he
    · have hnum : e.number ∈ (d.added.take p).map Event.number := List.mem_map_of_mem he
      rw [h.numbered.take p, List.mem_range'_1, List.length_take_of_le (by omega)] at hnum
      omega
    · exact he
  · obtain ⟨b, -, -, hck⟩ := h.ckEventNumber_eq hlt hmem
    rw [hck]

end Delivery

/-- Every reachable state of a registration with fewer than `2 ^ 32 - 1` events. -/
theorem delivery_exactlyOnce {ec : EventClient P} {hist : List (DeliveryOp P)} {d : Delivery P}
    (hrun : Run Delivery.Step (Delivery.initial ec) hist d) (hlt : d.added.length < 2 ^ 32 - 1) :
    d.ExactlyOnce := by
  have hinv : d.added.length + 1 < 2 ^ 32 → d.Inv := by
    apply hrun.invariant (P := fun _ d => d.added.length + 1 < 2 ^ 32 → d.Inv)
    · exact fun _ => Delivery.inv_initial ec
    · intro hist s op s' ih hstep hlt'
      have hle := Delivery.added_le hstep
      exact (ih (by omega)).step hlt' hstep
  exact (hinv (by omega)).exactlyOnce (by omega)

/-- A client that has subscribed to new jobs. -/
def jobAddClient : EventClient Unit where
  state := .connected
  nextNumber := 1
  events := []
  subArray := fun type => ⟨type = .jobAdd, false, none⟩
  session := none

theorem jobAddClient_exactlyOnce : ∃ d, Run Delivery.Step (Delivery.initial jobAddClient)
    [.add ⟨0, .jobAdd, none⟩, .sendEvents, .receive [⟨1, .jobAdd, none⟩],
      .receive [⟨1, .jobAdd, none⟩], .acknowledge] d ∧ d.ExactlyOnce := by
  have hadd := Run.nil.snoc (Delivery.Step.add (Delivery.initial jobAddClient) ⟨0, .jobAdd, none⟩)
  have hsend := hadd.snoc (Delivery.Step.sendEvents _)
  have hrec := hsend.snoc (Delivery.Step.receive _ [⟨1, .jobAdd, none⟩] (by decide))
  have hdup := hrec.snoc (Delivery.Step.receive _ [⟨1, .jobAdd, none⟩] (by decide))
  have hack := hdup.snoc (Delivery.Step.acknowledge _)
  exact ⟨_, hack, delivery_exactlyOnce hack (by decide)⟩

end GridEngine
