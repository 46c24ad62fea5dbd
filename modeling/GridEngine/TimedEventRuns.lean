import GridEngine.TimedEvents
import GridEngine.Machine

/-!
# Runs of the timed events

Every event has its place: in the list, in the hand of the thread, handed over, or deleted. While
the thread waits for the first event, `next` shows the earliest time that is pending, and `delete`
tells whether the event it waits for may be gone.
-/

namespace GridEngine

section EventList
variable {list : List TimedEvent} {e te : TimedEvent} {seqNo : ℕ}

/-- An event list with its order and its numbers. -/
structure WellFormedEvents (seqNo : ℕ) (list : List TimedEvent) : Prop where
  sorted : list.Pairwise fun a b => a.when ≤ b.when
  seqnos : (list.map (·.seqno)).Nodup
  seqno_lt : ∀ e ∈ list, e.seqno < seqNo
  range : ∀ e ∈ list, 0 ≤ e.when ∧ e.when < teRange

theorem perm_lInsertSorted : (lInsertSorted e list).Perm (e :: list) :=
  List.perm_orderedInsert _ _ _

theorem mem_lInsertSorted {x : TimedEvent} : x ∈ lInsertSorted e list ↔ x = e ∨ x ∈ list := by
  rw [perm_lInsertSorted.mem_iff, List.mem_cons]

theorem lInsertSorted_sorted (h : list.Pairwise fun a b => a.when ≤ b.when) :
    (lInsertSorted e list).Pairwise fun a b => a.when ≤ b.when := by
  have htotal : Std.Total fun a b : TimedEvent => a.when ≤ b.when := ⟨fun a b => le_total _ _⟩
  have htrans : IsTrans TimedEvent fun a b => a.when ≤ b.when := ⟨fun _ _ _ => le_trans⟩
  exact List.Pairwise.orderedInsert e list h

theorem WellFormedEvents.insert (h : WellFormedEvents seqNo list) (hseqno : e.seqno = seqNo)
    (hrange : 0 ≤ e.when ∧ e.when < teRange) :
    WellFormedEvents (seqNo + 1) (lInsertSorted e list) where
  sorted := lInsertSorted_sorted h.sorted
  seqnos := by
    rw [(perm_lInsertSorted.map _).nodup_iff, List.map_cons, List.nodup_cons]
    refine ⟨fun hmem => ?_, h.seqnos⟩
    obtain ⟨x, hx, hseq⟩ := List.mem_map.mp hmem
    have hlt := h.seqno_lt x hx
    omega
  seqno_lt x hx := by
    rcases mem_lInsertSorted.mp hx with rfl | hx
    · omega
    · have hlt := h.seqno_lt x hx
      omega
  range x hx := by
    rcases mem_lInsertSorted.mp hx with rfl | hx
    · exact hrange
    · exact h.range x hx

theorem WellFormedEvents.sublist {rest : List TimedEvent} (h : WellFormedEvents seqNo list)
    (hsub : rest.Sublist list) : WellFormedEvents seqNo rest where
  sorted := h.sorted.sublist hsub
  seqnos := h.seqnos.sublist (hsub.map _)
  seqno_lt e he := h.seqno_lt e (hsub.subset he)
  range e he := h.range e (hsub.subset he)

/-- A step back of the clock keeps the order if no pending time falls below zero. -/
theorem WellFormedEvents.shift {delta : ℤ} (h : WellFormedEvents seqNo list) (hpos : 0 ≤ delta)
    (hdelta : ∀ e ∈ list, delta ≤ e.when) :
    WellFormedEvents seqNo
      (list.map fun le => { le with when := (le.when - delta) % teRange }) := by
  have hwhen : ∀ e ∈ list, (e.when - delta) % teRange = e.when - delta := by
    intro e he
    have hrange := h.range e he
    have hle := hdelta e he
    exact Int.emod_eq_of_lt (by omega) (by omega)
  constructor
  · rw [List.pairwise_map]
    refine h.sorted.imp_of_mem fun {a b} ha hb hab => ?_
    rw [hwhen a ha, hwhen b hb]
    exact Int.sub_le_sub_right hab delta
  · rw [List.map_map]
    exact h.seqnos
  · intro e he
    obtain ⟨x, hx, rfl⟩ := List.mem_map.mp he
    exact h.seqno_lt x hx
  · intro e he
    obtain ⟨x, hx, rfl⟩ := List.mem_map.mp he
    have hrange := h.range x hx
    have hle := hdelta x hx
    have hlt : x.when - delta < teRange := by omega
    rw [hwhen x hx]
    exact ⟨Int.sub_nonneg_of_le hle, hlt⟩

theorem WellFormedEvents.find (h : WellFormedEvents seqNo list) (hte : te ∈ list) :
    (list.find? fun e => e.seqno = te.seqno) = some te ∧
      list.Perm (te :: list.eraseP fun e => e.seqno = te.seqno) := by
  induction list with
  | nil => cases hte
  | cons e list ih =>
      by_cases hseq : e.seqno = te.seqno
      · have heq : e = te := List.inj_on_of_nodup_map h.seqnos (List.mem_cons_self ..) hte hseq
        subst heq
        simp
      · have hmem : te ∈ list := by
          rcases List.mem_cons.mp hte with rfl | hmem
          · exact absurd rfl hseq
          · exact hmem
        obtain ⟨hfind, hperm⟩ := ih (h.sublist (List.sublist_cons_self ..)) hmem
        simp only [List.find?_cons, hseq, decide_false, List.eraseP_cons]
        exact ⟨hfind, (hperm.cons e).trans (List.Perm.swap te e _)⟩

/-- The pending events that came in with the call `o`. -/
def originCount (list : List TimedEvent) (o : ℕ) : ℕ := (list.map (·.origin)).count o

theorem originCount_perm {list' : List TimedEvent} {o : ℕ} (h : list.Perm list') :
    originCount list o = originCount list' o :=
  (h.map _).count_eq o

theorem originCount_cons {o : ℕ} :
    originCount (e :: list) o = originCount list o + if e.origin = o then 1 else 0 := by
  simp [originCount, List.count_cons]

theorem originCount_insert {o : ℕ} : originCount (lInsertSorted e list) o =
    originCount list o + if e.origin = o then 1 else 0 := by
  rw [originCount_perm perm_lInsertSorted, originCount_cons]

theorem originCount_delete {o : ℕ} {d : TeDelete} : originCount list o =
    originCount (list.filter fun le => !d.selects le) o +
      ((list.filter fun le => d.selects le).map (·.origin)).count o := by
  have hperm := List.filter_append_perm (fun le => d.selects le) list
  rw [← originCount_perm hperm]
  simp only [originCount, List.map_append, List.count_append]
  omega

end EventList

/-- The events of one call: where they are pending, handed over, deleted, in the hand of the
thread. -/
def Tally : Option TeMode → ℕ → ℕ → ℕ → ℕ → Prop
  | none, pending, handed, deleted, inHand =>
      pending = 0 ∧ handed = 0 ∧ deleted = 0 ∧ inHand = 0
  | some .oneTime, pending, handed, deleted, _ => pending + handed + deleted = 1
  | some .recurring, pending, _, deleted, inHand => pending + inHand = 1 ∧ deleted = 0

namespace TimerSystem
variable {s s' : TimerSystem} {te anEvent : TimedEvent} {le seqNo time : ℕ} {ctl : EventControl}

/-- The list and the history of the events. -/
structure Books (s : TimerSystem) : Prop where
  list : WellFormedEvents s.ctl.seqNo s.ctl.list
  owner : ∀ e ∈ s.ctl.list, s.added[e.origin]? = some e.mode
  tally : ∀ o, Tally s.added[o]? (originCount s.ctl.list o)
    ((s.handedOver.map (·.te.origin)).count o) (s.deleted.count o) (s.inHand.count o)
  handed : ∀ h ∈ s.handedOver, h.element = some h.te ∧ h.te.when ≤ h.clock

/-- What the thread knows at its place. -/
def Placed (s : TimerSystem) : Prop :=
  match s.place with
  | .atStart => True
  | .waitEmpty => s.signalPending = false → s.ctl.list = [] ∧ s.ctl.next = 0
  | .waitNext le te => te.seqno = le ∧ s.ctl.next ≠ 0 ∧ s.ctl.next ≤ te.when ∧
      (∀ e ∈ s.ctl.list, s.ctl.next ≤ e.when) ∧ (s.ctl.delete = false → te ∈ s.ctl.list) ∧
      (s.signalPending = false → s.ctl.next = te.when)
  | .delivering te => s.added[te.origin]? = some te.mode

theorem Books.congr (h : Books s) (hlist : s'.ctl.list = s.ctl.list)
    (hseqNo : s'.ctl.seqNo = s.ctl.seqNo) (hadded : s'.added = s.added)
    (hhanded : s'.handedOver = s.handedOver) (hdeleted : s'.deleted = s.deleted)
    (hinHand : s'.inHand = s.inHand) : Books s' := by
  obtain ⟨hwell, howner, htally, hhand⟩ := h
  constructor
  · rw [hlist, hseqNo]
    exact hwell
  · rw [hlist, hadded]
    exact howner
  · rw [hlist, hadded, hhanded, hdeleted, hinHand]
    exact htally
  · rw [hhanded]
    exact hhand

theorem Books.dechain (h : Books s) (hidle : s.inHand = []) (hte : te ∈ s.ctl.list)
    (hdue : te.when ≤ s.clock) : Books (s.dechain te.seqno te) := by
  obtain ⟨hfind, hperm⟩ := h.list.find hte
  constructor
  · exact h.list.sublist (List.eraseP_sublist ..)
  · intro e he
    exact h.owner e (List.mem_of_mem_eraseP he)
  · intro o
    have htally := h.tally o
    have howner := h.owner te hte
    rw [originCount_perm hperm, originCount_cons, hidle] at htally
    simp only [TimerSystem.dechain, goTo, inHand, List.map_append, List.count_append,
      List.map_cons, List.map_nil, List.count_singleton, beq_iff_eq]
    by_cases ho : te.origin = o
    · subst ho
      rw [howner] at htally ⊢
      cases hmode : te.mode with
      | oneTime =>
          simp only [hmode, Tally, if_pos] at htally ⊢
          omega
      | recurring =>
          simp only [hmode, Tally, if_pos, List.count_nil] at htally ⊢
          omega
    · simpa [ho] using htally
  · intro hand hhand
    rcases List.mem_append.mp hhand with hhand | hhand
    · exact h.handed hand hhand
    · rw [List.mem_singleton] at hhand
      subst hhand
      exact ⟨hfind, hdue⟩

theorem Books.placed_dechain (h : Books s) (hte : te ∈ s.ctl.list) :
    Placed (s.dechain te.seqno te) :=
  h.owner te hte

/-- The thread blocks on an empty list, waits for the first event, or delivers it. -/
theorem Books.afterEmpty (h : Books s) (hidle : s.inHand = []) :
    Books s.afterEmpty ∧ Placed s.afterEmpty := by
  rw [TimerSystem.afterEmpty]
  cases hlist : s.ctl.list with
  | nil =>
      dsimp only
      exact ⟨h.congr rfl rfl rfl rfl rfl hidle.symm, fun _ => ⟨hlist, rfl⟩⟩
  | cons le list =>
      have hmem : le ∈ s.ctl.list := hlist ▸ List.mem_cons_self ..
      dsimp only
      split_ifs with hdue
      · refine ⟨h.congr rfl rfl rfl rfl rfl hidle.symm, rfl, ?_, le_refl _, ?_, fun _ => hmem,
          fun _ => rfl⟩
        · exact ((Int.natCast_nonneg _).trans_lt hdue).ne'
        · have hsorted := h.list.sorted
          rw [hlist, List.pairwise_cons] at hsorted
          intro e he
          rcases List.mem_cons.mp (hlist ▸ he) with rfl | he
          · exact le_refl _
          · exact hsorted.1 e he
      · have hbooks : Books { s with ctl := { s.ctl with next := s.clock } } :=
          h.congr rfl rfl rfl rfl rfl rfl
        exact ⟨hbooks.dechain hidle hmem (not_lt.mp hdue), hbooks.placed_dechain hmem⟩

theorem dueTime_origin {o : ℕ} :
    dueTime { anEvent with origin := o } time = dueTime anEvent time := rfl

theorem teElement_range :
    0 ≤ (teElement anEvent time seqNo).when ∧ (teElement anEvent time seqNo).when < teRange :=
  ⟨Int.emod_nonneg _ (by simp [teRange]), Int.emod_lt_of_pos _ (by simp [teRange])⟩

/-- `TE_when` shows no time before the one it was set to, if that is in its range. -/
theorem le_teElement_when (hlt : dueTime anEvent time < teRange) :
    dueTime anEvent time ≤ (teElement anEvent time seqNo).when := by
  rcases lt_or_ge (dueTime anEvent time) 0 with hneg | hpos
  · exact hneg.le.trans teElement_range.1
  · exact (Int.emod_eq_of_lt hpos hlt).ge

variable (anEvent time ctl) in
theorem teAddEvent_list :
    (teAddEvent anEvent time ctl).1.list =
      lInsertSorted (teElement anEvent time ctl.seqNo) ctl.list ∧
    (teAddEvent anEvent time ctl).1.seqNo = ctl.seqNo + 1 ∧
    (teAddEvent anEvent time ctl).1.delete = ctl.delete := by
  simp only [teAddEvent]
  split_ifs <;> exact ⟨rfl, rfl, rfl⟩

variable (anEvent time) in
/-- `next` follows the earliest time, and the thread is told of it. -/
theorem teAddEvent_next (hnext : ctl.next ≠ 0) :
    (dueTime anEvent time < ctl.next ∧ (teAddEvent anEvent time ctl).1.next =
        dueTime anEvent time ∧ (teAddEvent anEvent time ctl).2 = true) ∨
      (ctl.next ≤ dueTime anEvent time ∧ (teAddEvent anEvent time ctl).1.next = ctl.next) := by
  simp only [teAddEvent]
  split_ifs with hlt
  · exact .inl ⟨hlt.resolve_left hnext, rfl, rfl⟩
  · exact .inr ⟨not_lt.mp fun h => hlt (.inr h), rfl⟩

theorem getElem?_lt {α : Type*} {list : List α} {i : ℕ} {x : α} (h : list[i]? = some x) :
    i < list.length :=
  (List.getElem?_eq_some_iff.mp h).1

theorem Books.add (h : Books s) : Books (s.add anEvent time) := by
  obtain ⟨hlist, hseqNo, -⟩ :=
    teAddEvent_list { anEvent with origin := s.added.length } time s.ctl
  constructor
  · change WellFormedEvents (teAddEvent _ time s.ctl).1.seqNo (teAddEvent _ time s.ctl).1.list
    rw [hlist, hseqNo]
    exact h.list.insert rfl teElement_range
  · intro e he
    change e ∈ (teAddEvent _ time s.ctl).1.list at he
    change (s.added ++ [anEvent.mode])[e.origin]? = some e.mode
    rw [hlist] at he
    rcases mem_lInsertSorted.mp he with rfl | he
    · exact List.getElem?_concat_length
    · rw [List.getElem?_append_left (getElem?_lt (h.owner e he))]
      exact h.owner e he
  · intro o
    have htally := h.tally o
    change Tally (s.added ++ [anEvent.mode])[o]? (originCount (teAddEvent _ time s.ctl).1.list o)
      _ _ (s.inHand.count o)
    rw [hlist, originCount_insert]
    change Tally _ (_ + if s.added.length = o then 1 else 0) _ _ _
    rcases lt_trichotomy o s.added.length with ho | rfl | ho
    · rw [List.getElem?_append_left ho, if_neg ho.ne']
      exact htally
    · rw [List.getElem?_eq_none_iff.mpr le_rfl] at htally
      obtain ⟨hpending, hhanded, hdeleted, hinHand⟩ := htally
      rw [List.getElem?_concat_length, hpending, hinHand, if_pos rfl]
      change Tally _ _ ((s.handedOver.map (·.te.origin)).count _) (s.deleted.count _) _
      rw [hhanded, hdeleted]
      cases anEvent.mode with
      | oneTime => rfl
      | recurring => exact ⟨rfl, rfl⟩
    · rw [List.getElem?_eq_none_iff.mpr (by simpa using Nat.succ_le_of_lt ho), if_neg ho.ne]
      rw [List.getElem?_eq_none_iff.mpr ho.le] at htally
      exact htally
  · exact h.handed

theorem Placed.add (h : Placed s) (hne : dueTime anEvent time ≠ 0)
    (hlt : dueTime anEvent time < teRange) : Placed (s.add anEvent time) := by
  obtain ⟨hlist, -, hdelete⟩ :=
    teAddEvent_list { anEvent with origin := s.added.length } time s.ctl
  have hwhen : dueTime anEvent time ≤
      (teElement { anEvent with origin := s.added.length } time s.ctl.seqNo).when := by
    rw [← dueTime_origin (o := s.added.length)] at hlt ⊢
    exact le_teElement_when hlt
  simp only [Placed, TimerSystem.add, signal, hlist, hdelete] at h ⊢
  cases hplace : s.place with
  | atStart => trivial
  | waitEmpty =>
      rw [hplace] at h
      intro hsignal
      simp only [Bool.or_eq_false_iff, blocked, Bool.and_true] at hsignal
      have hnext := (h hsignal.1).2
      have hsent := hsignal.2
      simp [teAddEvent, hnext] at hsent
  | waitNext le te =>
      rw [hplace] at h
      obtain ⟨hle, hnext, hte, hall, hmem, hno⟩ := h
      dsimp only
      have hin : s.ctl.delete = false → te ∈ lInsertSorted
          (teElement { anEvent with origin := s.added.length } time s.ctl.seqNo) s.ctl.list :=
        fun hdel => mem_lInsertSorted.mpr (.inr (hmem hdel))
      rcases teAddEvent_next { anEvent with origin := s.added.length } time hnext with
        ⟨hearlier, hnext', hsent⟩ | ⟨hlater, hnext'⟩
      · rw [dueTime_origin] at hearlier hnext'
        rw [hnext', hsent]
        refine ⟨hle, hne, hearlier.le.trans hte, fun e he => ?_, hin, fun hsignal => ?_⟩
        · rcases mem_lInsertSorted.mp he with rfl | he
          · exact hwhen
          · exact hearlier.le.trans (hall e he)
        · simp [blocked] at hsignal
      · rw [dueTime_origin] at hlater
        rw [hnext']
        refine ⟨hle, hnext, hte, fun e he => ?_, hin, fun hsignal => ?_⟩
        · rcases mem_lInsertSorted.mp he with rfl | he
          · exact hlater.trans hwhen
          · exact hall e he
        · simp only [Bool.or_eq_false_iff] at hsignal
          exact hno hsignal.1
  | delivering te =>
      rw [hplace] at h
      dsimp only
      rw [List.getElem?_append_left (getElem?_lt h)]
      exact h

theorem Books.delete {d : TeDelete} (h : Books s) : Books (s.delete d) := by
  constructor
  · exact h.list.sublist List.filter_sublist
  · intro e he
    exact h.owner e (List.mem_filter.mp he).1
  · intro o
    have htally := h.tally o
    rw [originCount_delete (d := d)] at htally
    change Tally s.added[o]? (originCount (s.ctl.list.filter fun le => !d.selects le) o) _
      ((s.deleted ++ (s.ctl.list.filter fun le => d.selects le).map (·.origin)).count o)
      (s.inHand.count o)
    change Tally _ _ ((s.handedOver.map (·.te.origin)).count o) _ _
    rw [List.count_append]
    cases hmode : s.added[o]? with
    | none =>
        rw [hmode] at htally
        simp only [Tally] at htally ⊢
        omega
    | some mode =>
        rw [hmode] at htally
        cases mode with
        | oneTime =>
            simp only [Tally] at htally ⊢
            omega
        | recurring =>
            -- only one-time events are deleted
            have hkept :
                ((s.ctl.list.filter fun le => d.selects le).map (·.origin)).count o = 0 := by
              rw [List.count_eq_zero]
              intro hmem
              obtain ⟨e, he, rfl⟩ := List.mem_map.mp hmem
              obtain ⟨he, hselects⟩ := List.mem_filter.mp he
              simp only [TeDelete.selects, decide_eq_true_eq] at hselects
              rw [h.owner e he, hselects.2.1] at hmode
              cases hmode
            simp only [Tally] at htally ⊢
            omega
  · exact h.handed

theorem Placed.delete {d : TeDelete} (h : Placed s) : Placed (s.delete d) := by
  simp only [Placed, TimerSystem.delete, signal, teDelete] at h ⊢
  cases hplace : s.place with
  | atStart => trivial
  | waitEmpty =>
      rw [hplace] at h
      intro hsignal
      rw [Bool.or_eq_false_iff] at hsignal
      obtain ⟨hlist, hnext⟩ := h hsignal.1
      exact ⟨by rw [hlist]; rfl, hnext⟩
  | waitNext le te =>
      rw [hplace] at h
      obtain ⟨hle, hnext, hte, hall, hmem, hno⟩ := h
      refine ⟨hle, hnext, hte, fun e he => hall e (List.mem_filter.mp he).1, fun hdelete => ?_,
        fun hsignal => ?_⟩
      · rw [Bool.or_eq_false_iff, decide_eq_false_iff_not, not_not] at hdelete
        have hin := hmem hdelete.1
        refine List.mem_filter.mpr ⟨hin, ?_⟩
        by_contra hselects
        rw [Bool.not_eq_true, Bool.not_eq_false'] at hselects
        have hremoved := List.mem_filter.mpr ⟨hin, hselects⟩
        rw [hdelete.2] at hremoved
        cases hremoved
      · rw [Bool.or_eq_false_iff] at hsignal
        exact hno hsignal.1
  | delivering te =>
      rw [hplace] at h
      exact h

/-- The thread starts over, or the event it waits for is still there and due. -/
theorem Books.afterNext (h : Books s) (hplaced : Placed s) (hplace : s.place = .waitNext le te)
    (hdue : s.ctl.next < te.when ∨ te.when ≤ s.clock) :
    Books (s.afterNext le te) ∧ Placed (s.afterNext le te) := by
  have hidle : s.inHand = [] := by rw [inHand, hplace]
  simp only [Placed, hplace] at hplaced
  obtain ⟨rfl, -, -, -, hmem, -⟩ := hplaced
  rw [TimerSystem.afterNext]
  split_ifs with hover
  · exact ⟨h.congr rfl rfl rfl rfl rfl hidle.symm, trivial⟩
  · rw [not_or, Bool.not_eq_true] at hover
    have hte := hmem hover.2
    exact ⟨h.dechain hidle hte (hdue.resolve_left hover.1), h.placed_dechain hte⟩

theorem Books.start (h : Books s) (hplace : s.place = .atStart)
    (hback : ∀ e ∈ s.ctl.list, s.ctl.last - s.clock ≤ e.when) :
    Books s.start ∧ Placed s.start := by
  have hidle : s.inHand = [] := by rw [inHand, hplace]
  refine Books.afterEmpty ?_ hidle
  rw [teCheckTime]
  split_ifs with hlast
  · refine ⟨h.list.shift (by omega) hback, fun e he => ?_, fun o => ?_, h.handed⟩
    · obtain ⟨x, hx, rfl⟩ := List.mem_map.mp he
      exact h.owner x hx
    · have htally := h.tally o
      simp only [originCount, List.map_map] at htally ⊢
      exact htally
  · exact h.congr rfl rfl rfl rfl rfl rfl

theorem Books.finish (h : Books s) (hplaced : Placed s) (hplace : s.place = .delivering te) :
    Books (s.finish te time) := by
  simp only [Placed, hplace] at hplaced
  have hhand : s.inHand = [te.origin] := by rw [inHand, hplace]
  rw [TimerSystem.finish]
  split_ifs with hmode
  · obtain ⟨hlist, hseqNo, -⟩ := teAddEvent_list te time s.ctl
    constructor
    · change WellFormedEvents (teAddEvent te time s.ctl).1.seqNo (teAddEvent te time s.ctl).1.list
      rw [hlist, hseqNo]
      exact h.list.insert rfl teElement_range
    · intro e he
      change e ∈ (teAddEvent te time s.ctl).1.list at he
      rw [hlist] at he
      rcases mem_lInsertSorted.mp he with rfl | he
      · exact hplaced
      · exact h.owner e he
    · intro o
      have htally := h.tally o
      change Tally s.added[o]? (originCount (teAddEvent te time s.ctl).1.list o) _ _ 0
      rw [hlist, originCount_insert]
      change Tally _ (_ + if te.origin = o then 1 else 0) ((s.handedOver.map (·.te.origin)).count o)
        (s.deleted.count o) 0
      rw [hhand, List.count_singleton] at htally
      by_cases ho : te.origin = o
      · subst ho
        rw [hplaced, hmode] at htally ⊢
        simp only [Tally, beq_self_eq_true, if_pos] at htally ⊢
        exact htally
      · simpa [ho] using htally
    · exact h.handed
  · refine ⟨h.list, h.owner, fun o => ?_, h.handed⟩
    have htally := h.tally o
    change Tally s.added[o]? (originCount s.ctl.list o) ((s.handedOver.map (·.te.origin)).count o)
      (s.deleted.count o) 0
    rw [hhand, List.count_singleton] at htally
    by_cases ho : te.origin = o
    · subst ho
      have hone : te.mode = .oneTime := by
        cases hte : te.mode with
        | oneTime => rfl
        | recurring => exact absurd hte hmode
      rw [hplaced, hone] at htally ⊢
      exact htally
    · simpa [ho] using htally

theorem placed_finish : Placed (s.finish te time) := by
  rw [TimerSystem.finish]
  split_ifs <;> trivial

theorem Placed.waitOn (h : Placed s) (hplace : s.place = .waitNext le te)
    (hnext : s.ctl.next = te.when) : Placed (s.goTo (.waitNext le te)) := by
  simp only [Placed, hplace] at h
  obtain ⟨hle, hpos, hte, hall, hmem, -⟩ := h
  exact ⟨hle, hpos, hte, hall, hmem, fun _ => hnext⟩

theorem Books.step {action : TimerAction} (h : Books s) (hplaced : Placed s)
    (hstep : s.next? action = some s') (hback : s.StepsBack action) (htimely : action.Timely) :
    Books s' ∧ Placed s' := by
  cases action with
  | tick clock =>
      cases hstep
      exact ⟨h.congr rfl rfl rfl rfl rfl rfl, hplaced⟩
  | add aTime aType aMode aKey1 aKey2 aStrKey time =>
      cases hstep
      exact ⟨h.add, hplaced.add htimely.1 htimely.2⟩
  | delete d =>
      cases hstep
      exact ⟨h.delete, hplaced.delete⟩
  | start =>
      simp only [next?] at hstep
      split_ifs at hstep with hplace
      cases hstep
      exact h.start hplace (hback rfl)
  | wake =>
      simp only [next?] at hstep
      cases hplace : s.place with
      | atStart =>
          rw [hplace] at hstep
          cases hstep
      | waitEmpty =>
          rw [hplace] at hstep
          cases hstep
          exact h.afterEmpty (by rw [inHand, hplace])
      | waitNext le te =>
          simp only [hplace] at hstep
          split_ifs at hstep with hnext
          · cases hstep
            exact ⟨h.congr rfl rfl rfl rfl rfl (by simp only [inHand, hplace]; rfl),
              hplaced.waitOn hplace hnext⟩
          · cases hstep
            have hplaced' := hplaced
            simp only [Placed, hplace] at hplaced'
            exact h.afterNext hplaced hplace (.inl (lt_of_le_of_ne hplaced'.2.2.1 hnext))
      | delivering te =>
          rw [hplace] at hstep
          cases hstep
  | timeOut =>
      simp only [next?] at hstep
      cases hplace : s.place with
      | waitNext le te =>
          simp only [hplace] at hstep
          split_ifs at hstep with hdue
          cases hstep
          exact h.afterNext hplaced hplace (.inr hdue)
      | _ =>
          rw [hplace] at hstep
          cases hstep
  | finish time =>
      simp only [next?] at hstep
      cases hplace : s.place with
      | delivering te =>
          rw [hplace] at hstep
          cases hstep
          exact ⟨h.finish hplaced hplace, placed_finish⟩
      | _ =>
          rw [hplace] at hstep
          cases hstep

theorem Books.init (clock : ℕ) : Books (init clock) where
  list := ⟨List.Pairwise.nil, List.nodup_nil, List.forall_mem_nil _, List.forall_mem_nil _⟩
  owner e he := by cases he
  tally o := ⟨rfl, rfl, rfl, rfl⟩
  handed h hh := by cases hh

theorem Books.firesOnce (h : Books s) (hplaced : Placed s) : FiresOnce s where
  sorted := h.list.sorted
  oneTime o ho := by
    have htally := h.tally o
    rw [ho] at htally
    exact htally
  recurring o ho := by
    have htally := h.tally o
    rw [ho] at htally
    exact htally.1
  dechained hand hhand := (h.handed hand hhand).1
  due hand hhand := (h.handed hand hhand).2
  deleted hand hhand hdel := by
    have hhanded : 0 < (s.handedOver.map (·.te.origin)).count hand.te.origin :=
      List.count_pos_iff.mpr (List.mem_map_of_mem hhand)
    have hdeleted := List.count_pos_iff.mpr hdel
    have htally := h.tally hand.te.origin
    cases hmode : s.added[hand.te.origin]? with
    | none =>
        rw [hmode] at htally
        simp only [Tally] at htally
        omega
    | some mode =>
        rw [hmode] at htally
        cases mode <;> simp only [Tally] at htally <;> omega
  waitEmpty hplace hsignal := by
    rw [Placed, hplace] at hplaced
    exact hplaced hsignal
  waitNext le te hplace hsignal := by
    simp only [Placed, hplace] at hplaced
    exact ⟨hplaced.2.2.2.2.2 hsignal, hplaced.2.2.2.1⟩

/-- Whatever the order of the steps, events that come in for proper times fire once. -/
theorem timedEvents_fireOnce {clock : ℕ} {actions : List TimerAction}
    (h : Machine.Run (fun s action s' => s.next? action = some s' ∧ s.StepsBack action ∧
      action.Timely) (init clock) actions s) : FiresOnce s := by
  have hinv : Books s ∧ Placed s := by
    apply h.invariant (P := fun _ s => Books s ∧ Placed s) ⟨Books.init clock, trivial⟩
    intro _ s action s' hs hstep
    exact hs.1.step hs.2 hstep.1 hstep.2.1 hstep.2.2
  exact hinv.1.firesOnce hinv.2

/-- A one-time event is deleted while the thread waits for it, and a recurring one fires. -/
theorem timedEvents_fireOnce_run : ∃ s,
    (s.handedOver.map fun h => (h.te.origin, h.clock)) = [(1, 26)] ∧ s.deleted = [0] ∧
      FiresOnce s := by
  obtain ⟨s, hrun, hfired, hdeleted⟩ : ∃ s, Machine.Run (fun s action s' =>
      s.next? action = some s' ∧ s.StepsBack action ∧ action.Timely) (init 10) [
        .add 20 12 .oneTime 7 0 none 10, .start, .add 15 4 .recurring 0 0 none 10,
        .delete ⟨12, 7, 0, none, false⟩, .wake, .tick 26, .timeOut, .start, .finish 26] s ∧
      (s.handedOver.map fun h => (h.te.origin, h.clock)) = [(1, 26)] ∧ s.deleted = [0] :=
    ⟨_, (((((((((Machine.Run.nil.snoc ⟨rfl, nofun, by decide, by decide⟩).snoc
      ⟨rfl, by decide +kernel, trivial⟩).snoc ⟨rfl, nofun, by decide, by decide⟩).snoc
      ⟨rfl, nofun, trivial⟩).snoc ⟨rfl, nofun, trivial⟩).snoc ⟨rfl, nofun, trivial⟩).snoc
      ⟨rfl, nofun, trivial⟩).snoc ⟨rfl, by decide +kernel, trivial⟩).snoc ⟨rfl, nofun, trivial⟩),
      by decide +kernel, by decide +kernel⟩
  exact ⟨s, hfired, hdeleted, timedEvents_fireOnce hrun⟩

/-- An event that is due at time 0 makes `next` the mark of an empty list, so that the next one,
however late, ends the wait for the first. An event due beyond `u_long32` comes first in the list,
and the thread is not told. -/
theorem timedEvents_fireEarly :
    (∃ s, Machine.Run (fun s action s' => s.next? action = some s' ∧ s.StepsBack action) (init 10)
      [.add 50 4 .oneTime 0 0 none 10, .start, .add 0 4 .oneTime 0 0 none 10,
        .add 100 4 .oneTime 0 0 none 10, .wake] s ∧
      ∃ h ∈ s.handedOver, h.clock < h.te.when) ∧
    ∃ s, Machine.Run (fun s action s' => s.next? action = some s' ∧ s.StepsBack action) (init 10)
      [.add 100 4 .oneTime 0 0 none 10, .start, .add (2 ^ 32 + 5) 4 .oneTime 0 0 none 10] s ∧
      s.signalPending = false ∧ ¬ FiresOnce s := by
  refine ⟨⟨_, ((((Machine.Run.nil.snoc ⟨rfl, nofun⟩).snoc ⟨rfl, by decide +kernel⟩).snoc
    ⟨rfl, nofun⟩).snoc ⟨rfl, nofun⟩).snoc ⟨rfl, nofun⟩, by decide +kernel⟩, ⟨_,
    ((Machine.Run.nil.snoc ⟨rfl, nofun⟩).snoc ⟨rfl, by decide +kernel⟩).snoc ⟨rfl, nofun⟩,
    by decide +kernel, fun h => ?_⟩⟩
  have hnext := (h.waitNext 0 _ rfl (by decide +kernel)).2
  revert hnext
  decide +kernel

end TimerSystem
end GridEngine
