import GridEngine.LoadLists

/-!
# Load alarm of changed categories

A category is checked again when the bitfield of one of its consumables shows a change, and the
bits are reset at once. The first queue of the category decides for all of them.
-/

namespace GridEngine
open KeyedGroups

variable {Elem Ref : Type*}

/-- `sge_load_alarm` of the load thresholds without load adjustments. `loadCheckAlarm` compares the
load value of a threshold that is in the complex. -/
def SchedLists.sgeLoadAlarm (s : SchedLists Elem Ref) (loadCheckAlarm : Ref → Threshold → Bool)
    (queue : Ref) : Bool :=
  if (s.queue queue).loadThresholds = [] then false
  else match s.hostListLocate (s.queue queue).qhostname with
    | none => true
    | some _ => (s.queue queue).loadThresholds.any fun threshold =>
        (s.centryListLocate threshold.name).isNone || loadCheckAlarm queue threshold

/-- The consumables of a category. -/
def LoadKey.elems (key : LoadKey Elem) : List Elem :=
  [key.globalPos, key.hostPos, key.queuePos].filterMap id

/-- The changed bits, `QU_tagged4schedule` of the queues, and whether a queue went into alarm. -/
structure AlarmState (Elem Ref : Type*) where
  changed : Elem → Bool
  tagged4schedule : Ref → ℕ
  isAlarm : Bool

section Model
variable [DecidableEq Elem]

/-- Reads the changed bit of an element that exists and resets it. -/
def recalcElem (recalc : Bool × (Elem → Bool)) : Option Elem → Bool × (Elem → Bool)
  | none => recalc
  | some elem => if recalc.2 elem then (true, sgeBitfieldReset recalc.2 (some elem)) else recalc

/-- `is_recalc` with the changed bits that are left. -/
def isRecalc (key : LoadKey Elem) (changed : Elem → Bool) : Bool × (Elem → Bool) :=
  recalcElem (recalcElem (recalcElem (false, changed) key.globalPos) key.hostPos) key.queuePos

variable [DecidableEq Ref] (alarm : Ref → Bool)

/-- The loop over the queues of a category that is checked again. -/
def tagCategory (isCategoryAlarm : Bool) :
    List Ref → AlarmState Elem Ref → AlarmState Elem Ref
  | [], st => st
  | queue :: queueRefs, st =>
      let tagged := Function.update st.tagged4schedule queue 1
      if isCategoryAlarm then tagCategory true queueRefs { st with tagged4schedule := tagged }
      else if alarm queue then
        tagCategory true queueRefs { st with tagged4schedule := tagged, isAlarm := true }
      else st

/-- The loop over the categories. -/
def alarmCategories : List (LoadElem Elem Ref) → AlarmState Elem Ref → AlarmState Elem Ref
  | [], st => st
  | load :: loadList, st =>
      let (recalc, changed) := isRecalc load.key st.changed
      let st := { st with changed := changed }
      alarmCategories loadList (if recalc then tagCategory alarm false load.members st else st)

/-- `sge_load_list_alarm`. -/
def sgeLoadListAlarm (loadList : Option (List (LoadElem Elem Ref))) (changed : Elem → Bool)
    (tagged : Ref → ℕ) : AlarmState Elem Ref :=
  match loadList with
  | none => ⟨changed, tagged, false⟩
  | some loadList => alarmCategories alarm loadList ⟨changed, tagged, false⟩

end Model

section Steps
variable {recalc : Bool} {changed : Elem → Bool} {key : LoadKey Elem} {e : Elem}

theorem mem_elems : e ∈ key.elems ↔
    key.globalPos = some e ∨ key.hostPos = some e ∨ key.queuePos = some e := by
  simp [LoadKey.elems, eq_comm]
variable [DecidableEq Elem]

theorem recalcElem_eq (elem : Option Elem) : recalcElem (recalc, changed) elem =
    (recalc || elem.any changed, fun e => changed e && decide (elem ≠ some e)) := by
  cases elem with
  | none => simp [recalcElem]
  | some elem =>
      by_cases h : changed elem
      · have hreset : sgeBitfieldReset changed (some elem) =
            fun e => changed e && decide (some elem ≠ some e) := by
          funext e
          by_cases he : e = elem
          · simp [sgeBitfieldReset, he]
          · simp [sgeBitfieldReset, he, Ne.symm he]
        rw [recalcElem, if_pos h, hreset, Option.any_some, h, Bool.or_true]
      · have hreset : changed = fun e => changed e && decide (some elem ≠ some e) := by
          funext e
          by_cases he : elem = e
          · subst he
            simp [h]
          · simp [he]
        rw [recalcElem, if_neg h, ← hreset, Option.any_some, Bool.eq_false_of_not_eq_true h,
          Bool.or_false]

/-- A category is checked again when one of its consumables changed, and then none of them counts
as changed. -/
theorem isRecalc_eq : isRecalc key changed =
    (key.elems.any changed, fun e => changed e && decide (e ∉ key.elems)) := by
  rw [isRecalc, recalcElem_eq, recalcElem_eq, recalcElem_eq]
  refine Prod.ext ?_ (funext fun e => ?_)
  · rw [Bool.eq_iff_iff, List.any_eq_true]
    simp only [mem_elems, Bool.false_or, Bool.or_eq_true, Option.any_eq_true, Bool.and_eq_true,
      decide_eq_true_eq]
    constructor
    · rintro ((⟨e, hpos, he⟩ | ⟨e, hpos, he, -⟩) | ⟨e, hpos, ⟨he, -⟩, -⟩)
      · exact ⟨e, Or.inl hpos, he⟩
      · exact ⟨e, Or.inr (Or.inl hpos), he⟩
      · exact ⟨e, Or.inr (Or.inr hpos), he⟩
    · rintro ⟨e, hpos, he⟩
      by_cases hglobal : key.globalPos = some e
      · exact Or.inl (Or.inl ⟨e, hglobal, he⟩)
      · by_cases hhost : key.hostPos = some e
        · exact Or.inl (Or.inr ⟨e, hhost, he, hglobal⟩)
        · have hqueue : key.queuePos = some e := by tauto
          exact Or.inr ⟨e, hqueue, ⟨he, hglobal⟩, hhost⟩
  · rw [Bool.eq_iff_iff]
    simp only [mem_elems, not_or, Bool.and_eq_true, decide_eq_true_eq, and_assoc, ne_eq]

end Steps

section Category
variable [DecidableEq Ref] {alarm : Ref → Bool} {st : AlarmState Elem Ref}

/-- The first queue of the category is in alarm. -/
def firstAlarm (alarm : Ref → Bool) (load : LoadElem Elem Ref) : Bool :=
  load.members.head?.any alarm

theorem tagCategory_true (queueRefs : List Ref) :
    tagCategory alarm true queueRefs st = { st with
      tagged4schedule := fun queue => if queue ∈ queueRefs then 1 else st.tagged4schedule queue } := by
  induction queueRefs generalizing st with
  | nil => simp [tagCategory]
  | cons queue queueRefs ih =>
      rw [tagCategory]
      simp only [if_true, ih, AlarmState.mk.injEq, and_true, true_and]
      funext other
      by_cases hother : other = queue
      · simp [hother]
      · simp [hother]

theorem tagCategory_tagged (load : LoadElem Elem Ref) :
    (tagCategory alarm false load.members st).tagged4schedule = fun queue =>
      if firstAlarm alarm load ∧ queue ∈ load.members then 1 else st.tagged4schedule queue := by
  rw [firstAlarm]
  cases load.members with
  | nil => simp [tagCategory]
  | cons first queueRefs =>
      rw [tagCategory]
      by_cases hfirst : alarm first
      · simp only [Bool.false_eq_true, if_false, hfirst, if_true, tagCategory_true]
        funext queue
        by_cases hqueue : queue = first
        · simp [hqueue, hfirst]
        · simp [hqueue, hfirst]
      · simp [hfirst]

theorem tagCategory_changed (queueRefs : List Ref) (isCategoryAlarm : Bool) :
    (tagCategory alarm isCategoryAlarm queueRefs st).changed = st.changed := by
  induction queueRefs generalizing st isCategoryAlarm with
  | nil => rfl
  | cons queue queueRefs ih =>
      rw [tagCategory]
      split_ifs
      · exact ih true
      · exact ih true
      · rfl

end Category

section Runs
variable {changed : Elem → Bool} {alarm : Ref → Bool} {loadList : List (LoadElem Elem Ref)}
  {load : LoadElem Elem Ref} {queue : Ref}

/-- The category has a changed consumable that no category before it has. -/
def Leads (changed : Elem → Bool) (loadList : List (LoadElem Elem Ref))
    (load : LoadElem Elem Ref) : Prop :=
  ∃ earlier later, loadList = earlier ++ load :: later ∧
    ∃ e ∈ load.key.elems, changed e ∧ ∀ other ∈ earlier, e ∉ other.key.elems

theorem leads_cons [DecidableEq Elem] {first : LoadElem Elem Ref} :
    Leads changed (first :: loadList) load ↔
      (first = load ∧ ∃ e ∈ load.key.elems, changed e) ∨
        Leads (fun e => changed e && decide (e ∉ first.key.elems)) loadList load := by
  constructor
  · rintro ⟨earlier, later, heq, e, he, hchanged, hnone⟩
    cases earlier with
    | nil =>
        obtain ⟨rfl, -⟩ := List.cons.inj heq
        exact Or.inl ⟨rfl, e, he, hchanged⟩
    | cons first' earlier =>
        obtain ⟨rfl, hrest⟩ := List.cons.inj heq
        obtain ⟨hfirst, hnone⟩ := List.forall_mem_cons.mp hnone
        exact Or.inr ⟨earlier, later, hrest, e, he, by simp [hchanged, hfirst], hnone⟩
  · rintro (⟨rfl, e, he, hchanged⟩ | ⟨earlier, later, heq, e, he, hchanged, hnone⟩)
    · exact ⟨[], loadList, rfl, e, he, hchanged, fun _ h => nomatch h⟩
    · simp only [Bool.and_eq_true, decide_eq_true_eq] at hchanged
      exact ⟨first :: earlier, later, by rw [heq]; rfl, e, he, hchanged.1,
        List.forall_mem_cons.mpr ⟨hchanged.2, hnone⟩⟩

open Classical in
/-- A queue is tagged when it is in a category that is checked again and whose first queue is in
alarm. -/
theorem alarmCategories_tagged [DecidableEq Elem] [DecidableEq Ref] (st : AlarmState Elem Ref) :
    (alarmCategories alarm loadList st).tagged4schedule queue =
      if ∃ load, Leads st.changed loadList load ∧ firstAlarm alarm load ∧ queue ∈ load.members
      then 1 else st.tagged4schedule queue := by
  induction loadList generalizing st with
  | nil => simp [alarmCategories, Leads]
  | cons first loadList ih =>
      have hcons : (∃ load, Leads st.changed (first :: loadList) load ∧ firstAlarm alarm load ∧
          queue ∈ load.members) ↔
          (∃ load, Leads (fun e => st.changed e && decide (e ∉ first.key.elems)) loadList load ∧
              firstAlarm alarm load ∧ queue ∈ load.members) ∨
            first.key.elems.any st.changed ∧ firstAlarm alarm first ∧ queue ∈ first.members := by
        simp only [leads_cons, or_and_right, exists_or, and_assoc, exists_eq_left', List.any_eq_true]
        exact or_comm
      rw [alarmCategories, isRecalc_eq, ih]
      by_cases hrecalc : first.key.elems.any st.changed
      · simp only [hrecalc, if_true, tagCategory_changed, tagCategory_tagged, hcons, true_and,
          ite_or]
      · simp only [hrecalc, Bool.false_eq_true, if_false, hcons, false_and, or_false]

/-- The load list has a reference to the queue in a category with a changed consumable. -/
def ReferencesChanged (changed : Elem → Bool) (loadList : List (LoadElem Elem Ref)) (queue : Ref) :
    Prop :=
  ∃ load ∈ loadList, queue ∈ load.members ∧ ∃ e ∈ load.key.elems, changed e

theorem Leads.mem (h : Leads changed loadList load) : load ∈ loadList := by
  obtain ⟨earlier, later, rfl, -⟩ := h
  simp

theorem Leads.exists_changed (h : Leads changed loadList load) : ∃ e ∈ load.key.elems, changed e := by
  obtain ⟨earlier, later, -, e, he, hchanged, -⟩ := h
  exact ⟨e, he, hchanged⟩

/-- The categories that are checked again decide for the alarm of the queues. -/
structure LeadsDecide (alarm : Ref → Bool) (changed : Elem → Bool)
    (loadList : List (LoadElem Elem Ref)) : Prop where
  uniform : ∀ load, Leads changed loadList load → firstAlarm alarm load →
    ∀ queue ∈ load.members, alarm queue
  reached : ∀ queue, ReferencesChanged changed loadList queue → alarm queue →
    ∃ load, Leads changed loadList load ∧ firstAlarm alarm load ∧ queue ∈ load.members

open Classical in
/-- The queues that are tagged are those that reference a changed consumable and are in alarm. -/
def TagsExactly [DecidableEq Elem] [DecidableEq Ref] (alarm : Ref → Bool) (changed : Elem → Bool)
    (loadList : Option (List (LoadElem Elem Ref))) : Prop :=
  ∀ (tagged : Ref → ℕ) (queue : Ref),
    (sgeLoadListAlarm alarm loadList changed tagged).tagged4schedule queue =
      if ReferencesChanged changed (loadList.getD []) queue ∧ alarm queue then 1 else tagged queue

variable [DecidableEq Elem] [DecidableEq Ref]

theorem tagsExactly_iff_forall : TagsExactly alarm changed (listOrNull loadList) ↔
    ∀ queue, (∃ load, Leads changed loadList load ∧ firstAlarm alarm load ∧ queue ∈ load.members) ↔
      ReferencesChanged changed loadList queue ∧ alarm queue := by
  have hrun : ∀ tagged, sgeLoadListAlarm alarm (listOrNull loadList) changed tagged =
      alarmCategories alarm loadList ⟨changed, tagged, false⟩ := by
    intro tagged
    cases loadList <;> rfl
  constructor
  · intro hexact queue
    have h := hexact (fun _ => 0) queue
    rw [hrun, alarmCategories_tagged] at h
    split_ifs at h with hleads hwant hwant
    · exact iff_of_true hleads (by rwa [getD_listOrNull] at hwant)
    · exact iff_of_false hleads (by rwa [getD_listOrNull] at hwant)
  · intro hiff tagged queue
    rw [hrun, alarmCategories_tagged]
    by_cases hwant : ReferencesChanged changed loadList queue ∧ alarm queue
    · rw [if_pos ((hiff queue).mpr hwant), if_pos (by rwa [getD_listOrNull])]
    · rw [if_neg fun hleads => hwant ((hiff queue).mp hleads), if_neg (by rwa [getD_listOrNull])]

theorem tagsExactly_iff : TagsExactly alarm changed (listOrNull loadList) ↔
    LeadsDecide alarm changed loadList := by
  rw [tagsExactly_iff_forall]
  constructor
  · intro hiff
    constructor
    · intro load hleads hfirst queue hqueue
      exact ((hiff queue).mp ⟨load, hleads, hfirst, hqueue⟩).2
    · intro queue hreferences halarm
      exact (hiff queue).mpr ⟨hreferences, halarm⟩
  · intro hdecide queue
    constructor
    · rintro ⟨load, hleads, hfirst, hqueue⟩
      exact ⟨⟨load, hleads.mem, hqueue, hleads.exists_changed⟩,
        hdecide.uniform load hleads hfirst queue hqueue⟩
    · rintro ⟨hreferences, halarm⟩
      exact hdecide.reached queue hreferences halarm

end Runs

section Created
variable [DecidableEq Elem] {s : SchedLists Elem Ref} {queueList : List Ref}
  {changed changed' : Elem → Bool} {queue : Ref}

theorem loadList_created : (sgeCreateLoadList s queueList changed).loadList =
    listOrNull ((sgeCreateLoadList s queueList changed).loadList.getD []) := by
  by_cases hcomplete : s.Complete queueList
  · rw [sgeCreateLoadList_of_complete hcomplete, getD_listOrNull]
  · rw [sgeCreateLoadList_of_not_complete hcomplete]
    rfl

/-- The queues of a load list that reference a changed consumable, in terms of their thresholds. -/
theorem referencesChanged_created (h : s.Complete queueList) :
    ReferencesChanged changed' ((sgeCreateLoadList s queueList changed).loadList.getD []) queue ↔
      queue ∈ queueList ∧ ∃ threshold ∈ s.consumableThresholds queue,
        ∃ e ∈ (s.loadKey queue threshold).elems, changed' e := by
  have hentries : ∀ key : LoadKey Elem, (∃ load ∈ collect (queueList.flatMap s.loadRefs),
      load.key = key ∧ queue ∈ load.members) ↔
      queue ∈ queueList ∧ ∃ threshold ∈ s.consumableThresholds queue,
        s.loadKey queue threshold = key := by
    intro key
    rw [← mem_entries, entries_collect_perm.mem_iff, List.mem_flatMap]
    simp only [SchedLists.loadRefs, List.mem_map, Prod.mk.injEq]
    constructor
    · rintro ⟨_, hqueue, threshold, hthreshold, hkey, rfl⟩
      exact ⟨hqueue, threshold, hthreshold, hkey⟩
    · rintro ⟨hqueue, threshold, hthreshold, hkey⟩
      exact ⟨queue, hqueue, threshold, hthreshold, hkey, rfl⟩
  rw [sgeCreateLoadList_of_complete h, getD_listOrNull, ReferencesChanged]
  constructor
  · rintro ⟨load, hload, hqueue, e, he, hchanged⟩
    obtain ⟨hmem, threshold, hthreshold, hkey⟩ := (hentries load.key).mp ⟨load, hload, rfl, hqueue⟩
    exact ⟨hmem, threshold, hthreshold, e, by rwa [hkey], hchanged⟩
  · rintro ⟨hmem, threshold, hthreshold, e, he, hchanged⟩
    obtain ⟨load, hload, hkey, hqueue⟩ :=
      (hentries (s.loadKey queue threshold)).mpr ⟨hmem, threshold, hthreshold, rfl⟩
    exact ⟨load, hload, hqueue, e, by rwa [hkey], hchanged⟩

/-- The check of the changed categories agrees with the full check exactly when the first queue of
each category that is checked again decides for its queues, and every queue in alarm whose
consumables changed is reached by one of these categories. -/
theorem sgeLoadListAlarm_exact_iff [DecidableEq Ref] (s : SchedLists Elem Ref)
    (loadCheckAlarm : Ref → Threshold → Bool) (queueList : List Ref)
    (changed changed' : Elem → Bool) :
    TagsExactly (s.sgeLoadAlarm loadCheckAlarm) changed'
        (sgeCreateLoadList s queueList changed).loadList ↔
      LeadsDecide (s.sgeLoadAlarm loadCheckAlarm) changed'
        ((sgeCreateLoadList s queueList changed).loadList.getD []) := by
  conv_lhs => rw [loadList_created]
  exact tagsExactly_iff

/-- Two queues of a host with limits of their own on its memory. -/
def memoryLists : SchedLists ℕ ℕ where
  sameHost a b := a = b
  centryList := [⟨"mem", "m", .yes, .le, none⟩]
  hostList := [⟨"global", []⟩, ⟨"node", [("mem", 0)]⟩]
  queue
    | 0 => ⟨"node", [⟨"mem", "1G"⟩], []⟩
    | _ => ⟨"node", [⟨"mem", "2G"⟩], []⟩

/-- The category of the second limit is not checked again when the memory changes. -/
theorem memoryLists_notExact :
    ¬ TagsExactly (memoryLists.sgeLoadAlarm fun _ threshold => threshold.stringval = "2G")
      (fun _ => true) (sgeCreateLoadList memoryLists [0, 1] fun _ => false).loadList := by
  intro hexact
  have h := hexact (fun _ => 0) 1
  have hwant : ReferencesChanged (fun _ => true)
      ((sgeCreateLoadList memoryLists [0, 1] fun _ => false).loadList.getD []) 1 := by
    rw [referencesChanged_created (by decide +kernel)]
    exact ⟨by decide, ⟨"mem", "2G"⟩, by decide +kernel, 0, by decide +kernel, rfl⟩
  rw [if_pos ⟨hwant, by decide +kernel⟩] at h
  revert h
  decide +kernel

end Created

end GridEngine
