import GridEngine.KeyedGroups
import GridEngine.ResourceDebit

/-!
# The load list of the scheduler

Queue instances with load thresholds on consumables are collected in categories. The queues of a
category refer to the same consumables with the same limit. A threshold on a consumable puts its
queue into a category, so that a queue stands in the list once for each of these thresholds.
-/

namespace GridEngine
open KeyedGroups

/-- A `CE_Type` element of `QU_load_thresholds`. -/
structure Threshold where
  name : String
  stringval : String
deriving DecidableEq, Repr

/-- An `EH_Type` element. The utilization list refers to its elements by their names. -/
structure UtilizedHost (Elem : Type*) where
  name : String
  resourceUtilization : List (String × Elem)

/-- A `QU_Type` element with what load thresholds need. -/
structure ThresholdQueue (Elem : Type*) where
  qhostname : String
  loadThresholds : List Threshold
  resourceUtilization : List (String × Elem)

/-- The consumables and the limit of an `LDR_Type` element. -/
structure LoadKey (Elem : Type*) where
  globalPos : Option Elem
  hostPos : Option Elem
  queuePos : Option Elem
  limit : String
deriving DecidableEq

/-- An `LDR_Type` element with its list of `QRL_queue` references. -/
abbrev LoadElem (Elem Ref : Type*) := Group (LoadKey Elem) Ref

/-- The object lists of a scheduling run. Queues and utilization elements are known by their
addresses, and `sameHost` is the comparison of host names. -/
structure SchedLists (Elem Ref : Type*) where
  sameHost : String → String → Bool
  centryList : List Centry
  hostList : List (UtilizedHost Elem)
  queue : Ref → ThresholdQueue Elem

/-- A load list that is under construction, and the elements whose bitfield shows a change. -/
structure LoadState (Elem Ref : Type*) where
  loadList : Option (List (LoadElem Elem Ref))
  changed : Elem → Bool

variable {Elem Ref : Type*}

section Lookup
variable (s : SchedLists Elem Ref)

/-- `centry_list_locate`. -/
def SchedLists.centryListLocate (name : String) : Option Centry :=
  (s.centryList.find? fun ce => ce.name = name).or (s.centryList.find? fun ce => ce.shortcut = name)

/-- `host_list_locate`. -/
def SchedLists.hostListLocate (hostname : String) : Option (UtilizedHost Elem) :=
  s.hostList.find? fun host => s.sameHost host.name hostname

/-- `lGetSubStr` of `RUE_name`. -/
def locateUtilization (name : String) (l : List (String × Elem)) : Option Elem :=
  (l.find? fun p => p.1 = name).map Prod.snd

/-- The load threshold is on a consumable. -/
def SchedLists.isConsumable (threshold : Threshold) : Bool :=
  match s.centryListLocate threshold.name with
  | none => false
  | some centry => centry.consumable ≠ .no

end Lookup

section Create
variable [DecidableEq Elem]

/-- Clears the bit of an element that exists. -/
def sgeBitfieldReset (changed : Elem → Bool) : Option Elem → Elem → Bool
  | none => changed
  | some elem => Function.update changed elem false

/-- The changed bits after those of the consumables of a category are reset. -/
def LoadKey.reset (key : LoadKey Elem) (changed : Elem → Bool) : Elem → Bool :=
  sgeBitfieldReset (sgeBitfieldReset (sgeBitfieldReset changed key.globalPos) key.hostPos)
    key.queuePos

variable (s : SchedLists Elem Ref)

/-- One load threshold of a queue. The category is located with `load_locate_elem` or appended. An
error leaves the state behind it. -/
def createLoadRef (global : UtilizedHost Elem) (queue : Ref) (st : LoadState Elem Ref)
    (loadThreshold : Threshold) : Except (LoadState Elem Ref) (LoadState Elem Ref) :=
  match s.centryListLocate loadThreshold.name with
  | none => .error st
  | some centry =>
      if centry.consumable ≠ .no then
        match s.hostListLocate (s.queue queue).qhostname with
        | none => .error st
        | some host =>
            let key : LoadKey Elem :=
              { globalPos := locateUtilization loadThreshold.name global.resourceUtilization
                hostPos := locateUtilization loadThreshold.name host.resourceUtilization
                queuePos :=
                  locateUtilization loadThreshold.name (s.queue queue).resourceUtilization
                limit := loadThreshold.stringval }
            .ok { loadList := some (add key queue (st.loadList.getD []))
                  changed := key.reset st.changed }
      else .ok st

/-- `sge_create_load_list`. -/
def sgeCreateLoadList (queueList : List Ref) (changed : Elem → Bool) : LoadState Elem Ref :=
  match s.hostListLocate "global" with
  | none => ⟨none, changed⟩
  | some global =>
      match queueList.foldlM (fun st queue =>
        (s.queue queue).loadThresholds.foldlM (createLoadRef s global queue) st)
          ⟨none, changed⟩ with
      | .ok st => st
      | .error st => { st with loadList := none }

end Create

section Remove
variable [DecidableEq Ref]

/-- `sge_remove_queue_from_load_list`. Each queue is searched in category after category up to its
first reference, and the list is freed when nothing is left in it. -/
def sgeRemoveQueueFromLoadList :
    Option (List (LoadElem Elem Ref)) → List Ref → Option (List (LoadElem Elem Ref))
  | none, _ => none
  | some loadList, [] => some loadList
  | some loadList, queue :: queueList =>
      match eraseFirst queue loadList with
      | [] => none
      | load :: loads => sgeRemoveQueueFromLoadList (some (load :: loads)) queueList

/-- A list object, which is not kept when it is empty. -/
def listOrNull {α : Type*} : List α → Option (List α)
  | [] => none
  | a :: l => some (a :: l)

theorem listOrNull_of_ne_nil {α : Type*} {l : List α} (h : l ≠ []) : listOrNull l = some l := by
  cases l with
  | nil => exact absurd rfl h
  | cons a l => rfl

theorem getD_listOrNull {α : Type*} (l : List α) : (listOrNull l).getD [] = l := by
  cases l <;> rfl

theorem listOrNull_eq_none {α : Type*} {l : List α} : listOrNull l = none ↔ l = [] := by
  cases l <;> simp [listOrNull]

theorem sgeRemoveQueueFromLoadList_listOrNull (loadList : List (LoadElem Elem Ref))
    (queueList : List Ref) : sgeRemoveQueueFromLoadList (listOrNull loadList) queueList =
      listOrNull (eraseAll queueList loadList) := by
  induction queueList generalizing loadList with
  | nil => cases loadList <;> rfl
  | cons queue queueList ih =>
      cases loadList with
      | nil => rw [eraseAll_empty]; rfl
      | cons load loads =>
          rw [eraseAll_cons, ← ih, listOrNull, sgeRemoveQueueFromLoadList]
          cases eraseFirst queue (load :: loads) with
          | nil => simp [listOrNull, sgeRemoveQueueFromLoadList]
          | cons load' loads' => rfl

end Remove

section Folds
variable {σ ι γ ε : Type*} {f : σ → ι → Except ε σ} {l : List ι} {st : σ}

/-- A loop without errors, each round of which adds to what the state holds. -/
theorem foldlM_holds {holds : σ → List γ → Prop} {r : ι → List γ} {done : List γ}
    (hstep : ∀ i ∈ l, ∀ st done, holds st done →
      ∃ st', f st i = .ok st' ∧ holds st' (done ++ r i)) (hst : holds st done) :
    ∃ st', l.foldlM f st = .ok st' ∧ holds st' (done ++ l.flatMap r) := by
  induction l generalizing st done with
  | nil => exact ⟨st, rfl, by simpa using hst⟩
  | cons i l ih =>
      obtain ⟨hi, hl⟩ := List.forall_mem_cons.mp hstep
      obtain ⟨st₁, hst₁, hholds⟩ := hi st done hst
      obtain ⟨st₂, hst₂, hholds⟩ := ih hl hholds
      refine ⟨st₂, ?_, by simpa [List.append_assoc] using hholds⟩
      rw [List.foldlM_cons, hst₁]
      exact hst₂

theorem foldlM_error (h : ∃ i ∈ l, ∀ st, ∃ e, f st i = .error e) :
    ∃ e, l.foldlM f st = .error e := by
  induction l generalizing st with
  | nil => simp at h
  | cons i l ih =>
      rw [List.foldlM_cons]
      cases hi : f st i with
      | error e => exact ⟨e, rfl⟩
      | ok st' =>
          rcases (List.exists_mem_cons_iff _ _ _).mp h with herror | hl
          · obtain ⟨e, he⟩ := herror st
            rw [he] at hi
            cases hi
          · exact ih hl

end Folds

section Contents
variable (s : SchedLists Elem Ref)

/-- The category of a load threshold of a queue. -/
def SchedLists.loadKey (queue : Ref) (threshold : Threshold) : LoadKey Elem where
  globalPos := (s.hostListLocate "global").bind fun global =>
    locateUtilization threshold.name global.resourceUtilization
  hostPos := (s.hostListLocate (s.queue queue).qhostname).bind fun host =>
    locateUtilization threshold.name host.resourceUtilization
  queuePos := locateUtilization threshold.name (s.queue queue).resourceUtilization
  limit := threshold.stringval

/-- The load thresholds of a queue that are on consumables. -/
def SchedLists.consumableThresholds (queue : Ref) : List Threshold :=
  (s.queue queue).loadThresholds.filter s.isConsumable

/-- The places of a queue in the load list. -/
def SchedLists.loadRefs (queue : Ref) : List (LoadKey Elem × Ref) :=
  (s.consumableThresholds queue).map fun threshold => (s.loadKey queue threshold, queue)

/-- What the thresholds of a queue name is there. -/
def SchedLists.Readable (queue : Ref) (threshold : Threshold) : Prop :=
  (s.centryListLocate threshold.name).isSome ∧
    (s.isConsumable threshold → (s.hostListLocate (s.queue queue).qhostname).isSome)

instance (queue : Ref) (threshold : Threshold) : Decidable (s.Readable queue threshold) :=
  inferInstanceAs (Decidable (_ ∧ _))

/-- The load list can be created. -/
def SchedLists.Complete (queueList : List Ref) : Prop :=
  (s.hostListLocate "global").isSome ∧
    ∀ queue ∈ queueList, ∀ threshold ∈ (s.queue queue).loadThresholds, s.Readable queue threshold

instance (queueList : List Ref) : Decidable (s.Complete queueList) :=
  inferInstanceAs (Decidable (_ ∧ _))

variable {s}

theorem flatMap_consumable (queue : Ref) (thresholds : List Threshold) :
    (thresholds.flatMap fun threshold =>
      if s.isConsumable threshold then [(s.loadKey queue threshold, queue)] else []) =
      (thresholds.filter s.isConsumable).map fun threshold =>
        (s.loadKey queue threshold, queue) := by
  induction thresholds with
  | nil => rfl
  | cons threshold thresholds ih =>
      rw [List.flatMap_cons, ih, List.filter_cons]
      split_ifs <;> rfl

variable [DecidableEq Elem]

/-- The load list holds the categories of the references. -/
def LoadState.Holds (st : LoadState Elem Ref) (l : List (LoadKey Elem × Ref)) : Prop :=
  st.loadList = listOrNull (collect l)

variable {st : LoadState Elem Ref} {l : List (LoadKey Elem × Ref)}
  {global : UtilizedHost Elem} {queue : Ref} {threshold : Threshold}

theorem createLoadRef_of_not_readable (h : ¬ s.Readable queue threshold) :
    createLoadRef s global queue st threshold = .error st := by
  rw [createLoadRef]
  cases hcentry : s.centryListLocate threshold.name with
  | none => rfl
  | some centry =>
      have hconsumable : s.isConsumable threshold = decide (centry.consumable ≠ .no) := by
        rw [SchedLists.isConsumable, hcentry]
      simp only [SchedLists.Readable, hcentry, hconsumable, decide_eq_true_eq, Option.isSome_some,
        true_and, Classical.not_imp, Option.not_isSome_iff_eq_none] at h
      simp only [if_pos h.1, h.2]

theorem createLoadRef_of_readable (hglobal : s.hostListLocate "global" = some global)
    (h : s.Readable queue threshold) (hst : st.Holds l) :
    ∃ st', createLoadRef s global queue st threshold = .ok st' ∧ st'.Holds
      (l ++ (if s.isConsumable threshold then [(s.loadKey queue threshold, queue)] else [])) := by
  obtain ⟨hsome, hhost⟩ := h
  obtain ⟨centry, hcentry⟩ := Option.isSome_iff_exists.mp hsome
  have hconsumable : s.isConsumable threshold = decide (centry.consumable ≠ .no) := by
    rw [SchedLists.isConsumable, hcentry]
  rw [createLoadRef, hcentry, hconsumable]
  by_cases hc : centry.consumable ≠ .no
  · obtain ⟨host, hhost⟩ := Option.isSome_iff_exists.mp (hhost (by simpa [hconsumable] using hc))
    simp only [if_pos hc, hhost, decide_eq_true hc, if_true]
    refine ⟨_, rfl, ?_⟩
    rw [LoadState.Holds, collect_concat, hst, getD_listOrNull, listOrNull_of_ne_nil add_ne_nil,
      SchedLists.loadKey, hglobal, hhost]
    rfl
  · simp only [if_neg hc, decide_eq_false hc, Bool.false_eq_true, if_false, List.append_nil]
    exact ⟨st, rfl, hst⟩

variable {queueList : List Ref} {changed : Elem → Bool}

/-- The load list that is created holds the categories of all thresholds on consumables. -/
theorem sgeCreateLoadList_of_complete (h : s.Complete queueList) :
    (sgeCreateLoadList s queueList changed).loadList =
      listOrNull (collect (queueList.flatMap s.loadRefs)) := by
  obtain ⟨hglobal, hreadable⟩ := h
  obtain ⟨global, hglobal⟩ := Option.isSome_iff_exists.mp hglobal
  have hqueues := @foldlM_holds _ _ _ _ (fun st queue =>
      (s.queue queue).loadThresholds.foldlM (createLoadRef s global queue) st) queueList
    ⟨none, changed⟩ LoadState.Holds s.loadRefs [] ?_ rfl
  · obtain ⟨st, hst, hholds⟩ := hqueues
    rw [sgeCreateLoadList, hglobal]
    simp only [hst]
    exact hholds
  · intro queue hqueue st done hdone
    have hthresholds := foldlM_holds (r := fun threshold =>
        if s.isConsumable threshold then [(s.loadKey queue threshold, queue)] else [])
      (fun threshold hthreshold st l hst =>
        createLoadRef_of_readable hglobal (hreadable queue hqueue threshold hthreshold) hst) hdone
    rwa [flatMap_consumable] at hthresholds

theorem sgeCreateLoadList_of_not_complete (h : ¬ s.Complete queueList) :
    (sgeCreateLoadList s queueList changed).loadList = none := by
  rw [sgeCreateLoadList]
  cases hglobal : s.hostListLocate "global" with
  | none => rfl
  | some global =>
      simp only [SchedLists.Complete, hglobal, Option.isSome_some, true_and, not_forall] at h
      obtain ⟨queue, hqueue, threshold, hthreshold, hnot⟩ := h
      obtain ⟨st, hst⟩ := @foldlM_error _ _ _ (fun st queue =>
          (s.queue queue).loadThresholds.foldlM (createLoadRef s global queue) st) queueList
        ⟨none, changed⟩ ⟨queue, hqueue, fun st => foldlM_error ⟨threshold, hthreshold, fun st =>
          ⟨st, createLoadRef_of_not_readable hnot⟩⟩⟩
      simp only [hst]

end Contents

/-! ## Queues removed from the load list

A removal takes one place for each queue of the list of removed queues. The queues have a place for
every load threshold on a consumable. -/

section Removals
variable {Elem Ref : Type*} [DecidableEq Ref]

/-- The removed queues are referenced nowhere, the other references are kept with their category,
no category is empty, and the list is freed when nothing is left. -/
structure QueuesRemoved (queueList : List Ref) (before after : Option (List (LoadElem Elem Ref))) :
    Prop where
  gone : ∀ load ∈ after.getD [], ∀ queue ∈ load.members, queue ∉ queueList
  kept : (entries (after.getD [])).filter (·.2 ∉ queueList) =
    (entries (before.getD [])).filter (·.2 ∉ queueList)
  filled : ∀ load ∈ after.getD [], load.members ≠ []
  freed : after = none ↔ ∀ queue ∈ members (before.getD []), queue ∈ queueList

theorem queuesRemoved_iff {before : List (LoadElem Elem Ref)} (h : Inhabited before)
    {queueList : List Ref} :
    QueuesRemoved queueList (listOrNull before) (listOrNull (eraseAll queueList before)) ↔
      ∀ queue ∈ queueList, (members before).count queue ≤ queueList.count queue := by
  rw [← forall_notMem_eraseAll_iff]
  constructor
  · intro hremoved queue hqueue
    obtain ⟨load, hload, hmem⟩ := mem_members.mp hqueue
    exact hremoved.gone load (by rwa [getD_listOrNull]) queue hmem
  · intro hgone
    have hfreed : eraseAll queueList before = [] ↔ ∀ queue ∈ members before, queue ∈ queueList := by
      rw [h.eraseAll.eq_nil_iff, List.eq_nil_iff_forall_not_mem]
      constructor
      · intro hnone queue hqueue
        by_contra hnot
        refine hnone queue (mem_members_eraseAll.mpr ?_)
        rw [List.count_eq_zero_of_not_mem hnot]
        exact List.count_pos_iff.mpr hqueue
      · intro hall queue hqueue
        have hmem : queue ∈ members before := by
          rw [members_eraseAll] at hqueue
          exact List.diff_subset _ _ hqueue
        exact hgone queue hqueue (hall queue hmem)
    constructor
    · rw [getD_listOrNull]
      exact fun load hload queue hmem => hgone queue (mem_members.mpr ⟨load, hload, hmem⟩)
    · rw [getD_listOrNull, getD_listOrNull]
      exact filter_entries_eraseAll fun _ hqueue => hqueue
    · rw [getD_listOrNull]
      exact h.eraseAll
    · rw [getD_listOrNull, listOrNull_eq_none, hfreed]

theorem count_loadRefs (s : SchedLists Elem Ref) (queueList : List Ref) (queue : Ref) :
    ((queueList.flatMap s.loadRefs).map Prod.snd).count queue =
      queueList.count queue * (s.consumableThresholds queue).length := by
  induction queueList with
  | nil => simp
  | cons other queueList ih =>
      have hother : (s.loadRefs other).map Prod.snd =
          List.replicate (s.consumableThresholds other).length other := by
        rw [SchedLists.loadRefs, List.map_map]
        exact List.map_const'
      rw [List.flatMap_cons, List.map_append, List.count_append, ih, hother, List.count_replicate,
        List.count_cons]
      by_cases hqueue : other = queue
      · subst hqueue
        simp only [BEq.rfl, if_true]
        rw [Nat.add_mul, Nat.one_mul, Nat.add_comm]
      · simp only [beq_eq_false_iff_ne.mpr hqueue, Bool.false_eq_true, if_false, Nat.zero_add,
          Nat.add_zero]

variable [DecidableEq Elem]

/-- The removed queues are gone exactly when none of them has more thresholds on consumables than
places in the list of removed queues. -/
theorem sgeRemoveQueueFromLoadList_removes_iff (s : SchedLists Elem Ref) (queueList : List Ref)
    (changed : Elem → Bool) (removed : List Ref) :
    QueuesRemoved removed (sgeCreateLoadList s queueList changed).loadList
        (sgeRemoveQueueFromLoadList (sgeCreateLoadList s queueList changed).loadList removed) ↔
      (s.Complete queueList → ∀ queue ∈ removed,
        queueList.count queue * (s.consumableThresholds queue).length ≤ removed.count queue) := by
  by_cases hcomplete : s.Complete queueList
  · rw [sgeCreateLoadList_of_complete hcomplete, sgeRemoveQueueFromLoadList_listOrNull,
      queuesRemoved_iff inhabited_collect]
    simp only [members_collect_perm.count_eq, count_loadRefs, hcomplete, true_imp_iff]
  · rw [sgeCreateLoadList_of_not_complete hcomplete]
    simp only [hcomplete, false_imp_iff, iff_true]
    constructor <;> simp [sgeRemoveQueueFromLoadList]

/-- A host with the consumables `mem` and `lic`, and queues with load thresholds on both. -/
def licenseLists : SchedLists ℕ ℕ where
  sameHost a b := a = b
  centryList := [⟨"mem", "m", .yes, .le, none⟩, ⟨"lic", "l", .yes, .le, none⟩]
  hostList := [⟨"global", [("lic", 0)]⟩, ⟨"node", [("mem", 1)]⟩]
  queue _ := ⟨"node", [⟨"mem", "1G"⟩, ⟨"lic", "1"⟩], []⟩

/-- The removal of a queue with two such thresholds leaves a reference to it. -/
theorem licenseLists_notRemoved :
    ¬ QueuesRemoved [7] (sgeCreateLoadList licenseLists [7, 8] fun _ => false).loadList
      (sgeRemoveQueueFromLoadList (sgeCreateLoadList licenseLists [7, 8] fun _ => false).loadList
        [7]) := by
  intro hremoved
  have hgone := hremoved.gone
  revert hgone
  decide +kernel

end Removals

end GridEngine
