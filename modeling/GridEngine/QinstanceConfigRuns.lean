import GridEngine.QinstanceConfig

/-!
# Attribute resolution over changes of a cluster queue

After a cluster queue was changed, each attribute of a queue instance has the value that the host
is meant to have, and the ambiguous state says whether one of them is ambiguous. Two things go
wrong. The look-up of the slots hides that `complex_values` is ambiguous, and an attribute that is
not looked at may have changed with its host groups.
-/

namespace GridEngine
open Machine

namespace ClusterQueue

section Spec
variable (qmaster : Qmaster) (view : HostView) (config : Config)

/-- The value that an attribute is meant to have; `complex_values` has the slots folded in. -/
def meantValue : (a : CqueueAttr) → Option a.Value
  | .consumableConfigList =>
      ((resolvedValue view (config .consumableConfigList)).bind qmaster.fillRequest).bind
        fun list => (resolvedValue view (config .jobSlots)).map (setConfSlots list)
  | a => resolvedValue view (config a)

/-- Each attribute has the value that it is meant to have, and the state is set when an attribute
is ambiguous. -/
structure Resolved (q : Qinstance) : Prop where
  values : ∀ a, meantValue qmaster view config a = some (q.value a)
  state : q.ambiguous = true ↔ ∃ a, Ambiguous view (config a)

/-- The slots are looked up for `complex_values`, and the host has no value of its own for them. -/
def Folded : Prop :=
  attrListLocate view (config .jobSlots) view.hostname = none ∧
    ∀ list, (resolvedValue view (config .consumableConfigList)).bind qmaster.fillRequest = some list →
      hasSlots list = false

/-- Whether the look-ups for an attribute show that it is ambiguous: when the slots are folded into
`complex_values`, only the look-up of the slots counts. -/
def Noticed (a : CqueueAttr) : Prop :=
  a = .consumableConfigList ∧ Folded qmaster view config ∧ Ambiguous view (config .jobSlots) ∨
    ¬ (a = .consumableConfigList ∧ Folded qmaster view config) ∧ Ambiguous view (config a)

/-- The attributes that are not looked at have the right value, and an ambiguous attribute is
noticed. -/
structure Covered (look : CqueueAttr → Bool) (q : Qinstance) : Prop where
  current : ∀ a, look a = false → a ≠ .consumableConfigList →
    meantValue qmaster view config a = some (q.value a)
  currentComplex : look .consumableConfigList = false →
    ∀ slots, resolvedValue view (config .jobSlots) = some slots →
      meantValue qmaster view config .consumableConfigList =
        some (setConfSlots (q.value .consumableConfigList) slots)
  noticed : (∃ a, Ambiguous view (config a)) → ∃ a, look a = true ∧ Noticed qmaster view config a

/-- The slots entry of the consumables is the number of slots. -/
def Consistent (q : Qinstance) : Prop :=
  setConfSlots (q.value .consumableConfigList) (q.value .jobSlots) = q.value .consumableConfigList

end Spec

section Values
variable {qmaster : Qmaster} {view : HostView} {config : Config} {list : List Centry} {slots : ℕ}
  {a : CqueueAttr}

theorem setConfSlots_twice (list : List Centry) (slots slots' : ℕ) :
    setConfSlots (setConfSlots list slots) slots' = setConfSlots list slots' := by
  induction list with
  | nil => rfl
  | cons ce list ih =>
      rw [setConfSlots]
      split_ifs with hname
      · rw [setConfSlots, if_pos hname, setConfSlots, if_pos hname]
      · rw [setConfSlots, if_neg hname, ih, setConfSlots, if_neg hname]

theorem setConfSlots_append (h : hasSlots list = false) :
    setConfSlots list slots = list ++ [slotsCentry slots] := by
  induction list with
  | nil => rfl
  | cons ce list ih =>
      rw [hasSlots, List.any_cons, Bool.or_eq_false_iff] at h
      rw [setConfSlots, if_neg (by simpa using h.1), ih h.2, List.cons_append]

theorem findValue_of_ne (h : a ≠ .consumableConfigList) :
    findValue qmaster view config a = attrListFindValue view (config a) false := by
  cases a <;> first | rfl | exact absurd rfl h

theorem meantValue_of_ne (h : a ≠ .consumableConfigList) :
    meantValue qmaster view config a = resolvedValue view (config a) := by
  cases a <;> first | rfl | exact absurd rfl h

theorem eq_of_not_differs {kind : ValueKind} {old new : kind.Value}
    (h : differs kind old new = false) : old = new := by
  cases kind <;> simp_all [differs]

theorem attrListFindValue_flag {V : Type} {list : List (Attr V)} :
    (attrListFindValue view list false).2 = true ↔ Ambiguous view list := by
  rw [attrListFindValue_snd]
  split_ifs with hown
  · constructor
    · exact fun h => nomatch h
    · rintro ⟨hnone, -⟩
      rw [hnone] at hown
      exact nomatch hown
  · exact decide_eq_true_iff

/-- What `complex_values` becomes, before the slots entry is set. -/
theorem findComplexValues_spec {new : List Centry} {isAmbiguous : Bool}
    (h : findComplexValues qmaster view config = (some new, isAmbiguous)) :
    (∀ slots, resolvedValue view (config .jobSlots) = some slots →
      meantValue qmaster view config .consumableConfigList = some (setConfSlots new slots)) ∧
      (isAmbiguous = true ↔ Noticed qmaster view config .consumableConfigList) := by
  have hflag := @attrListFindValue_flag view _ (config .consumableConfigList)
  rw [findComplexValues] at h
  simp only [attrListFindValue_fst] at h
  cases hfill : (resolvedValue view (config .consumableConfigList)).bind qmaster.fillRequest with
  | none =>
      rw [hfill] at h
      cases h
  | some list =>
      simp only [hfill] at h
      have hfolded : Folded qmaster view config ↔
          attrListLocate view (config .jobSlots) view.hostname = none ∧ hasSlots list = false := by
        simp [Folded, hfill]
      have hmeant : ∀ slots, resolvedValue view (config .jobSlots) = some slots →
          meantValue qmaster view config .consumableConfigList =
            some (setConfSlots list slots) := by
        intro slots hs
        rw [meantValue, hfill, Option.bind_some, hs]
        rfl
      cases hslots : hasSlots list with
      | true =>
          rw [hslots, if_pos rfl] at h
          cases h
          refine ⟨hmeant, ?_⟩
          rw [Noticed, hfolded, hslots, hflag]
          simp
      | false =>
          rw [hslots, if_neg Bool.false_ne_true] at h
          obtain ⟨hvalue, rfl⟩ := Prod.ext_iff.mp h
          obtain ⟨slots, hs, rfl⟩ := Option.map_eq_some_iff.mp hvalue
          constructor
          · intro slots' hs'
            rw [hs] at hs'
            cases hs'
            rw [← setConfSlots_append hslots, setConfSlots_twice]
            exact hmeant slots hs
          · rw [attrListFindValue_snd, Noticed, hfolded, hslots]
            cases hown : attrListLocate view (config .jobSlots) view.hostname with
            | none => simp
            | some href => simp [hflag]

end Values

section Loop
variable {qmaster : Qmaster} {view : HostView} {config : Config} {look : CqueueAttr → Bool}
  {q q' : Qinstance} {a : CqueueAttr} {isAmbiguous needReinitialize : Bool}

@[simp]
theorem Qinstance.set_value_self (q : Qinstance) (value : a.Value) : (q.set a value).value a = value :=
  Function.update_self ..

theorem Qinstance.set_value_of_ne {b : CqueueAttr} (h : b ≠ a) (q : Qinstance) (value : a.Value) :
    (q.set a value).value b = q.value b := Function.update_of_ne h ..

/-- What `qinstance_modify_attribute` does when the value is not refused. -/
structure Modified (qmaster : Qmaster) (view : HostView) (config : Config) (q : Qinstance)
    (a : CqueueAttr) (q' : Qinstance) (isAmbiguous needReinitialize : Bool) : Prop where
  found : findValue qmaster view config a = (some (q'.value a), isAmbiguous)
  others : ∀ b ≠ a, q'.value b = q.value b
  unchanged : needReinitialize = false → a = .jobSlots ∨ a = .consumableConfigList →
    q'.value a = q.value a

theorem qinstanceModifyAttribute_spec
    (h : qinstanceModifyAttribute qmaster view config q a = some (q', isAmbiguous, needReinitialize)) :
    Modified qmaster view config q a q' isAmbiguous needReinitialize := by
  rw [qinstanceModifyAttribute] at h
  split at h
  case h_1 newValue flag hfound =>
    split_ifs at h with hdiffers hrefuses
    · cases h
      rw [← Qinstance.set_value_self q newValue] at hfound
      refine ⟨hfound, fun b hb => Qinstance.set_value_of_ne hb q newValue, ?_⟩
      rintro hnot (rfl | rfl) <;> exact nomatch hnot
    · cases h
      have hsame := eq_of_not_differs (Bool.eq_false_iff.mpr hdiffers)
      rw [← hsame] at hfound
      exact ⟨hfound, fun b _ => rfl, fun _ _ => rfl⟩
  case h_2 => exact nomatch h

/-- What the loop over a list of attributes has done: those that are looked at have the values that
were found for them, and the flag says whether one of the look-ups was ambiguous. -/
structure LoopDone (qmaster : Qmaster) (view : HostView) (config : Config)
    (look : CqueueAttr → Bool) (l : List CqueueAttr) (q q' : Qinstance)
    (willBeAmbiguous needReinitialize : Bool) : Prop where
  found : ∀ a ∈ l, look a = true → (findValue qmaster view config a).1 = some (q'.value a)
  kept : ∀ a, a ∉ l ∨ look a = false → q'.value a = q.value a
  flag : willBeAmbiguous = true ↔
    ∃ a ∈ l, look a = true ∧ (findValue qmaster view config a).2 = true
  unchanged : needReinitialize = false → q'.value .jobSlots = q.value .jobSlots ∧
    q'.value .consumableConfigList = q.value .consumableConfigList

theorem modifyStep_foldlM (l : List CqueueAttr) (hnodup : l.Nodup)
    (h : l.foldlM (modifyStep qmaster view config look) (q, false, false) =
      some (q', isAmbiguous, needReinitialize)) :
    LoopDone qmaster view config look l q q' isAmbiguous needReinitialize := by
  induction l using List.reverseRecOn generalizing q' isAmbiguous needReinitialize with
  | nil =>
      cases h
      exact ⟨by simp, fun a _ => rfl, by simp, fun _ => ⟨rfl, rfl⟩⟩
  | append_singleton l a ih =>
      rw [List.nodup_append] at hnodup
      have hfresh : ∀ b ∈ l, b ≠ a := fun b hb => hnodup.2.2 b hb a (List.mem_singleton_self a)
      rw [List.foldlM_append] at h
      obtain ⟨⟨q₁, flag, reinit⟩, hbefore, h⟩ := Option.bind_eq_some_iff.mp h
      have hdone := ih hnodup.1 hbefore
      rw [List.foldlM_cons] at h
      obtain ⟨r, hround, h⟩ := Option.bind_eq_some_iff.mp h
      cases h
      rw [modifyStep] at hround
      split_ifs at hround with hlook
      · obtain ⟨⟨q₂, flag₂, reinit₂⟩, hmodify, hround⟩ := Option.map_eq_some_iff.mp hround
        cases hround
        have hmodified := qinstanceModifyAttribute_spec hmodify
        constructor
        · intro b hb hlookb
          rcases List.mem_append.mp hb with hold | hlast
          · rw [hmodified.others b (hfresh b hold)]
            exact hdone.found b hold hlookb
          · rw [List.mem_singleton.mp hlast, hmodified.found]
        · intro b hb
          have hne : b ≠ a := by
            rintro rfl
            simp [hlook] at hb
          rw [hmodified.others b hne]
          apply hdone.kept
          rcases hb with hnot | hlookb
          · exact Or.inl fun hmem => hnot (List.mem_append_left _ hmem)
          · exact Or.inr hlookb
        · rw [Bool.or_eq_true, hdone.flag]
          constructor
          · rintro (⟨b, hb, hrest⟩ | hflag)
            · exact ⟨b, List.mem_append_left _ hb, hrest⟩
            · exact ⟨a, by simp, hlook, by rw [hmodified.found]; exact hflag⟩
          · rintro ⟨b, hb, hlookb, hflag⟩
            rcases List.mem_append.mp hb with hold | hlast
            · exact Or.inl ⟨b, hold, hlookb, hflag⟩
            · rw [List.mem_singleton.mp hlast, hmodified.found] at hflag
              exact Or.inr hflag
        · intro hreinit
          rw [Bool.or_eq_false_iff] at hreinit
          have hkeep : ∀ b, b = .jobSlots ∨ b = .consumableConfigList →
              q₁.value b = q.value b → q₂.value b = q.value b := by
            intro b hb hprev
            by_cases hba : b = a
            · rw [hba] at hb hprev ⊢
              exact (hmodified.unchanged hreinit.2 hb).trans hprev
            · exact (hmodified.others b hba).trans hprev
          obtain ⟨hslots, hcomplex⟩ := hdone.unchanged hreinit.1
          exact ⟨hkeep _ (Or.inl rfl) hslots, hkeep _ (Or.inr rfl) hcomplex⟩
      · cases hround
        have hnot : look a = false := Bool.eq_false_iff.mpr hlook
        constructor
        · intro b hb hlookb
          rcases List.mem_append.mp hb with hold | hlast
          · exact hdone.found b hold hlookb
          · rw [List.mem_singleton.mp hlast] at hlookb
            exact absurd hlookb hlook
        · intro b hb
          apply hdone.kept
          rcases hb with hmem | hlookb
          · exact Or.inl fun hin => hmem (List.mem_append_left _ hin)
          · exact Or.inr hlookb
        · rw [hdone.flag]
          constructor
          · rintro ⟨b, hb, hrest⟩
            exact ⟨b, List.mem_append_left _ hb, hrest⟩
          · rintro ⟨b, hb, hlookb, hflag⟩
            rcases List.mem_append.mp hb with hold | hlast
            · exact ⟨b, hold, hlookb, hflag⟩
            · rw [List.mem_singleton.mp hlast] at hlookb
              exact absurd hlookb hlook
        · exact hdone.unchanged

end Loop

section Operation
variable {qmaster : Qmaster} {view : HostView} {config : Config} {sent : CqueueAttr → Bool}
  {refreshAllValues : Bool} {look : CqueueAttr → Bool} {q q' : Qinstance} {a : CqueueAttr}

theorem mem_cqueueAttributeArray (a : CqueueAttr) : a ∈ cqueueAttributeArray := by
  cases a <;> decide

/-- What `cqueue_mod_qinstances` makes of a queue instance: the loop changes the values, then the
slots entry is set. -/
structure Rebuilt (qmaster : Qmaster) (view : HostView) (config : Config)
    (look : CqueueAttr → Bool) (q q' : Qinstance) : Prop where
  values : ∃ q₁ : Qinstance,
    (∀ a, look a = true → (findValue qmaster view config a).1 = some (q₁.value a)) ∧
    (∀ a, look a = false → q₁.value a = q.value a) ∧
    (∀ a ≠ .consumableConfigList, q'.value a = q₁.value a) ∧
    q'.value .consumableConfigList =
      setConfSlots (q₁.value .consumableConfigList) (q₁.value .jobSlots)
  state : q'.ambiguous = true ↔ ∃ a, look a = true ∧ (findValue qmaster view config a).2 = true

theorem Rebuilt.of_mod (hq : Consistent q)
    (h : cqueueModQinstance qmaster view config sent refreshAllValues q = some q') :
    Rebuilt qmaster view config (looked sent refreshAllValues q) q q' := by
  obtain ⟨⟨q₁, willBeAmbiguous, needReinitialize⟩, hloop, h⟩ := Option.bind_eq_some_iff.mp h
  have hdone := modifyStep_foldlM cqueueAttributeArray (by decide) hloop
  obtain ⟨-, h⟩ := Option.ite_none_right_eq_some.mp h
  cases h
  constructor
  · refine ⟨q₁, fun a => hdone.found a (mem_cqueueAttributeArray a),
      fun a ha => hdone.kept a (Or.inr ha), ?_, ?_⟩
    · intro a ha
      split_ifs
      · exact Qinstance.set_value_of_ne ha q₁ _
      · rfl
    · split_ifs with hreinit
      · exact Qinstance.set_value_self (a := .consumableConfigList) q₁ _
      · obtain ⟨hslots, hcomplex⟩ := hdone.unchanged (Bool.eq_false_iff.mpr hreinit)
        rw [hslots, hcomplex]
        exact hq.symm
  · rw [hdone.flag]
    simp [mem_cqueueAttributeArray]

theorem Rebuilt.consistent (h : Rebuilt qmaster view config look q q') : Consistent q' := by
  obtain ⟨q₁, -, -, hothers, hcomplex⟩ := h.values
  rw [Consistent, hcomplex, setConfSlots_twice, hothers .jobSlots (by decide)]

/-- A look-up sets the flag of an attribute exactly when it notices that it is ambiguous. -/
theorem findValue_flag {value : a.Value} {isAmbiguous : Bool}
    (h : findValue qmaster view config a = (some value, isAmbiguous)) :
    isAmbiguous = true ↔ Noticed qmaster view config a := by
  by_cases ha : a = .consumableConfigList
  · subst ha
    exact (findComplexValues_spec h).2
  · rw [findValue_of_ne ha] at h
    have hflag := @attrListFindValue_flag view _ (config a)
    rw [h] at hflag
    rw [hflag, Noticed]
    simp [ha]

theorem Noticed.exists_ambiguous (h : Noticed qmaster view config a) :
    ∃ b, Ambiguous view (config b) := by
  rcases h with ⟨-, -, hslots⟩ | ⟨-, hown⟩
  · exact ⟨_, hslots⟩
  · exact ⟨_, hown⟩

theorem Rebuilt.state_iff (h : Rebuilt qmaster view config look q q') :
    (q'.ambiguous = true ↔ ∃ a, Ambiguous view (config a)) ↔
      ((∃ a, Ambiguous view (config a)) → ∃ a, look a = true ∧ Noticed qmaster view config a) := by
  obtain ⟨q₁, hfound, -⟩ := h.values
  have hstate : q'.ambiguous = true ↔ ∃ a, look a = true ∧ Noticed qmaster view config a := by
    rw [h.state]
    apply exists_congr
    intro a
    apply and_congr_right
    intro hlook
    exact findValue_flag (Prod.ext (hfound a hlook) rfl)
  rw [hstate]
  constructor
  · exact fun hiff => hiff.mpr
  · intro hnoticed
    refine ⟨?_, hnoticed⟩
    rintro ⟨a, -, ha⟩
    exact ha.exists_ambiguous

/-- An attribute other than `complex_values` is right when it was looked at, or was right before. -/
theorem Rebuilt.value_iff (h : Rebuilt qmaster view config look q q')
    (ha : a ≠ .consumableConfigList) : meantValue qmaster view config a = some (q'.value a) ↔
      (look a = false → meantValue qmaster view config a = some (q.value a)) := by
  obtain ⟨q₁, hfound, hkept, hothers, -⟩ := h.values
  rw [hothers a ha]
  cases hlook : look a with
  | false => simp [hkept a hlook]
  | true =>
      have hvalue := hfound a hlook
      rw [findValue_of_ne ha, attrListFindValue_fst, ← @meantValue_of_ne qmaster view config a ha] at hvalue
      simp [hvalue]

/-- The same for `complex_values`, when the slots are right. -/
theorem Rebuilt.complex_iff (h : Rebuilt qmaster view config look q q')
    (hslots : meantValue qmaster view config .jobSlots = some (q'.value .jobSlots)) :
    meantValue qmaster view config .consumableConfigList =
        some (q'.value .consumableConfigList) ↔
      (look .consumableConfigList = false →
        ∀ slots, resolvedValue view (config .jobSlots) = some slots →
          meantValue qmaster view config .consumableConfigList =
            some (setConfSlots (q.value .consumableConfigList) slots)) := by
  obtain ⟨q₁, hfound, hkept, hothers, hcomplex⟩ := h.values
  rw [hothers .jobSlots (by decide)] at hslots
  change resolvedValue view (config .jobSlots) = some (q₁.value .jobSlots) at hslots
  rw [hcomplex, hslots]
  cases hlook : look .consumableConfigList with
  | false =>
      rw [hkept _ hlook]
      constructor
      · intro hmeant _ slots hs
        cases hs
        exact hmeant
      · exact fun hmeant => hmeant rfl _ rfl
  | true =>
      have hspec := (findComplexValues_spec (Prod.ext (hfound _ hlook) rfl)).1 _ hslots
      constructor
      · intro _ hnot
        exact nomatch hnot
      · exact fun _ => hspec

/-- After `cqueue_mod_qinstances` a queue instance is resolved exactly when the attributes that are
not looked at were right before and the look-ups notice an ambiguous attribute. -/
theorem Rebuilt.resolved_iff (h : Rebuilt qmaster view config look q q') :
    Resolved qmaster view config q' ↔ Covered qmaster view config look q := by
  constructor
  · rintro ⟨hvalues, hstate⟩
    exact ⟨fun a hlook ha => (h.value_iff ha).mp (hvalues a) hlook,
      (h.complex_iff (hvalues .jobSlots)).mp (hvalues .consumableConfigList),
      h.state_iff.mp hstate⟩
  · rintro ⟨hcurrent, hcomplex, hnoticed⟩
    have hothers : ∀ a ≠ .consumableConfigList,
        meantValue qmaster view config a = some (q'.value a) :=
      fun a ha => (h.value_iff ha).mpr fun hlook => hcurrent a hlook ha
    refine ⟨fun a => ?_, h.state_iff.mpr hnoticed⟩
    by_cases ha : a = .consumableConfigList
    · rw [ha]
      exact (h.complex_iff (hothers .jobSlots (by decide))).mpr hcomplex
    · exact hothers a ha

end Operation

section Runs

/-- A cluster queue as one of its hosts sees it, and the queue instance there. -/
structure System where
  view : HostView
  config : Config
  q : Qinstance

/-- What may happen: a request for the cluster queue, a change of host groups that the host list of
the cluster queue refers to, and a change of other host groups. -/
inductive Event
  | cqueueMod (qmaster : Qmaster) (sent : CqueueAttr → Bool) (config : Config)
      (refreshAllValues : Bool)
  | hgroupMod (qmaster : Qmaster) (groupHosts : List Char → List (List Char))
  | otherHgroup (groupHosts : List Char → List (List Char))

/-- The cluster queue and the host groups after an event. -/
def System.changed (s : System) : Event → System
  | .cqueueMod _ _ config _ => { s with config := config }
  | .hgroupMod _ groupHosts | .otherHgroup groupHosts =>
      { s with view := { s.view with groupHosts := groupHosts } }

/-- A request changes the attribute lists that are sent. -/
inductive Step : System → Event → System → Prop
  | cqueueMod {s : System} {qmaster sent config refreshAllValues q}
      (hsent : ∀ a, sent a = false → config a = s.config a)
      (h : cqueueModQinstance qmaster s.view config sent refreshAllValues s.q = some q) :
      Step s (.cqueueMod qmaster sent config refreshAllValues) ⟨s.view, config, q⟩
  | hgroupMod {s : System} {qmaster groupHosts q}
      (h : cqueueModQinstance qmaster { s.view with groupHosts := groupHosts } s.config
        (fun _ => false) true s.q = some q) :
      Step s (.hgroupMod qmaster groupHosts) ⟨{ s.view with groupHosts := groupHosts }, s.config, q⟩
  | otherHgroup {s : System} {groupHosts} : Step s (.otherHgroup groupHosts)
      ⟨{ s.view with groupHosts := groupHosts }, s.config, s.q⟩

/-- The queue instance is resolved if the event was one that rebuilds it. -/
def RebuiltResolved (s' : System) : Event → Prop
  | .cqueueMod qmaster _ _ _ | .hgroupMod qmaster _ => Resolved qmaster s'.view s'.config s'.q
  | .otherHgroup _ => True

/-- The look-ups of an event that rebuilds the queue instance are sufficient. -/
def RebuiltCovered (s : System) (e : Event) : Prop :=
  match e with
  | .cqueueMod qmaster sent config refreshAllValues =>
      Covered qmaster s.view config (looked sent refreshAllValues s.q) s.q
  | .hgroupMod qmaster groupHosts =>
      Covered qmaster { s.view with groupHosts := groupHosts } s.config
        (looked (fun _ => false) true s.q) s.q
  | .otherHgroup _ => True

variable {s s' : System} {e : Event}

theorem Step.resolved_iff (hq : Consistent s.q) (h : Step s e s') :
    Consistent s'.q ∧ (RebuiltResolved s' e ↔ RebuiltCovered s e) := by
  cases h with
  | cqueueMod _ hmod =>
      have hrebuilt := Rebuilt.of_mod hq hmod
      exact ⟨hrebuilt.consistent, hrebuilt.resolved_iff⟩
  | hgroupMod hmod =>
      have hrebuilt := Rebuilt.of_mod hq hmod
      exact ⟨hrebuilt.consistent, hrebuilt.resolved_iff⟩
  | otherHgroup => exact ⟨hq, Iff.rfl⟩

/-- In a run of changes, each rebuilt queue instance has the values that its host is meant to have
and shows whether an attribute is ambiguous, exactly when the look-ups of every change are
sufficient. -/
theorem cqueueModQinstances_resolved_iff (s₀ : System) (hq : Consistent s₀.q) (events : List Event)
    (s : System) : Run (fun s e s' => Step s e s' ∧ RebuiltResolved s' e) s₀ events s ↔
      Run (fun s e s' => Step s e s' ∧ RebuiltCovered s e) s₀ events s := by
  constructor
  · intro hrun
    have hinv : Run (fun s e s' => Step s e s' ∧ RebuiltCovered s e) s₀ events s ∧
        Consistent s.q := by
      induction hrun with
      | nil => exact ⟨.nil, hq⟩
      | snoc _ hstep ih =>
          obtain ⟨hconsistent, hiff⟩ := hstep.1.resolved_iff ih.2
          exact ⟨ih.1.snoc ⟨hstep.1, hiff.mp hstep.2⟩, hconsistent⟩
    exact hinv.1
  · intro hrun
    have hinv : Run (fun s e s' => Step s e s' ∧ RebuiltResolved s' e) s₀ events s ∧
        Consistent s.q := by
      induction hrun with
      | nil => exact ⟨.nil, hq⟩
      | snoc _ hstep ih =>
          obtain ⟨hconsistent, hiff⟩ := hstep.1.resolved_iff ih.2
          exact ⟨ih.1.snoc ⟨hstep.1, hiff.mpr hstep.2⟩, hconsistent⟩
    exact hinv.1

/-- A value for each kind of attribute. -/
def ValueKind.initial : (kind : ValueKind) → kind.Value
  | .string => some "NONE"
  | .ulong => 1
  | .bool => false
  | .names | .centries | .subordinates => []

/-- A host in two host groups, and a qmaster that refuses nothing. -/
def twoGroups : HostView where
  sgeHostcpy := id
  hostname := ['h']
  groupHosts := fun _ => [['h']]

def lenientQmaster : Qmaster where
  isStartup := false
  fillRequest := some
  conflictsWithCalendar := fun _ => false
  reservationDueToCkpt := fun _ => false
  reservationDueToPe := fun _ => false
  slotsReserved := 0
  reservationDueToComplexAttr := false
  usersHaveAccess := fun _ _ => true
  checkSlotwiseTree := fun _ _ => true

/-- Attribute lists with nothing but default values. -/
def defaultsOnly (a : CqueueAttr) : List (Attr a.Value) := [⟨HOSTREF_DEFAULT, a.kind.initial⟩]

/-- Two host groups with values of their own for `complex_values`. -/
def twoComplexValues : Config
  | .consumableConfigList => [⟨HOSTREF_DEFAULT, []⟩,
      ⟨['@', 'a'], [⟨"lic", 0, 0, "1", 1⟩]⟩, ⟨['@', 'b'], [⟨"lic", 0, 0, "2", 2⟩]⟩]
  | a => defaultsOnly a

def newQinstance : Qinstance where
  value
    | .consumableConfigList => [slotsCentry 1]
    | a => a.kind.initial
  ambiguous := false

theorem defaultsOnly_resolved :
    ∃ s, Run (fun s e s' => Step s e s' ∧ RebuiltResolved s' e) ⟨twoGroups, defaultsOnly, newQinstance⟩
      ([] ++ [.hgroupMod lenientQmaster fun _ => [['g']]]) s := by
  have hsome : (cqueueModQinstance lenientQmaster { twoGroups with groupHosts := fun _ => [['g']] }
    defaultsOnly (fun _ => false) true newQinstance).isSome := by rfl
  obtain ⟨q, hq⟩ := Option.isSome_iff_exists.mp hsome
  use ⟨{ twoGroups with groupHosts := fun _ => [['g']] }, defaultsOnly, q⟩
  have hconsistent : Consistent newQinstance := rfl
  apply (cqueueModQinstances_resolved_iff ⟨twoGroups, defaultsOnly, newQinstance⟩ hconsistent _ _).mpr
  apply Run.nil.snoc
  refine ⟨.hgroupMod hq, ?_⟩
  constructor
  · intro a ha
    exact nomatch ha
  · intro ha
    exact nomatch ha
  · rintro ⟨a, -, htwo⟩
    cases a <;> exact absurd htwo (by decide)

/-- The host is in both host groups, but the look-up of the slots takes the flag back. -/
theorem complexValues_ambiguity_hidden :
    Ambiguous twoGroups (twoComplexValues .consumableConfigList) ∧
      ∃ q, cqueueModQinstance lenientQmaster twoGroups twoComplexValues (fun _ => false) true
        newQinstance = some q ∧ q.ambiguous = false := by
  refine ⟨by decide, ?_⟩
  have hsome : ((cqueueModQinstance lenientQmaster twoGroups twoComplexValues (fun _ => false) true
    newQinstance).map Qinstance.ambiguous) = some false := by rfl
  exact Option.map_eq_some_iff.mp hsome

end Runs

end ClusterQueue

end GridEngine
