import GridEngine.AttrListText
import GridEngine.SubordinateQueues

/-!
# The value of an attribute for a host

The attribute list of a cluster queue has values for hosts and host groups, and a default value.
A host takes its own value, or the one of the host group it is in. In two host groups it is
ambiguous, and takes the default.
-/

namespace GridEngine

namespace ClusterQueue

/-- The names that `attr_list_find_value` looks at: the form in which host names are compared, the
host, and the hosts that `href_list_find_all_references` finds in a host group. -/
structure HostView where
  sgeHostcpy : List Char → List Char
  hostname : List Char
  groupHosts : List Char → List (List Char)

section Model
variable {V : Type} (view : HostView)

/-- `attr_list_locate`. -/
def attrListLocate (list : List (Attr V)) (hostOrGroup : List Char) : Option (Attr V) :=
  list.find? fun attr => view.sgeHostcpy attr.href = view.sgeHostcpy hostOrGroup

/-- Whether an element is for a host group with the host. -/
def inGroup (attr : Attr V) : Bool :=
  attr.href ≠ HOSTREF_DEFAULT && AttrList.isHgroup attr.href &&
    (view.groupHosts attr.href).any fun href =>
      view.sgeHostcpy href = view.sgeHostcpy view.hostname

/-- The search for a host group: the first element that is found and whether there is a second
one. -/
def findGroup : Option (Attr V) → List (Attr V) → Option (Attr V) × Bool
  | found, [] => (found, false)
  | found, attr :: list =>
      if inGroup view attr then
        match found with
        | none => findGroup (some attr) list
        | some first => (some first, true)
      else findGroup found list

/-- `attr_list_find_value`: the value and the new ambiguity flag. -/
def attrListFindValue (list : List (Attr V)) (isAmbiguous : Bool) : Option V × Bool :=
  match attrListLocate view list view.hostname with
  | some href => (some href.value, isAmbiguous)
  | none =>
      match findGroup view none list with
      | (some href, false) => (some href.value, false)
      | (_, isAmbiguous) =>
          ((attrListLocate view list HOSTREF_DEFAULT).map Attr.value, isAmbiguous)

/-- The elements for host groups with the host. -/
def groupEntries (list : List (Attr V)) : List (Attr V) := list.filter (inGroup view)

/-- The value that a host is meant to have. -/
def resolvedValue (list : List (Attr V)) : Option V :=
  match attrListLocate view list view.hostname, groupEntries view list with
  | some href, _ => some href.value
  | none, [href] => some href.value
  | none, _ => (attrListLocate view list HOSTREF_DEFAULT).map Attr.value

/-- The host has no value of its own, and is in several host groups that have one. -/
def Ambiguous (list : List (Attr V)) : Prop :=
  attrListLocate view list view.hostname = none ∧ 2 ≤ (groupEntries view list).length

instance (list : List (Attr V)) : Decidable (Ambiguous view list) := inferInstanceAs (Decidable (_ ∧ _))

end Model

section Resolution
variable {V : Type} {view : HostView} {list : List (Attr V)} {isAmbiguous : Bool}

theorem findGroup_some (first : Attr V) :
    findGroup view (some first) list = (some first, decide (1 ≤ (groupEntries view list).length)) := by
  induction list with
  | nil => rfl
  | cons attr list ih =>
      rw [findGroup, groupEntries, List.filter_cons]
      split_ifs with hgroup
      · simp
      · exact ih

theorem findGroup_none : findGroup view none list =
    ((groupEntries view list).head?, decide (2 ≤ (groupEntries view list).length)) := by
  induction list with
  | nil => rfl
  | cons attr list ih =>
      rw [findGroup, groupEntries, List.filter_cons]
      split_ifs with hgroup
      · have hcount : 1 ≤ (groupEntries view list).length ↔
            2 ≤ (attr :: groupEntries view list).length := Nat.succ_le_succ_iff.symm
        rw [findGroup_some, List.head?_cons]
        exact congrArg (Prod.mk (some attr)) (decide_eq_decide.mpr hcount)
      · exact ih

/-- `attr_list_find_value` gives the value that the host is meant to have. -/
theorem attrListFindValue_fst :
    (attrListFindValue view list isAmbiguous).1 = resolvedValue view list := by
  rw [attrListFindValue, resolvedValue, findGroup_none]
  cases attrListLocate view list view.hostname with
  | some href => rfl
  | none =>
      match groupEntries view list with
      | [] => rfl
      | [href] => rfl
      | first :: second :: rest =>
          have htwo : decide (2 ≤ (first :: second :: rest).length) = true := by simp
          rw [htwo]
          rfl

/-- The flag stays when the host has a value of its own, and is set anew when not. -/
theorem attrListFindValue_snd : (attrListFindValue view list isAmbiguous).2 =
    if (attrListLocate view list view.hostname).isSome then isAmbiguous
    else decide (Ambiguous view list) := by
  rw [attrListFindValue, findGroup_none]
  cases hlocate : attrListLocate view list view.hostname with
  | some href => rfl
  | none =>
      simp only [Option.isSome_none, Bool.false_eq_true, if_false, Ambiguous, hlocate, true_and]
      match groupEntries view list with
      | [] => rfl
      | [href] => rfl
      | first :: second :: rest => simp

end Resolution

end ClusterQueue

end GridEngine

/-!
## The configuration of a queue instance

The attributes of a queue instance are taken from the attribute lists of its cluster queue, one by
one. A queue instance is in the ambiguous state when one of them was found to be ambiguous.
-/

namespace GridEngine

namespace ClusterQueue

/-- The attributes in `cqueue_attribute_array`. -/
inductive CqueueAttr
  | seqNo | nsuspend | jobSlots | tmpdir | shell | calendar | priority | processors | prolog
  | epilog | shellStartMode | starterMethod | suspendMethod | resumeMethod | terminateMethod
  | initialState | rerun | sFsize | hFsize | sData | hData | sStack | hStack | sCore | hCore
  | sRss | hRss | sVmem | hVmem | memLimit | sRt | hRt | sCpu | hCpu | suspendInterval
  | minCpuInterval | notify | qtype | ckptList | peList | ownerList | acl | xacl | projects
  | xprojects | consumableConfigList | loadThresholds | suspendThresholds | subordinateList
deriving DecidableEq, Repr

/-- The types of the values. Memory, time and interval values are strings. -/
inductive ValueKind
  | string
  | ulong
  | bool
  | names
  | centries
  | subordinates
deriving DecidableEq, Repr

/-- The fields of a `CE_Type` element of a queue configuration. -/
structure Centry where
  name : String
  valtype : ℕ
  consumable : ℕ
  stringval : String
  doubleval : ℚ
deriving DecidableEq, Repr

abbrev ValueKind.Value : ValueKind → Type
  | .string => Option String
  | .ulong => ℕ
  | .bool => Bool
  | .names => List String
  | .centries => List Centry
  | .subordinates => List Subordinate

instance : (kind : ValueKind) → DecidableEq kind.Value
  | .string => inferInstanceAs (DecidableEq (Option String))
  | .ulong => inferInstanceAs (DecidableEq ℕ)
  | .bool => inferInstanceAs (DecidableEq Bool)
  | .names => inferInstanceAs (DecidableEq (List String))
  | .centries => inferInstanceAs (DecidableEq (List Centry))
  | .subordinates => inferInstanceAs (DecidableEq (List Subordinate))

@[reducible]
def CqueueAttr.kind : CqueueAttr → ValueKind
  | .seqNo | .nsuspend | .jobSlots | .qtype => .ulong
  | .rerun => .bool
  | .ckptList | .peList | .ownerList | .acl | .xacl | .projects | .xprojects => .names
  | .consumableConfigList | .loadThresholds | .suspendThresholds => .centries
  | .subordinateList => .subordinates
  | _ => .string

abbrev CqueueAttr.Value (a : CqueueAttr) : Type := a.kind.Value

/-- `cqueue_attribute_array`. -/
def cqueueAttributeArray : List CqueueAttr :=
  [.seqNo, .nsuspend, .jobSlots, .tmpdir, .shell, .calendar, .priority, .processors, .prolog,
    .epilog, .shellStartMode, .starterMethod, .suspendMethod, .resumeMethod, .terminateMethod,
    .initialState, .rerun, .sFsize, .hFsize, .sData, .hData, .sStack, .hStack, .sCore, .hCore,
    .sRss, .hRss, .sVmem, .hVmem, .memLimit, .sRt, .hRt, .sCpu, .hCpu, .suspendInterval,
    .minCpuInterval, .notify, .qtype, .ckptList, .peList, .ownerList, .acl, .xacl, .projects,
    .xprojects, .consumableConfigList, .loadThresholds, .suspendThresholds, .subordinateList]

/-- The attribute lists of a cluster queue. -/
abbrev Config : Type := (a : CqueueAttr) → List (Attr a.Value)

/-- The configuration attributes of a queue instance and the state `QI_AMBIGUOUS`. -/
structure Qinstance where
  value : (a : CqueueAttr) → a.Value
  ambiguous : Bool

def Qinstance.set (q : Qinstance) (a : CqueueAttr) (value : a.Value) : Qinstance :=
  { q with value := Function.update q.value a value }

/-- The rest of the qmaster. `fillRequest` is `centry_list_fill_request`, the others are the reasons
to refuse a value: what advance reservations need (`sge_ar_list_conflicts_with_calendar`,
`ar_list_has_reservation_due_to_ckpt`, `ar_list_has_reservation_due_to_pe`,
`qinstance_slots_reserved`, `ar_list_has_reservation_due_to_qinstance_complex_attr`,
`sge_ar_have_users_access`), and `check_new_slotwise_subordinate_tree`. -/
structure Qmaster where
  isStartup : Bool
  fillRequest : List Centry → Option (List Centry)
  conflictsWithCalendar : Option String → Bool
  reservationDueToCkpt : List String → Bool
  reservationDueToPe : List String → Bool
  slotsReserved : ℕ
  reservationDueToComplexAttr : Bool
  usersHaveAccess : List String → List String → Bool
  checkSlotwiseTree : List Subordinate → List Subordinate → Bool

section Slots

/-- The implicit slots entry. -/
def slotsCentry (slots : ℕ) : Centry := ⟨"slots", 0, 0, toString slots, slots⟩

def hasSlots (list : List Centry) : Bool := list.any fun ce => ce.name = "slots"

/-- `qinstance_set_conf_slots_used`. -/
def setConfSlots : List Centry → ℕ → List Centry
  | [], slots => [slotsCentry slots]
  | ce :: list, slots =>
      if ce.name = "slots" then { ce with stringval := toString slots, doubleval := slots } :: list
      else ce :: setConfSlots list slots

end Slots

section Modify
variable (qmaster : Qmaster) (view : HostView) (config : Config)

/-- Whether `qinstance_modify_attribute` takes a value for a new one. -/
def differs : (kind : ValueKind) → kind.Value → kind.Value → Bool
  | .string, old, new => old.isNone || new.isNone || old ≠ new
  | _, old, new => old ≠ new

/-- The checks that may refuse a new value. -/
def refuses : (a : CqueueAttr) → a.Value → a.Value → Bool
  | .calendar, _, new => !qmaster.isStartup && qmaster.conflictsWithCalendar new
  | .ckptList, _, new => qmaster.reservationDueToCkpt new
  | .peList, _, new => !qmaster.isStartup && qmaster.reservationDueToPe new
  | .jobSlots, _, new => !qmaster.isStartup && Nat.blt new qmaster.slotsReserved
  | .consumableConfigList, _, _ => !qmaster.isStartup && qmaster.reservationDueToComplexAttr
  | .subordinateList, old, new => !qmaster.checkSlotwiseTree old new
  | _, _, _ => false

/-- The new value of `complex_values`, with the slots folded in, and the ambiguity flag. -/
def findComplexValues : Option (List Centry) × Bool :=
  match attrListFindValue view (config .consumableConfigList) false with
  | (found, isAmbiguous) =>
      match found.bind qmaster.fillRequest with
      | none => (none, isAmbiguous)
      | some newValue =>
          if hasSlots newValue then (some newValue, isAmbiguous)
          else
            match attrListFindValue view (config .jobSlots) isAmbiguous with
            | (slots, isAmbiguous) =>
                (slots.map fun slots => newValue ++ [slotsCentry slots], isAmbiguous)

/-- The new value of an attribute and the ambiguity flag. -/
def findValue : (a : CqueueAttr) → Option a.Value × Bool
  | .consumableConfigList => findComplexValues qmaster view config
  | a => attrListFindValue view (config a) false

/-- `qinstance_modify_attribute`: the queue instance, the ambiguity flag and `need_reinitialize`,
when the value is not refused. -/
def qinstanceModifyAttribute (q : Qinstance) (a : CqueueAttr) : Option (Qinstance × Bool × Bool) :=
  match findValue qmaster view config a with
  | (some newValue, isAmbiguous) =>
      if differs a.kind (q.value a) newValue then
        if refuses qmaster a (q.value a) newValue then none
        else some (q.set a newValue, isAmbiguous, a = .jobSlots || a = .consumableConfigList)
      else some (q, isAmbiguous, false)
  | (none, _) => none

/-- A round of the inner loop of `cqueue_mod_qinstances`. -/
def modifyStep (looked : CqueueAttr → Bool) (s : Qinstance × Bool × Bool) (a : CqueueAttr) :
    Option (Qinstance × Bool × Bool) :=
  if looked a then
    (qinstanceModifyAttribute qmaster view config s.1 a).map fun r =>
      (r.1, s.2.1 || r.2.1, s.2.2 || r.2.2)
  else some s

/-- The attributes that `cqueue_mod_qinstances` looks at. -/
def looked (sent : CqueueAttr → Bool) (refreshAllValues : Bool) (q : Qinstance) (a : CqueueAttr) :
    Bool := sent a || refreshAllValues || q.ambiguous

/-- The part of `qinstance_reinit_consumable_actual_list` that changes the configuration. -/
def qinstanceReinit (q : Qinstance) : Qinstance :=
  q.set .consumableConfigList (setConfSlots (q.value .consumableConfigList) (q.value .jobSlots))

/-- `cqueue_mod_qinstances` for a queue instance that is not tagged for deletion. -/
def cqueueModQinstance (sent : CqueueAttr → Bool) (refreshAllValues : Bool) (q : Qinstance) :
    Option Qinstance :=
  (cqueueAttributeArray.foldlM (modifyStep qmaster view config (looked sent refreshAllValues q))
    (q, false, false)).bind fun (q, willBeAmbiguous, needReinitialize) =>
      let q := if needReinitialize then qinstanceReinit q else q
      let q := { q with ambiguous := willBeAmbiguous }
      if qmaster.isStartup || qmaster.usersHaveAccess (q.value .acl) (q.value .xacl) then some q
      else none

end Modify

end ClusterQueue

end GridEngine
