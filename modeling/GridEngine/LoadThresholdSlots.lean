import GridEngine.FirstLeast
import GridEngine.RangeParse
import GridEngine.ResourceDebit

/-!
# The slots that load thresholds leave at a host

Each slot that is taken moves a load value or a consumable of a queue towards its threshold, by the
load adjustment or by the request. A queue can take what the strictest of its thresholds allows, and
the host what one of its queues can take. The flag that an adjustment is to be divided by the number
of processors is not taken back between the thresholds.
-/

namespace GridEngine.LoadThresholds

section Model

/-- A `CE_Type` or `HL_Type` element of a list of values. -/
structure NamedValue where
  name : String
  value : Option String
deriving DecidableEq

/-- What the thresholds use of a `CE_Type` element of the complex. -/
structure ThresholdCentry extends Centry where
  valtype : ValueType

/-- What the thresholds use of a `QU_Type` element. -/
structure Queue where
  fullName : String
  qhostname : String
  loadThresholds : List NamedValue
  consumableConfigList : List NamedValue
deriving DecidableEq

/-- What the thresholds use of an `EH_Type` element. -/
structure Host where
  name : String
  loadList : List NamedValue

/-- What the thresholds use of an assignment. `getAttributeByName` finds the instance of a
consumable for a queue, with its value. -/
structure Assignment (K : Type) where
  centryList : List ThresholdCentry
  loadAdjustments : List NamedValue
  hardResourceList : List NamedValue
  gepLoadList : List NamedValue
  queueList : List Queue
  sgeHostcmp : String → String → ℤ
  parseUlongVal : ValueType → Option String → Option K
  getAttributeByName : String → String → Option (Option String)

variable {K : Type} (a : Assignment K) (host : Host)

/-- `lGetElemStr` on the name. -/
def getValue (list : List NamedValue) (name : String) : Option NamedValue :=
  list.find? fun elem => elem.name = name

/-- `centry_list_locate`. -/
def centryListLocate (name : String) : Option ThresholdCentry :=
  (a.centryList.find? fun centry => centry.name = name).or
    (a.centryList.find? fun centry => centry.shortcut = name)

/-- The load value from the host, else from the global host, else from the queue. -/
def loadValue (queue : Queue) (name : String) : Option String :=
  match getValue host.loadList name with
  | some lv => lv.value
  | none =>
      match getValue a.gepLoadList name with
      | some lv => lv.value
      | none => (getValue queue.consumableConfigList name).bind NamedValue.value

/-- The number of processors that `load_np_value_adjustment` takes. -/
def numProc : ℤ :=
  match (getValue host.loadList "num_proc").bind NamedValue.value with
  | some value => (strtol value.toList).1
  | none => 1

def isNumeric : ValueType → Bool
  | .int | .tim | .mem | .boo | .double => true
  | .str | .cstr | .host | .restr | .unknown => false

variable [Field K] [LinearOrder K] [FloorRing K]

/-- The conversion of a double to an integer. -/
def trunc (x : K) : ℤ := if 0 ≤ x then ⌊x⌋ else ⌈x⌉

/-- `load_np_value_adjustment`. -/
def loadNpValueAdjustment (name : String) (loadCorrection : K) : K :=
  if "np_".toList.isPrefixOf name.toList then
    if 1 < numProc host then loadCorrection / numProc host else loadCorrection
  else loadCorrection

/-- `INT_MAX`. -/
def intMax : ℤ := 2 ^ 31 - 1

/-- The slots that the strings of a threshold give, and none where the loop continues. -/
def availSlots (cep : ThresholdCentry) (tr : NamedValue) (isNpAdjustment : Bool)
    (loadValue adjValue : Option String) : Option ℤ :=
  if isNumeric cep.valtype then do
    let load ← a.parseUlongVal cep.valtype loadValue
    let threshold ← a.parseUlongVal cep.valtype tr.value
    let adjustment ← a.parseUlongVal cep.valtype adjValue
    if adjustment = 0 then none
    else
      let adjustment ←
        match cep.relop with
        | .eq | .ne => none
        | .lt | .le => some (adjustment * -1)
        | .gt | .ge | .excl => some adjustment
      let adjustment :=
        if isNpAdjustment then loadNpValueAdjustment host tr.name adjustment else adjustment
      let avail := trunc ((threshold - load) / adjustment)
      some (if cep.consumable = .no then avail + 1 else avail)
  else none

/-- One threshold: the slots, or none, and the flag behind it. There is no result when the function
returns because a consumable has no instance. -/
def thresholdStep (queue : Queue) (isNpAdjustment : Bool) (tr : NamedValue) :
    Option (Option ℤ × Bool) :=
  match centryListLocate a tr.name with
  | none => some (none, isNpAdjustment)
  | some cep =>
      if cep.consumable = .no then
        match getValue a.loadAdjustments tr.name with
        | none => some (none, isNpAdjustment)
        | some lc =>
            some (availSlots a host cep tr true (loadValue a host queue tr.name) lc.value, true)
      else
        let adjValue :=
          match getValue a.hardResourceList tr.name with
          | some lc => lc.value
          | none => cep.default
        match a.getAttributeByName queue.fullName tr.name with
        | none => none
        | some pjStringval =>
            some (availSlots a host cep tr isNpAdjustment pjStringval adjValue, isNpAdjustment)

/-- The loop over the thresholds of a queue. -/
def thresholdLoop (queue : Queue) : List NamedValue → ℤ → Bool → Option (ℤ × Bool)
  | [], availQ, isNpAdjustment => some (availQ, isNpAdjustment)
  | tr :: thresholds, availQ, isNpAdjustment =>
      match thresholdStep a host queue isNpAdjustment tr with
      | none => none
      | some (none, isNp) => thresholdLoop queue thresholds availQ isNp
      | some (some avail, isNp) => thresholdLoop queue thresholds (min avail availQ) isNp

/-- The loop over the queues of the host. -/
def queueLoop : List Queue → ℤ → Bool → ℤ
  | [], availH, _ => availH
  | queue :: queues, availH, isNpAdjustment =>
      match thresholdLoop a host queue queue.loadThresholds intMax isNpAdjustment with
      | none => 0
      | some (availQ, isNp) => queueLoop queues (max availH availQ) isNp

/-- The queues of the host in the order of the queue list. -/
def hostQueues : List Queue :=
  a.queueList.filter fun queue => a.sgeHostcmp queue.qhostname host.name = 0

/-- `parallel_max_host_slots`. -/
def parallelMaxHostSlots : ℤ := queueLoop a host (hostQueues a host) 0 false

end Model

section Spec
variable {K : Type} [Field K] [LinearOrder K] [FloorRing K]
  (a : Assignment K) (host : Host)

/-- The slots until a load value or a consumable is at its threshold. Only the adjustments of load
values are divided by the number of processors, and a load value may go one slot into alarm. -/
def slotsUntil (cep : ThresholdCentry) (name : String) (threshold load adjustment : K) : ℤ :=
  if cep.consumable = .no then
    trunc ((threshold - load) / loadNpValueAdjustment host name adjustment) + 1
  else trunc ((threshold - load) / adjustment)

/-- The slots that a threshold allows, and none when it does not limit them. -/
def allowedSlots (cep : ThresholdCentry) (tr : NamedValue) (loadValue adjValue : Option String) :
    Option ℤ :=
  if isNumeric cep.valtype then do
    let load ← a.parseUlongVal cep.valtype loadValue
    let threshold ← a.parseUlongVal cep.valtype tr.value
    let adjustment ← a.parseUlongVal cep.valtype adjValue
    if adjustment = 0 then none
    else
      match cep.relop with
      | .eq | .ne => none
      | .lt | .le => some (slotsUntil host cep tr.name threshold load (-adjustment))
      | .gt | .ge | .excl => some (slotsUntil host cep tr.name threshold load adjustment)
  else none

/-- What a threshold of a queue alone allows. -/
def thresholdAllows (queue : Queue) (tr : NamedValue) : Option ℤ :=
  (centryListLocate a tr.name).bind fun cep =>
    if cep.consumable = .no then
      (getValue a.loadAdjustments tr.name).bind fun lc =>
        allowedSlots a host cep tr (loadValue a host queue tr.name) lc.value
    else
      (a.getAttributeByName queue.fullName tr.name).bind fun pjStringval =>
        allowedSlots a host cep tr pjStringval
          (match getValue a.hardResourceList tr.name with
          | some lc => lc.value
          | none => cep.default)

/-- A consumable without instance is the threshold of a queue of the host. -/
def NoInstance : Prop :=
  ∃ queue ∈ hostQueues a host, ∃ tr ∈ queue.loadThresholds, ∃ cep,
    centryListLocate a tr.name = some cep ∧ cep.consumable ≠ .no ∧
      a.getAttributeByName queue.fullName tr.name = none

/-- A queue can take what all its thresholds allow. -/
def QueueAllows (queue : Queue) (n : ℤ) : Prop :=
  IsLeast (insert intMax
    {m | ∃ tr ∈ queue.loadThresholds, thresholdAllows a host queue tr = some m}) n

/-- The host can take what one of its queues can, and never less than no slot. -/
def HostAllows (n : ℤ) : Prop :=
  NoInstance a host ∧ n = 0 ∨ ¬ NoInstance a host ∧
    IsGreatest (insert 0 {m | ∃ queue ∈ hostQueues a host, QueueAllows a host queue m}) n

end Spec

section Flag
variable {K : Type} (a : Assignment K) (host : Host)

/-- The threshold is on a load value with an adjustment, and the flag is set. -/
def setsFlag (tr : NamedValue) : Bool :=
  (centryListLocate a tr.name).any fun cep =>
    cep.consumable = .no && (getValue a.loadAdjustments tr.name).isSome

/-- The threshold is on a consumable that the flag makes one of the `np_` load values. -/
def ReadsFlag (tr : NamedValue) : Prop :=
  (∃ cep, centryListLocate a tr.name = some cep ∧ cep.consumable ≠ .no) ∧
    "np_".toList.isPrefixOf tr.name.toList = true ∧ 1 < numProc host

/-- No threshold of a list reads the flag when it was set before. -/
def FlagUnread (isNpAdjustment : Bool) (thresholds : List NamedValue) : Prop :=
  (isNpAdjustment = true → ∀ tr ∈ thresholds, ¬ ReadsFlag a host tr) ∧
    thresholds.Pairwise fun tr tr' => setsFlag a tr = true → ¬ ReadsFlag a host tr'

variable {a host} {isNpAdjustment : Bool} {tr : NamedValue} {thresholds more : List NamedValue}

theorem FlagUnread.append (h : FlagUnread a host isNpAdjustment (thresholds ++ more)) :
    FlagUnread a host isNpAdjustment thresholds ∧
      FlagUnread a host (isNpAdjustment || thresholds.any (setsFlag a)) more := by
  obtain ⟨hflag, hpairs⟩ := h
  rw [List.pairwise_append] at hpairs
  refine ⟨⟨fun hset tr htr => hflag hset tr (List.mem_append_left _ htr), hpairs.1⟩,
    fun hset tr htr => ?_, hpairs.2.1⟩
  rw [Bool.or_eq_true, List.any_eq_true] at hset
  rcases hset with hset | ⟨tr', htr', hset⟩
  · exact hflag hset tr (List.mem_append_right _ htr)
  · exact hpairs.2.2 tr' htr' tr htr hset

theorem FlagUnread.head (h : FlagUnread a host isNpAdjustment (tr :: thresholds)) :
    (isNpAdjustment = true → ¬ ReadsFlag a host tr) ∧
      FlagUnread a host (isNpAdjustment || setsFlag a tr) thresholds := by
  have happend : FlagUnread a host isNpAdjustment ([tr] ++ thresholds) := h
  have hsplit := happend.append
  refine ⟨fun hset => h.1 hset tr List.mem_cons_self, ?_⟩
  simpa using hsplit.2

end Flag

section Loops
variable {K : Type} [Field K] [LinearOrder K] [FloorRing K]
  {a : Assignment K} {host : Host} {queue : Queue} {cep : ThresholdCentry} {tr : NamedValue}
  {isNpAdjustment : Bool} {thresholds : List NamedValue} {queues : List Queue}

/-- A threshold whose consumable has no instance for the queue. -/
def Missing (a : Assignment K) (queue : Queue) (tr : NamedValue) : Prop :=
  ∃ cep, centryListLocate a tr.name = some cep ∧ cep.consumable ≠ .no ∧
    a.getAttributeByName queue.fullName tr.name = none

theorem availSlots_eq {loadValue adjValue : Option String}
    (hscale : ∀ adjustment : K,
      (if isNpAdjustment then loadNpValueAdjustment host tr.name adjustment else adjustment) =
        if cep.consumable = .no then loadNpValueAdjustment host tr.name adjustment
        else adjustment) :
    availSlots a host cep tr isNpAdjustment loadValue adjValue =
      allowedSlots a host cep tr loadValue adjValue := by
  have huntil : ∀ threshold load adjustment : K,
      (let avail := trunc ((threshold - load) /
        (if isNpAdjustment then loadNpValueAdjustment host tr.name adjustment else adjustment))
      if cep.consumable = .no then avail + 1 else avail) =
        slotsUntil host cep tr.name threshold load adjustment := by
    intro threshold load adjustment
    rw [hscale, slotsUntil]
    by_cases hload : cep.consumable = .no
    · simp only [if_pos hload]
    · simp only [if_neg hload]
  rw [availSlots, allowedSlots]
  refine if_congr Iff.rfl ?_ rfl
  refine Option.bind_congr fun load _ => Option.bind_congr fun threshold _ =>
    Option.bind_congr fun adjustment _ => if_congr Iff.rfl rfl ?_
  rw [← mul_neg_one adjustment]
  cases cep.relop with
  | eq => rfl
  | ne => rfl
  | lt => exact congrArg some (huntil _ _ _)
  | le => exact congrArg some (huntil _ _ _)
  | gt => exact congrArg some (huntil _ _ _)
  | ge => exact congrArg some (huntil _ _ _)
  | excl => exact congrArg some (huntil _ _ _)

theorem thresholdStep_missing (h : Missing a queue tr) :
    thresholdStep a host queue isNpAdjustment tr = none := by
  obtain ⟨cep, hcep, hconsumable, hnone⟩ := h
  rw [thresholdStep, hcep]
  dsimp only
  rw [if_neg hconsumable, hnone]

/-- A threshold gives what it allows alone when it does not read the flag. -/
theorem thresholdStep_eq (h : ¬ Missing a queue tr)
    (hflag : isNpAdjustment = true → ¬ ReadsFlag a host tr) :
    thresholdStep a host queue isNpAdjustment tr =
      some (thresholdAllows a host queue tr, isNpAdjustment || setsFlag a tr) := by
  rw [thresholdStep, thresholdAllows, setsFlag]
  cases hcep : centryListLocate a tr.name with
  | none => simp
  | some cep =>
      by_cases hload : cep.consumable = .no
      · simp only [if_pos hload, Option.bind_some, Option.any_some]
        cases hlc : getValue a.loadAdjustments tr.name with
        | none => simp
        | some lc =>
            simp only [Option.bind_some, Option.isSome_some, hload, decide_true, Bool.and_true,
              Bool.or_true]
            rw [availSlots_eq fun adjustment => by rw [if_pos rfl, if_pos hload]]
      · simp only [if_neg hload, Option.bind_some, Option.any_some]
        cases hfound : a.getAttributeByName queue.fullName tr.name with
        | none => exact absurd ⟨cep, hcep, hload, hfound⟩ h
        | some pjStringval =>
            have hsame : ∀ adjustment : K, (if isNpAdjustment then
                loadNpValueAdjustment host tr.name adjustment else adjustment) =
                  if cep.consumable = .no then
                    loadNpValueAdjustment host tr.name adjustment else adjustment := by
              intro adjustment
              rw [if_neg hload]
              cases hset : isNpAdjustment with
              | false => rfl
              | true =>
                  have hread := hflag hset
                  rw [if_pos rfl, loadNpValueAdjustment]
                  by_cases hname : "np_".toList.isPrefixOf tr.name.toList = true
                  · rw [if_pos hname, if_neg fun hproc => hread ⟨⟨cep, hcep, hload⟩, hname, hproc⟩]
                  · rw [if_neg hname]
            simp only [Option.bind_some, availSlots_eq hsame, hload, decide_false, Bool.false_and,
              Bool.or_false]

/-- The loop over the thresholds takes the least number, unless a consumable has no instance. -/
theorem thresholdLoop_eq (availQ : ℤ) (h : FlagUnread a host isNpAdjustment thresholds) :
    (∃ tr ∈ thresholds, Missing a queue tr) ∧
        thresholdLoop a host queue thresholds availQ isNpAdjustment = none ∨
      (∀ tr ∈ thresholds, ¬ Missing a queue tr) ∧
        thresholdLoop a host queue thresholds availQ isNpAdjustment =
          some ((thresholds.filterMap (thresholdAllows a host queue)).foldl min availQ,
            isNpAdjustment || thresholds.any (setsFlag a)) := by
  induction thresholds generalizing availQ isNpAdjustment with
  | nil => exact .inr ⟨by simp, by simp [thresholdLoop]⟩
  | cons tr thresholds ih =>
      obtain ⟨hread, hrest⟩ := h.head
      rw [thresholdLoop]
      by_cases hmissing : Missing a queue tr
      · rw [thresholdStep_missing hmissing]
        exact .inl ⟨⟨tr, List.mem_cons_self, hmissing⟩, rfl⟩
      · rw [thresholdStep_eq hmissing hread]
        have hstep : ∃ availQ', (match (some (thresholdAllows a host queue tr,
              isNpAdjustment || setsFlag a tr) : Option (Option ℤ × Bool)) with
            | none => none
            | some (none, isNp) => thresholdLoop a host queue thresholds availQ isNp
            | some (some avail, isNp) =>
                thresholdLoop a host queue thresholds (min avail availQ) isNp) =
              thresholdLoop a host queue thresholds availQ' (isNpAdjustment || setsFlag a tr) ∧
            ((tr :: thresholds).filterMap (thresholdAllows a host queue)).foldl min availQ =
              (thresholds.filterMap (thresholdAllows a host queue)).foldl min availQ' := by
          cases hallows : thresholdAllows a host queue tr with
          | none => exact ⟨availQ, rfl, by rw [List.filterMap_cons_none hallows]⟩
          | some avail =>
              refine ⟨min avail availQ, rfl, ?_⟩
              rw [List.filterMap_cons_some hallows, List.foldl_cons, min_comm]
        obtain ⟨availQ', hloop, hfold⟩ := hstep
        rw [hloop, hfold, List.any_cons, ← Bool.or_assoc]
        rcases ih availQ' hrest with ⟨⟨tr', htr', hnone⟩, hresult⟩ | ⟨hall, hresult⟩
        · exact .inl ⟨⟨tr', List.mem_cons_of_mem _ htr', hnone⟩, hresult⟩
        · exact .inr ⟨List.forall_mem_cons.mpr ⟨hmissing, hall⟩, hresult⟩

/-- What the loop over the thresholds of a queue ends with. -/
def queueSlots (a : Assignment K) (host : Host) (queue : Queue) : ℤ :=
  (queue.loadThresholds.filterMap (thresholdAllows a host queue)).foldl min intMax

theorem queueAllows_queueSlots : QueueAllows a host queue (queueSlots a host queue) := by
  have hleast := FirstLeast.isLeast_foldl_min intMax
    (queue.loadThresholds.filterMap (thresholdAllows a host queue))
  simp only [List.mem_cons, List.mem_filterMap] at hleast
  exact hleast

theorem queueLoop_eq (availH : ℤ)
    (h : FlagUnread a host isNpAdjustment (queues.flatMap Queue.loadThresholds)) :
    (∃ queue ∈ queues, ∃ tr ∈ queue.loadThresholds, Missing a queue tr) ∧
        queueLoop a host queues availH isNpAdjustment = 0 ∨
      (∀ queue ∈ queues, ∀ tr ∈ queue.loadThresholds, ¬ Missing a queue tr) ∧
        queueLoop a host queues availH isNpAdjustment =
          (queues.map (queueSlots a host)).foldl max availH := by
  induction queues generalizing availH isNpAdjustment with
  | nil => exact .inr ⟨by simp, rfl⟩
  | cons queue queues ih =>
      rw [List.flatMap_cons] at h
      obtain ⟨hqueue, hrest⟩ := h.append
      rw [queueLoop]
      rcases thresholdLoop_eq intMax hqueue with ⟨hmissing, hloop⟩ | ⟨hall, hloop⟩
      · rw [hloop]
        exact .inl ⟨⟨queue, List.mem_cons_self, hmissing⟩, rfl⟩
      · rw [hloop]
        rcases ih (max availH (queueSlots a host queue)) hrest with
          ⟨⟨queue', hqueue', hmissing⟩, hresult⟩ | ⟨hall', hresult⟩
        · exact .inl ⟨⟨queue', List.mem_cons_of_mem _ hqueue', hmissing⟩, hresult⟩
        · exact .inr ⟨List.forall_mem_cons.mpr ⟨hall, hall'⟩, hresult⟩

end Loops

section Order
variable {K : Type} [Field K] [LinearOrder K] [FloorRing K]
  {a : Assignment K} {host : Host} {m n : ℤ}

/-- The thresholds of the host in the order in which they are looked at. -/
def hostThresholds (a : Assignment K) (host : Host) : List NamedValue :=
  (hostQueues a host).flatMap Queue.loadThresholds

theorem hostAllows_parallelMaxHostSlots (h : FlagUnread a host false (hostThresholds a host)) :
    HostAllows a host (parallelMaxHostSlots a host) := by
  rcases queueLoop_eq 0 h with ⟨hmissing, hresult⟩ | ⟨hall, hresult⟩
  · exact .inl ⟨hmissing, hresult⟩
  · refine .inr ⟨?_, ?_⟩
    · rintro ⟨queue, hqueue, tr, htr, hmissing⟩
      exact hall queue hqueue tr htr hmissing
    · have hgreatest := FirstLeast.isGreatest_foldl_max 0
        ((hostQueues a host).map (queueSlots a host))
      rw [← hresult] at hgreatest
      have hset : insert 0 {m | ∃ queue ∈ hostQueues a host, QueueAllows a host queue m} =
          {m | m ∈ 0 :: (hostQueues a host).map (queueSlots a host)} := by
        ext m
        simp only [Set.mem_insert_iff, Set.mem_ofPred_eq, List.mem_cons, List.mem_map]
        refine or_congr Iff.rfl (exists_congr fun queue => and_congr_right fun _ => ?_)
        exact ⟨fun hm => queueAllows_queueSlots.unique hm, fun hm => hm ▸ queueAllows_queueSlots⟩
      rw [hset]
      exact hgreatest

theorem HostAllows.unique (h : HostAllows a host m) (h' : HostAllows a host n) : m = n := by
  rcases h with ⟨hmissing, rfl⟩ | ⟨hnone, hgreatest⟩
  · rcases h' with ⟨-, rfl⟩ | ⟨hnone, -⟩
    · rfl
    · exact absurd hmissing hnone
  · rcases h' with ⟨hmissing, -⟩ | ⟨-, hgreatest'⟩
    · exact absurd hmissing hnone
    · exact hgreatest.unique hgreatest'

/-- The thresholds and what they are compared with are the same, in any order. -/
structure SameQueue (queue queue' : Queue) : Prop where
  fullName : queue.fullName = queue'.fullName
  qhostname : queue.qhostname = queue'.qhostname
  consumableConfigList : queue.consumableConfigList = queue'.consumableConfigList
  loadThresholds : ∀ tr, tr ∈ queue.loadThresholds ↔ tr ∈ queue'.loadThresholds

/-- Two queue lists with the same queues, in any order. -/
def SameQueues (queues queues' : List Queue) : Prop :=
  (∀ queue ∈ queues, ∃ queue' ∈ queues', SameQueue queue queue') ∧
    ∀ queue' ∈ queues', ∃ queue ∈ queues, SameQueue queue queue'

/-- The assignment with another queue list. -/
def withQueueList (a : Assignment K) (queueList : List Queue) : Assignment K :=
  { a with queueList := queueList }

variable {queue queue' : Queue} {queueList : List Queue}

theorem thresholdAllows_same (h : SameQueue queue queue') (tr : NamedValue) :
    thresholdAllows a host queue tr = thresholdAllows a host queue' tr := by
  simp only [thresholdAllows, loadValue, h.fullName, h.consumableConfigList]

theorem queueAllows_same (h : SameQueue queue queue') :
    QueueAllows a host queue n ↔ QueueAllows a host queue' n := by
  simp only [QueueAllows, thresholdAllows_same h, h.loadThresholds]

omit [Field K] [LinearOrder K] [FloorRing K] in
theorem hostQueues_same (host : Host) (h : SameQueues a.queueList queueList) :
    SameQueues (hostQueues a host) (hostQueues (withQueueList a queueList) host) := by
  simp only [SameQueues, hostQueues, withQueueList, List.mem_filter]
  refine ⟨fun queue hqueue => ?_, fun queue' hqueue' => ?_⟩
  · obtain ⟨queue', hmem, hsame⟩ := h.1 queue hqueue.1
    exact ⟨queue', ⟨hmem, hsame.qhostname ▸ hqueue.2⟩, hsame⟩
  · obtain ⟨queue, hmem, hsame⟩ := h.2 queue' hqueue'.1
    exact ⟨queue, ⟨hmem, hsame.qhostname ▸ hqueue'.2⟩, hsame⟩

omit [Field K] [LinearOrder K] [FloorRing K] in
theorem noInstance_same (h : SameQueues a.queueList queueList) :
    NoInstance a host ↔ NoInstance (withQueueList a queueList) host := by
  have hqueues := hostQueues_same host h
  constructor
  · rintro ⟨queue, hqueue, tr, htr, cep, hcep, hconsumable, hnone⟩
    obtain ⟨queue', hqueue', hsame⟩ := hqueues.1 queue hqueue
    exact ⟨queue', hqueue', tr, (hsame.loadThresholds tr).mp htr, cep, hcep, hconsumable,
      hsame.fullName ▸ hnone⟩
  · rintro ⟨queue', hqueue', tr, htr, cep, hcep, hconsumable, hnone⟩
    obtain ⟨queue, hqueue, hsame⟩ := hqueues.2 queue' hqueue'
    exact ⟨queue, hqueue, tr, (hsame.loadThresholds tr).mpr htr, cep, hcep, hconsumable,
      hsame.fullName ▸ hnone⟩

theorem hostAllows_same (h : SameQueues a.queueList queueList) :
    HostAllows a host n ↔ HostAllows (withQueueList a queueList) host n := by
  have hqueues := hostQueues_same host h
  have hset : ∀ m, (∃ queue ∈ hostQueues a host, QueueAllows a host queue m) ↔
      ∃ queue ∈ hostQueues (withQueueList a queueList) host,
        QueueAllows (withQueueList a queueList) host queue m := by
    intro m
    constructor
    · rintro ⟨queue, hqueue, hallows⟩
      obtain ⟨queue', hqueue', hsame⟩ := hqueues.1 queue hqueue
      exact ⟨queue', hqueue', (queueAllows_same hsame).mp hallows⟩
    · rintro ⟨queue', hqueue', hallows⟩
      obtain ⟨queue, hqueue, hsame⟩ := hqueues.2 queue' hqueue'
      exact ⟨queue, hqueue, (queueAllows_same hsame).mpr hallows⟩
  simp only [HostAllows, noInstance_same h, hset]

/-- The host can take exactly what the strictest thresholds of the best queue allow. -/
def GreatestOfLeast (a : Assignment K) (host : Host) : Prop :=
  IsGreatest {m | ∃ queue ∈ hostQueues a host, QueueAllows a host queue m}
    (parallelMaxHostSlots a host)

end Order

section Instances

/-- A consumable with 8 left, of which a slot takes one. -/
def license : NamedValue := ⟨"np_license", some "0"⟩

/-- A threshold for the load average. -/
def average (threshold : String) : NamedValue := ⟨"load_avg", some threshold⟩

def queueOf (thresholds : List NamedValue) : Queue := ⟨"all.q@node1", "node1", thresholds, []⟩

def node1 : Host := ⟨"node1", [⟨"load_avg", some "2"⟩, ⟨"num_proc", some "4"⟩]⟩

/-- One queue at the host, with a load adjustment of 1 for the load average. -/
def oneQueue (thresholds : List NamedValue) : Assignment ℚ where
  centryList :=
    [⟨⟨"load_avg", "la", .no, .ge, none⟩, .double⟩,
      ⟨⟨"np_license", "nl", .yes, .le, some "1"⟩, .int⟩]
  loadAdjustments := [⟨"load_avg", some "1"⟩]
  hardResourceList := []
  gepLoadList := []
  queueList := [queueOf thresholds]
  sgeHostcmp name name' := if name = name' then 0 else 1
  parseUlongVal _ value := value.map fun s => (strtol s.toList).1
  getAttributeByName _ _ := some (some "8")

theorem hostQueues_oneQueue (thresholds : List NamedValue) :
    hostQueues (oneQueue thresholds) node1 = [queueOf thresholds] := by
  simp [hostQueues, oneQueue, queueOf, node1]

theorem not_greatestOfLeast {thresholds : List NamedValue}
    (h : queueSlots (oneQueue thresholds) node1 (queueOf thresholds) ≠
      parallelMaxHostSlots (oneQueue thresholds) node1) :
    ¬ GreatestOfLeast (oneQueue thresholds) node1 := by
  intro hgreatest
  obtain ⟨queue, hqueue, hallows⟩ := hgreatest.1
  rw [hostQueues_oneQueue, List.mem_singleton] at hqueue
  subst hqueue
  exact h (queueAllows_queueSlots.unique hallows)

end Instances

end GridEngine.LoadThresholds
