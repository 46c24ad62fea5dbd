import GridEngine.ParallelGrants

/-!
# The quota accounts at one host

What a queue instance gives is debited on all its limits, so entries and soft violations follow the
grants as long as the loop goes on. A revert follows the grants for the queue instances that were
granted something, and only for those.
-/

namespace GridEngine

namespace GrantState
variable {Q H L : Type*} {s : GrantState Q H L} {t t' : SlotTime} {account : SlotAccount Q}

@[simp]
theorem setAccount_self : (s.setAccount t account).account t = account := Function.update_self ..

theorem setAccount_gdil (h : account.gdil = (s.account t).gdil) (t' : SlotTime) :
    ((s.setAccount t account).account t').gdil = (s.account t').gdil := by
  by_cases heq : t' = t
  · rw [heq, setAccount_self, h]
  · exact congrArg SlotAccount.gdil (Function.update_of_ne heq ..)

theorem setAccount_of_ne (h : t' ≠ t) : (s.setAccount t account).account t' = s.account t' :=
  Function.update_of_ne h ..

end GrantState

namespace ParallelAssignment
variable {Q H L R : Type*} (a : ParallelAssignment Q H L R)

/-- What the soft violations should be. -/
def violations (s : GrantState Q H L) : ℤ :=
  charge (fun q => a.softViolation q) (s.account .now).gdil

variable {a} {s s' s'' : GrantState Q H L} {t : SlotTime}

/-- What the work on one account leaves alone. -/
structure Keeps (t : SlotTime) (s s' : GrantState Q H L) : Prop where
  other : ∀ t', t' ≠ t → s'.account t' = s.account t'
  careReservation : s'.careReservation = s.careReservation
  pending : s'.pending = s.pending
  done : s'.done = s.done

theorem Keeps.trans (h : Keeps t s s') (h' : Keeps t s' s'') : Keeps t s s'' where
  other := fun t' hne => (h'.other t' hne).trans (h.other t' hne)
  careReservation := h'.careReservation.trans h.careReservation
  pending := h'.pending.trans h.pending
  done := h'.done.trans h.done

theorem violations_change {x : ℤ} (hother : ∀ t', t' ≠ t → s'.account t' = s.account t')
    (h : charge (fun q => (a.softViolation q : ℤ)) (s'.account t).gdil =
      charge (fun q => (a.softViolation q : ℤ)) (s.account t).gdil + x) :
    a.violations s' = a.violations s + if t = .now then x else 0 := by
  cases t with
  | now => rw [violations, violations, h, if_pos rfl]
  | qend => rw [violations, violations, hother .now (by decide), if_neg nofun, add_zero]

section Needed
variable {q : Q} {m : ℤ} {v : Harvest Q H L}

/-- Something is left to take from the host, or the job has its master queue already. -/
def Room (t : SlotTime) (m : ℤ) (v : Harvest Q H L) : Prop :=
  v.rqsHslots < m ∨ v.rqsHslots ≤ m ∧ (v.state.account t).haveMasterHost = true

theorem slotsNeeded_spec (htag : 0 < (v.state.account t).tag q) (hroom : Room t m v) :
    0 ≤ a.slotsNeeded t m v q ∧ v.rqsHslots + a.slotsNeeded t m v q ≤ m := by
  rcases hroom with hlt | ⟨hle, hmaster⟩
  · rw [slotsNeeded]
    split_ifs <;> omega
  · rw [slotsNeeded, hmaster, Bool.true_or, if_pos rfl]
    omega

/-- A queue instance for slave tasks leaves a slot for the master task. -/
theorem slotsNeeded_slave (hmaster : (v.state.account t).haveMasterHost = false)
    (hgot : v.gotMasterQueue = false)
    (hslave : t.slaveQueue (v.state.tagged4schedule q) = true)
    (hmax : (v.state.account t).accuHostSlots + m ≤ a.slots) :
    (v.state.account t).accuHostSlots + v.rqsHslots + a.slotsNeeded t m v q < a.slots := by
  rw [slotsNeeded, hmaster, hgot, Bool.or_self, if_neg Bool.false_ne_true, if_pos hslave]
  split_ifs <;> omega

end Needed

variable (a) [DecidableEq L]

/-- What an entry of the limit list should be, its first value without the grants under it. -/
def left (s : GrantState Q H L) (l : L) : ℤ × ℤ :=
  a.newLimit l -
    (charge (a.under l) (s.account .now).gdil, charge (a.under l) (s.account .qend).gdil)

/-- The quota accounts follow the grant. -/
structure Accounts (s : GrantState Q H L) : Prop where
  limits : ∀ l, ∀ rql ∈ s.limitList l, rql = a.left s l
  soft : a.isSoft → s.softViolations = a.violations s

/-- The accounts change as the grants do. -/
structure Follows (s s' : GrantState Q H L) : Prop where
  limits : ∀ l, s'.limitList l = (s.limitList l).map (· + (a.left s' l - a.left s l))
  soft : a.isSoft → s'.softViolations - s.softViolations = a.violations s' - a.violations s

variable {a} {l : L}

theorem Follows.refl (s : GrantState Q H L) : a.Follows s s where
  limits := by
    intro l
    simp only [sub_self, add_zero, Option.map_id']
  soft := by
    intro _
    rw [sub_self, sub_self]

theorem Follows.trans (h : a.Follows s s') (h' : a.Follows s' s'') : a.Follows s s'' where
  limits := by
    intro l
    rw [h'.limits l, h.limits l, Option.map_map]
    congr 1
    funext rql
    rw [Function.comp_apply]
    abel
  soft := by
    intro hsoft
    have := h.soft hsoft
    have := h'.soft hsoft
    omega

theorem Follows.isSome (h : a.Follows s s') (l : L) :
    (s'.limitList l).isSome = (s.limitList l).isSome := by
  rw [h.limits l, Option.isSome_map]

theorem Follows.of_eq (hlimits : s'.limitList = s.limitList)
    (hsoft : s'.softViolations = s.softViolations)
    (hgdil : ∀ t, (s'.account t).gdil = (s.account t).gdil) : a.Follows s s' := by
  refine ⟨fun l => ?_, fun _ => ?_⟩
  · rw [hlimits, left, left, hgdil, hgdil]
    simp only [sub_self, add_zero, Option.map_id']
  · rw [hsoft, violations, violations, hgdil, sub_self, sub_self]

theorem Follows.accounts_iff (h : a.Follows s s') : a.Accounts s' ↔ a.Accounts s := by
  constructor
  · intro hs
    refine ⟨fun l rql hrql => ?_, fun hsoft => ?_⟩
    · have hrql' : rql + (a.left s' l - a.left s l) ∈ s'.limitList l := by
        rw [h.limits l, hrql]
        rfl
      have heq := hs.limits l _ hrql'
      rw [add_sub, sub_eq_iff_eq_add] at heq
      rw [add_comm] at heq
      exact add_left_cancel heq
    · have := h.soft hsoft
      have := hs.soft hsoft
      omega
  · intro hs
    refine ⟨fun l rql hrql => ?_, fun hsoft => ?_⟩
    · rw [h.limits l] at hrql
      obtain ⟨rql', hrql', rfl⟩ := Option.map_eq_some_iff.mp hrql
      rw [hs.limits l rql' hrql']
      abel
    · have := h.soft hsoft
      have := hs.soft hsoft
      omega

theorem left_change {x : ℤ} (hother : ∀ t', t' ≠ t → s'.account t' = s.account t')
    (h : charge (a.under l) (s'.account t).gdil = charge (a.under l) (s.account t).gdil + x) :
    a.left s' l = a.left s l - t.amount x := by
  cases t with
  | now =>
      rw [left, left, hother .qend (by decide), h, SlotTime.amount, Prod.ext_iff]
      simp only [Prod.fst_sub, Prod.snd_sub, sub_zero, and_true]
      ring
  | qend =>
      rw [left, left, hother .now (by decide), h, SlotTime.amount, Prod.ext_iff]
      simp only [Prod.fst_sub, Prod.snd_sub, sub_zero, true_and]
      ring

section Revert
variable {q : Q} {qs : List Q}

variable (a) in
/-- The tags of the queue instances are given back. The grants change as much when every tagged
queue instance is among them, and do not change when none is. -/
structure Reverted (t : SlotTime) (qs : List Q) (s s' : GrantState Q H L) : Prop where
  keeps : Keeps t s s'
  accuHostSlots : (s'.account t).accuHostSlots = (s.account t).accuHostSlots
  haveMasterHost : (s'.account t).haveMasterHost = (s.account t).haveMasterHost
  tag : ∀ q ∉ qs, (s'.account t).tag q = (s.account t).tag q
  limits : ∀ l, s'.limitList l =
    (s.limitList l).map (· + t.amount (weigh (a.under l) (s.account t).tag qs))
  soft : s'.softViolations = s.softViolations -
    if t = .now then weigh (fun q => a.softViolation q) (s.account t).tag qs else 0
  subset : qnames (s'.account t).gdil ⊆ qnames (s.account t).gdil
  mem_iff : ∀ q ∉ qs, q ∈ qnames (s'.account t).gdil ↔ q ∈ qnames (s.account t).gdil
  granted : (∀ q ∈ qs, (s.account t).tag q ≠ 0 → q ∈ qnames (s.account t).gdil) →
    ∀ w, charge w (s'.account t).gdil =
      charge w (s.account t).gdil - weigh w (s.account t).tag qs
  fresh : (∀ q ∈ qs, (s.account t).tag q ≠ 0 → q ∉ qnames (s.account t).gdil) →
    (s'.account t).gdil = (s.account t).gdil

theorem Reverted.cons (h : a.Reverted t [q] s s') (h' : a.Reverted t qs s' s'') (hq : q ∉ qs) :
    a.Reverted t (q :: qs) s s'' := by
  have htag : ∀ q' ∈ qs, (s'.account t).tag q' = (s.account t).tag q' := by
    intro q' hq'
    refine h.tag q' fun hmem => hq ?_
    rw [← List.mem_singleton.mp hmem]
    exact hq'
  have hmem : ∀ q' ∈ qs, q' ∈ qnames (s'.account t).gdil ↔ q' ∈ qnames (s.account t).gdil := by
    intro q' hq'
    refine h.mem_iff q' fun hmem => hq ?_
    rw [← List.mem_singleton.mp hmem]
    exact hq'
  have hsplit : ∀ w, weigh w (s.account t).tag (q :: qs) =
      weigh w (s.account t).tag [q] + weigh w (s'.account t).tag qs := by
    intro w
    rw [weigh_congr htag, weigh_cons, weigh_singleton]
  refine ⟨h.keeps.trans h'.keeps, h'.accuHostSlots.trans h.accuHostSlots,
    h'.haveMasterHost.trans h.haveMasterHost, ?_, ?_, ?_, 
    List.Subset.trans h'.subset h.subset, ?_, ?_, ?_⟩
  · intro q' hq'
    obtain ⟨hne, hnot⟩ : q' ≠ q ∧ q' ∉ qs := by simpa only [List.mem_cons, not_or] using hq'
    rw [h'.tag q' hnot, h.tag q' (by simpa using hne)]
  · intro l
    rw [h'.limits l, h.limits l, Option.map_map, hsplit, SlotTime.amount_add]
    congr 1
    funext rql
    rw [Function.comp_apply]
    abel
  · rw [h'.soft, h.soft, hsplit]
    split
    · abel
    · abel
  · intro q' hq'
    obtain ⟨hne, hnot⟩ : q' ≠ q ∧ q' ∉ qs := by simpa only [List.mem_cons, not_or] using hq'
    rw [h'.mem_iff q' hnot, h.mem_iff q' (by simpa using hne)]
  · intro hgranted w
    have hfirst := h.granted (fun q' hq' => by
      rw [List.mem_singleton.mp hq']
      exact hgranted q List.mem_cons_self) w
    have hrest := h'.granted (fun q' hq' => by
      rw [htag q' hq', hmem q' hq']
      exact hgranted q' (List.mem_cons_of_mem _ hq')) w
    rw [hrest, hfirst, hsplit]
    abel
  · intro hfresh
    have hfirst := h.fresh (fun q' hq' => by
      rw [List.mem_singleton.mp hq']
      exact hfresh q List.mem_cons_self)
    have hrest := h'.fresh (fun q' hq' => by
      rw [htag q' hq', hmem q' hq']
      exact hfresh q' (List.mem_cons_of_mem _ hq'))
    rw [hrest, hfirst]

theorem Reverted.isSome (h : a.Reverted t qs s s') (l : L) :
    (s'.limitList l).isSome = (s.limitList l).isSome := by
  rw [h.limits l, Option.isSome_map]

theorem Reverted.limitsLeft (h : a.Reverted t qs s s') (hleft : LimitsLeft s.limitList)
    (htag : ∀ q ∈ qs, 0 ≤ (s.account t).tag q) : LimitsLeft s'.limitList := by
  intro l rql hrql
  rw [h.limits l] at hrql
  obtain ⟨rql', hrql', rfl⟩ := Option.map_eq_some_iff.mp hrql
  exact add_nonneg (hleft l rql' hrql')
    (SlotTime.amount_nonneg (weigh_nonneg htag (under_nonneg l)))

theorem Reverted.follows (h : a.Reverted t qs s s')
    (hgranted : ∀ q ∈ qs, (s.account t).tag q ≠ 0 → q ∈ qnames (s.account t).gdil) :
    a.Follows s s' := by
  have hcharge : ∀ w, charge w (s'.account t).gdil =
      charge w (s.account t).gdil + -weigh w (s.account t).tag qs := by
    intro w
    rw [h.granted hgranted w, sub_eq_add_neg]
  refine ⟨fun l => ?_, fun _ => ?_⟩
  · rw [h.limits l, left_change h.keeps.other (hcharge _), SlotTime.amount_neg]
    congr 1
    funext rql
    abel
  · rw [h.soft, violations_change h.keeps.other (hcharge _)]
    split
    · abel
    · abel

/-- A revert of what was not granted. The accounts lose the grant at every limit and for every soft
violation of a queue instance that is tagged. -/
theorem Reverted.accounts_iff (h : a.Reverted .now qs s s')
    (htag : ∀ q ∈ qs, 0 ≤ (s.account .now).tag q)
    (hfresh : ∀ q ∈ qs, (s.account .now).tag q ≠ 0 → q ∉ qnames (s.account .now).gdil)
    (hs : a.Accounts s) :
    a.Accounts s' ↔ ∀ q ∈ qs, (s.account .now).tag q ≠ 0 →
      (∀ l ∈ a.limits q, s.limitList l = none) ∧ (a.isSoft → a.softViolation q = 0) := by
  have hgdil := h.fresh hfresh
  have hleft : ∀ l, a.left s' l = a.left s l := by
    intro l
    rw [left, left, hgdil, h.keeps.other .qend nofun]
  have hviolations : a.violations s' = a.violations s := by
    rw [violations, violations, hgdil]
  have hsoft := h.soft
  rw [if_pos rfl] at hsoft
  constructor
  · intro hs' q hq htagged
    refine ⟨fun l hl => ?_, fun his => ?_⟩
    · by_contra hsome
      obtain ⟨rql, hrql⟩ := Option.ne_none_iff_exists'.mp hsome
      have hrql' : rql + SlotTime.now.amount (weigh (a.under l) (s.account .now).tag qs) ∈
          s'.limitList l := by
        rw [h.limits l, hrql]
        rfl
      have heq := hs'.limits l _ hrql'
      rw [hleft, ← hs.limits l rql hrql, add_eq_left,
        ← SlotTime.amount_zero (t := .now)] at heq
      rcases (weigh_eq_zero_iff htag (under_nonneg l)).mp (SlotTime.amount_inj heq) q hq with
        hzero | hzero
      · exact htagged hzero
      · exact under_eq_zero.mp hzero hl
    · have hzero : weigh (fun q => (a.softViolation q : ℤ)) (s.account .now).tag qs = 0 := by
        have := hs.soft his
        have := hs'.soft his
        omega
      rcases (weigh_eq_zero_iff htag fun q => Int.natCast_nonneg _).mp hzero q hq with
        hzero | hzero
      · exact absurd hzero htagged
      · exact Int.natCast_eq_zero.mp hzero
  · intro hspared
    refine ⟨fun l rql hrql => ?_, fun his => ?_⟩
    · rw [h.limits l] at hrql
      obtain ⟨rql', hrql', rfl⟩ := Option.map_eq_some_iff.mp hrql
      have hzero : weigh (a.under l) (s.account .now).tag qs = 0 := by
        apply weigh_eq_zero
        intro q hq
        by_cases htagged : (s.account .now).tag q = 0
        · exact .inl htagged
        · refine .inr (under_eq_zero.mpr fun hl => ?_)
          rw [(hspared q hq htagged).1 l hl] at hrql'
          cases hrql'
      rw [hzero, SlotTime.amount_zero, add_zero, hleft]
      exact hs.limits l rql' hrql'
    · have hzero : weigh (fun q => (a.softViolation q : ℤ)) (s.account .now).tag qs = 0 := by
        apply weigh_eq_zero
        intro q hq
        by_cases htagged : (s.account .now).tag q = 0
        · exact .inl htagged
        · exact .inr (Int.natCast_eq_zero.mpr ((hspared q hq htagged).2 his))
      rw [hsoft, hzero, sub_zero, hviolations]
      exact hs.soft his

variable [DecidableEq Q]

theorem revertQueue_reverted : a.Reverted t [q] s (a.revertQueue t s q) := by
  by_cases hzero : (s.account t).tag q = 0
  · have hnone : ∀ w, weigh w (s.account t).tag [q] = 0 := by
      intro w
      rw [weigh_singleton, hzero, zero_mul]
    rw [revertQueue, if_pos hzero]
    refine ⟨⟨fun _ _ => rfl, rfl, rfl, rfl⟩, rfl, rfl, fun _ _ => rfl, fun l => ?_, ?_,
      List.Subset.refl _, fun _ _ => Iff.rfl, fun _ w => ?_, fun _ => rfl⟩
    · rw [hnone, SlotTime.amount_zero]
      simp only [add_zero, Option.map_id']
    · rw [hnone, ite_self, sub_zero]
    · rw [hnone, sub_zero]
  · rw [revertQueue, if_neg hzero]
    refine ⟨⟨fun t' hne => GrantState.setAccount_of_ne hne, rfl, rfl, rfl⟩, ?_, ?_, ?_, ?_, ?_, ?_,
      ?_, ?_, ?_⟩
    all_goals simp only [GrantState.setAccount_self]
    · intro q' hq'
      exact Function.update_of_ne (List.ne_of_not_mem_cons hq') ..
    · intro l
      rw [postSlots_apply, weigh_singleton]
      cases t <;> simp [SlotTime.amount, mul_comm]
    · rw [weigh_singleton]
      split
      · rfl
      · rw [sub_zero]
    · exact qnames_ungrantSlots_subset
    · intro q' hq'
      exact mem_ungrantSlots_of_ne (List.ne_of_not_mem_cons hq')
    · intro h w
      rw [weigh_singleton, charge_ungrantSlots (h q List.mem_cons_self hzero)]
    · intro h
      exact ungrantSlots_of_notMem (h q List.mem_cons_self hzero)

theorem foldl_revertQueue (hqs : qs.Nodup) :
    a.Reverted t qs s (qs.foldl (a.revertQueue t) s) := by
  induction qs generalizing s with
  | nil =>
      have hnone : ∀ w, weigh w (s.account t).tag [] = 0 := fun w => rfl
      refine ⟨⟨fun _ _ => rfl, rfl, rfl, rfl⟩, rfl, rfl, fun _ _ => rfl, fun l => ?_, ?_,
        List.Subset.refl _, fun _ _ => Iff.rfl, fun _ w => ?_, fun _ => rfl⟩
      · rw [hnone, SlotTime.amount_zero]
        simp only [List.foldl_nil, add_zero, Option.map_id']
      · rw [hnone, ite_self, sub_zero, List.foldl_nil]
      · rw [hnone, sub_zero, List.foldl_nil]
  | cons q qs ih =>
      obtain ⟨hq, hqs⟩ := List.nodup_cons.mp hqs
      exact revertQueue_reverted.cons (ih hqs) hq

end Revert

section Harvest
variable {q : Q} {pre qs : List Q} {m n : ℤ} {v : Harvest Q H L}

variable (a) in
/-- The queue instances `pre` of a host are harvested. -/
structure Harvested (t : SlotTime) (m : ℤ) (s : GrantState Q H L) (pre : List Q)
    (v : Harvest Q H L) : Prop where
  keeps : Keeps t s v.state
  accuHostSlots : (v.state.account t).accuHostSlots = (s.account t).accuHostSlots
  haveMasterHost : (v.state.account t).haveMasterHost = (s.account t).haveMasterHost
  follows : a.Follows s v.state
  limitsLeft : LimitsLeft v.state.limitList
  tag_nonneg : ∀ q, 0 ≤ (v.state.account t).tag q
  tag_rest : ∀ q ∉ pre, (v.state.account t).tag q = (s.account t).tag q
  granted : ∀ q ∈ pre, (v.state.account t).tag q ≠ 0 → q ∈ qnames (v.state.account t).gdil
  mem_gdil : ∀ q ∈ qnames (v.state.account t).gdil, q ∈ qnames (s.account t).gdil ∨
    q ∈ pre ∧ ∀ l ∈ a.limits q, (s.limitList l).isSome
  nonneg : 0 ≤ v.rqsHslots
  le_max : v.rqsHslots ≤ m
  master : (s.account t).haveMasterHost = false → v.gotMasterQueue = false →
    (s.account t).accuHostSlots < a.slots → (s.account t).accuHostSlots + m ≤ a.slots →
      (∀ q ∈ pre, q ∉ qnames (s.account t).gdil) →
        (s.account t).accuHostSlots + v.rqsHslots < a.slots

theorem Harvested.start (hleft : LimitsLeft s.limitList)
    (htag : ∀ q, 0 ≤ (s.account t).tag q) (hm : 0 ≤ m) :
    a.Harvested t m s [] ⟨s, 0, (s.account t).haveMasterHost⟩ where
  keeps := ⟨fun _ _ => rfl, rfl, rfl, rfl⟩
  accuHostSlots := rfl
  haveMasterHost := rfl
  follows := Follows.refl s
  limitsLeft := hleft
  tag_nonneg := htag
  tag_rest := fun _ _ => rfl
  granted := fun _ hq => absurd hq List.not_mem_nil
  mem_gdil := fun _ hq => .inl hq
  nonneg := le_rfl
  le_max := hm
  master := fun _ _ hbound _ _ => by
    rw [add_zero]
    exact hbound

theorem Harvested.skip (h : a.Harvested t m s pre v) (hq : (v.state.account t).tag q = 0) :
    a.Harvested t m s (pre ++ [q]) v := by
  refine { h with tag_rest := ?_, granted := ?_, mem_gdil := ?_, master := ?_ }
  · intro q' hq'
    exact h.tag_rest q' fun hmem => hq' (List.mem_append_left _ hmem)
  · intro q' hq' htag
    rcases List.mem_append.mp hq' with hmem | hmem
    · exact h.granted q' hmem htag
    · rw [List.mem_singleton.mp hmem] at htag
      exact absurd hq htag
  · intro q' hq'
    rcases h.mem_gdil q' hq' with hmem | ⟨hmem, hlimits⟩
    · exact .inl hmem
    · exact .inr ⟨List.mem_append_left _ hmem, hlimits⟩
  · intro hmaster hgot hbound hmax hfresh
    exact h.master hmaster hgot hbound hmax fun q' hq' => hfresh q' (List.mem_append_left _ hq')

variable [DecidableEq Q]

variable (a) in
/-- A queue instance gives slots. -/
structure Took (t : SlotTime) (q : Q) (slots : ℤ) (v v' : Harvest Q H L) : Prop where
  keeps : Keeps t v.state v'.state
  accuHostSlots : (v'.state.account t).accuHostSlots = (v.state.account t).accuHostSlots
  haveMasterHost : (v'.state.account t).haveMasterHost = (v.state.account t).haveMasterHost
  tag : (v'.state.account t).tag = Function.update (v.state.account t).tag q slots
  gdil : (v'.state.account t).gdil =
    if 0 < slots then
      grantSlots (v.state.account t).gdil q slots (isMasterQueue t v.state q)
    else (v.state.account t).gdil
  limits : ∀ l, v'.state.limitList l =
    (v.state.limitList l).map (· - a.under l q • t.amount slots)
  soft : v'.state.softViolations =
    if 0 < slots ∧ t = .now ∧ a.isSoft then v.state.softViolations + slots * a.softViolation q
    else v.state.softViolations
  rqsHslots : v'.rqsHslots = v.rqsHslots + slots
  gotMasterQueue : v'.gotMasterQueue =
    (v.gotMasterQueue || (decide (0 < slots) && isMasterQueue t v.state q))

theorem harvestQueue_took (hleft : LimitsLeft v.state.limitList)
    (hneeded : 0 ≤ a.slotsNeeded t m v q) :
    ∃ slots, 0 ≤ slots ∧ slots ≤ a.slotsNeeded t m v q ∧
      a.Took t q slots v (a.harvestQueue t m v q) ∧
      LimitsLeft (a.harvestQueue t m v q).state.limitList ∧
      (0 < slots → ∀ l ∈ a.limits q, (v.state.limitList l).isSome) := by
  obtain ⟨slots, hnonneg, hle, hdebited, hleft, hsome⟩ :=
    checkAndDebit_spec (t := t) (q := q) (a := a) hleft hneeded
  have hslots : t.entry
      (a.checkAndDebit q (t.amount (a.slotsNeeded t m v q)) v.state.limitList).1 = slots := by
    rw [hdebited, SlotTime.entry_amount]
  refine ⟨slots, hnonneg, hle, ⟨⟨?_, rfl, rfl, rfl⟩, ?_, ?_, ?_, ?_, ?_, ?_, ?_, ?_⟩, hleft, hsome⟩
  · intro t' hne
    exact GrantState.setAccount_of_ne hne
  all_goals simp only [harvestQueue, GrantState.setAccount_self, hslots]
  intro l
  rw [checkAndDebit_limitList, hdebited]

theorem harvestQueue_full {got : Bool} (hleft : LimitsLeft s.limitList)
    (hmaster : (s.account t).haveMasterHost = true) (htag : 0 ≤ (s.account t).tag q) :
    a.harvestQueue t 0 ⟨s, 0, got⟩ q =
      ⟨s.setAccount t
        { s.account t with tag := Function.update (s.account t).tag q 0 }, 0, got⟩ := by
  have hneeded : a.slotsNeeded t 0 ⟨s, 0, got⟩ q = 0 := by
    rw [slotsNeeded, hmaster, Bool.true_or, if_pos rfl]
    exact min_eq_right htag
  have hentry : t.entry 0 = 0 := by cases t <;> rfl
  simp only [harvestQueue, hneeded, SlotTime.amount_zero, checkAndDebit_zero hleft, hentry,
    lt_irrefl, false_and, if_false, decide_false, Bool.false_and, Bool.or_false, add_zero]
  rfl

theorem harvestLoop_full (got : Bool) (hqs : qs.Nodup) (hleft : LimitsLeft s.limitList)
    (hmaster : (s.account t).haveMasterHost = true) (htag : ∀ q, 0 ≤ (s.account t).tag q) :
    ∃ tag : Q → ℤ, harvestLoop t (a.harvestQueue t 0) 0 qs ⟨s, 0, got⟩ =
        ⟨s.setAccount t { s.account t with tag := tag }, 0, got⟩ ∧
      (∀ q, tag q = 0 ∨ tag q = (s.account t).tag q) ∧
      ∀ q ∈ qs, tag q ≠ 0 ↔ q ∈ (qs.filter fun q => (s.account t).tag q ≠ 0).tail := by
  induction qs with
  | nil =>
      refine ⟨(s.account t).tag, ?_, fun _ => .inr rfl, fun q hq => absurd hq List.not_mem_nil⟩
      rw [harvestLoop, GrantState.setAccount, Function.update_eq_self]
  | cons q qs ih =>
      obtain ⟨hq, hqs⟩ := List.nodup_cons.mp hqs
      by_cases hzero : (s.account t).tag q = 0
      · obtain ⟨tag, hloop, hold, htail⟩ := ih hqs
        refine ⟨tag, ?_, hold, fun q' hq' => ?_⟩
        · rw [harvestLoop, if_pos hzero, hloop]
        · rw [List.filter_cons_of_neg (by simpa using hzero)]
          rcases List.mem_cons.mp hq' with rfl | hq'
          · have hnone : tag q' = 0 := by
              rcases hold q' with hnone | hsame
              · exact hnone
              · exact hsame.trans hzero
            have hnot : q' ∉ (qs.filter fun q => (s.account t).tag q ≠ 0).tail := fun hmem =>
              hq (List.mem_of_mem_filter (List.mem_of_mem_tail hmem))
            simp only [hnone, ne_eq, not_true, hnot]
          · exact htail q' hq'
      · refine ⟨Function.update (s.account t).tag q 0, ?_, fun q' => ?_, fun q' hq' => ?_⟩
        · rw [harvestLoop, if_neg hzero, harvestQueue_full hleft hmaster (htag q), if_pos rfl]
        · by_cases heq : q' = q
          · exact .inl (by rw [heq, Function.update_self])
          · exact .inr (Function.update_of_ne heq ..)
        · rw [List.filter_cons_of_pos (by simpa using hzero), List.tail_cons, List.mem_filter]
          by_cases heq : q' = q
          · rw [heq, Function.update_self]
            simp only [ne_eq, not_true, hq, false_and]
          · rw [Function.update_of_ne heq]
            have hmem : q' ∈ qs := (List.mem_cons.mp hq').resolve_left heq
            simp only [hmem, true_and, decide_eq_true_eq]

theorem Took.follows {v' : Harvest Q H L} (h : a.Took t q n v v') (hn : 0 ≤ n) :
    a.Follows v.state v'.state := by
  have hcharge : ∀ w, charge w (v'.state.account t).gdil =
      charge w (v.state.account t).gdil + n * w q := by
    intro w
    rw [h.gdil]
    split
    · exact charge_grantSlots
    · obtain rfl : n = 0 := by omega
      rw [zero_mul, add_zero]
  refine ⟨fun l => ?_, fun hsoft => ?_⟩
  · rw [h.limits l, left_change h.keeps.other (hcharge _)]
    congr 1
    funext rql
    cases t <;> simp [SlotTime.amount, mul_comm, sub_eq_add_neg]
  · rw [h.soft, violations_change h.keeps.other (hcharge _)]
    split_ifs <;> grind

theorem Harvested.take (h : a.Harvested t m s pre v) (hq : q ∉ pre)
    (htag : (v.state.account t).tag q ≠ 0) (hroom : Room t m v) :
    a.Harvested t m s (pre ++ [q]) (a.harvestQueue t m v q) := by
  have hpos : 0 < (v.state.account t).tag q := lt_of_le_of_ne (h.tag_nonneg q) htag.symm
  obtain ⟨hneeded, hmax⟩ := slotsNeeded_spec (a := a) hpos hroom
  obtain ⟨slots, hnonneg, hle, htook, hleft, hsome⟩ := harvestQueue_took h.limitsLeft hneeded
  have hsome' : ∀ l, (v.state.limitList l).isSome → (s.limitList l).isSome := by
    intro l hl
    rw [h.follows.limits l, Option.isSome_map] at hl
    exact hl
  have hmem : ∀ q', q' ∈ qnames ((a.harvestQueue t m v q).state.account t).gdil →
      q' ∈ qnames (v.state.account t).gdil ∨ q' = q ∧ 0 < slots := by
    intro q' hq'
    rw [htook.gdil] at hq'
    split at hq'
    · rename_i hslots
      rcases mem_grantSlots.mp hq' with heq | hq'
      · exact .inr ⟨heq, hslots⟩
      · exact .inl hq'
    · exact .inl hq'
  have hkept : ∀ q', q' ∈ qnames (v.state.account t).gdil →
      q' ∈ qnames ((a.harvestQueue t m v q).state.account t).gdil := by
    intro q' hq'
    rw [htook.gdil]
    split
    · exact mem_grantSlots.mpr (.inr hq')
    · exact hq'
  refine ⟨h.keeps.trans htook.keeps, htook.accuHostSlots.trans h.accuHostSlots,
    htook.haveMasterHost.trans h.haveMasterHost, h.follows.trans (htook.follows hnonneg), hleft,
    ?_, ?_, ?_, ?_, ?_, ?_, ?_⟩
  · intro q'
    rw [htook.tag]
    by_cases heq : q' = q
    · rw [heq, Function.update_self]
      exact hnonneg
    · rw [Function.update_of_ne heq]
      exact h.tag_nonneg q'
  · intro q' hq'
    rw [List.mem_append, List.mem_singleton, not_or] at hq'
    rw [htook.tag, Function.update_of_ne hq'.2]
    exact h.tag_rest q' hq'.1
  · intro q' hq' htag'
    rw [htook.tag] at htag'
    by_cases heq : q' = q
    · rw [heq, Function.update_self] at htag'
      rw [heq, htook.gdil, if_pos (lt_of_le_of_ne hnonneg htag'.symm)]
      exact mem_grantSlots.mpr (.inl rfl)
    · rw [Function.update_of_ne heq] at htag'
      rcases List.mem_append.mp hq' with hq' | hq'
      · exact hkept q' (h.granted q' hq' htag')
      · exact absurd (List.mem_singleton.mp hq') heq
  · intro q' hq'
    rcases hmem q' hq' with hq' | ⟨rfl, hslots⟩
    · rcases h.mem_gdil q' hq' with hq' | ⟨hq', hlimits⟩
      · exact .inl hq'
      · exact .inr ⟨List.mem_append_left _ hq', hlimits⟩
    · exact .inr ⟨List.mem_append_right _ (List.mem_singleton_self _),
        fun l hl => hsome' l (hsome hslots l hl)⟩
  · rw [htook.rqsHslots]
    exact add_nonneg h.nonneg hnonneg
  · rw [htook.rqsHslots]
    omega
  · intro hmaster hgot hbound hmaxslots hfresh
    rw [htook.gotMasterQueue, Bool.or_eq_false_iff] at hgot
    have hbefore := h.master hmaster hgot.1 hbound hmaxslots
      fun q' hq' => hfresh q' (List.mem_append_left _ hq')
    rw [htook.rqsHslots]
    by_cases hslave : t.slaveQueue (v.state.tagged4schedule q) = true
    · have hslots := slotsNeeded_slave (a := a) (h.haveMasterHost.trans hmaster) hgot.1 hslave
        (by rw [h.accuHostSlots]; exact hmaxslots)
      rw [h.accuHostSlots] at hslots
      omega
    · have hnew : q ∉ qnames (v.state.account t).gdil := by
        intro hq'
        rcases h.mem_gdil q hq' with hq' | ⟨hq', -⟩
        · exact hfresh q (List.mem_append_right _ (List.mem_singleton_self _)) hq'
        · exact hq hq'
      have hqueue : isMasterQueue t v.state q = true := by
        rw [isMasterQueue, h.haveMasterHost, hmaster, locateJg_eq_none.mpr hnew,
          Bool.eq_false_iff.mpr hslave]
        simp only [Bool.not_false, Option.isNone_none, Bool.or_true, Bool.and_self]
      rw [hqueue, Bool.and_true, decide_eq_false_iff_not] at hgot
      omega

/-- What the loop passes is harvested, and it stops early only when it has all it may take. -/
theorem harvestLoop_spec (h : a.Harvested t m s pre v) (hqs : (pre ++ qs).Nodup)
    (hroom : Room t m v) :
    ∃ passed rest, qs = passed ++ rest ∧
      a.Harvested t m s (pre ++ passed) (harvestLoop t (a.harvestQueue t m) m qs v) ∧
      (rest = [] ∨ (harvestLoop t (a.harvestQueue t m) m qs v).rqsHslots = m) := by
  induction qs generalizing pre v with
  | nil => exact ⟨[], [], rfl, by rw [List.append_nil]; exact h, .inl rfl⟩
  | cons q qs ih =>
      have hq : q ∉ pre := by
        intro hmem
        rw [List.nodup_append] at hqs
        exact hqs.2.2 q hmem q List.mem_cons_self rfl
      have hnodup : ((pre ++ [q]) ++ qs).Nodup := by
        rw [List.append_assoc]
        exact hqs
      by_cases hzero : (v.state.account t).tag q = 0
      · obtain ⟨passed, rest, rfl, hpassed, hend⟩ := ih (h.skip hzero) hnodup hroom
        rw [List.append_assoc] at hpassed
        refine ⟨q :: passed, rest, rfl, ?_, ?_⟩
        · rw [harvestLoop, if_pos hzero]
          exact hpassed
        · rw [harvestLoop, if_pos hzero]
          exact hend
      · have htake := h.take hq hzero hroom
        rw [harvestLoop, if_neg hzero]
        by_cases hfull : (a.harvestQueue t m v q).rqsHslots = m
        · rw [if_pos hfull]
          exact ⟨[q], qs, rfl, htake, .inr hfull⟩
        · rw [if_neg hfull]
          have hroom' : Room t m (a.harvestQueue t m v q) :=
            .inl (lt_of_le_of_ne htake.le_max hfull)
          obtain ⟨passed, rest, rfl, hpassed, hend⟩ := ih htake hnodup hroom'
          rw [List.append_assoc] at hpassed
          exact ⟨q :: passed, rest, rfl, hpassed, hend⟩

end Harvest

end ParallelAssignment

end GridEngine
