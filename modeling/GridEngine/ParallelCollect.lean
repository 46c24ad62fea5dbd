import GridEngine.ParallelAccounts

/-!
# What a host does to the quota accounts

The accounts follow the grant at every host where something is left to collect. With `$fill_up` a
host behind a complete grant may still be visited. Nothing is taken there but the tags stay, and the
revert gives back what they say.
-/

namespace GridEngine.ParallelAssignment
variable {Q H L R : Type*} {a : ParallelAssignment Q H L R} {s s' : GrantState Q H L} {t : SlotTime}
  {h : H} {q : Q} {l : L} {qs : List Q} {hslots : ℤ}

theorem minslots_pos : 0 < a.minslots := by
  rw [minslots]
  split
  · assumption
  · exact one_pos

/-- With `$fill_up` nothing is left to take when the slots are complete. -/
theorem maxslots_full (hrule : a.allocationRule = -1)
    (hfull : (s.account t).accuHostSlots = a.slots) (hmin : a.minslots ≤ hslots) :
    a.maxslots (s.account t).accuHostSlots hslots = 0 := by
  rw [minslots, hrule, if_neg (by decide)] at hmin
  rw [maxslots, hrule, if_neg (by decide), if_pos rfl, hfull, sub_self]
  exact min_eq_left (by omega)

variable [DecidableEq H]

variable (a) in
/-- A host can be visited. -/
structure Ready (t : SlotTime) (h : H) (s : GrantState Q H L) : Prop where
  limitsLeft : LimitsLeft s.limitList
  tag_nonneg : ∀ q, 0 ≤ (s.account t).tag q
  fresh : a.allocationRule = -1 → ∀ q ∈ a.queuesOf h, q ∉ qnames (s.account t).gdil
  bounded : a.allocationRule = -1 → (s.account t).accuHostSlots ≤ a.slots ∧
    ((s.account t).accuHostSlots = a.slots → (s.account t).haveMasterHost = true)

variable (a) in
/-- What a host changes whatever it gives. -/
structure Collected (t : SlotTime) (h : H) (s s' : GrantState Q H L) : Prop where
  keeps : Keeps t s s'
  limitsLeft : LimitsLeft s'.limitList
  isSome : ∀ l, (s'.limitList l).isSome = (s.limitList l).isSome
  mem_gdil : ∀ q ∈ qnames (s'.account t).gdil, q ∈ qnames (s.account t).gdil ∨
    q ∈ a.queuesOf h ∧ ∀ l ∈ a.limits q, (s.limitList l).isSome
  bounded : a.allocationRule = -1 → (s'.account t).accuHostSlots ≤ a.slots ∧
    ((s'.account t).accuHostSlots = a.slots → (s'.account t).haveMasterHost = true)

theorem queuesOf_nodup : (a.queuesOf h).Nodup := a.queueList_nodup.filter _

/-- The bounds of the loop at a host where slots are still to be collected. -/
theorem maxslots_spec (hready : a.Ready t h s) (hmin : a.minslots ≤ hslots)
    (hleft : a.allocationRule = -1 → (s.account t).accuHostSlots ≠ a.slots) :
    0 < a.maxslots (s.account t).accuHostSlots hslots ∧
      a.minslots ≤ a.maxslots (s.account t).accuHostSlots hslots ∧
      (a.allocationRule = -1 → (s.account t).accuHostSlots < a.slots ∧
        (s.account t).accuHostSlots + a.maxslots (s.account t).accuHostSlots hslots ≤ a.slots) := by
  by_cases hpos : 0 < a.allocationRule
  · rw [maxslots, minslots, if_pos hpos, if_pos hpos]
    exact ⟨hpos, le_rfl, fun hfill => by omega⟩
  · rw [minslots, if_neg hpos] at hmin
    rw [maxslots, minslots, if_neg hpos, if_neg hpos]
    by_cases hfill : a.allocationRule = -1
    · have hlt : (s.account t).accuHostSlots < a.slots :=
        lt_of_le_of_ne (hready.bounded hfill).1 (hleft hfill)
      rw [if_pos hfill]
      omega
    · rw [if_neg hfill]
      exact ⟨one_pos, le_rfl, fun heq => absurd heq hfill⟩

variable [DecidableEq Q] [DecidableEq L]

/-- The accounts follow the grant at a host where slots are still to be collected. -/
theorem collect_spec (hready : a.Ready t h s) (hmin : a.minslots ≤ hslots)
    (hleft : a.allocationRule = -1 → (s.account t).accuHostSlots ≠ a.slots) :
    a.Follows s (a.collect t s h hslots) ∧ a.Collected t h s (a.collect t s h hslots) := by
  obtain ⟨hmax, hminmax, hfill⟩ := maxslots_spec hready hmin hleft
  have hstart := Harvested.start (a := a) hready.limitsLeft hready.tag_nonneg hmax.le
  have hnodup : ([] ++ a.queuesOf h).Nodup := queuesOf_nodup
  obtain ⟨passed, rest, hsplit, hv, hend⟩ := harvestLoop_spec hstart hnodup (.inl hmax)
  rw [List.nil_append] at hv
  have hpassed : ∀ q ∈ passed, q ∈ a.queuesOf h := by
    intro q hq
    rw [hsplit]
    exact List.mem_append_left _ hq
  rw [collect]
  change a.Harvested t _ s passed (a.harvest t s h hslots) at hv
  change rest = [] ∨ (a.harvest t s h hslots).rqsHslots = _ at hend
  generalize a.harvest t s h hslots = v at hv hend
  by_cases hfew : v.rqsHslots < a.minslots
  · have hall : a.queuesOf h = passed := by
      rcases hend with rfl | hfull
      · rw [hsplit, List.append_nil]
      · omega
    have hrevert := foldl_revertQueue (a := a) (t := t) (s := v.state)
      (queuesOf_nodup (a := a) (h := h))
    rw [if_pos hfew]
    generalize (a.queuesOf h).foldl (a.revertQueue t) v.state = s' at hrevert
    have hfollows := hrevert.follows (by rw [hall]; exact hv.granted)
    refine ⟨hv.follows.trans hfollows, hv.keeps.trans hrevert.keeps,
      hrevert.limitsLeft hv.limitsLeft fun q _ => hv.tag_nonneg q,
      (hv.follows.trans hfollows).isSome, fun q hq => ?_, fun hrule => ?_⟩
    · rcases hv.mem_gdil q (hrevert.subset hq) with hq | ⟨hq, hlimits⟩
      · exact .inl hq
      · exact .inr ⟨hpassed q hq, hlimits⟩
    · rw [hrevert.accuHostSlots, hrevert.haveMasterHost, hv.accuHostSlots, hv.haveMasterHost]
      exact hready.bounded hrule
  · rw [if_neg hfew]
    have hfollows : a.Follows s (v.state.setAccount t
        { v.state.account t with
          haveMasterHost := (v.state.account t).haveMasterHost || v.gotMasterQueue
          accuHostSlots := (v.state.account t).accuHostSlots + v.rqsHslots }) :=
      hv.follows.trans (Follows.of_eq rfl rfl (GrantState.setAccount_gdil rfl))
    refine ⟨hfollows, ⟨fun t' hne => ?_, hv.keeps.careReservation, hv.keeps.pending,
      hv.keeps.done⟩, hv.limitsLeft, hfollows.isSome, fun q hq => ?_, fun hrule => ?_⟩
    · rw [GrantState.setAccount_of_ne hne, hv.keeps.other t' hne]
    · rw [GrantState.setAccount_self] at hq
      rcases hv.mem_gdil q hq with hq | ⟨hq, hlimits⟩
      · exact .inl hq
      · exact .inr ⟨hpassed q hq, hlimits⟩
    · obtain ⟨hlt, hle⟩ := hfill hrule
      rw [GrantState.setAccount_self, hv.accuHostSlots, hv.haveMasterHost]
      have hvmax := hv.le_max
      dsimp only
      refine ⟨by omega, fun hfull => ?_⟩
      rw [Bool.or_eq_true]
      by_contra hnone
      rw [not_or, Bool.not_eq_true, Bool.not_eq_true] at hnone
      have := hv.master hnone.1 hnone.2 hlt hle fun q hq => hready.fresh hrule q (hpassed q hq)
      omega

variable (a) in
/-- The revert finds no tag of a queue instance with a limit or with soft violations. -/
def Spared (s : GrantState Q H L) (h : H) : Prop :=
  ∀ q ∈ ((a.queuesOf h).filter fun q => (s.account .now).tag q ≠ 0).tail,
    (∀ l ∈ a.limits q, s.limitList l = none) ∧ (a.isSoft → a.softViolation q = 0)

/-- Behind a complete grant the revert gives back what was not taken. -/
theorem collect_full (hready : a.Ready .now h s) (hmin : a.minslots ≤ hslots)
    (hrule : a.allocationRule = -1) (hfull : (s.account .now).accuHostSlots = a.slots) :
    a.Collected .now h s (a.collect .now s h hslots) ∧
      (a.Accounts s → (a.Accounts (a.collect .now s h hslots) ↔ a.Spared s h)) := by
  obtain ⟨hle, hmaster⟩ := hready.bounded hrule
  obtain ⟨tag, hloop, hold, htail⟩ := harvestLoop_full (a := a) true
    (queuesOf_nodup (a := a) (h := h)) hready.limitsLeft (hmaster hfull) hready.tag_nonneg
  have htag : ∀ q, 0 ≤ tag q := by
    intro q
    rcases hold q with hzero | hsame
    · exact hzero.ge
    · rw [hsame]
      exact hready.tag_nonneg q
  have hharvest : a.harvest .now s h hslots =
      ⟨s.setAccount .now { s.account .now with tag := tag }, 0, true⟩ := by
    rw [harvest, maxslots_full hrule hfull hmin, hmaster hfull]
    exact hloop
  rw [collect, hharvest, if_pos minslots_pos]
  have hstart : a.Follows s (s.setAccount .now { s.account .now with tag := tag }) :=
    Follows.of_eq rfl rfl (GrantState.setAccount_gdil rfl)
  have hlimits : (s.setAccount .now { s.account .now with tag := tag }).limitList = s.limitList :=
    rfl
  have haccount : (s.setAccount .now { s.account .now with tag := tag }).account .now =
    { s.account .now with tag := tag } := GrantState.setAccount_self
  have hkeeps : Keeps .now s (s.setAccount .now { s.account .now with tag := tag }) :=
    ⟨fun t' hne => GrantState.setAccount_of_ne hne, rfl, rfl, rfl⟩
  dsimp only
  generalize s.setAccount .now { s.account .now with tag := tag } = s₁ at *
  have hrevert := foldl_revertQueue (a := a) (t := .now) (s := s₁)
    (queuesOf_nodup (a := a) (h := h))
  generalize (a.queuesOf h).foldl (a.revertQueue .now) s₁ = s' at hrevert ⊢
  have htag₁ : ∀ q ∈ a.queuesOf h, 0 ≤ (s₁.account .now).tag q := by
    intro q _
    rw [haccount]
    exact htag q
  have hfresh : ∀ q ∈ a.queuesOf h, q ∉ qnames (s₁.account .now).gdil := by
    rw [haccount]
    exact hready.fresh hrule
  refine ⟨⟨hkeeps.trans hrevert.keeps, ?_, ?_, ?_, ?_⟩, ?_⟩
  · apply hrevert.limitsLeft _ htag₁
    rw [hlimits]
    exact hready.limitsLeft
  · intro l
    rw [hrevert.isSome, hlimits]
  · intro q hq
    rw [hrevert.fresh fun q hq _ => hfresh q hq, haccount] at hq
    exact .inl hq
  · intro _
    rw [hrevert.accuHostSlots, hrevert.haveMasterHost, haccount]
    exact ⟨hle, hmaster⟩
  · intro hs
    rw [hrevert.accounts_iff htag₁ (fun q hq _ => hfresh q hq) (hstart.accounts_iff.mpr hs), Spared,
      haccount, hlimits]
    constructor
    · intro hspared q hq
      have hmem : q ∈ a.queuesOf h := List.mem_of_mem_filter (List.mem_of_mem_tail hq)
      exact hspared q hmem ((htail q hmem).mpr hq)
    · intro hspared q hq htagged
      exact hspared q ((htail q hq).mp htagged)

end GridEngine.ParallelAssignment
