import GridEngine.Utilization

/-!
# The maximum utilization of a window

`utilization_max` starts with the amount in force at the start time and follows the entries up to
the end time. The result is the greatest amount that the diagram takes in the window, so that a
booking that fits under it fits at every time of the window.
-/

namespace GridEngine
open StepFunction

/-- A `RUE_Type` element with the amounts that are utilized at the present time. -/
structure RueNow extends Rue where
  utilizedNow : ℚ
  utilizedNowNonexclusive : ℚ
deriving DecidableEq, Repr

def dispatchTimeNow : ℕ := 0

/-- The end of one diagram in `utilization_queue_end`. A single entry at `U_LONG32_MAX` has no
previous one, and the look at it aborts. -/
def queueEndAmount (diagram : List Rde) : Option ℚ :=
  match diagram.reverse with
  | [] => some 0
  | ep :: rest =>
      if ep.time ≠ uLong32Max then some ep.amount else rest.head?.map Entry.amount

/-- `utilization_queue_end`. -/
def utilizationQueueEnd (cr : RueNow) (forExclRequest : Bool) : Option ℚ := do
  let m ← queueEndAmount (cr.utilized.getD [])
  if forExclRequest then
    match cr.utilizedNonexclusive.getD [] with
    | [] => return m
    | d => return max m (← queueEndAmount d)
  else return m

/-- The loop that watches out for the maximum before the end time. -/
def maxBefore (endTime : ℕ) : ℚ → List Rde → ℚ
  | m, [] => m
  | m, rde :: rest => if rde.time < endTime then maxBefore endTime (max m rde.amount) rest else m

/-- The maximum of one diagram in `utilization_max`. -/
def diagramMax (startTime endTime : ℕ) (diagram : List Rde) : ℚ :=
  let (before, after) := utilizationFindTime startTime diagram
  let prevAmount := (before.getLast?.map Entry.amount).getD 0
  match after with
  | [] => prevAmount
  | start :: rest =>
      if startTime = start.time then maxBefore endTime start.amount rest
      else maxBefore endTime prevAmount (start :: rest)

/-- `utilization_max`. -/
def utilizationMax (cr : RueNow) (startTime duration : ℕ) (forExclRequest : Bool) : Option ℚ :=
  let endTime := utilizationEndtime startTime duration
  if startTime = dispatchTimeNow then
    some (if forExclRequest then max cr.utilizedNowNonexclusive cr.utilizedNow
      else cr.utilizedNow)
  else if startTime = uLong32Max then utilizationQueueEnd cr forExclRequest
  else
    let m := diagramMax startTime endTime (cr.utilized.getD [])
    some (if forExclRequest
      then max m (diagramMax startTime endTime (cr.utilizedNonexclusive.getD [])) else m)

/-- What a maximum over the window is taken of: the amount at the start time, 0 if no entry is at
or before it, and the amounts at all times of the window. -/
def windowAmounts (d : List Rde) (startTime endTime : ℕ) : Set ℚ :=
  {x | x = amountAt d startTime ∨ (x = 0 ∧ ∀ e ∈ d, startTime < e.time) ∨
    ∃ t, startTime ≤ t ∧ t < endTime ∧ x = amountAt d t}

section Windows
variable {d l before : List Rde} {startTime endTime t : ℕ} {m v : ℚ} {e : Rde}

theorem amountAt_eq_eval (h : Sorted d) : amountAt d t = eval 0 d t := (eval_eq_last h).symm

/-- The function takes the amount it begins with or that of an entry that is not later. -/
theorem eval_cases : eval v l t = v ∨ ∃ e ∈ l, e.time ≤ t ∧ eval v l t = e.amount := by
  induction l generalizing v with
  | nil => exact Or.inl rfl
  | cons this rest ih =>
      rw [eval_cons]
      by_cases ht : t < this.time
      · exact Or.inl (if_pos ht)
      · rw [if_neg ht]
        right
        rcases ih (v := this.amount) with heq | ⟨e, he, hle, heq⟩
        · exact ⟨this, List.mem_cons_self, not_lt.mp ht, heq⟩
        · exact ⟨e, List.mem_cons_of_mem _ he, hle, heq⟩

theorem eval_at_entry (hl : Sorted l) (he : e ∈ l) : eval v l e.time = e.amount := by
  induction l generalizing v with
  | nil => exact absurd he List.not_mem_nil
  | cons this rest ih =>
      obtain ⟨hthis, hrest⟩ := sorted_cons.mp hl
      rw [eval_cons]
      rcases List.mem_cons.mp he with rfl | he'
      · rw [if_neg (lt_irrefl _), eval_of_lt hthis]
      · rw [if_neg (not_lt.mpr (hthis e he').le), ih hrest he']

theorem maxBefore_isGreatest (hl : Sorted l) :
    IsGreatest {x | x = m ∨ ∃ e ∈ l, e.time < endTime ∧ x = e.amount} (maxBefore endTime m l) := by
  induction l generalizing m with
  | nil => simp [maxBefore, isGreatest_singleton]
  | cons this rest ih =>
      obtain ⟨hthis, hrest⟩ := sorted_cons.mp hl
      rw [maxBefore]
      split_ifs with hlt
      · obtain ⟨hmem, hup⟩ := ih (m := max m this.amount) hrest
        refine ⟨?_, ?_⟩
        · rcases hmem with heq | ⟨e, he, hend, heq⟩
          · rcases max_choice m this.amount with hm | hm
            · exact Or.inl (heq.trans hm)
            · exact Or.inr ⟨this, List.mem_cons_self, hlt, heq.trans hm⟩
          · exact Or.inr ⟨e, List.mem_cons_of_mem _ he, hend, heq⟩
        · have hmax := hup (Or.inl rfl : max m this.amount ∈ _)
          rintro x (rfl | ⟨e, he, hend, rfl⟩)
          · exact (le_max_left _ _).trans hmax
          · rcases List.mem_cons.mp he with rfl | he'
            · exact (le_max_right _ _).trans hmax
            · exact hup (Or.inr ⟨e, he', hend, rfl⟩)
      · refine ⟨Or.inl rfl, ?_⟩
        rintro x (rfl | ⟨e, he, hend, rfl⟩)
        · exact le_rfl
        · rcases List.mem_cons.mp he with rfl | he'
          · exact absurd hend hlt
          · exact absurd ((hthis e he').trans hend) hlt

/-- Behind the entries up to the start time only the entries of the window count. -/
theorem windowAmounts_eq (hd : Sorted (before ++ l)) (hbefore : ∀ x ∈ before, x.time ≤ startTime)
    (hl : ∀ x ∈ l, startTime < x.time) : windowAmounts (before ++ l) startTime endTime =
      {x | x = lastAmount 0 before ∨ ∃ e ∈ l, e.time < endTime ∧ x = e.amount} := by
  have hsl : Sorted l := (List.pairwise_append.mp hd).2.1
  have hat : ∀ t, startTime ≤ t → amountAt (before ++ l) t = eval (lastAmount 0 before) l t := by
    intro t ht
    rw [amountAt_eq_eval hd, eval_append_of_le (fun x hx => (hbefore x hx).trans ht)]
  have hstart : amountAt (before ++ l) startTime = lastAmount 0 before := by
    rw [hat startTime le_rfl, eval_of_lt hl]
  ext x
  constructor
  · rintro (rfl | ⟨rfl, hnone⟩ | ⟨t, ht, hend, rfl⟩)
    · exact Or.inl hstart
    · left
      cases before with
      | nil => rfl
      | cons b rest =>
          have := hbefore b (by simp)
          have := hnone b (by simp)
          omega
    · rw [hat t ht]
      rcases @eval_cases l t (lastAmount 0 before) with heq | ⟨e, he, hle, heq⟩
      · exact Or.inl heq
      · exact Or.inr ⟨e, he, hle.trans_lt hend, heq⟩
  · rintro (rfl | ⟨e, he, hend, rfl⟩)
    · exact Or.inl hstart.symm
    · have hlt := hl e he
      exact Or.inr (Or.inr ⟨e.time, hlt.le, hend, by rw [hat e.time hlt.le, eval_at_entry hsl he]⟩)

theorem diagramMax_isGreatest (hd : Sorted d) :
    IsGreatest (windowAmounts d startTime endTime) (diagramMax startTime endTime d) := by
  have happ := @utilizationFindTime_append startTime d
  have hbefore := @utilizationFindTime_before startTime d
  have hafter := @utilizationFindTime_after startTime d hd
  simp only [diagramMax]
  cases hsplit : utilizationFindTime startTime d with
  | mk before after =>
      rw [hsplit] at happ hbefore hafter
      subst happ
      have hsa : Sorted after := (List.pairwise_append.mp hd).2.1
      rw [← lastAmount_eq_getLast?]
      cases after with
      | nil =>
          rw [windowAmounts_eq hd (fun x hx => (hbefore x hx).le) (by simp)]
          exact maxBefore_isGreatest (l := []) List.Pairwise.nil
      | cons start rest =>
          obtain ⟨hstart, hrest⟩ := sorted_cons.mp hsa
          by_cases heq : startTime = start.time
          · simp only [if_pos heq]
            have hsplit : before ++ start :: rest = (before ++ [start]) ++ rest := by simp
            have hlast : lastAmount 0 (before ++ [start]) = start.amount := by
              simp [lastAmount_eq_getLast?]
            rw [hsplit] at hd ⊢
            rw [windowAmounts_eq hd _ (heq ▸ hstart), hlast]
            · exact maxBefore_isGreatest hrest
            · intro x hx
              rcases List.mem_append.mp hx with hx | hx
              · exact (hbefore x hx).le
              · rw [List.mem_singleton.mp hx, heq]
          · simp only [if_neg heq]
            have hlt : ∀ x ∈ start :: rest, startTime < x.time := by
              intro x hx
              have hle := hafter start List.mem_cons_self
              rcases List.mem_cons.mp hx with rfl | hx
              · omega
              · have := hstart x hx
                omega
            rw [windowAmounts_eq hd (fun x hx => (hbefore x hx).le) hlt]
            exact maxBefore_isGreatest hsa

/-- What a booking makes of a diagram inside its window. A call that is skipped finds no diagram
and leaves none. -/
theorem amountAt_utilizationAdd {cr : Rue} {maxReservations duration : ℕ} {u : ℚ}
    {forJob side : Bool} (hd : Sorted ((cr.diagram side).getD [])) (hstart : startTime ≤ t)
    (hend : t < utilizationEndtime startTime duration) :
    amountAt (((utilizationAdd maxReservations cr startTime duration u forJob side).diagram
        side).getD []) t = amountAt ((cr.diagram side).getD []) t + u ∨
      (forJob = true ∧ maxReservations = 0 ∧ amountAt ((cr.diagram side).getD []) t = 0) ∧
        utilizationAdd maxReservations cr startTime duration u forJob side = cr := by
  by_cases hskip : forJob = true ∧ (maxReservations = 0 ∨ duration = 0) ∧ cr.diagram side = none
  · have hdur : duration ≠ 0 := by
      rintro rfl
      rw [utilizationEndtime_eq] at hend
      omega
    right
    refine ⟨⟨hskip.1, hskip.2.1.resolve_right hdur, ?_⟩, ?_⟩
    · rw [hskip.2.2]
      rfl
    · unfold utilizationAdd
      exact if_pos hskip
  · left
    have hdebit := utilizationDebit_debits (u := u) hd (hstart.trans_lt hend)
    have hnorm := removeEqual_spec (b := 0) hdebit.sorted
    have hdiagram := @diagram_addBooking _ _ cr ⟨startTime, duration, u, forJob⟩ hskip
    rw [addBooking] at hdiagram
    rw [hdiagram, amountAt_eq_eval hnorm.1, hnorm.2.2.1, hdebit.eval_eq, if_pos ⟨hstart, hend⟩,
      amountAt_eq_eval hd]

end Windows

/-- `m` is the greatest amount of the window, and a booking that fits under `m` fits at every
time of the window. -/
structure MaxUtilization (cr : RueNow) (startTime duration : ℕ) (forExclRequest : Bool) (m : ℚ) :
    Prop where
  greatest : IsGreatest
    (windowAmounts (cr.utilized.getD []) startTime (min (startTime + duration) uLong32Max) ∪
      if forExclRequest then windowAmounts (cr.utilizedNonexclusive.getD []) startTime
        (min (startTime + duration) uLong32Max) else ∅) m
  fits : ∀ (side : Bool) (u total : ℚ) (maxReservations : ℕ) (forJob : Bool),
    (side = true → forExclRequest = true) → (0 ≤ u ∨ maxReservations ≠ 0 ∨ forJob = false) →
    m + u ≤ total → ∀ t, startTime ≤ t → t < min (startTime + duration) uLong32Max →
      amountAt (((utilizationAdd maxReservations cr.toRue startTime duration u forJob side).diagram
        side).getD []) t ≤ total

/-- `utilization_max` for ascending diagrams. -/
theorem utilizationMax_spec {cr : RueNow} {startTime duration : ℕ} {forExclRequest : Bool}
    (hutilized : Sorted (cr.utilized.getD []))
    (hnonexclusive : Sorted (cr.utilizedNonexclusive.getD []))
    (hnow : startTime ≠ dispatchTimeNow) (hend : startTime ≠ uLong32Max) :
    ∃ m, utilizationMax cr startTime duration forExclRequest = some m ∧
      MaxUtilization cr startTime duration forExclRequest m := by
  have hfirst := @diagramMax_isGreatest _ startTime (min (startTime + duration) uLong32Max)
    hutilized
  have hsecond := @diagramMax_isGreatest _ startTime (min (startTime + duration) uLong32Max)
    hnonexclusive
  have hrun : ∃ m, utilizationMax cr startTime duration forExclRequest = some m ∧ IsGreatest
      (windowAmounts (cr.utilized.getD []) startTime (min (startTime + duration) uLong32Max) ∪
        if forExclRequest then windowAmounts (cr.utilizedNonexclusive.getD []) startTime
          (min (startTime + duration) uLong32Max) else ∅) m := by
    simp only [utilizationMax, if_neg hnow, if_neg hend, utilizationEndtime_eq]
    refine ⟨_, rfl, ?_⟩
    cases forExclRequest with
    | false => simpa using hfirst
    | true => simpa using hfirst.union hsecond
  obtain ⟨m, hm, hgreatest⟩ := hrun
  refine ⟨m, hm, hgreatest, fun side u total maxReservations forJob hside hu hfit t hstart ht => ?_⟩
  -- the amount at `t` before the booking is one of those below the maximum
  have hmem : amountAt ((cr.toRue.diagram side).getD []) t ∈
      windowAmounts (cr.utilized.getD []) startTime (min (startTime + duration) uLong32Max) ∪
        if forExclRequest then windowAmounts (cr.utilizedNonexclusive.getD []) startTime
          (min (startTime + duration) uLong32Max) else ∅ := by
    cases side with
    | false => exact Or.inl (Or.inr (Or.inr ⟨t, hstart, ht, rfl⟩))
    | true =>
        rw [if_pos (hside rfl)]
        exact Or.inr (Or.inr (Or.inr ⟨t, hstart, ht, rfl⟩))
  have hle := hgreatest.2 hmem
  have hsorted : Sorted ((cr.toRue.diagram side).getD []) := by
    cases side with
    | false => exact hutilized
    | true => exact hnonexclusive
  rcases @amountAt_utilizationAdd startTime t cr.toRue maxReservations duration u forJob side
    hsorted hstart (utilizationEndtime_eq startTime duration ▸ ht) with heq | ⟨⟨hjob, hres, h0⟩, heq⟩
  · rw [heq]
    linarith
  · have hpos : 0 ≤ u := by
      rcases hu with hu | hu | hu
      · exact hu
      · exact absurd hres hu
      · rw [hjob] at hu
        exact absurd hu (by decide)
    rw [heq]
    linarith

/-- Two diagrams that a window begins and ends in the middle of. -/
def overlappingDiagrams : RueNow :=
  ⟨⟨some [⟨100, 2⟩, ⟨200, 0⟩], some [⟨150, 3⟩, ⟨300, 0⟩]⟩, 0, 0⟩

theorem overlappingDiagrams_max : ∃ m, utilizationMax overlappingDiagrams 120 100 true = some m ∧
    MaxUtilization overlappingDiagrams 120 100 true m := by
  apply utilizationMax_spec
  · simp [overlappingDiagrams, Sorted]
  · simp [overlappingDiagrams, Sorted]
  · decide
  · decide

end GridEngine
