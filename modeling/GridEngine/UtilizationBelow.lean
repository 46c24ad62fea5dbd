import GridEngine.UtilizationMax

/-!
# The earliest time below a utilization

`utilization_below` searches a diagram backward for the last entry at which the amount falls to
the limit. After bookings that start before `U_LONG32_MAX` the result is the least time from
which on the limit is kept.
-/

namespace GridEngine
open StepFunction

/-- The backward search through one diagram, given from its end. -/
def belowFrom (maxUtil : ℚ) : List Rde → ℕ
  | [] => dispatchTimeNow
  | rde :: rest =>
      if rde.amount ≤ maxUtil then
        match rest with
        | [] => belowFrom maxUtil rest
        | p :: _ => if maxUtil < p.amount then rde.time else belowFrom maxUtil rest
      else belowFrom maxUtil rest

/-- `utilization_below`. -/
def utilizationBelow (cr : Rue) (maxUtil : ℚ) (forExclRequest : Bool) : ℕ :=
  let found := belowFrom maxUtil (cr.utilized.getD []).reverse
  if forExclRequest
  then max found (belowFrom maxUtil (cr.utilizedNonexclusive.getD []).reverse) else found

/-- The times from which on a function keeps to a limit. -/
def keptFrom (f : ℕ → ℚ) (maxUtil : ℚ) : Set ℕ := {T | ∀ t, T ≤ t → f t ≤ maxUtil}

section Scan
variable {d l : List Rde} {rde : Rde} {maxUtil : ℚ} {f g : ℕ → ℚ} {t T : ℕ}

theorem lastAmount_concat {b : ℚ} : lastAmount b (l ++ [rde]) = rde.amount := by
  simp [lastAmount_eq_getLast?]

theorem eval_concat {b : ℚ} (hd : Sorted (l ++ [rde])) :
    eval b (l ++ [rde]) t = if t < rde.time then eval b l t else rde.amount := by
  by_cases ht : t < rde.time
  · rw [if_pos ht, eval_append_of_lt (by simpa using ht)]
  · have hle : ∀ x ∈ l, x.time ≤ t := by
      intro x hx
      have hlt := (List.pairwise_append.mp hd).2.2 x hx rde (by simp)
      omega
    rw [if_neg ht, eval_append_of_le hle, eval_cons, if_neg ht, eval_nil]

theorem eval_eq_lastAmount {b : ℚ} (h : ∀ x ∈ d, x.time ≤ t) : eval b d t = lastAmount b d := by
  rw [← List.append_nil d, eval_append_of_le h, List.append_nil, eval_nil]

theorem keptFrom_congr (h : ∀ t, f t ≤ maxUtil ↔ g t ≤ maxUtil) :
    keptFrom f maxUtil = keptFrom g maxUtil := by
  ext T
  exact forall_congr' (fun t => imp_congr_right fun _ => h t)

/-- The search finds the least time from which on the limit is kept, if it is kept in the end. -/
theorem belowFrom_isLeast (hd : Sorted d) (hlast : lastAmount 0 d ≤ maxUtil) (h0 : 0 ≤ maxUtil) :
    IsLeast (keptFrom (eval 0 d) maxUtil) (belowFrom maxUtil d.reverse) := by
  induction d using List.reverseRecOn with
  | nil => exact ⟨fun _ _ => h0, fun _ _ => Nat.zero_le _⟩
  | append_singleton l rde ih =>
      rw [lastAmount_concat] at hlast
      have hl : Sorted l := (List.pairwise_append.mp hd).1
      have hlt : ∀ x ∈ l, x.time < rde.time := fun x hx =>
        (List.pairwise_append.mp hd).2.2 x hx rde (by simp)
      -- if the limit is kept before the entry too, the entry makes no difference
      have hsame : lastAmount 0 l ≤ maxUtil →
          keptFrom (eval 0 (l ++ [rde])) maxUtil = keptFrom (eval 0 l) maxUtil := by
        intro hkept
        apply keptFrom_congr
        intro t
        rw [eval_concat hd]
        by_cases ht : t < rde.time
        · rw [if_pos ht]
        · rw [if_neg ht, eval_eq_lastAmount (fun x hx => (hlt x hx).le.trans (not_lt.mp ht))]
          exact iff_of_true hlast hkept
      rcases List.eq_nil_or_concat l with rfl | ⟨l', p, rfl⟩
      · rw [hsame h0, List.nil_append, List.reverse_singleton, belowFrom, if_pos hlast]
        exact ih hl h0
      · rw [List.concat_eq_append] at *
        rw [lastAmount_concat] at ih hsame
        simp only [List.reverse_append, List.reverse_singleton,
          List.singleton_append] at ih ⊢
        rw [belowFrom, if_pos hlast]
        by_cases hp : maxUtil < p.amount
        · rw [if_pos hp]
          refine ⟨fun t ht => ?_, fun T hT => ?_⟩
          · rw [eval_concat hd, if_neg (not_lt.mpr ht)]
            exact hlast
          · by_contra hT'
            have hpr := hlt p (by simp)
            have habove := hT (rde.time - 1) (by omega)
            rw [eval_concat hd, if_pos (by omega), eval_concat hl, if_neg (by omega)] at habove
            exact absurd habove (not_le.mpr hp)
        · rw [if_neg hp, hsame (not_lt.mp hp)]
          exact ih hl (not_lt.mp hp)

theorem exceeds_of_isLeast (h : IsLeast (keptFrom f maxUtil) T) (hT : T ≠ 0) :
    maxUtil < f (T - 1) := by
  by_contra hle
  have hmem : T - 1 ∈ keptFrom f maxUtil := by
    intro t ht
    by_cases heq : t = T - 1
    · rw [heq]
      exact not_lt.mp hle
    · exact h.1 t (by omega)
  have := h.2 hmem
  omega

end Scan

section Calls
variable {maxReservations : ℕ} {cr : Rue} {side side' : Bool} {c : Booking} {d : List Rde}
  {calls : List (Bool × Booking)} {maxUtil : ℚ} {forExclRequest : Bool}

/-- An element after calls for either diagram. -/
def rueAfter (maxReservations : ℕ) (cr : Rue) (calls : List (Bool × Booking)) : Rue :=
  calls.foldl (fun cr call => addBooking maxReservations call.1 cr call.2) cr

/-- A diagram that is ascending and back at 0 at `U_LONG32_MAX`. -/
structure Windowed (d : List Rde) : Prop where
  sorted : Sorted d
  ends : ∀ t, uLong32Max ≤ t → eval 0 d t = 0

theorem Windowed.nil : Windowed [] := ⟨List.Pairwise.nil, fun _ _ => rfl⟩

theorem Windowed.lastAmount_eq (h : Windowed d) : lastAmount 0 d = 0 := by
  have hle : ∀ x ∈ d, x.time ≤ max uLong32Max (d.map Entry.time).sum := fun x hx =>
    (List.single_le_sum (fun _ _ => Nat.zero_le _) _ (List.mem_map_of_mem hx)).trans
      (le_max_right _ _)
  rw [← eval_eq_lastAmount hle, h.ends _ (le_max_left _ _)]

theorem diagram_addBooking_of_ne (hne : side ≠ side') :
    (addBooking maxReservations side' cr c).diagram side = cr.diagram side := by
  simp only [addBooking, utilizationAdd]
  split_ifs
  · rfl
  · cases side <;> cases side' <;> first | exact absurd rfl hne | rfl

theorem Windowed.addBooking (hduration : 0 < c.duration) (hstart : c.start < uLong32Max)
    (h : Windowed ((cr.diagram side).getD [])) :
    Windowed (((addBooking maxReservations side cr c).diagram side).getD []) := by
  by_cases hskip : c.forJob = true ∧ (maxReservations = 0 ∨ c.duration = 0) ∧ cr.diagram side = none
  · have hsame : GridEngine.addBooking maxReservations side cr c = cr := by
      unfold GridEngine.addBooking utilizationAdd
      exact if_pos hskip
    rwa [hsame]
  · have hend : c.start < utilizationEndtime c.start c.duration := by
      rw [utilizationEndtime_eq]
      omega
    obtain ⟨hs, heval⟩ := utilizationDebit_debits (u := c.amount) h.sorted hend
    obtain ⟨hs', -, heval', -⟩ := removeEqual_spec (b := 0) hs
    rw [diagram_addBooking hskip]
    refine ⟨hs', fun t ht => ?_⟩
    have hout : ¬ (c.start ≤ t ∧ t < utilizationEndtime c.start c.duration) := by
      rw [utilizationEndtime_eq]
      omega
    rw [heval', heval, if_neg hout, h.ends t ht, add_zero]

theorem windowed_rueAfter (hempty : ∀ side, (cr.diagram side).getD [] = [])
    (hcalls : ∀ call ∈ calls, 0 < call.2.duration ∧ call.2.start < uLong32Max) :
    Windowed (((rueAfter maxReservations cr calls).diagram side).getD []) := by
  induction calls using List.reverseRecOn with
  | nil =>
      rw [rueAfter, List.foldl_nil, hempty]
      exact Windowed.nil
  | append_singleton calls call ih =>
      have hrep := ih (fun call' hcall' => hcalls call' (by simp [hcall']))
      obtain ⟨hduration, hstart⟩ := hcalls call (by simp)
      rw [rueAfter, List.foldl_append, List.foldl_cons, List.foldl_nil]
      by_cases hside : side = call.1
      · subst hside
        exact hrep.addBooking hduration hstart
      · rw [diagram_addBooking_of_ne hside]
        exact hrep

/-- `T` is the greatest of the least times from which on each diagram keeps to the limit. The
second diagram counts for an exclusive request. -/
structure BelowFrom (cr : Rue) (maxUtil : ℚ) (forExclRequest : Bool) (T : ℕ) : Prop where
  least : ∃ least : Bool → ℕ,
    (∀ side, IsLeast (keptFrom (amountAt ((cr.diagram side).getD [])) maxUtil) (least side)) ∧
      T = if forExclRequest then max (least false) (least true) else least false
  kept : ∀ side t, (side = true → forExclRequest = true) → T ≤ t →
    amountAt ((cr.diagram side).getD []) t ≤ maxUtil
  exceeds : T ≠ dispatchTimeNow → ∃ side, (side = true → forExclRequest = true) ∧
    maxUtil < amountAt ((cr.diagram side).getD []) (T - 1)

/-- `utilization_below` after any calls that start before `U_LONG32_MAX`. -/
theorem utilizationBelow_spec (hempty : ∀ side, (cr.diagram side).getD [] = [])
    (hcalls : ∀ call ∈ calls, 0 < call.2.duration ∧ call.2.start < uLong32Max)
    (hfinal : ∀ side, (side = true → forExclRequest = true) →
      lastAmount 0 (((rueAfter maxReservations cr calls).diagram side).getD []) ≤ maxUtil) :
    BelowFrom (rueAfter maxReservations cr calls) maxUtil forExclRequest
      (utilizationBelow (rueAfter maxReservations cr calls) maxUtil forExclRequest) := by
  have hwin : ∀ side, Windowed (((rueAfter maxReservations cr calls).diagram side).getD []) :=
    fun side => windowed_rueAfter hempty hcalls
  generalize rueAfter maxReservations cr calls = after at hwin hfinal ⊢
  have h0 : 0 ≤ maxUtil := (hwin false).lastAmount_eq ▸ hfinal false (by simp)
  have hleast : ∀ side, IsLeast (keptFrom (amountAt ((after.diagram side).getD [])) maxUtil)
      (belowFrom maxUtil ((after.diagram side).getD []).reverse) := by
    intro side
    have hscan := belowFrom_isLeast (hwin side).sorted
      ((hwin side).lastAmount_eq.trans_le h0) h0
    have hfun : amountAt ((after.diagram side).getD []) = eval 0 ((after.diagram side).getD []) :=
      funext fun t => amountAt_eq_eval (hwin side).sorted
    rwa [hfun]
  have hresult : utilizationBelow after maxUtil forExclRequest = if forExclRequest
      then max (belowFrom maxUtil ((after.diagram false).getD []).reverse)
        (belowFrom maxUtil ((after.diagram true).getD []).reverse)
      else belowFrom maxUtil ((after.diagram false).getD []).reverse := rfl
  refine ⟨⟨fun side => belowFrom maxUtil ((after.diagram side).getD []).reverse, hleast, hresult⟩,
    fun side t hside ht => (hleast side).1 t ?_, fun hne => ?_⟩
  · rw [hresult] at ht
    cases side with
    | false =>
        cases forExclRequest with
        | false => exact ht
        | true => exact (le_max_left _ _).trans ht
    | true =>
        rw [if_pos (hside rfl)] at ht
        exact (le_max_right _ _).trans ht
  · rw [hresult] at hne ⊢
    cases forExclRequest with
    | false => exact ⟨false, by simp, exceeds_of_isLeast (hleast false) hne⟩
    | true =>
        simp only [if_true] at hne ⊢
        rcases max_choice (belowFrom maxUtil ((after.diagram false).getD []).reverse)
          (belowFrom maxUtil ((after.diagram true).getD []).reverse) with heq | heq
        · rw [heq] at hne ⊢
          exact ⟨false, by simp, exceeds_of_isLeast (hleast false) hne⟩
        · rw [heq] at hne ⊢
          exact ⟨true, by simp, exceeds_of_isLeast (hleast true) hne⟩

/-- Two bookings side by side and one in the other diagram. -/
def mixedCalls : List (Bool × Booking) :=
  [(false, ⟨800, 200, 8, true⟩), (false, ⟨1000, 100, 4, true⟩), (true, ⟨900, uLong32Max, 1, true⟩)]

theorem mixedCalls_below : BelowFrom (rueAfter 1 ⟨none, none⟩ mixedCalls) 5 true
    (utilizationBelow (rueAfter 1 ⟨none, none⟩ mixedCalls) 5 true) := by
  have hcalls : ∀ call ∈ mixedCalls, 0 < call.2.duration ∧ call.2.start < uLong32Max := by decide
  have hempty : ∀ side, ((⟨none, none⟩ : Rue).diagram side).getD [] = [] := by decide
  apply utilizationBelow_spec hempty hcalls
  intro side _
  rw [(windowed_rueAfter hempty hcalls).lastAmount_eq]
  norm_num

/-- A call that starts at `U_LONG32_MAX` leaves an edge that falls at no time, and the search
stops there. -/
theorem utilizationBelow_startAtMax :
    lastAmount 0 ((rueAfter 1 ⟨none, none⟩ [(false, ⟨uLong32Max, 1, 1, true⟩)]).utilized.getD
      []) ≤ 0 ∧
    ¬ BelowFrom (rueAfter 1 ⟨none, none⟩ [(false, ⟨uLong32Max, 1, 1, true⟩)]) 0 false
      (utilizationBelow (rueAfter 1 ⟨none, none⟩ [(false, ⟨uLong32Max, 1, 1, true⟩)]) 0 false) := by
  have hafter : rueAfter 1 ⟨none, none⟩ [(false, ⟨uLong32Max, 1, 1, true⟩)] =
      ⟨some [⟨uLong32Max, 1⟩, ⟨uLong32Max, 0⟩], none⟩ := by
    norm_num [rueAfter, addBooking, utilizationAdd, Rue.diagram, Rue.setDiagram,
      utilizationDebit, utilizationFindTime, incrementToEnd, utilizationEndtime,
      utilizationNormalize, removeEqual]
  rw [hafter]
  refine ⟨by simp [lastAmount], fun h => ?_⟩
  have hresult : utilizationBelow ⟨some [⟨uLong32Max, 1⟩, ⟨uLong32Max, 0⟩], none⟩ 0 false =
      uLong32Max := by
    norm_num [utilizationBelow, belowFrom]
  rw [hresult] at h
  obtain ⟨side, hside, habove⟩ := h.exceeds (by decide)
  cases side with
  | true => exact absurd (hside rfl) (by decide)
  | false => norm_num [amountAt, Rue.diagram, uLong32Max] at habove

end Calls

end GridEngine
