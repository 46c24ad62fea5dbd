import GridEngine.StepFunction
import GridEngine.Words

/-!
# Resource utilization diagrams

A `RUE_Type` element keeps its bookings as a list of `RDE_Type` elements, each with a time and
the amount that is utilized from that time on. `utilization_add` debits a window of time and
then normalizes the list. Amounts are exact here.
-/

namespace GridEngine

/-- An `RDE_Type` element. -/
abbrev Rde := StepFunction.Entry ℕ ℚ

/-- The two diagrams of a `RUE_Type` element. -/
structure Rue where
  utilized : Option (List Rde)
  utilizedNonexclusive : Option (List Rde)
deriving DecidableEq, Repr

namespace Rue

/-- The diagram that `implicit_non_exclusive` selects. -/
def diagram (cr : Rue) (implicitNonExclusive : Bool) : Option (List Rde) :=
  if implicitNonExclusive then cr.utilizedNonexclusive else cr.utilized

def setDiagram (cr : Rue) (implicitNonExclusive : Bool) (l : List Rde) : Rue :=
  if implicitNonExclusive then { cr with utilizedNonexclusive := some l }
  else { cr with utilized := some l }

end Rue

/-- `utilization_endtime`. -/
def utilizationEndtime (start duration : ℕ) : ℕ :=
  if start + duration < uLong32Max then start + duration else uLong32Max

/-- `utilization_find_time_or_prevstart_or_prev`: the elements before a time and the others, of
which the first is the hit if it has exactly that time. -/
def utilizationFindTime (time : ℕ) : List Rde → List Rde × List Rde
  | [] => ([], [])
  | this :: rest =>
      if time ≤ this.time then ([], this :: rest)
      else
        let (before, after) := utilizationFindTime time rest
        (this :: before, after)

/-- The elements behind `prev`, whose amount already has the utilization: those in between are
incremented up to the end element, which is inserted unless it exists. -/
def incrementToEnd (endTime : ℕ) (utilization : ℚ) (prev : Rde) : List Rde → List Rde
  | [] => [⟨endTime, prev.amount - utilization⟩]
  | this :: rest =>
      if endTime = this.time then this :: rest
      else if endTime < this.time then ⟨endTime, prev.amount - utilization⟩ :: this :: rest
      else
        let this := { this with amount := this.amount + utilization }
        this :: incrementToEnd endTime utilization this rest

/-- The diagram before normalization. -/
def utilizationDebit (startTime endTime : ℕ) (utilization : ℚ) (diagram : List Rde) : List Rde :=
  let (before, after) := utilizationFindTime startTime diagram
  let utilPrev := (before.getLast?.map StepFunction.Entry.amount).getD 0
  let new : Rde := ⟨startTime, utilization + utilPrev⟩
  match after with
  | [] => before ++ new :: incrementToEnd endTime utilization new []
  | hit :: rest =>
      if startTime = hit.time then
        let start := { hit with amount := hit.amount + utilization }
        before ++ start :: incrementToEnd endTime utilization start rest
      else before ++ new :: incrementToEnd endTime utilization new (hit :: rest)

def removeEqual (utilPrev : ℚ) : List Rde → List Rde
  | [] => []
  | this :: rest =>
      if utilPrev = this.amount then removeEqual utilPrev rest
      else this :: removeEqual this.amount rest

/-- `utilization_normalize`. -/
def utilizationNormalize (diagram : List Rde) : List Rde :=
  match diagram.dropWhile (fun this => this.amount = 0) with
  | [] => []
  | this :: rest => this :: removeEqual this.amount rest

/-- `utilization_add`, which returns 0 in every case. -/
def utilizationAdd (maxReservations : ℕ) (cr : Rue) (startTime duration : ℕ) (utilization : ℚ)
    (forJob implicitNonExclusive : Bool) : Rue :=
  let resourceDiagram := cr.diagram implicitNonExclusive
  if forJob ∧ (maxReservations = 0 ∨ duration = 0) ∧ resourceDiagram = none then cr
  else cr.setDiagram implicitNonExclusive (utilizationNormalize
    (utilizationDebit startTime (utilizationEndtime startTime duration) utilization
      (resourceDiagram.getD [])))

section Debit
open StepFunction
variable {startTime endTime : ℕ} {u b : ℚ} {prev : Rde} {l : List Rde} {t m : ℕ}

theorem utilizationEndtime_eq (start duration : ℕ) :
    utilizationEndtime start duration = min (start + duration) uLong32Max := by
  unfold utilizationEndtime
  split_ifs <;> omega

theorem utilizationFindTime_append :
    (utilizationFindTime startTime l).1 ++ (utilizationFindTime startTime l).2 = l := by
  induction l with
  | nil => rfl
  | cons this rest ih =>
      simp only [utilizationFindTime]
      split_ifs
      · rfl
      · rw [List.cons_append, ih]

theorem utilizationFindTime_before :
    ∀ x ∈ (utilizationFindTime startTime l).1, x.time < startTime := by
  induction l with
  | nil => simp [utilizationFindTime]
  | cons this rest ih =>
      simp only [utilizationFindTime]
      split_ifs with h
      · simp
      · intro x hx
        rcases List.mem_cons.mp hx with rfl | hx
        · omega
        · exact ih x hx

theorem utilizationFindTime_after (hl : Sorted l) :
    ∀ x ∈ (utilizationFindTime startTime l).2, startTime ≤ x.time := by
  induction l with
  | nil => simp [utilizationFindTime]
  | cons this rest ih =>
      obtain ⟨hthis, hrest⟩ := sorted_cons.mp hl
      simp only [utilizationFindTime]
      split_ifs with h
      · intro x hx
        rcases List.mem_cons.mp hx with rfl | hx
        · exact h
        · exact h.trans (hthis x hx).le
      · exact ih hrest

/-- Between `prev` and the end time the function is raised by `u`. -/
theorem eval_incrementToEnd : eval prev.amount (incrementToEnd endTime u prev l) t =
    eval (prev.amount - u) l t + if t < endTime then u else 0 := by
  induction l generalizing prev with
  | nil =>
      simp only [incrementToEnd, eval_cons, eval_nil]
      split_ifs <;> ring
  | cons this rest ih =>
      simp only [incrementToEnd]
      by_cases heq : endTime = this.time
      · rw [if_pos heq, eval_cons, eval_cons, heq]
        split_ifs <;> ring
      · rw [if_neg heq]
        by_cases hlt : endTime < this.time
        · rw [if_pos hlt]
          by_cases ht : t < endTime
          · rw [eval_cons, if_pos ht, eval_cons, if_pos (ht.trans hlt), if_pos ht]
            ring
          · rw [eval_cons, if_neg ht, if_neg ht, add_zero]
        · rw [if_neg hlt, eval_cons, eval_cons, ih]
          by_cases ht : t < this.time
          · rw [if_pos ht, if_pos ht, if_pos (by omega)]
            ring
          · rw [if_neg ht, if_neg ht, add_sub_cancel_right]

theorem incrementToEnd_sorted (u : ℚ) (prev : Rde) (hl : Sorted l) (hend : m < endTime) (hm : ∀ x ∈ l, m < x.time) :
    Sorted (incrementToEnd endTime u prev l) ∧
      ∀ x ∈ incrementToEnd endTime u prev l, m < x.time := by
  induction l generalizing prev m with
  | nil => simpa [incrementToEnd, Sorted] using hend
  | cons this rest ih =>
      obtain ⟨hthis, hrest⟩ := sorted_cons.mp hl
      simp only [incrementToEnd]
      split_ifs with heq hlt
      · exact ⟨hl, hm⟩
      · refine ⟨sorted_cons.mpr ⟨fun x hx => ?_, hl⟩, fun x hx => ?_⟩
        · rcases List.mem_cons.mp hx with rfl | hx
          · exact hlt
          · exact hlt.trans (hthis x hx)
        · rcases List.mem_cons.mp hx with rfl | hx
          · exact hend
          · exact hm x hx
      · obtain ⟨hs, hafter⟩ := ih { this with amount := this.amount + u } hrest
          (by omega : this.time < endTime) hthis
        refine ⟨sorted_cons.mpr ⟨hafter, hs⟩, fun x hx => ?_⟩
        have hmthis := hm this (by simp)
        rcases List.mem_cons.mp hx with rfl | hx
        · exact hmthis
        · exact hmthis.trans (hafter x hx)

/-- What the debit of a window does to a diagram. -/
structure Debits (startTime endTime : ℕ) (u : ℚ) (l out : List Rde) : Prop where
  sorted : Sorted out
  eval_eq : ∀ t, eval 0 out t =
    eval 0 l t + if startTime ≤ t ∧ t < endTime then u else 0

/-- The start element replaces what the function was at the start time. -/
theorem debits_of_start {before rest after : List Rde} {start : Rde} (htime : start.time = startTime)
    (hbefore : ∀ x ∈ before, x.time < startTime) (hafter : ∀ x ∈ after, startTime ≤ x.time)
    (hrest : ∀ x ∈ rest, startTime < x.time) (hsb : Sorted before) (hsr : Sorted rest)
    (hend : startTime < endTime)
    (heval : ∀ t, startTime ≤ t → eval (start.amount - u) rest t = eval (lastAmount 0 before) after t) :
    Debits startTime endTime u (before ++ after)
      (before ++ start :: incrementToEnd endTime u start rest) := by
  obtain ⟨hsInc, hInc⟩ := incrementToEnd_sorted u start hsr hend hrest
  refine ⟨?_, fun t => ?_⟩
  · refine List.pairwise_append.mpr ⟨hsb, sorted_cons.mpr ⟨by simpa [htime] using hInc, hsInc⟩, ?_⟩
    intro x hx y hy
    have hxs := hbefore x hx
    rcases List.mem_cons.mp hy with rfl | hy
    · omega
    · exact hxs.trans (hInc y hy)
  · by_cases ht : startTime ≤ t
    · rw [eval_append_of_le (fun x hx => (hbefore x hx).le.trans ht),
        eval_append_of_le (fun x hx => (hbefore x hx).le.trans ht), eval_cons,
        if_neg (by omega), eval_incrementToEnd, heval t ht]
      simp [ht]
    · rw [eval_append_of_lt, eval_append_of_lt]
      · simp [ht]
      · intro x hx
        have := hafter x hx
        omega
      · intro x hx
        rcases List.mem_cons.mp hx with rfl | hx
        · omega
        · have := hInc x hx
          omega

theorem utilizationDebit_debits (hl : Sorted l) (hend : startTime < endTime) :
    Debits startTime endTime u l (utilizationDebit startTime endTime u l) := by
  have happ := @utilizationFindTime_append startTime l
  have hbefore := @utilizationFindTime_before startTime l
  have hafter := @utilizationFindTime_after startTime l hl
  simp only [utilizationDebit]
  cases hsplit : utilizationFindTime startTime l with
  | mk before after =>
      rw [hsplit] at happ hbefore hafter
      subst happ
      obtain ⟨hsb, hsa, -⟩ := List.pairwise_append.mp hl
      rw [← lastAmount_eq_getLast?]
      -- without a hit the new element continues the amount before it
      have hnew : (∀ x ∈ after, startTime < x.time) → Debits startTime endTime u (before ++ after)
          (before ++ ⟨startTime, u + lastAmount 0 before⟩ ::
            incrementToEnd endTime u ⟨startTime, u + lastAmount 0 before⟩ after) := by
        intro hlt
        refine debits_of_start rfl hbefore hafter hlt hsb hsa hend (fun t _ => ?_)
        rw [add_sub_cancel_left]
      cases after with
      | nil => exact hnew (by simp)
      | cons hit rest =>
          obtain ⟨hhit, hsr⟩ := sorted_cons.mp hsa
          have hle := hafter hit (by simp)
          by_cases heq : startTime = hit.time
          · simp only [if_pos heq]
            refine debits_of_start heq.symm hbefore hafter (heq ▸ hhit) hsb hsr hend
              (fun t ht => ?_)
            rw [eval_cons, if_neg (by omega), add_sub_cancel_right]
          · simp only [if_neg heq]
            apply hnew
            intro x hx
            rcases List.mem_cons.mp hx with rfl | hx
            · omega
            · have := hhit x hx
              omega

end Debit

section Normalize
open StepFunction
variable {l : List Rde} {b : ℚ} {t : ℕ}

theorem removeEqual_spec (hl : Sorted l) : Sorted (removeEqual b l) ∧ Reduced b (removeEqual b l) ∧
    (∀ t, eval b (removeEqual b l) t = eval b l t) ∧ ∀ x ∈ removeEqual b l, x ∈ l := by
  induction l generalizing b with
  | nil => exact ⟨hl, by simp [removeEqual, Reduced], fun _ => rfl, by simp [removeEqual]⟩
  | cons this rest ih =>
      obtain ⟨hthis, hrest⟩ := sorted_cons.mp hl
      by_cases hb : b = this.amount
      · obtain ⟨hs, hr, heval, hmem⟩ := ih (b := b) hrest
        rw [removeEqual, if_pos hb]
        refine ⟨hs, hr, fun t => ?_, fun x hx => List.mem_cons_of_mem _ (hmem x hx)⟩
        rw [heval, eval_cons, ← hb]
        split_ifs with ht
        · exact eval_of_lt (fun x hx => ht.trans (hthis x hx))
        · rfl
      · obtain ⟨hs, hr, heval, hmem⟩ := ih (b := this.amount) hrest
        rw [removeEqual, if_neg hb]
        refine ⟨sorted_cons.mpr ⟨fun x hx => hthis x (hmem x hx), hs⟩,
          reduced_cons.mpr ⟨hb, hr⟩, fun t => ?_, fun x hx => ?_⟩
        · rw [eval_cons, eval_cons, heval]
        · rcases List.mem_cons.mp hx with rfl | hx
          · simp
          · exact List.mem_cons_of_mem _ (hmem x hx)

/-- Removing the leading zeroes first is the same as starting with the amount 0. -/
theorem utilizationNormalize_eq : utilizationNormalize l = removeEqual 0 l := by
  induction l with
  | nil => rfl
  | cons this rest ih =>
      unfold utilizationNormalize at ih ⊢
      rw [List.dropWhile_cons]
      by_cases h0 : this.amount = 0
      · simpa [removeEqual, h0] using ih
      · have h0' : 0 ≠ this.amount := fun h => h0 h.symm
        simp [removeEqual, h0, h0']

end Normalize

end GridEngine

/-!
## Sequences of bookings

A diagram represents a function of time when it is ascending, reduced and denotes that function,
and a function has at most one such diagram. Every booking adds the amount of its window, so a
diagram after any calls is determined by the sum of their windows.
-/

namespace GridEngine
open StepFunction

/-- The arguments of one `utilization_add` call. A release has a negative amount. -/
structure Booking where
  start : ℕ
  duration : ℕ
  amount : ℚ
  forJob : Bool
deriving DecidableEq, Repr

namespace Booking

/-- The amount inside the window, which ends at `U_LONG32_MAX` at the latest. -/
def amountAt (c : Booking) (t : ℕ) : ℚ :=
  if c.start ≤ t ∧ t < min (c.start + c.duration) uLong32Max then c.amount else 0

def release (c : Booking) : Booking := { c with amount := -c.amount }

/-- A booking that is debited: it has a duration, starts before `U_LONG32_MAX` and is not skipped
because reservation is disabled. -/
structure Debited (maxReservations : ℕ) (c : Booking) : Prop where
  duration_pos : 0 < c.duration
  start_lt : c.start < uLong32Max
  enabled : maxReservations ≠ 0 ∨ c.forJob = false

end Booking

/-- The amount of the last entry whose time is not later than `t`. -/
def amountAt (d : List Rde) (t : ℕ) : ℚ :=
  ((d.filter (fun e => e.time ≤ t)).getLast?.map Entry.amount).getD 0

variable (maxReservations : ℕ) (implicitNonExclusive : Bool)

def addBooking (cr : Rue) (c : Booking) : Rue :=
  utilizationAdd maxReservations cr c.start c.duration c.amount c.forJob implicitNonExclusive

/-- The diagram after a sequence of calls. -/
def diagramAfter (cr : Rue) (calls : List Booking) : List Rde :=
  ((calls.foldl (addBooking maxReservations implicitNonExclusive) cr).diagram
    implicitNonExclusive).getD []

/-- The one normal diagram of a function of time. -/
structure Represents (d : List Rde) (f : ℕ → ℚ) : Prop where
  sorted : Sorted d
  reduced : Reduced 0 d
  eval_eq : ∀ t, eval 0 d t = f t

section Represents
variable {maxReservations implicitNonExclusive} {cr : Rue} {c : Booking} {calls calls' : List Booking}
  {d d' : List Rde} {f : ℕ → ℚ}

theorem Represents.unique (h : Represents d f) (h' : Represents d' f) : d = d' :=
  eq_of_eval_eq h.sorted h'.sorted h.reduced h'.reduced
    (fun t => (h.eval_eq t).trans (h'.eval_eq t).symm)

theorem Represents.nil : Represents [] (fun _ => 0) :=
  ⟨List.Pairwise.nil, by simp [Reduced], fun _ => rfl⟩

/-- A call that is not skipped debits and normalizes the diagram it selects. -/
theorem diagram_addBooking (hskip : ¬ (c.forJob = true ∧ (maxReservations = 0 ∨ c.duration = 0) ∧
    cr.diagram implicitNonExclusive = none)) :
    ((GridEngine.addBooking maxReservations implicitNonExclusive cr c).diagram
      implicitNonExclusive).getD [] = removeEqual 0 (utilizationDebit c.start
        (utilizationEndtime c.start c.duration) c.amount
        ((cr.diagram implicitNonExclusive).getD [])) := by
  simp only [GridEngine.addBooking, utilizationAdd, if_neg hskip, utilizationNormalize_eq]
  cases implicitNonExclusive <;> rfl

theorem Represents.addBooking (hc : c.Debited maxReservations)
    (h : Represents ((cr.diagram implicitNonExclusive).getD []) f) :
    Represents (((addBooking maxReservations implicitNonExclusive cr c).diagram
      implicitNonExclusive).getD []) (fun t => f t + c.amountAt t) := by
  have hskip : ¬ (c.forJob = true ∧ (maxReservations = 0 ∨ c.duration = 0) ∧
      cr.diagram implicitNonExclusive = none) := by
    rintro ⟨hjob, hor, -⟩
    have hpos := hc.duration_pos
    rcases hc.enabled with hmax | hfalse
    · omega
    · simp [hjob] at hfalse
  have hend : c.start < utilizationEndtime c.start c.duration := by
    have hpos := hc.duration_pos
    have hlt := hc.start_lt
    rw [utilizationEndtime_eq]
    omega
  obtain ⟨hs, heval⟩ := utilizationDebit_debits (u := c.amount) h.sorted hend
  obtain ⟨hs', hr', heval', -⟩ := removeEqual_spec (b := 0) hs
  rw [diagram_addBooking hskip]
  refine ⟨hs', hr', fun t => ?_⟩
  rw [heval', heval, h.eval_eq, Booking.amountAt, utilizationEndtime_eq]

theorem represents_diagramAfter (hempty : (cr.diagram implicitNonExclusive).getD [] = [])
    (hcalls : ∀ c ∈ calls, c.Debited maxReservations) :
    Represents (diagramAfter maxReservations implicitNonExclusive cr calls)
      (fun t => (calls.map (fun c => c.amountAt t)).sum) := by
  induction calls using List.reverseRecOn with
  | nil =>
      rw [diagramAfter, List.foldl_nil, hempty]
      exact Represents.nil
  | append_singleton calls c ih =>
      have hrep := (ih (fun c' hc' => hcalls c' (by simp [hc']))).addBooking (hcalls c (by simp))
      rw [diagramAfter, List.foldl_append, List.foldl_cons, List.foldl_nil]
      simpa only [List.map_append, List.sum_append, List.map_singleton, List.sum_singleton]
        using hrep

theorem Booking.Debited.release (hc : c.Debited maxReservations) :
    c.release.Debited maxReservations :=
  ⟨hc.duration_pos, hc.start_lt, hc.enabled⟩

theorem Booking.amountAt_release (c : Booking) (t : ℕ) : c.amountAt t + c.release.amountAt t = 0 := by
  by_cases h : c.start ≤ t ∧ t < min (c.start + c.duration) uLong32Max
  · have hrel : c.release.amountAt t = -c.amount := if_pos h
    rw [Booking.amountAt, if_pos h, hrel, add_neg_cancel]
  · have hrel : c.release.amountAt t = 0 := if_neg h
    rw [Booking.amountAt, if_neg h, hrel, add_zero]

/-- The diagram `d` is the sum of the windows of `calls`. -/
structure SumDiagram (maxReservations : ℕ) (implicitNonExclusive : Bool) (cr : Rue)
    (calls : List Booking) (d : List Rde) : Prop where
  ascending : d.Pairwise (fun a b => a.time < b.time)
  first_ne_zero : ∀ e ∈ d.head?, e.amount ≠ 0
  changes : (d.map Entry.amount).IsChain (· ≠ ·)
  amountAt_eq : ∀ t, amountAt d t = (calls.map (fun c => c.amountAt t)).sum
  order : ∀ calls', calls'.Perm calls →
    diagramAfter maxReservations implicitNonExclusive cr calls' = d
  release : ∀ c : Booking, c.Debited maxReservations →
    diagramAfter maxReservations implicitNonExclusive cr (calls ++ [c, c.release]) = d

/-- The diagram after bookings and releases in any order. -/
theorem utilizationAdd_diagram (hempty : (cr.diagram implicitNonExclusive).getD [] = [])
    (hcalls : ∀ c ∈ calls, c.Debited maxReservations) :
    SumDiagram maxReservations implicitNonExclusive cr calls
      (diagramAfter maxReservations implicitNonExclusive cr calls) := by
  have h := represents_diagramAfter hempty hcalls
  have hchain := h.reduced
  refine ⟨h.sorted, fun e he => ?_, ?_, fun t => ?_, fun calls' hperm => ?_, fun c hc => ?_⟩
  · cases hdiag : diagramAfter maxReservations implicitNonExclusive cr calls with
    | nil => simp [hdiag] at he
    | cons first rest =>
        rw [hdiag] at hchain he
        obtain rfl : first = e := by simpa using he
        exact (reduced_cons.mp hchain).1.symm
  · exact hchain.tail
  · rw [amountAt, ← eval_eq_last h.sorted, h.eval_eq]
  · refine Represents.unique (represents_diagramAfter hempty
      (fun c hc => hcalls c (hperm.mem_iff.mp hc))) ?_
    simpa only [(hperm.map _).sum_eq] using h
  · refine Represents.unique (represents_diagramAfter hempty ?_) ?_
    · intro c' hc'
      simp only [List.mem_append, List.mem_cons, List.not_mem_nil, or_false] at hc'
      rcases hc' with hc' | rfl | rfl
      · exact hcalls c' hc'
      · exact hc
      · exact hc.release
    · simpa [Booking.amountAt_release] using h

/-- Two overlapping bookings, the second without end. -/
def overlappingBookings : List Booking :=
  [⟨800, 200, 8, false⟩, ⟨900, uLong32Max, 4, false⟩]

theorem overlappingBookings_diagram : SumDiagram 0 false ⟨none, none⟩ overlappingBookings
    (diagramAfter 0 false ⟨none, none⟩ overlappingBookings) := by
  apply utilizationAdd_diagram rfl
  intro c hc
  simp only [overlappingBookings, List.mem_cons, List.not_mem_nil, or_false] at hc
  rcases hc with rfl | rfl <;> exact ⟨by decide, by decide, Or.inr rfl⟩

/-- A window that starts at `U_LONG32_MAX` is empty, but its two ends are entered both. -/
theorem startAtMax_not_ascending :
    ¬ (diagramAfter 1 false ⟨none, none⟩ [⟨uLong32Max, 1, 1, true⟩]).Pairwise
      (fun a b => a.time < b.time) := by
  have hdiagram : diagramAfter 1 false ⟨none, none⟩ [⟨uLong32Max, 1, 1, true⟩] =
      [⟨uLong32Max, 1⟩, ⟨uLong32Max, 0⟩] := by
    norm_num [diagramAfter, addBooking, utilizationAdd, Rue.diagram, Rue.setDiagram,
      utilizationDebit, utilizationFindTime, incrementToEnd, utilizationEndtime,
      utilizationNormalize, removeEqual]
  rw [hdiagram]
  simp

end Represents

end GridEngine
