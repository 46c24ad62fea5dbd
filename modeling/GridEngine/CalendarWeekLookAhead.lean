import GridEngine.CalendarLookAhead

/-!
# Week entries that look ahead

A week entry that covers no more of its day is evaluated at 0:00:01 of the next day, and never
again from there.
-/

namespace GridEngine.Calendar.WeekEntry

variable (e : WeekEntry)

def CoversDay (t : ℤ) : Prop := ∃ r ∈ e.wdayRangeList, r.Covers (localtime t).wday

/-- The entry contains a second. -/
def Covers (t : ℤ) : Prop := e.CoversDay t ∧ e.daytimes.Covers (localtime t).daytime

/-- The second at which an entry is evaluated instead of `t`. -/
def LooksTo (t t' : ℤ) : Prop :=
  e.CoversDay t ∧ e.daytimes.Over (localtime t).daytime ∧ t' = 86400 * (t / 86400 + 1) + 1

def isActive (tm : Tm) : Bool :=
  inRangeList tmWdayCmp tm.wday (some e.wdayRangeList) && e.daytimes.inRange tm

/-- `compute_limit` for an entry. -/
def limitAt (tm : Tm) : ℤ × Bool :=
  computeLimit (inRangeList tmWdayCmp tm.wday (some e.wdayRangeList)) (e.isActive tm)
    none (some e.wdayRangeList) e.daytimes.ranges tm

variable {e} {t t' : ℤ}

theorem inRangeList_iff :
    inRangeList tmWdayCmp (localtime t).wday (some e.wdayRangeList) = true ↔ e.CoversDay t := by
  simp [inRangeList, inRange_iff tmWdayCmp_compares, CoversDay]

theorem isActive_iff : e.isActive (localtime t) = true ↔ e.Covers t := by
  rw [isActive, Bool.and_eq_true, inRangeList_iff, Daytimes.inRange_iff, Covers]

theorem limitAt_fullDay (hfull : isFullDay e.daytimes.ranges = true) (tm : Tm) :
    (e.limitAt tm).2 = false := by
  unfold limitAt computeLimit
  simp only [hfull]
  grind

theorem limitAt_covers (hcovers : e.Covers t) : (e.limitAt (localtime t)).2 = false := by
  cases hfull : isFullDay e.daytimes.ranges with
  | true => exact limitAt_fullDay hfull _
  | false =>
      have hin := inRangeList_iff.mpr hcovers.1
      have hactive := isActive_iff.mpr hcovers
      have hlimit : e.limitAt (localtime t) =
          daytimeLimit true false e.daytimes.ranges (localtime t) := by
        simp [limitAt, computeLimit, hin, hactive, hfull]
      rw [hlimit, ← Bool.not_eq_true, daytimeLimit_active_reached_iff]
      obtain ⟨r, hr, hcovered⟩ := hcovers.2
      exact fun hnone => hnone r hr hcovered

theorem limitAt_today (hfull : isFullDay e.daytimes.ranges = false) (hday : e.CoversDay t)
    (hdaytime : ¬ e.daytimes.Covers (localtime t).daytime) :
    e.limitAt (localtime t) = daytimeLimit false false e.daytimes.ranges (localtime t) := by
  have hin := inRangeList_iff.mpr hday
  have hout : e.isActive (localtime t) = false := by
    rw [← Bool.not_eq_true, isActive_iff]
    exact fun hcovers => hdaytime hcovers.2
  simp [limitAt, computeLimit, hin, hout, hfull]

theorem limitAt_notToday (hfull : isFullDay e.daytimes.ranges = false) (hday : ¬ e.CoversDay t) :
    e.limitAt (localtime t) =
      match weekBegin e.wdayRangeList (localtime t) with
      | none => (0, false)
      | some lep => daytimeLimit false false e.daytimes.ranges lep := by
  have hout : inRangeList tmWdayCmp (localtime t).wday (some e.wdayRangeList) = false := by
    rw [← Bool.not_eq_true, inRangeList_iff]
    exact hday
  have hinactive : e.isActive (localtime t) = false := by
    rw [← Bool.not_eq_true, isActive_iff]
    exact fun hcovers => hday hcovers.1
  simp only [limitAt, computeLimit, hout, hinactive, hfull]
  cases weekBegin e.wdayRangeList (localtime t) with
  | none => simp
  | some lep => simp

/-- The day on which an entry can become active next starts at 0:00:00. -/
theorem weekBegin_daytime {wdays : List (TimeRange ℕ)} {now lep : Tm}
    (hbegin : weekBegin wdays now = some lep) : lep.daytime = ⟨0, 0, 0⟩ := by
  simp only [weekBegin] at hbegin
  split at hbegin
  · cases hbegin
    rfl
  · obtain ⟨wday, -, rfl⟩ := Option.map_eq_some_iff.mp hbegin
    rfl

theorem daytimes_nonempty (d : Daytimes) : ∃ r, r ∈ d.ranges := by
  obtain ⟨r, hr, -⟩ := d.late
  exact ⟨r, hr⟩

/-- An entry is evaluated at a later second exactly when `compute_limit` reaches the end of a
day. -/
theorem looksTo_iff :
    e.LooksTo t t' ↔
      (e.limitAt (localtime t)).2 = true ∧ t' = (e.limitAt (localtime t)).1 + 1 := by
  constructor
  · rintro ⟨hday, hover, rfl⟩
    have hnot := hover.not_covers
    rw [limitAt_today hover.not_fullDay hday hnot]
    have hreached : (daytimeLimit false false e.daytimes.ranges (localtime t)).2 = true := by
      rw [daytimeLimit_week_reached_iff]
      exact (Daytimes.over_iff_begin_lt hnot).mp hover
    exact ⟨hreached, by rw [daytimeLimit_of_reached _ _ _ _ hreached, localtime_number]⟩
  · rintro ⟨hreached, rfl⟩
    have hfull : isFullDay e.daytimes.ranges = false := by
      by_contra hfull
      simp [limitAt_fullDay (Bool.not_eq_false _ |>.mp hfull)] at hreached
    by_cases hday : e.CoversDay t
    · by_cases hdaytime : e.daytimes.Covers (localtime t).daytime
      · simp [limitAt_covers ⟨hday, hdaytime⟩] at hreached
      · rw [limitAt_today hfull hday hdaytime] at hreached ⊢
        rw [daytimeLimit_of_reached _ _ _ _ hreached, localtime_number]
        rw [daytimeLimit_week_reached_iff] at hreached
        exact ⟨hday, (Daytimes.over_iff_begin_lt hdaytime).mpr hreached, rfl⟩
    · rw [limitAt_notToday hfull hday] at hreached
      cases hbegin : weekBegin e.wdayRangeList (localtime t) with
      | none => simp [hbegin] at hreached
      | some lep =>
          simp only [hbegin] at hreached
          rw [daytimeLimit_week_reached_iff, weekBegin_daytime hbegin] at hreached
          obtain ⟨r, hr⟩ := daytimes_nonempty e.daytimes
          exact absurd (hreached r hr) (not_lt.mpr (by simp [← not_lt, Daytime.lt_iff]))

theorem LooksTo.not_covers (hlooks : e.LooksTo t t') : ¬ e.Covers t :=
  fun hcovers => hlooks.2.1.not_covers hcovers.2

theorem not_looksTo_nextSlot (day : ℤ) : ¬ e.LooksTo (86400 * day + 1) t' := by
  rintro ⟨-, hover, -⟩
  obtain ⟨r, hr, hlate⟩ := e.daytimes.late
  rw [tmDaytimeCmp_compares.pos_iff] at hlate
  have hend := hover r hr
  rw [localtime_nextSlot] at hend
  rw [Daytime.lt_iff] at hlate hend
  simp at hlate hend
  omega

/-- The second at which an entry is evaluated in the end. -/
def settled (e : WeekEntry) (t : ℤ) : ℤ :=
  if (e.limitAt (localtime t)).2 then (e.limitAt (localtime t)).1 + 1 else t

/-- The state, the limit and the next state of an entry. -/
def answer (e : WeekEntry) (t : ℤ) : ℕ × ℤ × ℕ :=
  let tm := localtime (e.settled t)
  let limit := (e.limitAt tm).1
  (if e.isActive tm then e.state.flag else 0, limit,
    if limit = 0 then 0 else if e.isActive tm then 0 else e.state.flag)

theorem not_looksTo_settled : ¬ e.LooksTo (e.settled t) t' := by
  cases hreached : (e.limitAt (localtime t)).2 with
  | false =>
      rw [settled, hreached, if_neg Bool.false_ne_true]
      intro hlooks
      rw [(looksTo_iff.mp hlooks).1] at hreached
      cases hreached
  | true =>
      obtain ⟨-, -, hslot⟩ := looksTo_iff.mpr ⟨hreached, rfl⟩
      rw [settled, hreached, if_pos rfl, hslot]
      exact not_looksTo_nextSlot _

theorem findsCover_iff : FindsCover e.LooksTo e.Covers t ↔ e.Covers (e.settled t) := by
  have hsettled : FindsCover e.LooksTo e.Covers (e.settled t) ↔ e.Covers (e.settled t) :=
    findsCover_of_stays (fun _ => not_looksTo_settled)
  rw [← hsettled]
  cases hreached : (e.limitAt (localtime t)).2 with
  | false => rw [settled, hreached, if_neg Bool.false_ne_true]
  | true =>
      have hlooks := looksTo_iff.mpr ⟨hreached, rfl⟩
      rw [settled, hreached, if_pos rfl]
      exact findsCover_of_looks hlooks (fun _ h => (looksTo_iff.mp h).2) hlooks.not_covers

theorem answer_state : (e.answer t).1 = if e.isActive (localtime (e.settled t)) then e.state.flag
    else 0 := rfl

theorem isWeekEntryActive_succ (fuel : ℕ) (tm : Tm) (e : WeekEntry) :
    isWeekEntryActive (fuel + 1) tm e 0 =
      if (e.limitAt tm).2 then
        (isWeekEntryActive fuel (localtime ((e.limitAt tm).1 + 1)) e 0).map
          (fun (state, limit, nextState) => (state, limit, if limit = 0 then 0 else nextState))
      else some (if e.isActive tm then e.state.flag else 0, (e.limitAt tm).1,
        if (e.limitAt tm).1 = 0 then 0 else if e.isActive tm then 0 else e.state.flag) := by
  rw [isWeekEntryActive, limitAt, isActive]
  cases inRangeList tmWdayCmp tm.wday (some e.wdayRangeList) with
  | false => simp
  | true =>
      cases e.daytimes.inRange tm with
      | false => simp
      | true => simp

/-- `is_week_entry_active` calls itself at most once. -/
theorem isWeekEntryActive_eq (fuel : ℕ) (t : ℤ) (e : WeekEntry) :
    isWeekEntryActive (fuel + 2) (localtime t) e 0 = some (e.answer t) := by
  have hstays : ¬ (e.limitAt (localtime (e.settled t))).2 = true :=
    fun h => not_looksTo_settled (looksTo_iff.mpr ⟨h, rfl⟩)
  rw [isWeekEntryActive_succ]
  cases hreached : (e.limitAt (localtime t)).2 with
  | false =>
      have hsettled : e.settled t = t := by rw [settled, hreached, if_neg Bool.false_ne_true]
      rw [if_neg Bool.false_ne_true, answer, hsettled]
  | true =>
      have hsettled : (e.limitAt (localtime t)).1 + 1 = e.settled t := by
        rw [settled, hreached, if_pos rfl]
      rw [if_pos rfl, isWeekEntryActive_succ, hsettled, if_neg hstays, answer, Option.map_some]
      by_cases hzero : (e.limitAt (localtime (e.settled t))).1 = 0
      · simp [hzero]
      · simp [hzero]

end GridEngine.Calendar.WeekEntry
