import GridEngine.CalendarState

/-!
# Entries that look ahead

An entry covers a second when its days contain the day and its daytime ranges the daytime. An entry
that covers no more of its day is evaluated at 0:00:01 of the next day instead, and an entry of the
year calendar that begins its next day at 0:00:00 at 0:00:01 of the day after.
-/

namespace GridEngine.Calendar

section Localtime

theorem localtime_number (t : ℤ) : (localtime t).yday.number = t / 86400 := by
  rw [localtime, YearDay.number, sub_add_cancel, CivilDays.dayNumber_civil]

theorem localtime_daytime_lt (t : ℤ) : (localtime t).daytime < ⟨24, 0, 0⟩ := by
  rw [Daytime.lt_iff]
  simp only [localtime]
  omega

@[simp] theorem localtime_nextSlot (day : ℤ) : (localtime (86400 * day + 1)).daytime = ⟨0, 0, 1⟩ := by
  have hsecond : (86400 * day + 1) % 86400 = 1 := by omega
  simp [localtime, hsecond]

/-- A day that is later by the order has the higher number, also when it does not exist. -/
theorem lt_number_of_lt (t : ℤ) (d : YearDay) (hmday : 1 ≤ d.mday)
    (hlt : (localtime t).yday < d) : t / 86400 < d.number := by
  rw [YearDay.lt_iff] at hlt
  simp only [localtime] at hlt
  obtain ⟨k, hyear, hmonth, -, -, -⟩ := CivilDays.civil_spec (t / 86400)
  by_cases hsame : (CivilDays.civil (t / 86400)).year = d.year + 1900 ∧
      (CivilDays.civil (t / 86400)).month = d.mon
  · obtain ⟨hy, hm⟩ := hsame
    have hnumber := CivilDays.dayNumber_civil (t / 86400)
    rw [hy, hm] at hnumber
    have hday : (CivilDays.civil (t / 86400)).day < d.mday := by omega
    rw [YearDay.number]
    simp only [CivilDays.dayNumber] at hnumber ⊢
    omega
  · exact CivilDays.lt_dayNumber_of_later (t / 86400) _ _ _ hmday (by omega)

end Localtime

section DaytimeLimit
variable (dayTime : List DaytimeRange) (newNow : Tm)

theorem daytimeLimit_active_reached_iff (year : Bool) :
    (daytimeLimit true year dayTime newNow).2 = true ↔
      ∀ r ∈ dayTime, ¬ r.range.Covers newNow.daytime := by
  have hfst : (daytimeLimit true year dayTime newNow).2 =
      ((dayTime.find? (fun time => inRange tmDaytimeCmp newNow.daytime time.range)).map
        DaytimeRange.tmrEnd).isNone := by
    simp only [daytimeLimit, if_true]
    split_ifs <;> rfl
  simp [hfst, ← inRange_iff tmDaytimeCmp_compares]

theorem daytimeLimit_year_reached_iff :
    (daytimeLimit false true dayTime newNow).2 = true ↔
      ∀ r ∈ dayTime, r.tmrBegin ≤ newNow.daytime := by
  have hfst : (daytimeLimit false true dayTime newNow).2 =
      (soonest tmDaytimeCmp (fun begin => decide (tmDaytimeCmp newNow.daytime begin < 0))
        (dayTime.map DaytimeRange.tmrBegin)).isNone := by
    simp only [daytimeLimit, if_true, Bool.false_eq_true, if_false]
    split_ifs <;> rfl
  simp only [hfst, Option.isNone_iff_eq_none, soonest_eq_none_iff, List.forall_mem_map,
    decide_eq_false_iff_not, tmDaytimeCmp_compares.neg_iff, not_lt]

theorem daytimeLimit_week_reached_iff :
    (daytimeLimit false false dayTime newNow).2 = true ↔
      ∀ r ∈ dayTime, r.tmrBegin < newNow.daytime := by
  have hfst : (daytimeLimit false false dayTime newNow).2 =
      (soonest tmDaytimeCmp (fun begin => decide (tmDaytimeCmp newNow.daytime begin ≤ 0))
        (dayTime.map DaytimeRange.tmrBegin)).isNone := by
    simp only [daytimeLimit, Bool.false_eq_true, if_false]
    split_ifs <;> rfl
  simp [hfst, soonest_eq_none_iff, tmDaytimeCmp_compares.pos_iff]

theorem daytimeLimit_of_reached (active year : Bool)
    (hreached : (daytimeLimit active year dayTime newNow).2 = true) :
    (daytimeLimit active year dayTime newNow).1 = 86400 * (newNow.yday.number + 1) := by
  unfold daytimeLimit at hreached ⊢
  generalize hlep : (if active = true then _ else _ : Option Daytime) = lep at hreached ⊢
  cases lep with
  | none =>
      simp [mktime, Daytime.second]
      omega
  | some lep =>
      simp at hreached
      split_ifs at hreached

end DaytimeLimit

theorem isFullDay_iff (dayTime : List DaytimeRange) :
    isFullDay dayTime = true ↔
      ∃ r, dayTime.head? = some r ∧ r.tmrBegin = ⟨0, 0, 0⟩ ∧ r.tmrEnd = ⟨24, 0, 0⟩ := by
  cases dayTime with
  | nil => simp [isFullDay]
  | cons time rest => simp [isFullDay, and_comm]

def Daytimes.Covers (d : Daytimes) (x : Daytime) : Prop := ∃ r ∈ d.ranges, r.range.Covers x

theorem Daytimes.inRange_iff (d : Daytimes) (tm : Tm) :
    d.inRange tm = true ↔ d.Covers tm.daytime := by
  simp [Daytimes.inRange, inRangeList, Daytimes.Covers, Calendar.inRange_iff tmDaytimeCmp_compares]

/-- Every range of the entry ended before this daytime. -/
def Daytimes.Over (d : Daytimes) (x : Daytime) : Prop := ∀ r ∈ d.ranges, r.tmrEnd < x

theorem DaytimeRange.begin_le_end (r : DaytimeRange) : r.tmrBegin ≤ r.tmrEnd :=
  (tmDaytimeCmp_compares.le_iff _ _).mp r.ordered

section Over
variable {d : Daytimes} {x : Daytime}

theorem Daytimes.Over.not_covers (hover : d.Over x) : ¬ d.Covers x := by
  rintro ⟨r, hr, hcovers⟩
  exact absurd hcovers.2 (not_le.mpr (hover r hr))

theorem Daytimes.over_iff_begin_le (hcovers : ¬ d.Covers x) :
    d.Over x ↔ ∀ r ∈ d.ranges, r.tmrBegin ≤ x := by
  constructor
  · intro hover r hr
    exact r.begin_le_end.trans (hover r hr).le
  · intro hbegin r hr
    exact not_le.mp (fun hle => hcovers ⟨r, hr, hbegin r hr, hle⟩)

theorem Daytimes.over_iff_begin_lt (hcovers : ¬ d.Covers x) :
    d.Over x ↔ ∀ r ∈ d.ranges, r.tmrBegin < x := by
  constructor
  · intro hover r hr
    exact r.begin_le_end.trans_lt (hover r hr)
  · intro hbegin
    exact (over_iff_begin_le hcovers).mpr (fun r hr => (hbegin r hr).le)

theorem Daytimes.Over.not_fullDay {t : ℤ} (hover : d.Over (localtime t).daytime) :
    isFullDay d.ranges = false := by
  rw [← Bool.not_eq_true, isFullDay_iff]
  rintro ⟨r, hhead, -, hend⟩
  have hlt := hover r (List.mem_of_head? hhead)
  rw [hend] at hlt
  exact absurd hlt (localtime_daytime_lt t).asymm

end Over

section FindsCover
variable {looksTo : ℤ → ℤ → Prop} {covers : ℤ → Prop} {t t' : ℤ}

/-- The evaluation at a second finds an entry active, be it after it looked ahead. -/
def FindsCover (looksTo : ℤ → ℤ → Prop) (covers : ℤ → Prop) (t : ℤ) : Prop :=
  ∃ t', Relation.ReflTransGen looksTo t t' ∧ covers t'

theorem findsCover_of_stays (hstays : ∀ t', ¬ looksTo t t') :
    FindsCover looksTo covers t ↔ covers t := by
  constructor
  · rintro ⟨t', hreach, hcovers⟩
    obtain rfl | ⟨t1, hlooks, -⟩ := hreach.cases_head
    · exact hcovers
    · exact absurd hlooks (hstays t1)
  · exact fun hcovers => ⟨t, .refl, hcovers⟩

theorem findsCover_of_looks (hlooks : looksTo t t') (hunique : ∀ t'', looksTo t t'' → t'' = t')
    (hnot : ¬ covers t) : FindsCover looksTo covers t ↔ FindsCover looksTo covers t' := by
  constructor
  · rintro ⟨t2, hreach, hcovers⟩
    obtain rfl | ⟨t1, hfirst, hrest⟩ := hreach.cases_head
    · exact absurd hcovers hnot
    · obtain rfl := hunique t1 hfirst
      exact ⟨t2, hrest, hcovers⟩
  · rintro ⟨t2, hreach, hcovers⟩
    exact ⟨t2, .head hlooks hreach, hcovers⟩

end FindsCover

namespace YearEntry
variable (e : YearEntry)

/-- The days of the entry contain the day. Without days it is every day. -/
def CoversDay (t : ℤ) : Prop := ∀ days ∈ e.ydayRangeList, ∃ r ∈ days, r.Covers (localtime t).yday

/-- The entry contains a second. -/
def Covers (t : ℤ) : Prop := e.CoversDay t ∧ e.daytimes.Covers (localtime t).daytime

/-- The second at which an entry is evaluated instead of `t`. -/
inductive LooksTo (t : ℤ) : ℤ → Prop
  | dayOver {days : List (TimeRange YearDay)} (hdays : e.ydayRangeList = some days)
      (hcovers : e.CoversDay t) (hover : e.daytimes.Over (localtime t).daytime) :
      LooksTo t (86400 * (t / 86400 + 1) + 1)
  | nextDay {days : List (TimeRange YearDay)} {day : YearDay} (hdays : e.ydayRangeList = some days)
      (hcovers : ¬ e.CoversDay t) (hfull : isFullDay e.daytimes.ranges = false)
      (hleast : IsLeast {x | x ∈ days.map TimeRange.tmrBegin ∧ (localtime t).yday < x} day)
      (hzero : ∀ r ∈ e.daytimes.ranges, r.tmrBegin = ⟨0, 0, 0⟩) :
      LooksTo t (86400 * (day.number + 1) + 1)

/-- `compute_limit` for an entry. -/
def limitAt (tm : Tm) : ℤ × Bool :=
  computeLimit (inRangeList tmYdayCmp tm.yday e.ydayRangeList)
    (inRangeList tmYdayCmp tm.yday e.ydayRangeList && e.daytimes.inRange tm)
    e.ydayRangeList none e.daytimes.ranges tm

variable {e} {t t' : ℤ}

theorem inRangeList_iff :
    inRangeList tmYdayCmp (localtime t).yday e.ydayRangeList = true ↔ e.CoversDay t := by
  unfold CoversDay
  cases e.ydayRangeList with
  | none => simp [inRangeList]
  | some days => simp [inRangeList, inRange_iff tmYdayCmp_compares]

theorem limitAt_none (hdays : e.ydayRangeList = none) (tm : Tm) : e.limitAt tm = (0, false) := by
  simp [limitAt, computeLimit, hdays]

theorem limitAt_fullDay (hfull : isFullDay e.daytimes.ranges = true) (tm : Tm) :
    (e.limitAt tm).2 = false := by
  unfold limitAt computeLimit
  simp only [hfull]
  grind

theorem limitAt_covers (hcovers : e.Covers t) : (e.limitAt (localtime t)).2 = false := by
  cases hfull : isFullDay e.daytimes.ranges with
  | true => exact limitAt_fullDay hfull _
  | false =>
      cases hdays : e.ydayRangeList with
      | none => rw [limitAt_none hdays]
      | some days =>
          have hin := inRangeList_iff.mpr hcovers.1
          have hdaytime := (e.daytimes.inRange_iff (localtime t)).mpr hcovers.2
          have hlimit : e.limitAt (localtime t) =
              daytimeLimit true true e.daytimes.ranges (localtime t) := by
            rw [hdays] at hin
            simp [limitAt, computeLimit, hdays, hin, hdaytime, hfull]
          rw [hlimit, ← Bool.not_eq_true, daytimeLimit_active_reached_iff]
          obtain ⟨r, hr, hcovered⟩ := hcovers.2
          exact fun hnone => hnone r hr hcovered

/-- On a day of the entry. -/
theorem limitAt_today {days : List (TimeRange YearDay)} (hdays : e.ydayRangeList = some days)
    (hfull : isFullDay e.daytimes.ranges = false) (hday : e.CoversDay t)
    (hdaytime : ¬ e.daytimes.Covers (localtime t).daytime) :
    e.limitAt (localtime t) = daytimeLimit false true e.daytimes.ranges (localtime t) := by
  have hin := inRangeList_iff.mpr hday
  have hout : e.daytimes.inRange (localtime t) = false := by
    rw [← Bool.not_eq_true, Daytimes.inRange_iff]
    exact hdaytime
  rw [hdays] at hin
  simp [limitAt, computeLimit, hdays, hin, hout, hfull]

/-- On a day that is not one of the entry. -/
theorem limitAt_notToday {days : List (TimeRange YearDay)} (hdays : e.ydayRangeList = some days)
    (hfull : isFullDay e.daytimes.ranges = false) (hday : ¬ e.CoversDay t) :
    e.limitAt (localtime t) =
      match yearBegin days (localtime t) with
      | none => (0, false)
      | some lep => daytimeLimit false true e.daytimes.ranges lep := by
  have hout : inRangeList tmYdayCmp (localtime t).yday e.ydayRangeList = false := by
    rw [← Bool.not_eq_true, inRangeList_iff]
    exact hday
  rw [hdays] at hout
  simp only [limitAt, computeLimit, hdays, hout, hfull]
  cases yearBegin days (localtime t) with
  | none => simp
  | some lep => simp

theorem yearBegin_eq_none_iff (days : List (TimeRange YearDay)) (now : Tm) :
    yearBegin days now = none ↔ ∀ x ∈ days.map TimeRange.tmrBegin, ¬ now.yday < x := by
  simp [yearBegin, soonest_eq_none_iff, ← tmYdayCmp_compares.neg_iff]

theorem yearBegin_some {days : List (TimeRange YearDay)} {now lep : Tm}
    (hbegin : yearBegin days now = some lep) :
    lep.daytime = ⟨0, 0, 0⟩ ∧
      IsLeast {x | x ∈ days.map TimeRange.tmrBegin ∧ now.yday < x} lep.yday := by
  obtain ⟨day, hsoonest, rfl⟩ := Option.map_eq_some_iff.mp hbegin
  refine ⟨rfl, ?_⟩
  simpa [tmYdayCmp_compares.neg_iff] using soonest_least tmYdayCmp_compares hsoonest

theorem Daytime.le_zero_iff (d : Daytime) : d ≤ ⟨0, 0, 0⟩ ↔ d = ⟨0, 0, 0⟩ := by
  rw [← not_lt, Daytime.lt_iff]
  obtain ⟨hour, min, sec⟩ := d
  simp
  omega

/-- An entry is evaluated at a later second exactly when `compute_limit` reaches the end of a
day. -/
theorem looksTo_iff :
    e.LooksTo t t' ↔
      (e.limitAt (localtime t)).2 = true ∧ t' = (e.limitAt (localtime t)).1 + 1 := by
  constructor
  · rintro (⟨hdays, hcovers, hover⟩ | ⟨hdays, hcovers, hfull, hleast, hzero⟩)
    · have hnot := hover.not_covers
      have hreached : (e.limitAt (localtime t)).2 = true := by
        rw [limitAt_today hdays hover.not_fullDay hcovers hnot, daytimeLimit_year_reached_iff]
        exact (Daytimes.over_iff_begin_le hnot).mp hover
      refine ⟨hreached, ?_⟩
      rw [limitAt_today hdays hover.not_fullDay hcovers hnot] at hreached ⊢
      rw [daytimeLimit_of_reached _ _ _ _ hreached, localtime_number]
    · rw [limitAt_notToday hdays hfull hcovers]
      cases hbegin : yearBegin _ (localtime t) with
      | none =>
          exact absurd hleast.1.2 ((yearBegin_eq_none_iff _ _).mp hbegin _ hleast.1.1)
      | some lep =>
          obtain ⟨hdaytime, hleast'⟩ := yearBegin_some hbegin
          obtain rfl := hleast.unique hleast'
          have hreached : (daytimeLimit false true e.daytimes.ranges lep).2 = true := by
            rw [daytimeLimit_year_reached_iff, hdaytime]
            exact fun r hr => (hzero r hr).le
          exact ⟨hreached, by rw [daytimeLimit_of_reached _ _ _ _ hreached]⟩
  · rintro ⟨hreached, rfl⟩
    cases hdays : e.ydayRangeList with
    | none => simp [limitAt_none hdays] at hreached
    | some days =>
        have hfull : isFullDay e.daytimes.ranges = false := by
          by_contra hfull
          simp [limitAt_fullDay (Bool.not_eq_false _ |>.mp hfull)] at hreached
        by_cases hday : e.CoversDay t
        · by_cases hdaytime : e.daytimes.Covers (localtime t).daytime
          · simp [limitAt_covers ⟨hday, hdaytime⟩] at hreached
          · rw [limitAt_today hdays hfull hday hdaytime] at hreached ⊢
            rw [daytimeLimit_of_reached _ _ _ _ hreached, localtime_number]
            rw [daytimeLimit_year_reached_iff] at hreached
            exact .dayOver hdays hday ((Daytimes.over_iff_begin_le hdaytime).mpr hreached)
        · rw [limitAt_notToday hdays hfull hday] at hreached ⊢
          cases hbegin : yearBegin days (localtime t) with
          | none => simp [hbegin] at hreached
          | some lep =>
              simp only [hbegin] at hreached ⊢
              obtain ⟨hdaytime, hleast⟩ := yearBegin_some hbegin
              rw [daytimeLimit_of_reached _ _ _ _ hreached]
              rw [daytimeLimit_year_reached_iff, hdaytime] at hreached
              exact .nextDay hdays hday hfull hleast
                (fun r hr => (Daytime.le_zero_iff _).mp (hreached r hr))

theorem LooksTo.not_covers (hlooks : e.LooksTo t t') : ¬ e.Covers t := by
  intro hcovers
  have hreached := (looksTo_iff.mp hlooks).1
  rw [limitAt_covers hcovers] at hreached
  cases hreached

theorem LooksTo.unique {t'' : ℤ} (hlooks : e.LooksTo t t') (hlooks' : e.LooksTo t t'') :
    t'' = t' := by
  rw [(looksTo_iff.mp hlooks).2, (looksTo_iff.mp hlooks').2]

theorem LooksTo.lt (hlooks : e.LooksTo t t') : t < t' := by
  cases hlooks with
  | dayOver => omega
  | nextDay hdays hcovers hfull hleast hzero =>
      obtain ⟨r, hr, hbegin⟩ := List.mem_map.mp hleast.1.1
      have hmday := e.mday_pos _ hdays r hr
      rw [hbegin] at hmday
      have hlt := lt_number_of_lt t _ hmday hleast.1.2
      omega

theorem exists_lastYear (days : List (TimeRange YearDay)) :
    ∃ year, ∀ r ∈ days, r.tmrBegin.year ≤ year ∧ (r.tmrEnd.getD r.tmrBegin).year ≤ year := by
  induction days with
  | nil => exact ⟨0, by simp⟩
  | cons r days ih =>
      obtain ⟨year, hyear⟩ := ih
      refine ⟨max year (max r.tmrBegin.year (r.tmrEnd.getD r.tmrBegin).year), ?_⟩
      intro r' hr'
      obtain rfl | hr' := List.mem_cons.mp hr'
      · omega
      · have := hyear r' hr'
        omega

theorem YearDay.year_le {a b : YearDay} (hle : a ≤ b) : a.year ≤ b.year := by
  rw [← not_lt, YearDay.lt_iff] at hle
  omega

theorem exists_looksTo_bound (e : YearEntry) : ∃ bound, ∀ t t', e.LooksTo t t' → t < bound := by
  cases hdays : e.ydayRangeList with
  | none =>
      refine ⟨0, ?_⟩
      rintro t t' (⟨hdays', -, -⟩ | ⟨hdays', -, -, -, -⟩)
      · simp [hdays] at hdays'
      · simp [hdays] at hdays'
  | some days =>
      obtain ⟨year, hyear⟩ := exists_lastYear days
      refine ⟨86400 * CivilDays.dayNumber (year + 1901) 0 1, ?_⟩
      intro t t' hlooks
      have hle : (localtime t).yday.year ≤ year := by
        cases hlooks with
        | dayOver hdays' hcovers hover =>
            obtain ⟨r, hr, hcovered⟩ := hcovers days (by simp [hdays])
            exact (YearDay.year_le hcovered.2).trans (hyear r hr).2
        | nextDay hdays' hcovers hfull hleast hzero =>
            rw [hdays, Option.some.injEq] at hdays'
            subst hdays'
            obtain ⟨r, hr, hbegin⟩ := List.mem_map.mp hleast.1.1
            have hyear' := YearDay.year_le hleast.1.2.le
            rw [← hbegin] at hyear'
            exact hyear'.trans (hyear r hr).1
      have hlt : t / 86400 < CivilDays.dayNumber (year + 1901) 0 1 := by
        refine CivilDays.lt_dayNumber_of_later _ _ _ _ le_rfl ?_
        obtain ⟨k, hyear', hmonth, -⟩ := CivilDays.civil_spec (t / 86400)
        simp only [localtime] at hle
        omega
      omega

/-- The entry is active for the code at a broken-down time. -/
def isActive (e : YearEntry) (tm : Tm) : Bool :=
  inRangeList tmYdayCmp tm.yday e.ydayRangeList && e.daytimes.inRange tm

theorem isActive_iff : e.isActive (localtime t) = true ↔ e.Covers t := by
  rw [isActive, Bool.and_eq_true, inRangeList_iff, Daytimes.inRange_iff, Covers]

theorem isYearEntryActive_succ (fuel : ℕ) (tm : Tm) (e : YearEntry) :
    isYearEntryActive (fuel + 1) tm e =
      if (e.limitAt tm).2 then isYearEntryActive fuel (localtime ((e.limitAt tm).1 + 1)) e
      else some (if e.isActive tm then e.state.flag else 0, (e.limitAt tm).1) := by
  rw [isYearEntryActive, isActive, limitAt]
  cases inRangeList tmYdayCmp tm.yday e.ydayRangeList with
  | false => simp
  | true =>
      cases e.daytimes.inRange tm with
      | false => simp
      | true => simp

/-- `is_year_entry_active` with enough fuel: it takes an entry for active when the entry covers the
second at which its look-ahead ends. -/
theorem isYearEntryActive_spec (e : YearEntry) (t : ℤ) :
    ∃ fuel state limit,
      (∀ more, isYearEntryActive (fuel + more) (localtime t) e = some (state, limit)) ∧
      (FindsCover e.LooksTo e.Covers t → state = e.state.flag) ∧
      (¬ FindsCover e.LooksTo e.Covers t → state = 0) := by
  obtain ⟨bound, hbound⟩ := exists_looksTo_bound e
  induction hleft : (bound - t).toNat using Nat.strong_induction_on generalizing t with
  | h left ih =>
      by_cases hlooks : ∃ t', e.LooksTo t t'
      · obtain ⟨t', hlooks⟩ := hlooks
        have hlt := hlooks.lt
        have hbefore := hbound t t' hlooks
        obtain ⟨fuel, state, limit, hrun, hfinds, hnot⟩ := ih _ (by omega) t' rfl
        have hsame := findsCover_of_looks hlooks (fun _ => hlooks.unique) hlooks.not_covers
        obtain ⟨hreached, hlimit⟩ := looksTo_iff.mp hlooks
        refine ⟨fuel + 1, state, limit, ?_, by rwa [hsame], by rwa [hsame]⟩
        intro more
        rw [Nat.add_right_comm, isYearEntryActive_succ, hreached, if_pos rfl, ← hlimit]
        exact hrun more
      · have hstays : ∀ t', ¬ e.LooksTo t t' := fun t' h => hlooks ⟨t', h⟩
        have hreached : ¬ (e.limitAt (localtime t)).2 = true :=
          fun h => hlooks ⟨_, looksTo_iff.mpr ⟨h, rfl⟩⟩
        rw [findsCover_of_stays hstays, ← isActive_iff]
        refine ⟨1, if e.isActive (localtime t) then e.state.flag else 0,
          (e.limitAt (localtime t)).1, ?_, fun h => if_pos h, fun h => if_neg h⟩
        intro more
        rw [Nat.add_comm, isYearEntryActive_succ, if_neg hreached]

end YearEntry

end GridEngine.Calendar
