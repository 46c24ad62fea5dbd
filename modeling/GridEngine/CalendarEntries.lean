import GridEngine.CivilDays
import Mathlib.Data.Prod.Lex

/-!
# Calendar entries

An entry of the year calendar has ranges of days, an entry of the week calendar ranges of weekdays,
and both have daytime ranges and a state. `compute_limit` computes the next second at which an
entry changes its state.
-/

namespace GridEngine.Calendar

/-- The part of a `TM_Type` element that `tm_daytime_cmp` reads. -/
structure Daytime where
  hour : ℕ
  min : ℕ
  sec : ℕ
deriving DecidableEq, Repr

/-- The part of a `TM_Type` element that `tm_yday_cmp` reads. Years are counted from 1900. -/
structure YearDay where
  year : ℤ
  mon : ℕ
  mday : ℤ
deriving DecidableEq, Repr

structure Tm where
  daytime : Daytime
  yday : YearDay
  wday : ℕ
deriving DecidableEq, Repr

/-- A `TMR_Type` element. Without an end it is a single day. -/
structure TimeRange (α : Type) where
  tmrBegin : α
  tmrEnd : Option α
deriving Repr

def tmYdayCmp (t1 t2 : YearDay) : ℤ :=
  if t1.year - t2.year ≠ 0 then t1.year - t2.year
  else if (t1.mon : ℤ) - t2.mon ≠ 0 then (t1.mon : ℤ) - t2.mon
  else t1.mday - t2.mday

def tmWdayCmp (t1 t2 : ℕ) : ℤ := (t1 : ℤ) - t2

def tmDaytimeCmp (t1 t2 : Daytime) : ℤ :=
  if (t1.hour : ℤ) - t2.hour ≠ 0 then (t1.hour : ℤ) - t2.hour
  else if (t1.min : ℤ) - t2.min ≠ 0 then (t1.min : ℤ) - t2.min
  else (t1.sec : ℤ) - t2.sec

/-- A daytime range of an entry. The parser splits a range over midnight. -/
structure DaytimeRange where
  tmrBegin : Daytime
  tmrEnd : Daytime
  ordered : tmDaytimeCmp tmrBegin tmrEnd ≤ 0

def DaytimeRange.range (r : DaytimeRange) : TimeRange Daytime := ⟨r.tmrBegin, some r.tmrEnd⟩

section Ranges
variable {α : Type} (cmpFunc : α → α → ℤ)

def inRange (tm : α) (r : TimeRange α) : Bool :=
  match r.tmrEnd with
  | some t2 => decide (cmpFunc r.tmrBegin tm ≤ 0) && decide (cmpFunc tm t2 ≤ 0)
  | none => decide (cmpFunc r.tmrBegin tm = 0)

/-- A missing list has every time in range. -/
def inRangeList (tm : α) : Option (List (TimeRange α)) → Bool
  | none => true
  | some rl => rl.any (inRange cmpFunc tm)

/-- The loops of `compute_limit` over the begins of ranges: the least begin that is `after`. -/
def soonest (after : α → Bool) (begins : List α) : Option α :=
  begins.foldl (fun lep begin =>
    if after begin && lep.all (fun lep => decide (0 < cmpFunc lep begin)) then some begin else lep)
    none

end Ranges

/-- `localtime_r` in UTC. -/
def localtime (t : ℤ) : Tm :=
  let date := CivilDays.civil (t / 86400)
  let second := (t % 86400).toNat
  ⟨⟨second / 3600, second % 3600 / 60, second % 60⟩, ⟨date.year - 1900, date.month, date.day⟩,
    ((t / 86400 + 4) % 7).toNat⟩

/-- The day number of a day that need not exist. -/
def YearDay.number (d : YearDay) : ℤ := CivilDays.dayNumber (d.year + 1900) d.mon d.mday

def Daytime.second (d : Daytime) : ℤ := 3600 * d.hour + 60 * d.min + d.sec

/-- `mktime` in UTC. -/
def mktime (tm : Tm) : ℤ := 86400 * tm.yday.number + tm.daytime.second

/-- Only a look at the first range: ranges that touch or overlap were joined. -/
def isFullDay : List DaytimeRange → Bool
  | [] => false
  | time :: _ => time.tmrEnd = ⟨24, 0, 0⟩ && time.tmrBegin = ⟨0, 0, 0⟩

/-- The end of the day range of the year calendar that is active. -/
def yearEnd (yearTime : List (TimeRange YearDay)) (now : Tm) : Option Tm :=
  (yearTime.find? (inRange tmYdayCmp now.yday)).map
    (fun time => { now with yday := time.tmrEnd.getD time.tmrBegin })

/-- The end of the range of weekdays that is active, which may lie in the next week. The flag is
`is_allways_inactive`. -/
def weekEnd (fullDay : Bool) (now : Tm) : Bool → List (TimeRange ℕ) → Bool × Option Tm
  | always, [] => (always, none)
  | always, time :: rest =>
      let always := always && fullDay &&
        time.tmrEnd.any (fun tmrEnd => decide ((tmrEnd : ℤ) - time.tmrBegin = 6))
      if inRange tmWdayCmp now.wday time then
        (always, some { now with yday := { now.yday with
          mday := now.yday.mday + ((time.tmrEnd.getD time.tmrBegin : ℤ) - now.wday) } })
      else weekEnd fullDay now always rest

/-- The day on which an inactive entry of the year calendar can become active next. -/
def yearBegin (yearTime : List (TimeRange YearDay)) (now : Tm) : Option Tm :=
  (soonest tmYdayCmp (fun begin => decide (tmYdayCmp now.yday begin < 0))
    (yearTime.map TimeRange.tmrBegin)).map (fun begin => ⟨⟨0, 0, 0⟩, begin, 0⟩)

/-- The day of this or of the next week on which an inactive entry can become active next. -/
def weekBegin (weekTime : List (TimeRange ℕ)) (now : Tm) : Option Tm :=
  let begins := weekTime.map TimeRange.tmrBegin
  match soonest tmWdayCmp (fun begin => decide (tmWdayCmp now.wday begin < 0)) begins with
  | some lep => some ⟨⟨0, 0, 0⟩, { now.yday with
      mday := now.yday.mday + ((lep : ℤ) - now.wday) }, lep⟩
  | none => (soonest tmWdayCmp (fun _ => true) begins).map (fun (lep : ℕ) =>
      ⟨⟨0, 0, 0⟩, { now.yday with mday := now.yday.mday + (7 - (now.wday : ℤ) + lep) }, lep⟩)

/-- The change of the state within the day of `newNow`, the second half of `compute_limit`. The flag
is `is_end_of_day_reached`. -/
def daytimeLimit (active year : Bool) (dayTime : List DaytimeRange) (newNow : Tm) : ℤ × Bool :=
  let lep :=
    if active then
      (dayTime.find? (fun time => inRange tmDaytimeCmp newNow.daytime time.range)).map
        DaytimeRange.tmrEnd
    else if year then
      soonest tmDaytimeCmp (fun begin => decide (tmDaytimeCmp newNow.daytime begin < 0))
        (dayTime.map DaytimeRange.tmrBegin)
    else
      soonest tmDaytimeCmp (fun begin => decide (tmDaytimeCmp newNow.daytime begin ≤ 0))
        (dayTime.map DaytimeRange.tmrBegin)
  let isEndOfDayReached := lep.isNone
  let lep := lep.getD ⟨24, 0, 0⟩
  -- 24:0:0 is passed to `mktime` as one second after 23:59:59
  if lep.hour = 24 then (mktime { newNow with daytime := ⟨23, 59, 59⟩ } + 1, isEndOfDayReached)
  else (mktime { newNow with daytime := lep }, isEndOfDayReached)

/-- `compute_limit`: the second of the next change, 0 for none, and whether only the end of the day
was reached. An active entry always has a range that `now` is in. -/
def computeLimit (today active : Bool) (yearTime : Option (List (TimeRange YearDay)))
    (weekTime : Option (List (TimeRange ℕ))) (dayTime : List DaytimeRange) (now : Tm) : ℤ × Bool :=
  let fullDay := isFullDay dayTime
  let change (lep : Option Tm) : ℤ × Bool :=
    match lep with
    | none => (0, false)
    | some lep =>
        if fullDay then (mktime lep + (if active then 1 else 0), false)
        else daytimeLimit active yearTime.isSome dayTime lep
  let lastSecond (lep : Option Tm) : Option Tm :=
    lep.map (fun lep => { lep with daytime := ⟨23, 59, 59⟩ })
  match yearTime, weekTime with
  | some _, some _ => (0, false)
  | none, none => (0, false)
  | some yearTime, none =>
      if fullDay || !today then
        if active then change (lastSecond (yearEnd yearTime now))
        else change (yearBegin yearTime now)
      else daytimeLimit active true dayTime now
  | none, some weekTime =>
      if fullDay || !today then
        if active then
          let (always, lep) := weekEnd fullDay now true weekTime
          if always then (0, false) else change (lastSecond lep)
        else change (weekBegin weekTime now)
      else daytimeLimit active false dayTime now

end GridEngine.Calendar

/-!
## The orders behind the compare functions

The compare functions of days, weekdays and daytimes are linear orders. A range covers what lies
between its ends, and `soonest` finds the least begin.
-/

namespace GridEngine.Calendar

instance : LinearOrder Daytime :=
  LinearOrder.lift' (fun d => toLex (d.hour, toLex (d.min, d.sec))) (by
    rintro ⟨h, m, s⟩ ⟨h', m', s'⟩ heq
    simpa using heq)

instance : LinearOrder YearDay :=
  LinearOrder.lift' (fun d => toLex (d.year, toLex (d.mon, d.mday))) (by
    rintro ⟨y, m, d⟩ ⟨y', m', d'⟩ heq
    simpa using heq)

theorem Daytime.lt_iff (a b : Daytime) : a < b ↔ a.hour < b.hour ∨
    a.hour = b.hour ∧ (a.min < b.min ∨ a.min = b.min ∧ a.sec < b.sec) := by
  change toLex (a.hour, toLex (a.min, a.sec)) < toLex (b.hour, toLex (b.min, b.sec)) ↔ _
  simp [Prod.Lex.toLex_lt_toLex]

theorem YearDay.lt_iff (a b : YearDay) : a < b ↔ a.year < b.year ∨
    a.year = b.year ∧ (a.mon < b.mon ∨ a.mon = b.mon ∧ a.mday < b.mday) := by
  change toLex (a.year, toLex (a.mon, a.mday)) < toLex (b.year, toLex (b.mon, b.mday)) ↔ _
  simp [Prod.Lex.toLex_lt_toLex]

/-- A compare function whose sign is the order. -/
structure Compares {α : Type} [LinearOrder α] (cmpFunc : α → α → ℤ) : Prop where
  neg_iff : ∀ a b, cmpFunc a b < 0 ↔ a < b
  pos_iff : ∀ a b, 0 < cmpFunc a b ↔ b < a

theorem tmDaytimeCmp_compares : Compares tmDaytimeCmp where
  neg_iff a b := by
    rw [Daytime.lt_iff, tmDaytimeCmp]
    split_ifs <;> omega
  pos_iff a b := by
    rw [Daytime.lt_iff, tmDaytimeCmp]
    split_ifs <;> omega

theorem tmYdayCmp_compares : Compares tmYdayCmp where
  neg_iff a b := by
    rw [YearDay.lt_iff, tmYdayCmp]
    split_ifs <;> omega
  pos_iff a b := by
    rw [YearDay.lt_iff, tmYdayCmp]
    split_ifs <;> omega

theorem tmWdayCmp_compares : Compares tmWdayCmp where
  neg_iff a b := by
    rw [tmWdayCmp]
    omega
  pos_iff a b := by
    rw [tmWdayCmp]
    omega

section Soonest
variable {α : Type} {cmpFunc : α → α → ℤ} {after : α → Bool}

theorem soonestFrom_eq_none_iff (begins : List α) (start : Option α) :
    begins.foldl (fun lep begin =>
      if after begin && lep.all (fun lep => decide (0 < cmpFunc lep begin)) then some begin
      else lep) start = none ↔ start = none ∧ ∀ b ∈ begins, after b = false := by
  induction begins generalizing start with
  | nil => simp
  | cons begin begins ih =>
      rw [List.foldl_cons, ih]
      cases hafter : after begin with
      | false => simp [hafter]
      | true =>
          cases start with
          | none => simp [hafter]
          | some lep =>
              by_cases hlt : 0 < cmpFunc lep begin
              · simp [hafter, hlt]
              · simp [hafter, hlt]

theorem soonest_eq_none_iff (begins : List α) :
    soonest cmpFunc after begins = none ↔ ∀ b ∈ begins, after b = false := by
  unfold soonest
  rw [soonestFrom_eq_none_iff]
  simp

end Soonest

section Ranges
variable {α : Type} [LinearOrder α] {cmpFunc : α → α → ℤ}

theorem Compares.le_iff (hc : Compares cmpFunc) (a b : α) : cmpFunc a b ≤ 0 ↔ a ≤ b := by
  rw [← not_lt, hc.pos_iff, not_lt]

theorem Compares.eq_iff (hc : Compares cmpFunc) (a b : α) : cmpFunc a b = 0 ↔ a = b := by
  have hneg := hc.neg_iff a b
  have hpos := hc.pos_iff a b
  constructor
  · intro hzero
    exact le_antisymm ((hc.le_iff a b).mp hzero.le) (not_lt.mp (fun h => by
      have := hneg.mpr h
      omega))
  · rintro rfl
    have := mt hneg.mp (lt_irrefl a)
    have := mt hpos.mp (lt_irrefl a)
    omega

/-- A range covers both of its ends and what lies between them. -/
def TimeRange.Covers (r : TimeRange α) (x : α) : Prop :=
  r.tmrBegin ≤ x ∧ x ≤ r.tmrEnd.getD r.tmrBegin

theorem inRange_iff (hc : Compares cmpFunc) (x : α) (r : TimeRange α) :
    inRange cmpFunc x r = true ↔ r.Covers x := by
  unfold inRange TimeRange.Covers
  cases r.tmrEnd with
  | none => simpa [hc.eq_iff] using le_antisymm_iff
  | some tmrEnd => simp [hc.le_iff]

variable {after : α → Bool}

theorem soonestFrom_least (hc : Compares cmpFunc) (begins : List α) (start : Option α) {b : α}
    (hstart : ∀ x, start = some x → after x = true)
    (hsoonest : begins.foldl (fun lep begin =>
      if after begin && lep.all (fun lep => decide (0 < cmpFunc lep begin)) then some begin
      else lep) start = some b) :
    (start = some b ∨ b ∈ begins) ∧ after b = true ∧ (∀ x, start = some x → b ≤ x) ∧
      ∀ x ∈ begins, after x = true → b ≤ x := by
  induction begins generalizing start with
  | nil =>
      obtain rfl : start = some b := hsoonest
      simp [hstart]
  | cons begin begins ih =>
      rw [List.foldl_cons] at hsoonest
      split_ifs at hsoonest with htake
      · rw [Bool.and_eq_true] at htake
        obtain ⟨hfrom, hafter, hle, hrest⟩ := ih (some begin) (by simp [htake.1]) hsoonest
        have hbegin := hle begin rfl
        refine ⟨.inr ?_, hafter, ?_, ?_⟩
        · simpa [eq_comm] using hfrom
        · rintro x rfl
          have hlt : begin < x := by simpa [hc.pos_iff] using htake.2
          exact hbegin.trans hlt.le
        · simpa [hbegin] using hrest
      · obtain ⟨hfrom, hafter, hle, hrest⟩ := ih start hstart hsoonest
        refine ⟨hfrom.imp_right (List.mem_cons_of_mem _), hafter, hle, ?_⟩
        intro x hx hxafter
        obtain rfl | hx := List.mem_cons.mp hx
        · cases start with
          | none => simp [hxafter] at htake
          | some y =>
              have hyx : y ≤ x := by simpa [hxafter, hc.pos_iff] using htake
              exact (hle y rfl).trans hyx
        · exact hrest x hx hxafter

theorem soonest_least (hc : Compares cmpFunc) {begins : List α} {b : α}
    (hsoonest : soonest cmpFunc after begins = some b) :
    IsLeast {x | x ∈ begins ∧ after x = true} b := by
  obtain ⟨hfrom, hafter, -, hrest⟩ := soonestFrom_least hc begins none (by simp) hsoonest
  exact ⟨⟨by simpa using hfrom, hafter⟩, fun x hx => hrest x hx.1 hx.2⟩

end Ranges

end GridEngine.Calendar
