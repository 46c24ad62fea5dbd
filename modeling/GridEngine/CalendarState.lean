import GridEngine.CalendarEntries
import Mathlib.Data.Nat.Bitwise

/-!
# The state of a calendar

`state_at` collects the states of the year calendar, and those of the week calendar when the year
calendar has none. An entry that only reaches the end of its day is evaluated again on the next
one. The loop over the week calendar goes on at a later second when ranges overlap.
-/

namespace GridEngine.Calendar

/-- The states of `statev`, in the order of their priority. -/
inductive CalState where
  | off
  | suspended
  | on
deriving DecidableEq, Repr

/-- `QI_DO_DISABLE`, `QI_DO_SUSPEND` and `QI_DO_ENABLE`. -/
def CalState.flag : CalState → ℕ
  | .off => 0x4
  | .suspended => 0x100
  | .on => 0x8

/-- The daytime ranges of an entry, of which not every one is the second 0:00:00. -/
structure Daytimes where
  ranges : List DaytimeRange
  late : ∃ r ∈ ranges, 0 < tmDaytimeCmp r.tmrEnd ⟨0, 0, 0⟩

/-- A `CA_Type` element of the year calendar. -/
structure YearEntry where
  ydayRangeList : Option (List (TimeRange YearDay))
  daytimes : Daytimes
  state : CalState
  mday_pos : ∀ days ∈ ydayRangeList, ∀ r ∈ days, 1 ≤ r.tmrBegin.mday

/-- A `CA_Type` element of the week calendar. -/
structure WeekEntry where
  wdayRangeList : List (TimeRange ℕ)
  daytimes : Daytimes
  state : CalState
  wday_nonempty : wdayRangeList ≠ []

def Daytimes.inRange (d : Daytimes) (tm : Tm) : Bool :=
  inRangeList tmDaytimeCmp tm.daytime (some (d.ranges.map DaytimeRange.range))

/-- `is_year_entry_active`: the state and the limit. The recursion at the next time slot takes
fuel. -/
def isYearEntryActive : ℕ → Tm → YearEntry → Option (ℕ × ℤ)
  | 0, _, _ => none
  | fuel + 1, tm, yearEntry =>
      let inYdayRange := inRangeList tmYdayCmp tm.yday yearEntry.ydayRangeList
      let inDaytimeRange := inYdayRange && yearEntry.daytimes.inRange tm
      let state := if inYdayRange && inDaytimeRange then yearEntry.state.flag
        else if inDaytimeRange then CalState.on.flag else 0
      let (limit, isEndOfTheDayReached) := computeLimit inYdayRange inDaytimeRange
        yearEntry.ydayRangeList none yearEntry.daytimes.ranges tm
      if isEndOfTheDayReached then isYearEntryActive fuel (localtime (limit + 1)) yearEntry
      else some (state, limit)

/-- `is_week_entry_active`: the state, the limit and the next state. The recursion passes on the
count that it was called with. -/
def isWeekEntryActive : ℕ → Tm → WeekEntry → ℕ → Option (ℕ × ℤ × ℕ)
  | 0, _, _, _ => none
  | fuel + 1, tm, weekEntry, recCount =>
      let inWdayRange := inRangeList tmWdayCmp tm.wday (some weekEntry.wdayRangeList)
      let inDaytimeRange := inWdayRange && weekEntry.daytimes.inRange tm
      let active := inWdayRange && inDaytimeRange
      let state := if active then weekEntry.state.flag else 0
      let nextState := if active then 0 else weekEntry.state.flag
      let (limit, isEndOfTheDayReached) := computeLimit inWdayRange inDaytimeRange
        none (some weekEntry.wdayRangeList) weekEntry.daytimes.ranges tm
      -- without a limit there is no other state change
      let last : ℕ × ℤ × ℕ → ℕ × ℤ × ℕ := fun (state, limit, nextState) =>
        (state, limit, if limit = 0 then 0 else nextState)
      if isEndOfTheDayReached then
        if recCount < 4 then
          (isWeekEntryActive fuel (localtime (limit + 1)) weekEntry recCount).map last
        else some (last (state, limit + 1, nextState))
      else some (last (state, limit, nextState))

/-- The loop of `state_at` over the year calendar. -/
def yearLoop (fuel : ℕ) (tm : Tm) : List YearEntry → ℕ → ℤ → Option (ℕ × ℤ)
  | [], state, tempNextEvent => some (state, tempNextEvent)
  | yc :: rest, state, tempNextEvent => do
      let (yIsActive, limit) ← isYearEntryActive fuel tm yc
      if state ≠ yIsActive ∨ state = 0 then
        yearLoop fuel tm rest (state ||| yIsActive)
          (if tempNextEvent = 0 ∨ limit ≠ 0 ∧ limit < tempNextEvent then limit else tempNextEvent)
      else
        yearLoop fuel tm rest state
          (if tempNextEvent = 0 ∨ limit ≠ 0 ∧ tempNextEvent < limit then limit else tempNextEvent)

/-- The variables of the loop of `state_at` over the week calendar. -/
structure WeekLoop where
  tm : Tm
  state : ℕ
  tempNextEvent : ℤ
  isOverlapping : Bool

/-- The condition of the branch for overlapping ranges. -/
def WeekLoop.overlaps (loop : WeekLoop) (limit : ℤ) (nextState : ℕ) : Bool :=
  limit ≠ 0 && loop.state = nextState && limit ≤ loop.tempNextEvent

/-- The last statement of the loop. -/
def WeekLoop.next (loop : WeekLoop) (limit : ℤ) (nextState : ℕ) : WeekLoop :=
  if loop.state ≠ nextState ∧
      (loop.tempNextEvent = 0 ∨ limit ≠ 0 ∧ limit < loop.tempNextEvent) then
    { loop with tempNextEvent := limit }
  else loop

/-- One pass over the week calendar. The flag of an entry is `visited`, and an entry that was
visited ends the pass when its range overlaps again. -/
def weekPass (fuel : ℕ) : WeekLoop → List (WeekEntry × Bool) →
    Option (WeekLoop × List (WeekEntry × Bool))
  | loop, [] => some (loop, [])
  | loop, (wc, visited) :: rest => do
      let (wIsActive, limit, nextState) ← isWeekEntryActive fuel loop.tm wc 0
      let loop := { loop with state := loop.state ||| wIsActive }
      if loop.overlaps limit nextState then
        if visited then
          some ({ loop with tempNextEvent := 0, isOverlapping := false }, (wc, visited) :: rest)
        else
          let tm := localtime (loop.tempNextEvent + 1)
          let (wIsActive, limit, nextState) ← isWeekEntryActive fuel tm wc 0
          let loop : WeekLoop := ⟨tm, loop.state ||| wIsActive, 0, true⟩
          let (loop, after) ← weekPass fuel (loop.next limit nextState) rest
          some (loop, (wc, true) :: after)
      else
        let (loop, after) ← weekPass fuel (loop.next limit nextState) rest
        some (loop, (wc, visited) :: after)

/-- The passes over the week calendar, each at the second at which the last one ended. -/
def weekLoop (fuel : ℕ) : ℕ → WeekLoop → List (WeekEntry × Bool) → Option WeekLoop
  | 0, _, _ => none
  | passes + 1, loop, wcal => do
      let (loop, wcal) ← weekPass fuel { loop with isOverlapping := false } wcal
      if loop.isOverlapping then weekLoop fuel passes loop wcal else some loop

end GridEngine.Calendar

namespace GridEngine
open Calendar

/-- The parsed year and week calendar of a `CAL_Type` element. -/
structure Calendar where
  parsedYearCalendar : List YearEntry
  parsedWeekCalendar : List WeekEntry

namespace Calendar

/-- The flags of the collected states, by priority. -/
def stateOf (state : ℕ) : CalState :=
  if state &&& CalState.on.flag ≠ 0 then .on
  else if state &&& CalState.suspended.flag ≠ 0 then .suspended
  else if state &&& CalState.off.flag ≠ 0 then .off
  else .on

/-- `state_at`: the state and `next_event`. -/
def stateAt (fuel : ℕ) (now : ℤ) (cal : Calendar) : Option (CalState × ℤ) := do
  let tm := localtime now
  let (state, tempNextEvent) ← yearLoop fuel tm cal.parsedYearCalendar 0 0
  if state = 0 then
    let loop ← weekLoop fuel fuel ⟨tm, state, tempNextEvent, false⟩
      (cal.parsedWeekCalendar.map (fun wc => (wc, false)))
    some (stateOf loop.state, loop.tempNextEvent)
  else some (stateOf state, tempNextEvent)

end Calendar

end GridEngine
