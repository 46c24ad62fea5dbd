import GridEngine.CalendarLoops

/-!
# The passes over the week calendar

The passes end, since one that overlaps visits another entry. Their states are those of the first
pass, or there is a first entry whose range overlaps and its state is among them.
-/

namespace GridEngine.Calendar

theorem collects_answer (e : WeekEntry) (t : ℤ) {state : ℕ} {S : Set CalState}
    (hS : Collects state S) :
    ∃ S₁, Collects (state ||| (e.answer t).1) S₁ ∧ S ⊆ S₁ ∧ S₁ ⊆ S ∪ {e.state} := by
  refine ⟨_, hS.or (answer_collects e t), Set.subset_union_left, ?_⟩
  apply Set.union_subset_union_right
  rintro s ⟨-, rfl⟩
  rfl

theorem overlapped_tm (loop : WeekLoop) (t : ℤ) (e : WeekEntry) :
    (loop.overlapped t e).tm = localtime (loop.tempNextEvent + 1) := by
  simp [WeekLoop.overlapped]

theorem overlapped_state (loop : WeekLoop) (t : ℤ) (e : WeekEntry) :
    (loop.overlapped t e).state =
      loop.state ||| (e.answer t).1 ||| (e.answer (loop.tempNextEvent + 1)).1 := by
  simp [WeekLoop.overlapped]

theorem weekPass_total (fuel : ℕ) (loop : WeekLoop) (t : ℤ) (htm : loop.tm = localtime t)
    (wcal : List (WeekEntry × Bool)) :
    ∃ loop' after, weekPass (fuel + 2) loop wcal = some (loop', after) ∧
      Pass loop loop' wcal after := by
  induction wcal generalizing loop t with
  | nil =>
      exact ⟨loop, [], rfl, ⟨t, htm⟩, rfl, le_rfl, .inl,
        fun S hS => ⟨S, hS, subset_rfl, Set.subset_union_left⟩⟩
  | cons entry wcal ih =>
      obtain ⟨e, visited⟩ := entry
      rw [weekPass_cons fuel htm]
      cases hbranch : loop.branches (e.answer t) with
      | false =>
          obtain ⟨loop', after, hrun, hpass⟩ := ih (loop.step (e.answer t)) t
            (by rw [WeekLoop.step_tm, htm])
          refine ⟨loop', (e, visited) :: after, by simp [hrun], hpass.cons id ?_ ?_⟩
          · rw [WeekLoop.step_isOverlapping]
            exact .inl
          · intro S hS
            rw [WeekLoop.step_state]
            exact collects_answer e t hS
      | true =>
          cases visited with
          | true =>
              refine ⟨_, _, rfl, ⟨t, htm⟩, rfl, le_rfl, fun h => absurd h Bool.false_ne_true, ?_⟩
              intro S hS
              obtain ⟨S₁, hS₁, hle, hge⟩ := collects_answer e t hS
              refine ⟨S₁, hS₁, hle, hge.trans ?_⟩
              rw [statesOf_cons, ← Set.union_assoc]
              exact Set.subset_union_left
          | false =>
              obtain ⟨loop', after, hrun, hpass⟩ := ih _ _ (overlapped_tm loop t e)
              refine ⟨loop', (e, true) :: after, by simp [hrun],
                hpass.cons (fun _ => rfl) (fun _ => .inr ⟨rfl, rfl⟩) ?_⟩
              intro S hS
              rw [overlapped_state]
              obtain ⟨S₁, hS₁, hle₁, hge₁⟩ := collects_answer e t hS
              obtain ⟨S₂, hS₂, hle₂, hge₂⟩ := collects_answer e (loop.tempNextEvent + 1) hS₁
              refine ⟨S₂, hS₂, hle₁.trans hle₂, hge₂.trans ?_⟩
              exact Set.union_subset hge₁ Set.subset_union_right

/-- The passes end when there are more of them than entries that were not visited. -/
theorem weekLoop_total (fuel passes : ℕ) (loop : WeekLoop) (t : ℤ) (htm : loop.tm = localtime t)
    (wcal : List (WeekEntry × Bool)) (hpasses : unvisited wcal < passes) :
    ∃ loop', weekLoop (fuel + 2) passes loop wcal = some loop' ∧
      ∀ S, Collects loop.state S →
        ∃ S', Collects loop'.state S' ∧ S ⊆ S' ∧ S' ⊆ S ∪ statesOf wcal := by
  induction passes generalizing loop t wcal with
  | zero => omega
  | succ passes ih =>
      obtain ⟨loop₁, after, hrun, hpass⟩ :=
        weekPass_total fuel { loop with isOverlapping := false } t htm wcal
      rw [weekLoop, hrun]
      cases hover : loop₁.isOverlapping with
      | false => exact ⟨loop₁, by simp [hover], hpass.states⟩
      | true =>
          obtain hbefore | hless := hpass.overlapping hover
          · exact absurd hbefore Bool.false_ne_true
          obtain ⟨t₁, htm₁⟩ := hpass.tm
          obtain ⟨loop', hrest, hstates⟩ := ih loop₁ t₁ htm₁ after (by omega)
          refine ⟨loop', by simpa [hover] using hrest, ?_⟩
          intro S hS
          obtain ⟨S₁, hS₁, hle₁, hge₁⟩ := hpass.states S hS
          obtain ⟨S', hS', hle, hge⟩ := hstates S₁ hS₁
          refine ⟨S', hS', hle₁.trans hle, hge.trans ?_⟩
          rw [hpass.entries]
          exact Set.union_subset hge₁ Set.subset_union_right

theorem unvisited_append (wcal wcal' : List (WeekEntry × Bool)) :
    unvisited (wcal ++ wcal') = unvisited wcal + unvisited wcal' :=
  List.countP_append

theorem unvisited_fresh (entries : List WeekEntry) :
    unvisited (entries.map (fun e => (e, false))) = entries.length := by
  simp [unvisited, List.countP_map, List.countP_eq_length]

theorem statesOf_append (wcal wcal' : List (WeekEntry × Bool)) :
    statesOf (wcal ++ wcal') = statesOf wcal ∪ statesOf wcal' := by
  ext s
  simp [statesOf, or_and_right, exists_or]

theorem mem_statesOf_fresh (entries : List WeekEntry) (s : CalState) :
    s ∈ statesOf (entries.map (fun e => (e, false))) ↔ ∃ e ∈ entries, e.state = s := by
  simp [statesOf]

theorem weekLoop_result (fuel passes : ℕ) (loop : WeekLoop) (t : ℤ) (htm : loop.tm = localtime t)
    (entries : List WeekEntry) (hover : loop.isOverlapping = false) (hstate : loop.state = 0)
    (hpasses : entries.length < passes) :
    ∃ loop', weekLoop (fuel + 2) passes loop (entries.map (fun e => (e, false))) = some loop' ∧
      (Collects loop'.state (weekFinds entries t) ∨
        ∃ before e after S, entries = before ++ e :: after ∧
          (loop.passed t before).branches (e.answer t) = true ∧ e.state ∈ weekFinds entries t ∧
          Collects loop'.state S ∧ e.state ∈ S ∧ ∀ s ∈ S, ∃ e' ∈ entries, e'.state = s) := by
  have hempty : Collects loop.state ∅ := by
    rw [hstate]
    exact .empty
  have hloop : { loop with isOverlapping := false } = loop := by
    rw [← hover]
  obtain ⟨passes, rfl⟩ : ∃ n, passes = n + 1 := ⟨passes - 1, by omega⟩
  obtain hsmooth | ⟨before, e, after, rfl, hsmooth, hbranch⟩ := loop.smooth_or_branches t entries
  · have hpass := weekPass_smooth fuel htm entries [] hsmooth
    rw [List.append_nil] at hpass
    refine ⟨loop.passed t entries, ?_, .inl ?_⟩
    · rw [weekLoop, hloop, hpass]
      simp [weekPass, WeekLoop.passed_isOverlapping, hover]
    · simpa using loop.passed_collects t entries hempty
  · -- the state of the entry was collected before it, and nothing is lost from there on
    have hbefore := loop.passed_collects t before hempty
    rw [Set.empty_union, (loop.passed t before).branches_state hbranch] at hbefore
    have hfinds := hbefore.eq_singleton
    rw [hfinds, ← (loop.passed t before).branches_state hbranch] at hbefore
    have hmem : e.state ∈ weekFinds (before ++ e :: after) t := by
      obtain ⟨e', he', hfound, hstate'⟩ : e.state ∈ weekFinds before t := by simp [hfinds]
      exact ⟨e', List.mem_append_left _ he', hfound, hstate'⟩
    obtain ⟨loop₁, after₁, hrun, hpass⟩ := weekPass_total fuel (loop.passed t before) t
      (by rw [loop.passed_tm, htm]) ((e :: after).map (fun e => (e, false)))
    have hfirst := weekPass_smooth fuel htm before
      ((e :: after).map (fun e => (e, false))) hsmooth
    rw [hrun, ← List.map_append] at hfirst
    obtain ⟨S₁, hS₁, hle₁, hge₁⟩ := hpass.states _ hbefore
    have hall : {e.state} ∪ statesOf ((e :: after).map (fun e => (e, false))) ⊆
        {s | ∃ e' ∈ before ++ e :: after, e'.state = s} := by
      rintro s (rfl | hs)
      · exact ⟨e, by simp, rfl⟩
      · obtain ⟨e', he', hstate'⟩ := (mem_statesOf_fresh _ s).mp hs
        exact ⟨e', List.mem_append_right _ he', hstate'⟩
    have hstate₁ : ∀ s ∈ S₁, ∃ e' ∈ before ++ e :: after, e'.state = s :=
      fun s hs => hall (hge₁ hs)
    have hmem₁ : e.state ∈ S₁ := hle₁ rfl
    rw [weekLoop, hloop, hfirst]
    cases hover₁ : loop₁.isOverlapping with
    | false =>
        exact ⟨loop₁, by simp [hover₁],
          .inr ⟨before, e, after, S₁, rfl, hbranch, hmem, hS₁, hmem₁, hstate₁⟩⟩
    | true =>
        obtain hbefore' | hless := hpass.overlapping hover₁
        · rw [loop.passed_isOverlapping, hover] at hbefore'
          cases hbefore'
        obtain ⟨t₁, htm₁⟩ := hpass.tm
        rw [unvisited_fresh] at hless
        obtain ⟨loop', hrest, hstates⟩ := weekLoop_total fuel passes loop₁ t₁ htm₁
          (before.map (fun e => (e, false)) ++ after₁) (by
            rw [unvisited_append, unvisited_fresh]
            rw [List.length_append] at hpasses
            omega)
        obtain ⟨S', hS', hle, hge⟩ := hstates S₁ hS₁
        refine ⟨loop', by simpa [hover₁] using hrest,
          .inr ⟨before, e, after, S', rfl, hbranch, hmem, hS', hle hmem₁, ?_⟩⟩
        intro s hs
        obtain hs | hs := hge hs
        · exact hstate₁ s hs
        · rw [statesOf_append, hpass.entries, ← statesOf_append, ← List.map_append] at hs
          exact (mem_statesOf_fresh _ s).mp hs

end GridEngine.Calendar

/-!
## The state that a calendar prescribes

A calendar prescribes the highest state of the year entries that contain a second, or else of the
week entries that contain it, or else `on`. `state_at` gives it unless an entry that looks ahead
adds a higher state, or ranges of the week calendar overlap at an entry that another one outranks.
-/

namespace GridEngine.Calendar

/-- The state for the states of the year and of the week calendar. -/
def Prescribes (year week : Set CalState) (state : CalState) : Prop :=
  IsGreatest year state ∨ year = ∅ ∧ (IsGreatest week state ∨ week = ∅ ∧ state = .on)

variable (cal : Calendar) (now : ℤ)

/-- The states of the year entries that contain a second. -/
def yearStates : Set CalState := {s | ∃ e ∈ cal.parsedYearCalendar, e.Covers now ∧ e.state = s}

def weekStates : Set CalState := {s | ∃ e ∈ cal.parsedWeekCalendar, e.Covers now ∧ e.state = s}

/-- The states of the year entries that do not contain a second and are active where their
look-ahead ends. -/
def yearAhead : Set CalState :=
  {s | ∃ e ∈ cal.parsedYearCalendar,
    ¬ e.Covers now ∧ FindsCover e.LooksTo e.Covers now ∧ e.state = s}

def weekAhead : Set CalState :=
  {s | ∃ e ∈ cal.parsedWeekCalendar,
    ¬ e.Covers now ∧ FindsCover e.LooksTo e.Covers now ∧ e.state = s}

/-- The state that a calendar has at a second. -/
def Prescribed (state : CalState) : Prop := Prescribes (cal.yearStates now) (cal.weekStates now) state

/-- The first pass over the week calendar takes the branch for overlapping ranges at an entry. -/
def OverlapAt (e : WeekEntry) : Prop :=
  ∃ fuel tempNextEvent before after,
    yearLoop fuel (localtime now) cal.parsedYearCalendar 0 0 = some (0, tempNextEvent) ∧
    cal.parsedWeekCalendar = before ++ e :: after ∧
    ((⟨localtime now, 0, tempNextEvent, false⟩ : WeekLoop).passed now before).branches
      (e.answer now) = true

/-- An entry at which ranges overlap is outranked by another one. -/
def OutrankedOverlap : Prop :=
  ∃ e e', cal.OverlapAt now e ∧ e' ∈ cal.parsedWeekCalendar ∧ e.state < e'.state

/-- What the entries that look ahead add does not change the state. -/
inductive LookAheadHarmless : Prop
  | year (hcovers : (cal.yearStates now).Nonempty)
      (hahead : ∀ s ∈ cal.yearAhead now, ∃ s' ∈ cal.yearStates now, s ≤ s')
  | yearAhead (state : CalState) (hcovers : cal.yearStates now = ∅)
      (hahead : IsGreatest (cal.yearAhead now) state)
      (hweek : IsGreatest (cal.weekStates now) state ∨ cal.weekStates now = ∅ ∧ state = .on)
  | week (hyear : cal.yearStates now = ∅) (hyearAhead : cal.yearAhead now = ∅)
      (hcovers : (cal.weekStates now).Nonempty)
      (hahead : ∀ s ∈ cal.weekAhead now, ∃ s' ∈ cal.weekStates now, s ≤ s')
  | none (hyear : cal.yearStates now = ∅) (hyearAhead : cal.yearAhead now = ∅)
      (hweek : cal.weekStates now = ∅)
      (hahead : cal.weekAhead now = ∅ ∨ .on ∈ cal.weekAhead now)

variable {cal now}

theorem yearFinds_eq :
    yearFinds cal.parsedYearCalendar now = cal.yearStates now ∪ cal.yearAhead now := by
  ext s
  constructor
  · rintro ⟨e, he, hfound, hs⟩
    by_cases hcovers : e.Covers now
    · exact .inl ⟨e, he, hcovers, hs⟩
    · exact .inr ⟨e, he, hcovers, hfound, hs⟩
  · rintro (⟨e, he, hcovers, hs⟩ | ⟨e, he, -, hfound, hs⟩)
    · exact ⟨e, he, ⟨now, .refl, hcovers⟩, hs⟩
    · exact ⟨e, he, hfound, hs⟩

theorem weekFinds_eq :
    weekFinds cal.parsedWeekCalendar now = cal.weekStates now ∪ cal.weekAhead now := by
  ext s
  constructor
  · rintro ⟨e, he, hfound, hs⟩
    by_cases hcovers : e.Covers now
    · exact .inl ⟨e, he, hcovers, hs⟩
    · exact .inr ⟨e, he, hcovers, hfound, hs⟩
  · rintro (⟨e, he, hcovers, hs⟩ | ⟨e, he, -, hfound, hs⟩)
    · exact ⟨e, he, ⟨now, .refl, hcovers⟩, hs⟩
    · exact ⟨e, he, hfound, hs⟩

/-- `state_at` ends, and its state is that of all entries that are found active. -/
theorem stateAt_spec (hoverlap : ¬ cal.OutrankedOverlap now) :
    ∃ fuel₀, ∀ fuel ≥ fuel₀, ∃ state nextEvent,
      stateAt fuel now cal = some (state, nextEvent) ∧
      Prescribes (yearFinds cal.parsedYearCalendar now) (weekFinds cal.parsedWeekCalendar now)
        state := by
  obtain ⟨fuel₀, state, tempNextEvent, hyear, hstates⟩ :=
    yearLoop_spec cal.parsedYearCalendar now 0 0
  have hcollects := hstates ∅ .empty
  rw [Set.empty_union] at hcollects
  refine ⟨fuel₀ + (cal.parsedWeekCalendar.length + 2), ?_⟩
  intro fuel hfuel
  have hrun := hyear (fuel - fuel₀)
  rw [Nat.add_sub_cancel' (by omega)] at hrun
  simp only [stateAt, hrun, Option.bind_eq_bind, Option.bind_some]
  by_cases hzero : state = 0
  · subst hzero
    have hnone := hcollects.eq_empty
    obtain ⟨loop, hweek, hloop⟩ := weekLoop_result (fuel - 2) fuel
      ⟨localtime now, 0, tempNextEvent, false⟩ now rfl cal.parsedWeekCalendar rfl rfl (by omega)
    rw [Nat.sub_add_cancel (by omega)] at hweek
    refine ⟨stateOf loop.state, loop.tempNextEvent, by simp [hweek], .inr ⟨hnone, ?_⟩⟩
    obtain hfinds | ⟨before, e, after, S, hsplit, hbranch, hmem, hS, heS, hall⟩ := hloop
    · exact hfinds.stateOf
    · -- no entry outranks the one at which ranges overlap, so its state stays the highest
      have hhighest : ∀ e' ∈ cal.parsedWeekCalendar, e'.state ≤ e.state := fun e' he' =>
        not_lt.mp (fun hlt => hoverlap
          ⟨e, e', ⟨fuel, tempNextEvent, before, after, hrun, hsplit, hbranch⟩, he', hlt⟩)
      have hgreatest : IsGreatest S e.state := by
        refine ⟨heS, fun s hs => ?_⟩
        obtain ⟨e', he', rfl⟩ := hall s hs
        exact hhighest e' he'
      obtain hstate | ⟨hempty, -⟩ := hS.stateOf
      · rw [hstate.unique hgreatest]
        refine .inl ⟨hmem, ?_⟩
        rintro s ⟨e', he', -, rfl⟩
        exact hhighest e' he'
      · exact absurd heS (by simp [hempty])
  · refine ⟨stateOf state, tempNextEvent, by simp [hzero], ?_⟩
    obtain hgreatest | ⟨hempty, -⟩ := hcollects.stateOf
    · exact .inl hgreatest
    · exact absurd (hcollects.zero hempty) hzero

theorem Prescribes.isGreatest_year {year week : Set CalState} {state : CalState}
    (h : Prescribes year week state) (hyear : year.Nonempty) : IsGreatest year state := by
  obtain hgreatest | ⟨hempty, -⟩ := h
  · exact hgreatest
  · exact absurd hempty hyear.ne_empty

theorem Prescribes.week {year week : Set CalState} {state : CalState}
    (h : Prescribes year week state) (hyear : year = ∅) :
    IsGreatest week state ∨ week = ∅ ∧ state = .on := by
  obtain hgreatest | ⟨-, hweek⟩ := h
  · exact absurd hyear hgreatest.nonempty.ne_empty
  · exact hweek

/-- States that others reach or outrank do not count for the highest one. -/
theorem isGreatest_of_union {S S' : Set CalState} {state : CalState}
    (hgreatest : IsGreatest (S ∪ S') state) (hle : ∀ s ∈ S', ∃ s' ∈ S, s ≤ s') :
    IsGreatest S state := by
  refine ⟨?_, fun s hs => hgreatest.2 (.inl hs)⟩
  obtain hmem | hmem := hgreatest.1
  · exact hmem
  · obtain ⟨s', hs', hle'⟩ := hle state hmem
    rwa [le_antisymm hle' (hgreatest.2 (.inl hs'))]

theorem prescribed_iff {state : CalState}
    (h : Prescribes (yearFinds cal.parsedYearCalendar now) (weekFinds cal.parsedWeekCalendar now)
      state) :
    cal.Prescribed now state ↔ cal.LookAheadHarmless now := by
  rw [yearFinds_eq, weekFinds_eq] at h
  constructor
  · rintro (hyear | ⟨hyear, hweek⟩)
    · have hfinds := h.isGreatest_year (hyear.nonempty.mono Set.subset_union_left)
      exact .year hyear.nonempty (fun s hs => ⟨state, hyear.1, hfinds.2 (.inr hs)⟩)
    · rw [hyear, Set.empty_union] at h
      obtain hahead | hahead := (cal.yearAhead now).eq_empty_or_nonempty
      · have hfinds := h.week hahead
        obtain hgreatest | ⟨hempty, rfl⟩ := hweek
        · obtain hfinds | ⟨hnone, -⟩ := hfinds
          · exact .week hyear hahead hgreatest.nonempty
              (fun s hs => ⟨state, hgreatest.1, hfinds.2 (.inr hs)⟩)
          · exact absurd hgreatest.1 (by simp [(Set.union_empty_iff.mp hnone).1])
        · rw [hempty, Set.empty_union] at hfinds
          exact .none hyear hahead hempty (hfinds.symm.imp And.left (fun hon => hon.1))
      · exact .yearAhead state hyear (h.isGreatest_year hahead) hweek
  · rintro (⟨hcovers, hahead⟩ | ⟨state', hyear, hahead, hweek⟩ |
      ⟨hyear, hyearAhead, hcovers, hahead⟩ | ⟨hyear, hyearAhead, hweek, hahead⟩)
    · have hfinds := h.isGreatest_year (hcovers.mono Set.subset_union_left)
      exact .inl (isGreatest_of_union hfinds hahead)
    · rw [hyear, Set.empty_union] at h
      rw [(h.isGreatest_year hahead.nonempty).unique hahead]
      exact .inr ⟨hyear, hweek⟩
    · have hfinds := h.week (by rw [hyear, hyearAhead, Set.union_empty])
      obtain hgreatest | ⟨hempty, -⟩ := hfinds
      · exact .inr ⟨hyear, .inl (isGreatest_of_union hgreatest hahead)⟩
      · exact absurd (Set.union_empty_iff.mp hempty).1 hcovers.ne_empty
    · have hfinds := h.week (by rw [hyear, hyearAhead, Set.union_empty])
      rw [hweek, Set.empty_union] at hfinds
      refine .inr ⟨hyear, .inr ⟨hweek, ?_⟩⟩
      obtain hgreatest | ⟨-, hon⟩ := hfinds
      · obtain hempty | hon := hahead
        · exact absurd hgreatest.1 (by simp [hempty])
        · exact le_antisymm state.le_on (hgreatest.2 hon)
      · exact hon

/-- `mon-fri=8-18`. -/
def officeHours : Calendar where
  parsedYearCalendar := []
  parsedWeekCalendar := [{
    wdayRangeList := [⟨1, some 5⟩]
    daytimes := ⟨[⟨⟨8, 0, 0⟩, ⟨18, 0, 0⟩, by decide⟩], by decide⟩
    state := .off
    wday_nonempty := by decide }]

/-- `1.1.2004-3.1.2004=0-10=off`. -/
def newYear : YearEntry where
  ydayRangeList := some [⟨⟨104, 0, 1⟩, some ⟨104, 0, 3⟩⟩]
  daytimes := ⟨[⟨⟨0, 0, 0⟩, ⟨10, 0, 0⟩, by decide⟩], by decide⟩
  state := .off
  mday_pos := by simp

end GridEngine.Calendar
