import GridEngine.CalendarWeekLookAhead

/-!
# The loops of a calendar

The loop over the year calendar collects the states of the entries that are found active. The first
pass over the week calendar does so too until ranges overlap. From there on only states of week
entries are added, and every pass that overlaps visits another entry.
-/

namespace GridEngine.Calendar

def CalState.rank : CalState → ℕ
  | .off => 0
  | .suspended => 1
  | .on => 2

instance : LinearOrder CalState :=
  LinearOrder.lift' CalState.rank (by
    intro a b heq
    cases a <;> cases b <;> simp_all [CalState.rank])

theorem CalState.le_on (s : CalState) : s ≤ .on := by
  cases s <;> decide

/-- The flags of a set of states. -/
structure Collects (state : ℕ) (S : Set CalState) : Prop where
  mem_iff : ∀ s, state &&& s.flag ≠ 0 ↔ s ∈ S
  zero : S = ∅ → state = 0

namespace Collects
variable {state state' : ℕ} {S S' : Set CalState}

theorem empty : Collects 0 ∅ := ⟨by simp, fun _ => rfl⟩

theorem flag (s : CalState) : Collects s.flag {s} where
  mem_iff s' := by
    rw [Set.mem_singleton_iff]
    cases s <;> cases s' <;> decide
  zero h := absurd h (Set.singleton_ne_empty s)

theorem or (h : Collects state S) (h' : Collects state' S') :
    Collects (state ||| state') (S ∪ S') where
  mem_iff s := by
    rw [Nat.and_or_distrib_right, ne_eq, Nat.or_eq_zero_iff, Set.mem_union, ← h.mem_iff,
      ← h'.mem_iff]
    exact not_and_or
  zero hempty := by
    rw [Set.union_empty_iff] at hempty
    rw [h.zero hempty.1, h'.zero hempty.2]
    rfl

theorem eq_empty (h : Collects 0 S) : S = ∅ := by
  ext s
  rw [← h.mem_iff]
  simp

theorem eq_singleton {s : CalState} (h : Collects s.flag S) : S = {s} := by
  ext s'
  rw [← h.mem_iff, (flag s).mem_iff]

/-- The highest of the collected states, or `on` when there is none. -/
theorem stateOf (h : Collects state S) :
    IsGreatest S (stateOf state) ∨ S = ∅ ∧ Calendar.stateOf state = .on := by
  have hmem := h.mem_iff
  unfold Calendar.stateOf
  split_ifs with hon hsuspended hoff
  · exact .inl ⟨(hmem .on).mp hon, fun s _ => s.le_on⟩
  · rw [hmem] at hon hsuspended
    refine .inl ⟨hsuspended, fun s hs => ?_⟩
    cases s with
    | off => decide
    | suspended => exact le_rfl
    | on => exact absurd hs hon
  · rw [hmem] at hon hsuspended hoff
    refine .inl ⟨hoff, fun s hs => ?_⟩
    cases s with
    | off => exact le_rfl
    | suspended => exact absurd hs hsuspended
    | on => exact absurd hs hon
  · rw [hmem] at hon hsuspended hoff
    refine .inr ⟨Set.eq_empty_iff_forall_notMem.mpr fun s => ?_, rfl⟩
    cases s with
    | off => exact hoff
    | suspended => exact hsuspended
    | on => exact hon

end Collects

theorem CalState.flag_ne_zero (s : CalState) : s.flag ≠ 0 := by
  cases s <;> decide

/-- The states of the entries of the year calendar that are found active at `t`. -/
def yearFinds (entries : List YearEntry) (t : ℤ) : Set CalState :=
  {s | ∃ e ∈ entries, FindsCover e.LooksTo e.Covers t ∧ e.state = s}

def weekFinds (entries : List WeekEntry) (t : ℤ) : Set CalState :=
  {s | ∃ e ∈ entries, FindsCover e.LooksTo e.Covers t ∧ e.state = s}

theorem yearFinds_cons (e : YearEntry) (rest : List YearEntry) (t : ℤ) :
    yearFinds (e :: rest) t =
      {s | FindsCover e.LooksTo e.Covers t ∧ e.state = s} ∪ yearFinds rest t := by
  ext s
  simp [yearFinds]

theorem weekFinds_cons (e : WeekEntry) (rest : List WeekEntry) (t : ℤ) :
    weekFinds (e :: rest) t =
      {s | FindsCover e.LooksTo e.Covers t ∧ e.state = s} ∪ weekFinds rest t := by
  ext s
  simp [weekFinds]

theorem collects_entry {state : ℕ} {s : CalState} {found : Prop}
    (hfound : found → state = s.flag) (hnot : ¬ found → state = 0) :
    Collects state {x | found ∧ s = x} := by
  by_cases h : found
  · rw [hfound h]
    convert Collects.flag s using 1
    ext x
    simp [h, eq_comm]
  · rw [hnot h]
    convert Collects.empty using 1
    ext x
    simp [h]

theorem yearLoop_spec (entries : List YearEntry) (t : ℤ) (state : ℕ) (tempNextEvent : ℤ) :
    ∃ fuel state' tempNextEvent',
      (∀ more, yearLoop (fuel + more) (localtime t) entries state tempNextEvent =
        some (state', tempNextEvent')) ∧
      ∀ S, Collects state S → Collects state' (S ∪ yearFinds entries t) := by
  induction entries generalizing state tempNextEvent with
  | nil =>
      refine ⟨0, state, tempNextEvent, fun _ => rfl, fun S hS => ?_⟩
      simpa [yearFinds] using hS
  | cons yc rest ih =>
      obtain ⟨fuel, yIsActive, limit, hentry, hfinds, hnot⟩ := YearEntry.isYearEntryActive_spec yc t
      have hadds := collects_entry hfinds hnot
      -- an entry with the collected state leaves it as it is
      have hor : ¬ (state ≠ yIsActive ∨ state = 0) → state = state ||| yIsActive := by
        intro hsame
        rw [not_or, not_not] at hsame
        rw [← hsame.1, Nat.or_self]
      obtain ⟨fuel', state', tempNextEvent', hrest, hstates⟩ := ih (state ||| yIsActive)
        (if state ≠ yIsActive ∨ state = 0 then
          if tempNextEvent = 0 ∨ limit ≠ 0 ∧ limit < tempNextEvent then limit else tempNextEvent
        else
          if tempNextEvent = 0 ∨ limit ≠ 0 ∧ tempNextEvent < limit then limit else tempNextEvent)
      refine ⟨fuel + fuel', state', tempNextEvent', ?_, ?_⟩
      · intro more
        have hhead := hentry (fuel' + more)
        have htail := hrest (fuel + more)
        rw [← add_assoc] at hhead
        rw [← add_assoc, add_comm fuel' fuel] at htail
        rw [yearLoop, hhead]
        by_cases hcond : state ≠ yIsActive ∨ state = 0
        · simpa [hcond] using htail
        · rw [← hor hcond] at htail
          simpa [hcond] using htail
      · intro S hS
        rw [yearFinds_cons, ← Set.union_assoc]
        exact hstates _ (hS.or hadds)

theorem answer_collects (e : WeekEntry) (t : ℤ) :
    Collects (e.answer t).1 {s | FindsCover e.LooksTo e.Covers t ∧ e.state = s} := by
  apply collects_entry
  · intro hfound
    rw [WeekEntry.answer_state, WeekEntry.isActive_iff.mpr (WeekEntry.findsCover_iff.mp hfound),
      if_pos rfl]
  · intro hnot
    rw [WeekEntry.findsCover_iff, ← WeekEntry.isActive_iff] at hnot
    rw [WeekEntry.answer_state, if_neg hnot]

/-- The entries that a pass has not visited. -/
def unvisited (wcal : List (WeekEntry × Bool)) : ℕ := wcal.countP (fun entry => !entry.2)

def statesOf (wcal : List (WeekEntry × Bool)) : Set CalState := {s | ∃ e ∈ wcal, e.1.state = s}

theorem statesOf_cons (e : WeekEntry) (visited : Bool) (rest : List (WeekEntry × Bool)) :
    statesOf ((e, visited) :: rest) = {e.state} ∪ statesOf rest := by
  ext s
  simp [statesOf, eq_comm]

namespace WeekLoop
variable (loop : WeekLoop)

/-- The loop variables with the state of an entry. -/
def add (answer : ℕ × ℤ × ℕ) : WeekLoop := { loop with state := loop.state ||| answer.1 }

/-- The branch for overlapping ranges is taken. -/
def branches (answer : ℕ × ℤ × ℕ) : Bool := (loop.add answer).overlaps answer.2.1 answer.2.2

/-- An entry that does not overlap. -/
def step (answer : ℕ × ℤ × ℕ) : WeekLoop := (loop.add answer).next answer.2.1 answer.2.2

/-- The loop behind entries that do not overlap. -/
def passed (t : ℤ) (entries : List WeekEntry) : WeekLoop :=
  entries.foldl (fun loop e => loop.step (e.answer t)) loop

/-- None of the entries overlaps. -/
def Smooth (t : ℤ) : WeekLoop → List WeekEntry → Prop
  | _, [] => True
  | loop, e :: rest => loop.branches (e.answer t) = false ∧ Smooth t (loop.step (e.answer t)) rest

@[simp] theorem next_tm (limit : ℤ) (nextState : ℕ) : (loop.next limit nextState).tm = loop.tm := by
  unfold next
  split_ifs <;> rfl

@[simp] theorem next_state (limit : ℤ) (nextState : ℕ) :
    (loop.next limit nextState).state = loop.state := by
  unfold next
  split_ifs <;> rfl

@[simp] theorem next_isOverlapping (limit : ℤ) (nextState : ℕ) :
    (loop.next limit nextState).isOverlapping = loop.isOverlapping := by
  unfold next
  split_ifs <;> rfl

@[simp] theorem step_tm (answer : ℕ × ℤ × ℕ) : (loop.step answer).tm = loop.tm := by
  simp [step, add]

@[simp] theorem step_state (answer : ℕ × ℤ × ℕ) :
    (loop.step answer).state = loop.state ||| answer.1 := by
  simp [step, add]

@[simp] theorem step_isOverlapping (answer : ℕ × ℤ × ℕ) :
    (loop.step answer).isOverlapping = loop.isOverlapping := by
  simp [step, add]

theorem passed_tm (t : ℤ) (entries : List WeekEntry) : (loop.passed t entries).tm = loop.tm := by
  induction entries generalizing loop with
  | nil => rfl
  | cons e rest ih =>
      rw [passed, List.foldl_cons, ← passed, ih, step_tm]

theorem passed_isOverlapping (t : ℤ) (entries : List WeekEntry) :
    (loop.passed t entries).isOverlapping = loop.isOverlapping := by
  induction entries generalizing loop with
  | nil => rfl
  | cons e rest ih =>
      rw [passed, List.foldl_cons, ← passed, ih, step_isOverlapping]

theorem passed_collects (t : ℤ) (entries : List WeekEntry) {S : Set CalState}
    (hS : Collects loop.state S) :
    Collects (loop.passed t entries).state (S ∪ weekFinds entries t) := by
  induction entries generalizing loop S with
  | nil => simpa [passed, weekFinds] using hS
  | cons e rest ih =>
      rw [passed, List.foldl_cons, ← passed, weekFinds_cons, ← Set.union_assoc]
      apply ih
      rw [step_state]
      exact hS.or (answer_collects e t)

theorem smooth_or_branches (t : ℤ) (entries : List WeekEntry) :
    loop.Smooth t entries ∨ ∃ before e after, entries = before ++ e :: after ∧
      loop.Smooth t before ∧ (loop.passed t before).branches (e.answer t) = true := by
  induction entries generalizing loop with
  | nil => exact .inl trivial
  | cons e rest ih =>
      cases hbranch : loop.branches (e.answer t) with
      | true => exact .inr ⟨[], e, rest, rfl, trivial, hbranch⟩
      | false =>
          obtain hsmooth | ⟨before, e', after, hsplit, hsmooth, hfirst⟩ :=
            ih (loop.step (e.answer t))
          · exact .inl ⟨hbranch, hsmooth⟩
          · exact .inr ⟨e :: before, e', after, by rw [hsplit, List.cons_append],
              ⟨hbranch, hsmooth⟩, hfirst⟩

/-- Ranges overlap only at an entry that is not found active, when just its own state was
collected. -/
theorem branches_state {t : ℤ} {e : WeekEntry} (hbranch : loop.branches (e.answer t) = true) :
    loop.state = e.state.flag := by
  rw [branches, overlaps, Bool.and_eq_true, Bool.and_eq_true, decide_eq_true_eq, decide_eq_true_eq]
    at hbranch
  obtain ⟨⟨hlimit, hstate⟩, -⟩ := hbranch
  simp only [add, WeekEntry.answer] at hlimit hstate
  rw [if_neg hlimit] at hstate
  split_ifs at hstate with hactive
  · exact absurd (Nat.or_eq_zero_iff.mp hstate).2 e.state.flag_ne_zero
  · simpa using hstate

/-- The loop after the branch for overlapping ranges at an entry. -/
def overlapped (t : ℤ) (e : WeekEntry) : WeekLoop :=
  let answer := e.answer (loop.tempNextEvent + 1)
  (⟨localtime (loop.tempNextEvent + 1), loop.state ||| (e.answer t).1 ||| answer.1, 0, true⟩ :
    WeekLoop).next answer.2.1 answer.2.2

end WeekLoop

section Passes
variable (fuel : ℕ) {t : ℤ} {loop : WeekLoop}

theorem weekPass_cons (htm : loop.tm = localtime t) (e : WeekEntry) (visited : Bool)
    (wcal : List (WeekEntry × Bool)) :
    weekPass (fuel + 2) loop ((e, visited) :: wcal) =
      if loop.branches (e.answer t) then
        if visited then
          some ({ loop.add (e.answer t) with tempNextEvent := 0, isOverlapping := false },
            (e, visited) :: wcal)
        else (weekPass (fuel + 2) (loop.overlapped t e) wcal).map
          (fun (loop, after) => (loop, (e, true) :: after))
      else (weekPass (fuel + 2) (loop.step (e.answer t)) wcal).map
        (fun (loop, after) => (loop, (e, visited) :: after)) := by
  obtain ⟨tm, state, tempNextEvent, isOverlapping⟩ := loop
  subst htm
  rw [weekPass, WeekEntry.isWeekEntryActive_eq]
  simp only [Option.bind_eq_bind, Option.bind_some, WeekEntry.isWeekEntryActive_eq]
  rw [WeekLoop.branches, WeekLoop.add]
  split_ifs
  · rfl
  · rw [WeekLoop.overlapped]
    cases weekPass (fuel + 2) _ wcal <;> rfl
  · rw [WeekLoop.step, WeekLoop.add]
    cases weekPass (fuel + 2) _ wcal <;> rfl

theorem weekPass_smooth (htm : loop.tm = localtime t) (entries : List WeekEntry)
    (wcal : List (WeekEntry × Bool)) (hsmooth : loop.Smooth t entries) :
    weekPass (fuel + 2) loop (entries.map (fun e => (e, false)) ++ wcal) =
      (weekPass (fuel + 2) (loop.passed t entries) wcal).map
        (fun (loop, after) => (loop, entries.map (fun e => (e, false)) ++ after)) := by
  induction entries generalizing loop with
  | nil =>
      simp only [List.map_nil, List.nil_append, WeekLoop.passed, List.foldl_nil]
      cases weekPass (fuel + 2) loop wcal <;> rfl
  | cons e rest ih =>
      obtain ⟨hfirst, hrest⟩ := hsmooth
      rw [List.map_cons, List.cons_append, weekPass_cons fuel htm, hfirst, if_neg Bool.false_ne_true,
        ih (by rw [WeekLoop.step_tm, htm]) hrest, Option.map_map]
      rfl

/-- What a pass does to the loop variables and to the flags of the entries. -/
structure Pass (loop loop' : WeekLoop) (wcal after : List (WeekEntry × Bool)) : Prop where
  tm : ∃ t, loop'.tm = localtime t
  entries : statesOf after = statesOf wcal
  visited : unvisited after ≤ unvisited wcal
  overlapping : loop'.isOverlapping = true →
    loop.isOverlapping = true ∨ unvisited after < unvisited wcal
  states : ∀ S, Collects loop.state S →
    ∃ S', Collects loop'.state S' ∧ S ⊆ S' ∧ S' ⊆ S ∪ statesOf wcal

theorem Pass.cons {loop' loop₁ : WeekLoop} {e : WeekEntry} {visited visited' : Bool}
    {wcal after : List (WeekEntry × Bool)} (hpass : Pass loop₁ loop' wcal after)
    (hvisited : visited = true → visited' = true)
    (hoverlapping : loop₁.isOverlapping = true →
      loop.isOverlapping = true ∨ visited = false ∧ visited' = true)
    (hstates : ∀ S, Collects loop.state S →
      ∃ S₁, Collects loop₁.state S₁ ∧ S ⊆ S₁ ∧ S₁ ⊆ S ∪ {e.state}) :
    Pass loop loop' ((e, visited) :: wcal) ((e, visited') :: after) where
  tm := hpass.tm
  entries := by rw [statesOf_cons, statesOf_cons, hpass.entries]
  visited := by
    have := hpass.visited
    simp only [unvisited, List.countP_cons] at *
    cases visited <;> cases visited' <;> simp at * <;> omega
  overlapping hover := by
    have hle := hpass.visited
    have hrest := hpass.overlapping hover
    simp only [unvisited, List.countP_cons] at *
    cases visited <;> cases visited' <;> simp at * <;> grind
  states S hS := by
    obtain ⟨S₁, hS₁, hle₁, hge₁⟩ := hstates S hS
    obtain ⟨S', hS', hle, hge⟩ := hpass.states S₁ hS₁
    refine ⟨S', hS', hle₁.trans hle, hge.trans ?_⟩
    rw [statesOf_cons, ← Set.union_assoc]
    exact Set.union_subset_union_left _ hge₁

end Passes

end GridEngine.Calendar
