import GridEngine.CalendarDaytimes
import Mathlib.Data.List.Basic
import Mathlib.Data.List.Induction

/-!
# Splitting, joining and extending ranges of weekdays

A range over the end of the week is split into two. `join_wday_range` lets every range take in the
ones that begin within it or on the day after it, and `extend_wday_range` lets a range that ends on
Saturday go on with one that begins on Sunday.
-/

namespace GridEngine.Calendar

/-- A `week_day_range` as it is written. -/
structure WdaySpec where
  tmrBegin : ℕ
  tmrEnd : Option ℕ
  begin_le : tmrBegin ≤ 6
  end_le : ∀ e ∈ tmrEnd, e ≤ 6
  begin_ne : ∀ e ∈ tmrEnd, tmWdayCmp tmrBegin e ≠ 0

/-- `split_wday_range`. -/
def splitWdayRange (tmr : WdaySpec) : List (TimeRange ℕ) :=
  match tmr.tmrEnd with
  | some t2 =>
      if 0 < tmWdayCmp tmr.tmrBegin t2 then [⟨tmr.tmrBegin, some 6⟩, ⟨0, some t2⟩]
      else [⟨tmr.tmrBegin, some t2⟩]
  | none => [⟨tmr.tmrBegin, none⟩]

/-- The last day of a range. -/
def lastDay (r : TimeRange ℕ) : ℕ := r.tmrEnd.getD r.tmrBegin

/-- `day_range2` overlaps or touches `day_range1` from above. -/
def takesIn (r1 r2 : TimeRange ℕ) : Bool :=
  decide (r2.tmrBegin ≤ lastDay r1 + 1) && decide (r1.tmrBegin ≤ r2.tmrBegin)

/-- The ranges that a range does not take in. -/
def leftBy (r1 : TimeRange ℕ) (weekDay : List (TimeRange ℕ)) : List (TimeRange ℕ) :=
  weekDay.filter (fun r2 => !takesIn r1 r2)

/-- The end of `day_range1` after the loop over the others. `end1` is not updated on the way, and
without an end of its own the range gets the end list of the other one. -/
def joinEnd (r1 : TimeRange ℕ) (others : List (TimeRange ℕ)) : Option ℕ :=
  others.foldl (fun tmrEnd r2 =>
    if takesIn r1 r2 && decide (lastDay r1 < lastDay r2) then
      match r1.tmrEnd with
      | some _ => some (lastDay r2)
      | none => r2.tmrEnd
    else tmrEnd) r1.tmrEnd

/-- The loop of `join_wday_range` from the first range that has not had its turn. -/
def joinFrom (done : List (TimeRange ℕ)) : List (TimeRange ℕ) → List (TimeRange ℕ)
  | [] => done
  | r1 :: rest =>
      joinFrom (leftBy r1 done ++ [⟨r1.tmrBegin, joinEnd r1 (done ++ rest)⟩])
        (leftBy r1 rest)
termination_by rest => rest.length
decreasing_by
  rw [List.length_cons]
  exact Nat.lt_succ_of_le (List.length_filter_le _ _)

def joinWdayRange (weekDay : List (TimeRange ℕ)) : List (TimeRange ℕ) := joinFrom [] weekDay

/-- The end of `day_range1` after the loop of `extend_wday_range` over the others. -/
def extendEnd (r1 : TimeRange ℕ) (others : List (TimeRange ℕ)) : Option ℕ :=
  others.foldl (fun tmrEnd r2 =>
    if lastDay r1 = 6 ∧ r2.tmrBegin = 0 then some (lastDay r1 + 1 + lastDay r2) else tmrEnd)
    r1.tmrEnd

def extendFrom (done : List (TimeRange ℕ)) : List (TimeRange ℕ) → List (TimeRange ℕ)
  | [] => done
  | r1 :: rest => extendFrom (done ++ [⟨r1.tmrBegin, extendEnd r1 (done ++ rest)⟩]) rest

def extendWdayRange (weekDay : List (TimeRange ℕ)) : List (TimeRange ℕ) := extendFrom [] weekDay

/-- `week_day_range_list`. -/
def weekDayRangeList (items : List WdaySpec) : List (TimeRange ℕ) :=
  extendWdayRange (joinWdayRange (items.flatMap splitWdayRange))

/-- A written item contains a weekday. One that ends before it begins runs over the end of the
week. -/
def WdaySpec.Contains (tmr : WdaySpec) (day : ℕ) : Prop :=
  match tmr.tmrEnd with
  | some t2 =>
      if tmr.tmrBegin ≤ t2 then tmr.tmrBegin ≤ day ∧ day ≤ t2 else tmr.tmrBegin ≤ day ∨ day ≤ t2
  | none => day = tmr.tmrBegin

/-- A list of ranges covers a day. -/
def DaysCover (weekDay : List (TimeRange ℕ)) (day : ℕ) : Prop := ∃ r ∈ weekDay, r.Covers day

theorem inRangeList_wday_iff (weekDay : List (TimeRange ℕ)) (day : ℕ) :
    inRangeList tmWdayCmp day (some weekDay) = true ↔ DaysCover weekDay day := by
  simp [inRangeList, inRange_iff tmWdayCmp_compares, DaysCover]

theorem covers_iff_lastDay (r : TimeRange ℕ) (day : ℕ) :
    r.Covers day ↔ r.tmrBegin ≤ day ∧ day ≤ lastDay r := Iff.rfl

theorem splitWdayRange_covers (tmr : WdaySpec) (day : ℕ) :
    DaysCover (splitWdayRange tmr) day ↔ day ≤ 6 ∧ tmr.Contains day := by
  have hbegin := tmr.begin_le
  have hend := tmr.end_le
  unfold splitWdayRange WdaySpec.Contains DaysCover
  cases htmr : tmr.tmrEnd with
  | none =>
      simp [covers_iff_lastDay, lastDay]
      omega
  | some t2 =>
      have ht2 := hend t2 htmr
      simp only [tmWdayCmp_compares.pos_iff]
      split_ifs with hwrap hle hle
      · omega
      · simp [covers_iff_lastDay, lastDay]
        omega
      · simp [covers_iff_lastDay, lastDay]
        omega
      · omega

theorem daysCover_append (l l' : List (TimeRange ℕ)) (day : ℕ) :
    DaysCover (l ++ l') day ↔ DaysCover l day ∨ DaysCover l' day := by
  simp [DaysCover, or_and_right, exists_or]

theorem daysCover_cons (r : TimeRange ℕ) (l : List (TimeRange ℕ)) (day : ℕ) :
    DaysCover (r :: l) day ↔ r.Covers day ∨ DaysCover l day := by
  simp [DaysCover]

section Extend

theorem extendEnd_eq {r1 : TimeRange ℕ} (hlast : lastDay r1 ≠ 6) (others : List (TimeRange ℕ)) :
    extendEnd r1 others = r1.tmrEnd := by
  simp only [extendEnd, hlast, false_and, if_false]
  exact List.foldl_fixed _

theorem extendEnd_saturday {r1 : TimeRange ℕ} (hlast : lastDay r1 = 6)
    (others : List (TimeRange ℕ)) : 6 ≤ (extendEnd r1 others).getD r1.tmrBegin := by
  unfold extendEnd
  induction others using List.reverseRecOn with
  | nil => exact hlast.ge
  | append_singleton others r2 ih =>
      rw [List.foldl_append, List.foldl_cons, List.foldl_nil]
      split_ifs
      · simp
        omega
      · exact ih

theorem extend_covers (r1 : TimeRange ℕ) (others : List (TimeRange ℕ)) {day : ℕ} (hday : day ≤ 6) :
    (⟨r1.tmrBegin, extendEnd r1 others⟩ : TimeRange ℕ).Covers day ↔ r1.Covers day := by
  by_cases hlast : lastDay r1 = 6
  · have hle := extendEnd_saturday hlast others
    simp only [covers_iff_lastDay, hlast]
    simp only [lastDay]
    omega
  · rw [extendEnd_eq hlast]

theorem extendFrom_covers (done rest : List (TimeRange ℕ)) {day : ℕ} (hday : day ≤ 6) :
    DaysCover (extendFrom done rest) day ↔ DaysCover (done ++ rest) day := by
  induction rest generalizing done with
  | nil => rw [extendFrom, List.append_nil]
  | cons r1 rest ih =>
      rw [extendFrom, ih, daysCover_append, daysCover_append, daysCover_cons, daysCover_append,
        daysCover_cons, extend_covers r1 _ hday]
      simp [DaysCover, or_assoc]

end Extend

section Join

/-- The day up to which a range reaches when it takes in others: the last day of the last one in
the list that reaches beyond it, but a single day stays one when that one is a single day. -/
def joinedLast (r1 : TimeRange ℕ) (others : List (TimeRange ℕ)) : ℕ :=
  match (others.filter (fun r2 => takesIn r1 r2 && decide (lastDay r1 < lastDay r2))).getLast? with
  | none => lastDay r1
  | some r2 => if r1.tmrEnd.isNone && r2.tmrEnd.isNone then r1.tmrBegin else lastDay r2

theorem joinEnd_getD (r1 : TimeRange ℕ) (others : List (TimeRange ℕ)) :
    (joinEnd r1 others).getD r1.tmrBegin = joinedLast r1 others := by
  unfold joinEnd joinedLast
  induction others using List.reverseRecOn with
  | nil => rfl
  | append_singleton others r2 ih =>
      rw [List.foldl_append, List.foldl_cons, List.foldl_nil, List.filter_append]
      cases htakes : takesIn r1 r2 && decide (lastDay r1 < lastDay r2) with
      | false => simpa [htakes] using ih
      | true =>
          simp only [htakes, if_true, List.filter_cons_of_pos, List.filter_nil,
            List.getLast?_append, List.getLast?_singleton, Option.some_or]
          cases hend1 : r1.tmrEnd with
          | some end1 => simp
          | none =>
              cases hend2 : r2.tmrEnd with
              | some end2 => simp [lastDay, hend2]
              | none => simp

/-- A range reaches no further than it did, or as far as one that it takes in. -/
theorem joinedLast_cases (r1 : TimeRange ℕ) (others : List (TimeRange ℕ)) :
    joinedLast r1 others = lastDay r1 ∨
      ∃ r2 ∈ others, takesIn r1 r2 = true ∧ lastDay r1 < lastDay r2 ∧
        joinedLast r1 others = lastDay r2 := by
  unfold joinedLast
  split
  · exact .inl rfl
  · rename_i r2 hlast
    obtain ⟨hmem, htakes⟩ := List.mem_filter.mp (List.mem_of_getLast? hlast)
    rw [Bool.and_eq_true, decide_eq_true_eq] at htakes
    split_ifs with hsingle
    · rw [Bool.and_eq_true, Option.isNone_iff_eq_none] at hsingle
      exact .inl (by simp [lastDay, hsingle.1])
    · exact .inr ⟨r2, hmem, htakes.1, htakes.2, rfl⟩

theorem lastDay_le_joinedLast (r1 : TimeRange ℕ) (others : List (TimeRange ℕ)) :
    lastDay r1 ≤ joinedLast r1 others := by
  obtain heq | ⟨r2, -, -, hlt, heq⟩ := joinedLast_cases r1 others
  · exact heq.ge
  · omega

variable (r1 : TimeRange ℕ) (others : List (TimeRange ℕ))

/-- What a range takes in and does not reach lies in a range that is left. -/
def KeepsAt : Prop :=
  ∀ r2 ∈ others, takesIn r1 r2 = true → ∀ day, r2.Covers day → joinedLast r1 others < day →
    ∃ r ∈ others, takesIn r1 r = false ∧ r.Covers day

theorem join_covers (day : ℕ) :
    (⟨r1.tmrBegin, joinEnd r1 others⟩ : TimeRange ℕ).Covers day ↔
      r1.tmrBegin ≤ day ∧ day ≤ joinedLast r1 others := by
  rw [covers_iff_lastDay, lastDay, joinEnd_getD]

theorem daysCover_leftBy (l : List (TimeRange ℕ)) (day : ℕ) :
    DaysCover (leftBy r1 l) day ↔
      ∃ r ∈ l, takesIn r1 r = false ∧ r.Covers day := by
  simp [DaysCover, leftBy, and_assoc]

theorem joinStep_subset {day : ℕ}
    (hcovers : (⟨r1.tmrBegin, joinEnd r1 others⟩ : TimeRange ℕ).Covers day ∨
      ∃ r ∈ others, takesIn r1 r = false ∧ r.Covers day) :
    r1.Covers day ∨ DaysCover others day := by
  obtain hjoined | ⟨r, hr, -, hrday⟩ := hcovers
  · rw [join_covers] at hjoined
    by_cases hle : day ≤ lastDay r1
    · exact .inl ⟨hjoined.1, hle⟩
    · obtain heq | ⟨r2, hr2, htakes, -, heq⟩ := joinedLast_cases r1 others
      · omega
      · rw [takesIn, Bool.and_eq_true, decide_eq_true_eq, decide_eq_true_eq] at htakes
        exact .inr ⟨r2, hr2, (covers_iff_lastDay r2 day).mpr ⟨by omega, by omega⟩⟩
  · exact .inr ⟨r, hr, hrday⟩

/-- A turn of the loop keeps all days exactly when what is cut off lies in a range that is left. -/
theorem joinStep_keeps_iff :
    (∀ day, r1.Covers day ∨ DaysCover others day →
      (⟨r1.tmrBegin, joinEnd r1 others⟩ : TimeRange ℕ).Covers day ∨
        ∃ r ∈ others, takesIn r1 r = false ∧ r.Covers day) ↔ KeepsAt r1 others := by
  constructor
  · intro hkeeps r2 hr2 htakes day hday hbeyond
    obtain hjoined | hleft := hkeeps day (.inr ⟨r2, hr2, hday⟩)
    · rw [join_covers] at hjoined
      omega
    · exact hleft
  · rintro hkeeps day (hday | ⟨r2, hr2, hday⟩)
    · have hle := lastDay_le_joinedLast r1 others
      exact .inl ((join_covers r1 others day).mpr ⟨hday.1, hday.2.trans hle⟩)
    · cases htakes : takesIn r1 r2 with
      | false => exact .inr ⟨r2, hr2, htakes, hday⟩
      | true =>
          by_cases hbeyond : joinedLast r1 others < day
          · exact .inr (hkeeps r2 hr2 htakes day hday hbeyond)
          · rw [takesIn, Bool.and_eq_true, decide_eq_true_eq, decide_eq_true_eq] at htakes
            exact .inl ((join_covers r1 others day).mpr
              ⟨htakes.2.trans hday.1, not_lt.mp hbeyond⟩)

end Join

/-- Every turn of the loop keeps all days. -/
def JoinKeeps (done : List (TimeRange ℕ)) : List (TimeRange ℕ) → Prop
  | [] => True
  | r1 :: rest =>
      KeepsAt r1 (done ++ rest) ∧
        JoinKeeps
          (leftBy r1 done ++ [⟨r1.tmrBegin, joinEnd r1 (done ++ rest)⟩])
          (leftBy r1 rest)
termination_by rest => rest.length
decreasing_by
  rw [List.length_cons]
  exact Nat.lt_succ_of_le (List.length_filter_le _ _)

theorem leftBy_append (r1 : TimeRange ℕ) (l l' : List (TimeRange ℕ)) :
    leftBy r1 (l ++ l') = leftBy r1 l ++ leftBy r1 l' :=
  List.filter_append _ _

theorem joinTurn_covers (done rest : List (TimeRange ℕ)) (r1 : TimeRange ℕ) (day : ℕ) :
    DaysCover (leftBy r1 done ++
        [⟨r1.tmrBegin, joinEnd r1 (done ++ rest)⟩] ++ leftBy r1 rest) day ↔
      (⟨r1.tmrBegin, joinEnd r1 (done ++ rest)⟩ : TimeRange ℕ).Covers day ∨
        ∃ r ∈ done ++ rest, takesIn r1 r = false ∧ r.Covers day := by
  rw [← daysCover_leftBy, leftBy_append, daysCover_append, daysCover_append, daysCover_cons,
    daysCover_append]
  simp only [DaysCover, List.not_mem_nil, false_and, exists_false, or_false]
  exact or_assoc.trans or_left_comm

theorem daysCover_middle (done rest : List (TimeRange ℕ)) (r1 : TimeRange ℕ) (day : ℕ) :
    DaysCover (done ++ r1 :: rest) day ↔ r1.Covers day ∨ DaysCover (done ++ rest) day := by
  rw [daysCover_append, daysCover_cons, daysCover_append]
  exact or_left_comm

theorem joinFrom_subset (done rest : List (TimeRange ℕ)) {day : ℕ}
    (hcovers : DaysCover (joinFrom done rest) day) : DaysCover (done ++ rest) day := by
  fun_induction joinFrom done rest with
  | case1 done => rwa [List.append_nil]
  | case2 done r1 rest ih =>
      rw [daysCover_middle]
      exact joinStep_subset r1 _ ((joinTurn_covers done rest r1 day).mp (ih hcovers))

theorem joinFrom_keeps_iff (done rest : List (TimeRange ℕ)) :
    (∀ day, DaysCover (done ++ rest) day → DaysCover (joinFrom done rest) day) ↔
      JoinKeeps done rest := by
  fun_induction joinFrom done rest with
  | case1 done => simp [JoinKeeps]
  | case2 done r1 rest ih =>
      rw [JoinKeeps, ← joinStep_keeps_iff, ← ih]
      simp only [daysCover_middle, joinTurn_covers]
      constructor
      · intro hkeeps
        constructor
        · intro day hday
          exact (joinTurn_covers done rest r1 day).mp (joinFrom_subset _ _ (hkeeps day hday))
        · intro day hday
          exact hkeeps day (joinStep_subset r1 _ hday)
      · rintro ⟨hturn, hrest⟩ day hday
        exact hrest day (hturn day hday)

theorem daysCover_flatMap (items : List WdaySpec) (day : ℕ) :
    DaysCover (items.flatMap splitWdayRange) day ↔
      day ≤ 6 ∧ ∃ item ∈ items, item.Contains day := by
  induction items with
  | nil => simp [DaysCover]
  | cons item items ih =>
      rw [List.flatMap_cons, daysCover_append, splitWdayRange_covers, ih]
      simp [and_or_left]

theorem weekDayRangeList_covers (items : List WdaySpec) {day : ℕ} (hday : day ≤ 6) :
    inRangeList tmWdayCmp day (some (weekDayRangeList items)) = true ↔
      DaysCover (joinFrom [] (items.flatMap splitWdayRange)) day := by
  rw [inRangeList_wday_iff, weekDayRangeList, extendWdayRange, extendFrom_covers _ _ hday]
  rfl

end GridEngine.Calendar
