import GridEngine.CalendarEntries

/-!
# Splitting and normalizing daytime ranges

A range over midnight is split into two. `normalize_range_list` then joins every range with the
first later one that overlaps it until none does.
-/

namespace GridEngine.Calendar

/-- A `daytime_range` as it is written. -/
structure DaytimeSpec where
  tmrBegin : Daytime
  tmrEnd : Daytime
  begin_le : tmDaytimeCmp tmrBegin ⟨24, 0, 0⟩ ≤ 0
  end_le : tmDaytimeCmp tmrEnd ⟨24, 0, 0⟩ ≤ 0
  begin_ne : tmDaytimeCmp tmrBegin tmrEnd ≠ 0

theorem tmDaytimeCmp_zero_le (d : Daytime) : tmDaytimeCmp ⟨0, 0, 0⟩ d ≤ 0 := by
  rw [tmDaytimeCmp_compares.le_iff, ← not_lt, Daytime.lt_iff]
  simp

/-- `split_daytime_range`. -/
def splitDaytimeRange (tmr : DaytimeSpec) : List DaytimeRange :=
  if h : 0 < tmDaytimeCmp tmr.tmrBegin tmr.tmrEnd then
    [⟨tmr.tmrBegin, ⟨24, 0, 0⟩, tmr.begin_le⟩, ⟨⟨0, 0, 0⟩, tmr.tmrEnd, tmDaytimeCmp_zero_le _⟩]
  else [⟨tmr.tmrBegin, tmr.tmrEnd, not_lt.mp h⟩]

/-- The test of `normalize_range_list` for overlapping ranges. -/
def overlapping (r q : DaytimeRange) : Bool :=
  inRange tmDaytimeCmp r.tmrBegin q.range || inRange tmDaytimeCmp r.tmrEnd q.range ||
    inRange tmDaytimeCmp q.tmrBegin r.range || inRange tmDaytimeCmp q.tmrEnd r.range

/-- Both overlapping ranges in one. -/
def combine (r q : DaytimeRange) : DaytimeRange where
  tmrBegin := if 0 < tmDaytimeCmp r.tmrBegin q.tmrBegin then q.tmrBegin else r.tmrBegin
  tmrEnd := if tmDaytimeCmp r.tmrEnd q.tmrEnd < 0 then q.tmrEnd else r.tmrEnd
  ordered := by
    have hr := (tmDaytimeCmp_compares.le_iff _ _).mp r.ordered
    have hq := (tmDaytimeCmp_compares.le_iff _ _).mp q.ordered
    rw [tmDaytimeCmp_compares.le_iff]
    simp only [tmDaytimeCmp_compares.pos_iff, tmDaytimeCmp_compares.neg_iff]
    split_ifs with hbegin hend hend
    · exact hq
    · exact hq.trans (not_lt.mp hend)
    · exact hr.trans hend.le
    · exact hr

/-- The loop over the ranges behind `r`, which begins again behind `r` when it combined two. -/
def combineAll (r : DaytimeRange) (rl : List DaytimeRange) : DaytimeRange × List DaytimeRange :=
  match h : rl.find? (overlapping r) with
  | none => (r, rl)
  | some q => combineAll (combine r q) (rl.eraseP (overlapping r))
termination_by rl.length
decreasing_by
  have hlength := List.length_eraseP_of_mem (List.mem_of_find?_eq_some h) (List.find?_some h)
  have hpos := List.length_pos_of_mem (List.mem_of_find?_eq_some h)
  omega

theorem combineAll_length (r : DaytimeRange) (rl : List DaytimeRange) :
    (combineAll r rl).2.length ≤ rl.length := by
  fun_induction combineAll r rl with
  | case1 r rl hnone => exact le_rfl
  | case2 r rl q hsome ih => exact ih.trans (List.length_eraseP_le)

/-- `normalize_range_list` with `tm_daytime_cmp`. -/
def normalizeRangeList : List DaytimeRange → List DaytimeRange
  | [] => []
  | r :: rl => (combineAll r rl).1 :: normalizeRangeList (combineAll r rl).2
termination_by rl => rl.length
decreasing_by
  have := combineAll_length r rl
  rw [List.length_cons]
  omega

/-- `daytime_range_list` with the normalization that follows it. -/
def daytimeRangeList (items : List DaytimeSpec) : List DaytimeRange :=
  normalizeRangeList (items.flatMap splitDaytimeRange)

def DaytimeRange.Covers (r : DaytimeRange) (x : Daytime) : Prop := r.range.Covers x

/-- A written range contains a daytime. One that ends before it begins runs over midnight. -/
def DaytimeSpec.Contains (tmr : DaytimeSpec) (x : Daytime) : Prop :=
  if tmr.tmrBegin ≤ tmr.tmrEnd then tmr.tmrBegin ≤ x ∧ x ≤ tmr.tmrEnd
  else tmr.tmrBegin ≤ x ∨ x ≤ tmr.tmrEnd

theorem covers_iff (r : DaytimeRange) (x : Daytime) :
    r.Covers x ↔ x ∈ Set.Icc r.tmrBegin r.tmrEnd := Iff.rfl

theorem zero_le_daytime (x : Daytime) : (⟨0, 0, 0⟩ : Daytime) ≤ x :=
  (tmDaytimeCmp_compares.le_iff _ _).mp (tmDaytimeCmp_zero_le x)

theorem splitDaytimeRange_covers (tmr : DaytimeSpec) {x : Daytime} (hx : x ≤ ⟨24, 0, 0⟩) :
    (∃ r ∈ splitDaytimeRange tmr, r.Covers x) ↔ tmr.Contains x := by
  unfold splitDaytimeRange DaytimeSpec.Contains
  split_ifs with hwrap hle hle
  · exact absurd hle (not_le.mpr ((tmDaytimeCmp_compares.pos_iff _ _).mp hwrap))
  · simp [covers_iff, hx, zero_le_daytime]
  · simp [covers_iff]
  · exact absurd (not_le.mp hle) (mt (tmDaytimeCmp_compares.pos_iff _ _).mpr hwrap)

theorem overlapping_iff (r q : DaytimeRange) :
    overlapping r q = true ↔ q.tmrBegin ≤ r.tmrEnd ∧ r.tmrBegin ≤ q.tmrEnd := by
  have hr := (tmDaytimeCmp_compares.le_iff _ _).mp r.ordered
  have hq := (tmDaytimeCmp_compares.le_iff _ _).mp q.ordered
  simp only [overlapping, Bool.or_eq_true, inRange_iff tmDaytimeCmp_compares, TimeRange.Covers,
    DaytimeRange.range, Option.getD_some]
  constructor
  · rintro (((h | h) | h) | h)
    · exact ⟨h.1.trans hr, h.2⟩
    · exact ⟨h.1, hr.trans h.2⟩
    · exact ⟨h.2, h.1.trans hq⟩
    · exact ⟨hq.trans h.2, h.1⟩
  · rintro ⟨hqr, hrq⟩
    obtain hle | hle := le_total r.tmrBegin q.tmrBegin
    · exact .inl (.inr ⟨hle, hqr⟩)
    · exact .inl (.inl (.inl ⟨hle, hrq⟩))

theorem combine_covers {r q : DaytimeRange} (hover : overlapping r q = true) (x : Daytime) :
    (combine r q).Covers x ↔ r.Covers x ∨ q.Covers x := by
  obtain ⟨hqr, hrq⟩ := (overlapping_iff r q).mp hover
  have hbegin : (combine r q).tmrBegin = min r.tmrBegin q.tmrBegin := by
    simp only [combine, tmDaytimeCmp_compares.pos_iff]
    split_ifs with hlt
    · exact (min_eq_right hlt.le).symm
    · exact (min_eq_left (not_lt.mp hlt)).symm
  have hend : (combine r q).tmrEnd = max r.tmrEnd q.tmrEnd := by
    simp only [combine, tmDaytimeCmp_compares.neg_iff]
    split_ifs with hlt
    · exact (max_eq_right hlt.le).symm
    · exact (max_eq_left (not_lt.mp hlt)).symm
  rw [covers_iff, hbegin, hend, ← Set.Icc_union_Icc' hqr hrq]
  rfl

/-- A list of ranges covers a daytime. -/
def ListCovers (rl : List DaytimeRange) (x : Daytime) : Prop := ∃ r ∈ rl, r.Covers x

theorem listCovers_cons (r : DaytimeRange) (rl : List DaytimeRange) (x : Daytime) :
    ListCovers (r :: rl) x ↔ r.Covers x ∨ ListCovers rl x := by
  simp [ListCovers]

theorem find_eraseP_covers {p : DaytimeRange → Bool} {rl : List DaytimeRange} {q : DaytimeRange}
    (hfind : rl.find? p = some q) (x : Daytime) :
    ListCovers rl x ↔ q.Covers x ∨ ListCovers (rl.eraseP p) x := by
  induction rl with
  | nil => cases hfind
  | cons r rl ih =>
      cases hp : p r with
      | true =>
          rw [List.find?_cons_of_pos hp, Option.some.injEq] at hfind
          rw [List.eraseP_cons_of_pos hp, listCovers_cons, hfind]
      | false =>
          have hneg : ¬ p r = true := by simp [hp]
          rw [List.find?_cons_of_neg hneg] at hfind
          rw [List.eraseP_cons_of_neg hneg, listCovers_cons, listCovers_cons, ih hfind]
          exact or_left_comm

theorem combineAll_covers (r : DaytimeRange) (rl : List DaytimeRange) (x : Daytime) :
    (combineAll r rl).1.Covers x ∨ ListCovers (combineAll r rl).2 x ↔
      r.Covers x ∨ ListCovers rl x := by
  fun_induction combineAll r rl with
  | case1 r rl hnone => exact Iff.rfl
  | case2 r rl q hsome ih =>
      rw [ih, combine_covers (List.find?_some hsome), find_eraseP_covers hsome, or_assoc]

theorem combineAll_disjoint (r : DaytimeRange) (rl : List DaytimeRange) (x : Daytime)
    (hcovers : (combineAll r rl).1.Covers x) : ¬ ListCovers (combineAll r rl).2 x := by
  fun_induction combineAll r rl with
  | case1 r rl hnone =>
      rintro ⟨q, hq, hqx⟩
      have hnot := List.find?_eq_none.mp hnone q hq
      rw [overlapping_iff] at hnot
      exact hnot ⟨hqx.1.trans hcovers.2, hcovers.1.trans hqx.2⟩
  | case2 r rl q hsome ih => exact ih hcovers

theorem normalizeRangeList_covers (rl : List DaytimeRange) (x : Daytime) :
    ListCovers (normalizeRangeList rl) x ↔ ListCovers rl x := by
  fun_induction normalizeRangeList rl with
  | case1 => exact Iff.rfl
  | case2 r rl ih => rw [listCovers_cons, ih, listCovers_cons, combineAll_covers]

theorem normalizeRangeList_disjoint (rl : List DaytimeRange) :
    (normalizeRangeList rl).Pairwise (fun r q => ∀ x, ¬ (r.Covers x ∧ q.Covers x)) := by
  fun_induction normalizeRangeList rl with
  | case1 => exact .nil
  | case2 r rl ih =>
      refine .cons ?_ ih
      rintro q hq x ⟨hrx, hqx⟩
      have hrest := (normalizeRangeList_covers _ x).mp ⟨q, hq, hqx⟩
      exact combineAll_disjoint r rl x hrx hrest

theorem daytimeRangeList_covers (items : List DaytimeSpec) {x : Daytime} (hx : x ≤ ⟨24, 0, 0⟩) :
    ListCovers (daytimeRangeList items) x ↔ ∃ item ∈ items, item.Contains x := by
  rw [daytimeRangeList, normalizeRangeList_covers]
  constructor
  · rintro ⟨r, hr, hrx⟩
    obtain ⟨item, hitem, hsplit⟩ := List.mem_flatMap.mp hr
    exact ⟨item, hitem, (splitDaytimeRange_covers item hx).mp ⟨r, hsplit, hrx⟩⟩
  · rintro ⟨item, hitem, hcontains⟩
    obtain ⟨r, hsplit, hrx⟩ := (splitDaytimeRange_covers item hx).mpr hcontains
    exact ⟨r, List.mem_flatMap.mpr ⟨item, hitem, hsplit⟩, hrx⟩

end GridEngine.Calendar
