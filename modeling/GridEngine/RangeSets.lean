import GridEngine.RangeCanonical

/-!
# Removing an id and uniting lists

`range_list_remove_id` takes an id out of the first range that contains it, which may drop,
shrink or split that range, and frees a list that became empty. A freed list is `none`.
`range_list_calculate_union_set` copies its first list and inserts the ids of the second one.
-/

namespace GridEngine
open Segments

/-- What is left of a range that contains `id`. -/
def removeFrom (id : ℕ) (r : Range) : List Range :=
  if id = r.min ∧ (id = r.max ∨ r.max < wadd id r.step) then []
  else if id = r.min then [rangeSetAllIds (wadd r.min r.step) r.max r.step]
  else if id = r.max then [rangeSetAllIds r.min (wsub r.max r.step) r.step]
  else [rangeSetAllIds r.min (wsub id r.step) r.step, rangeSetAllIds (wadd id r.step) r.max r.step]

def removeLoop (id : ℕ) : List Range → List Range
  | [] => []
  | r :: rest => if rangeIsIdWithin r id then removeFrom id r ++ rest else r :: removeLoop id rest

/-- `lFreeList` on an empty list. -/
def freeIfEmpty (l : List Range) : Option (List Range) := if l = [] then none else some l

/-- `range_list_remove_id`. -/
def rangeListRemoveId (l : Option (List Range)) (id : ℕ) : Option (List Range) :=
  l.bind (fun l => freeIfEmpty (removeLoop id l))

variable (srt : PSortList Range Range.min) (fuel : ℕ)

/-- `range_list_insert_id` on a list that may not exist yet. -/
def rangeListInsertIdOpt (l : Option (List Range)) (id : ℕ) : Option (List Range) :=
  some (rangeListInsertId srt (l.getD []) id)

/-- `range_list_calculate_union_set`; the outer option is the end of its loops. -/
def rangeListCalculateUnionSet (l₁ l₂ : Option (List Range)) : Option (Option (List Range)) :=
  match l₁, l₂ with
  | none, none => some none
  | some l, none | none, some l => (rangeListSortUniqCompress srt fuel true l).map some
  | some l₁, some l₂ => do
      let l ← rangeListSortUniqCompress srt fuel true l₁
      let l ← insertRanges srt fuel l l₂
      return some (rangeListCompress l)

section Remove
variable {r : Range} {l : List Range} {id : ℕ}

/-- A result without `id` that stays inside the old interval. -/
structure Cuts (id : ℕ) (r : Range) (out : List Range) : Prop where
  canonical : Canonical out
  ids_eq : ids out = r.ids \ {id}
  inside : ∀ q ∈ out, r.min ≤ q.min ∧ q.max ≤ r.max

theorem removeFrom_spec (h : r.Ok) (hid : id ∈ r.ids) : Cuts id r (removeFrom id r) := by
  have hmax := h.max_lt
  have hpos := h.step_pos
  have hstep := h.step_lt
  have hle := segment_le hid
  rw [removeFrom, wadd_eq (by omega), wadd_eq (by omega)]
  split_ifs with h₁ h₂ h₃
  · obtain ⟨hmin, hend⟩ := h₁
    refine ⟨Canonical.nil, ?_, by simp⟩
    rw [ids_nil, Range.ids, hmin, segment_diff_left hpos h.le, segment_eq_empty]
    omega
  · have hlast : r.min + r.step ≤ r.max := by omega
    have hgrid := grid_lt_add h.max_grid left_mem_grid (by omega)
    refine ⟨Canonical.singleton (rangeSetAllIds_ok hgrid hmax hpos hstep), ?_, ?_⟩
    · rw [ids_cons, ids_nil, Set.union_empty, rangeSetAllIds_ids, Range.ids, h₂,
        segment_diff_left hpos h.le]
    · simp
  · obtain ⟨hgrid, hge, hsle, hdiff⟩ := segment_diff_cut hpos hid (Ne.symm h₂)
    rw [wsub_eq (by omega) (by omega), ← h₃]
    refine ⟨Canonical.singleton (rangeSetAllIds_ok hgrid (by omega) hpos hstep), ?_, ?_⟩
    · rw [Range.ids, hdiff, segment_eq_empty (a := id + r.step) (by omega)]
      simp
    · simp
      omega
  · obtain ⟨hgrid, hge, hsle, hdiff⟩ := segment_diff_cut hpos hid (Ne.symm h₂)
    have hnext := grid_lt_add h.max_grid hid.1 (by omega)
    have hnextle := grid_le hnext
    rw [wsub_eq (by omega) (by omega)]
    have hok₁ := rangeSetAllIds_ok hgrid (by omega) hpos hstep
    have hok₂ := rangeSetAllIds_ok hnext hmax hpos hstep
    refine ⟨Canonical.cons_iff.mpr ⟨hok₁, Canonical.singleton hok₂, ?_⟩, ?_, ?_⟩
    · simp
      omega
    · rw [Range.ids, hdiff]
      simp
    · simp
      omega

theorem removeLoop_spec (h : Canonical l) :
    Canonical (removeLoop id l) ∧ ids (removeLoop id l) = ids l \ {id} ∧
      ∀ b ∈ removeLoop id l, ∃ r ∈ l, r.min ≤ b.min := by
  induction l with
  | nil => exact ⟨h, by simp [removeLoop], by simp [removeLoop]⟩
  | cons r rest ih =>
      obtain ⟨hr, hrest, hlt⟩ := Canonical.cons_iff.mp h
      have hdisj := Canonical.disjoint_ids hlt
      by_cases hin : rangeIsIdWithin r id = true
      · have hmem : id ∈ r.ids := rangeIsIdWithin_iff.mp hin
        have hcut := removeFrom_spec hr hmem
        rw [removeLoop, if_pos hin]
        refine ⟨Canonical.append_iff.mpr ⟨hcut.canonical, hrest, fun a ha b hb => ?_⟩, ?_, ?_⟩
        · have hle := (hcut.inside a ha).2
          have := hlt b hb
          omega
        · have hnot : id ∉ ids rest := Set.disjoint_left.mp hdisj hmem
          rw [ids_append, hcut.ids_eq, ids_cons, Set.union_sdiff_distrib,
            Set.sdiff_singleton_eq_self hnot]
        · intro b hb
          rcases List.mem_append.mp hb with hb | hb
          · exact ⟨r, by simp, (hcut.inside b hb).1⟩
          · exact ⟨b, by simp [hb], le_rfl⟩
      · obtain ⟨hc, hids, hmin⟩ := ih hrest
        have hnot : id ∉ r.ids := fun hmem => hin (rangeIsIdWithin_iff.mpr hmem)
        rw [removeLoop, if_neg hin]
        refine ⟨Canonical.cons_iff.mpr ⟨hr, hc, fun b hb => ?_⟩, ?_, ?_⟩
        · obtain ⟨q, hq, hle⟩ := hmin b hb
          exact (hlt q hq).trans_le hle
        · rw [ids_cons, hids, ids_cons, Set.union_sdiff_distrib, Set.sdiff_singleton_eq_self hnot]
        · intro b hb
          rcases List.mem_cons.mp hb with rfl | hb
          · exact ⟨b, by simp, le_rfl⟩
          · obtain ⟨q, hq, hle⟩ := hmin b hb
            exact ⟨q, by simp [hq], hle⟩

@[simp] theorem freeIfEmpty_getD : (freeIfEmpty l).getD [] = l := by
  unfold freeIfEmpty
  split_ifs with h
  · exact h.symm
  · rfl

end Remove

section Optional
variable {fuel} {o o₁ o₂ : Option (List Range)} {id : ℕ}

theorem rangeListRemoveId_spec (id : ℕ) (h : Canonical (o.getD [])) :
    Canonical ((rangeListRemoveId o id).getD []) ∧
      ids ((rangeListRemoveId o id).getD []) = ids (o.getD []) \ {id} := by
  cases o with
  | none => exact ⟨h, by simp [rangeListRemoveId]⟩
  | some l =>
      obtain ⟨hc, hids, -⟩ := @removeLoop_spec l id h
      simpa [rangeListRemoveId] using ⟨hc, hids⟩

theorem rangeListInsertIdOpt_spec (h : Canonical (o.getD [])) (hid : id < 2 ^ 31) :
    Canonical ((rangeListInsertIdOpt srt o id).getD []) ∧
      ids ((rangeListInsertIdOpt srt o id).getD []) = insert id (ids (o.getD [])) := by
  have hadd := rangeListInsertId_spec srt h hid
  exact ⟨hadd.canonical, hadd.ids_eq⟩

theorem compressOpt_spec (h : Canonical (o.getD [])) :
    Canonical ((o.map rangeListCompress).getD []) ∧
      ids ((o.map rangeListCompress).getD []) = ids (o.getD []) := by
  cases o with
  | none => exact ⟨h, rfl⟩
  | some l => exact rangeListCompress_spec h

theorem rangeListCalculateUnionSet_spec (h₁ : Canonical (o₁.getD [])) (h₂ : Canonical (o₂.getD []))
    (hfuel : 2 ^ 31 < fuel) :
    ∃ out, rangeListCalculateUnionSet srt fuel o₁ o₂ = some out ∧ Canonical (out.getD []) ∧
      ids (out.getD []) = ids (o₁.getD []) ∪ ids (o₂.getD []) := by
  have hsort : ∀ l, Canonical l → ∃ out, rangeListSortUniqCompress srt fuel true l = some out ∧
      Canonical out ∧ ids out = ids l := fun l hl =>
    rangeListSortUniqCompress_spec srt (fun r hr => (hl.ok r hr).valid.corrects) hfuel
  cases o₁ with
  | none =>
      cases o₂ with
      | none => exact ⟨none, rfl, h₁, by simp⟩
      | some l =>
          obtain ⟨out, hout, hc, hids⟩ := hsort l h₂
          exact ⟨some out, by simp [rangeListCalculateUnionSet, hout], hc, by simp [hids]⟩
  | some l₁ =>
      obtain ⟨out, hout, hc, hids⟩ := hsort l₁ h₁
      cases o₂ with
      | none => exact ⟨some out, by simp [rangeListCalculateUnionSet, hout], hc, by simp [hids]⟩
      | some l₂ =>
          replace h₂ : Canonical l₂ := h₂
          obtain ⟨mid, hmid, hcMid, hidsMid⟩ := insertRanges_spec srt hc h₂.ok hfuel
          obtain ⟨hcEnd, hidsEnd⟩ := rangeListCompress_spec hcMid
          refine ⟨some (rangeListCompress mid), ?_, hcEnd, ?_⟩
          · simp [rangeListCalculateUnionSet, hout, hmid]
          · simp only [Option.getD_some, hidsEnd, hidsMid, hids]

end Optional

end GridEngine
