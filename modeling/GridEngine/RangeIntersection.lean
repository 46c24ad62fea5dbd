import GridEngine.ConstantRuns
import GridEngine.RangeWraps

/-!
# The intersection of two range lists

`range_list_calculate_intersection_set` appends the common ids as single ranges, in the order in
which its loop meets them, and joins neighbours with `range_list_compress`. That loop takes the
first two ids of a run as its difference, whichever is larger. A run that descends becomes a
range whose end lies below its start, which contains no id.
-/

namespace GridEngine
open Segments ConstantRuns

variable (fuel : ℕ)

/-- The body of the loop over the ids of one range. -/
def appendWithin (l₂ : List Range) (l : Option (List Range)) (id : ℕ) : Option (List Range) :=
  if rangeListIsIdWithin l₂ id then some (l.getD [] ++ [singleId id]) else l

/-- `range_list_calculate_intersection_set`; the outer option is the end of its loops. -/
def rangeListCalculateIntersectionSet (l₁ l₂ : Option (List Range)) :
    Option (Option (List Range)) :=
  match l₁, l₂ with
  | some l₁, some l₂ => do
      let l ← l₁.foldlM (fun l r =>
        (forIds fuel r.min r.max r.step).map (fun is => is.foldl (appendWithin l₂) l)) none
      return l.map rangeListCompress
  | _, _ => some none

/-- The ids that the loop over a range visits, in their order. -/
def Range.loopIds (r : Range) : List ℕ := (forIds (2 ^ 31 + 1) r.min r.max r.step).getD []

/-- The ids within `l₂` in the order in which the loop over `l₁` meets them. -/
def metIds (l₁ l₂ : List Range) : List ℕ :=
  (l₁.flatMap Range.loopIds).filter (fun id => rangeListIsIdWithin l₂ id)

section Joins
variable {last x : ℕ} {d : ℤ} {run : List ℤ} {r r' : Range}

/-- The range that the merge loop makes of a run. -/
structure RunRange (last : ℕ) (d : ℤ) (run : List ℤ) (r : Range) : Prop where
  max_eq : r.max = last
  min_lt : r.min < 2 ^ 31
  max_lt : r.max < 2 ^ 31
  single : d = 0 → r.min = r.max ∧ r.step = 1
  ascends : 0 < d → r.min < r.max ∧ (r.step : ℤ) = d ∧ r.max ∈ grid r.min r.step
  descends : d < 0 → r.max < r.min ∧ (r.step : ℤ) = 2 ^ 32 + d ∧ -2 ^ 31 < d
  mem_iff : 0 ≤ d → ∀ id : ℕ, id ∈ r.ids ↔ (id : ℤ) ∈ run

theorem joinRanges_single (hr : r.max < 2 ^ 31) (hx : x < 2 ^ 31) :
    joinRanges r (singleId x) =
      if wadd r.max r.step = x then some (rangeSetAllIds r.min x r.step)
      else if r.min = r.max ∧ r.step = 1 then some (rangeSetAllIds r.min x (wsub x r.min))
      else none := by
  have hsingle : singleId x = ⟨x, x, 1⟩ := by simp [singleId, rangeSetAllIds]
  have hbefore : r.max = wsub x 1 ↔ x = r.max + 1 := by
    unfold wsub
    omega
  rw [hsingle, joinRanges]
  simp only [hbefore, true_and]
  by_cases hnext : wadd r.max r.step = x
  · by_cases hstep : r.step = 1
    · rw [hstep] at hnext
      simp [hnext, hstep]
    · simp [hnext, hstep]
  · have hlast : ¬ (r.min = r.max ∧ r.step = 1 ∧ x = r.max + 1) := by
      rintro ⟨-, hstep, hmax⟩
      rw [hstep, wadd_eq (by omega)] at hnext
      exact hnext hmax.symm
    simp only [hnext, hlast, false_and, if_false]
    by_cases hmin : r.min = r.max ∧ r.step = 1
    · rw [if_pos ⟨hmin.1, hmin.2.symm ▸ rfl, hmin.2⟩, if_pos hmin]
    · rw [if_neg (fun h => hmin ⟨h.1, h.2.2⟩), if_neg hmin]

theorem RunRange.mem_ids (h : RunRange last d run r) (id : ℕ) :
    id ∈ r.ids ↔ 0 ≤ d ∧ (id : ℤ) ∈ run := by
  by_cases hd : 0 ≤ d
  · rw [h.mem_iff hd, and_iff_right hd]
  · have hempty : r.ids = ∅ := segment_eq_empty (h.descends (by omega)).1
    simp [hempty, hd]

theorem RunRange.start (hx : x < 2 ^ 31) : RunRange x 0 [(x : ℤ)] (singleId x) := by
  have hsingle : singleId x = ⟨x, x, 1⟩ := by simp [singleId, rangeSetAllIds]
  rw [hsingle]
  refine ⟨rfl, hx, hx, fun _ => ⟨rfl, rfl⟩, fun h => absurd h (lt_irrefl 0),
    fun h => absurd h (lt_irrefl 0), fun _ id => ?_⟩
  simp [Range.ids]

theorem RunRange.next (h : RunRange last d run r) (hx : x < 2 ^ 31) (hnext : (x : ℤ) = last + d) :
    ∃ r', joinRanges r (singleId x) = some r' ∧ RunRange x d (run ++ [(x : ℤ)]) r' := by
  have hmax := h.max_eq
  have hmin := h.min_lt
  have hlast := h.max_lt
  rw [joinRanges_single hlast hx]
  rcases lt_trichotomy d 0 with hd | rfl | hd
  · obtain ⟨hbelow, hstep, hlow⟩ := h.descends hd
    have hwadd : wadd r.max r.step = x := by
      unfold wadd
      omega
    have hne : r.min ≠ x := by omega
    refine ⟨⟨r.min, x, r.step⟩, by simp [hwadd, rangeSetAllIds, hne], rfl, hmin, hx, by omega,
      by omega, fun _ => ⟨by simp only; omega, hstep, hlow⟩, by omega⟩
  · obtain ⟨hsingle, hstep⟩ := h.single rfl
    have hwadd : ¬ wadd r.max r.step = x := by
      rw [hstep, wadd_eq (by omega)]
      omega
    have hxmin : r.min = x := by omega
    have hjoin : (if wadd r.max r.step = x then some (rangeSetAllIds r.min x r.step)
        else if r.min = r.max ∧ r.step = 1 then some (rangeSetAllIds r.min x (wsub x r.min))
        else none) = some ⟨x, x, 1⟩ := by
      rw [if_neg hwadd, if_pos ⟨hsingle, hstep⟩, hxmin, rangeSetAllIds, if_neg (not_not.mpr rfl)]
    refine ⟨⟨x, x, 1⟩, hjoin, rfl, hx, hx, fun _ => ⟨rfl, rfl⟩, by omega, by omega,
      fun hd id => ?_⟩
    have hids := h.mem_iff hd id
    rw [Range.ids, ← hsingle, hxmin, segment_self, Set.mem_singleton_iff] at hids
    change id ∈ segment x x 1 ↔ _
    rw [segment_self, Set.mem_singleton_iff, List.mem_append, List.mem_singleton, ← hids,
      Nat.cast_inj, or_self]
  · obtain ⟨hlt, hstep, hgrid⟩ := h.ascends hd
    have hwadd : wadd r.max r.step = x := by
      rw [wadd_eq (by omega)]
      omega
    have hxmax : r.max + r.step = x := by omega
    have hne : r.min ≠ x := by omega
    refine ⟨⟨r.min, x, r.step⟩, by simp [hwadd, rangeSetAllIds, hne], rfl, hmin, hx, by omega,
      fun _ => ⟨by simp only; omega, hstep, hxmax ▸ add_step_mem_grid hgrid⟩, by omega,
      fun hd id => ?_⟩
    have hcut : segment r.min x r.step = r.ids ∪ {x} := by
      rw [segment_cut (p := r.max) ⟨hgrid, by omega⟩, hxmax, segment_self, Range.ids]
    change id ∈ segment r.min x r.step ↔ _
    rw [hcut, Set.mem_union, h.mem_iff hd, Set.mem_singleton_iff, List.mem_append,
      List.mem_singleton, Nat.cast_inj]

theorem RunRange.other (h : RunRange last 0 run r) (hx : x < 2 ^ 31) (hne : x ≠ last) :
    ∃ r', joinRanges r (singleId x) = some r' ∧
      RunRange x (x - last) (run ++ [(x : ℤ)]) r' := by
  have hmax := h.max_eq
  have hmin := h.min_lt
  have hlast := h.max_lt
  obtain ⟨hsingle, hstep⟩ := h.single rfl
  have hminLast : r.min = last := by omega
  have hxne : r.min ≠ x := by omega
  have hjoin : joinRanges r (singleId x) = some ⟨r.min, x, wsub x r.min⟩ := by
    rw [joinRanges_single hlast hx]
    by_cases hwadd : wadd r.max r.step = x
    · have hsub : wsub x r.min = 1 := by
        rw [hstep, wadd_eq (by omega)] at hwadd
        rw [wsub_eq (by omega) (by omega)]
        omega
      rw [if_pos hwadd, rangeSetAllIds, if_pos hxne, hsub, hstep]
    · rw [if_neg hwadd, if_pos ⟨hsingle, hstep⟩, rangeSetAllIds, if_pos hxne]
  refine ⟨_, hjoin, rfl, hmin, hx, by omega, fun hd => ?_, fun hd => ?_, fun hd id => ?_⟩
  · have hsub : wsub x r.min = x - r.min := wsub_eq (by omega) (by omega)
    refine ⟨by simp only; omega, by simp only [hsub]; omega, ?_⟩
    change x ∈ grid r.min (wsub x r.min)
    rw [hsub]
    exact ⟨1, by omega⟩
  · refine ⟨by simp only; omega, ?_, by omega⟩
    change ((wsub x r.min : ℕ) : ℤ) = _
    unfold wsub
    omega
  · have hsub : wsub x r.min = x - r.min := wsub_eq (by omega) (by omega)
    have hids := h.mem_iff le_rfl id
    rw [Range.ids, ← hsingle, segment_self, Set.mem_singleton_iff] at hids
    change id ∈ segment r.min x (wsub x r.min) ↔ _
    rw [hsub, segment_cut (p := r.min) ⟨left_mem_grid, by omega⟩, segment_self,
      show r.min + (x - r.min) = x by omega, segment_self, Set.mem_union, Set.mem_singleton_iff,
      Set.mem_singleton_iff, hids, List.mem_append, List.mem_singleton, Nat.cast_inj]

theorem RunRange.stop (h : RunRange last d run r) (hx : x < 2 ^ 31) (hd : d ≠ 0)
    (hne : (x : ℤ) ≠ last + d) : joinRanges r (singleId x) = none := by
  have hmax := h.max_eq
  have hmin := h.min_lt
  have hlast := h.max_lt
  rw [joinRanges_single hlast hx]
  rcases lt_or_gt_of_ne hd with hneg | hpos
  · obtain ⟨hbelow, hstep, hlow⟩ := h.descends hneg
    have hwadd : wadd r.max r.step ≠ x := by
      unfold wadd
      omega
    rw [if_neg hwadd, if_neg (by omega)]
  · obtain ⟨hlt, hstep, hgrid⟩ := h.ascends hpos
    have hle := grid_le (grid_lt_add hgrid left_mem_grid hlt)
    have hwadd : wadd r.max r.step ≠ x := by
      unfold wadd
      omega
    rw [if_neg hwadd, if_neg (by omega)]

end Joins

section Intersection
variable {l₁ l₂ : List Range} {xs : List ℕ} {last x : ℕ} {d : ℤ} {run : List ℤ} {r : Range}

/-- The merge loop keeps the ids of the runs that do not descend, and loses the other runs. -/
theorem ids_compressFrom (h : RunRange last d run r) (hxs : ∀ x ∈ xs, x < 2 ^ 31) (id : ℕ) :
    id ∈ ids (compressFrom r (xs.map singleId)) ↔
      ∃ p ∈ runsFrom (last : ℤ) d run (xs.map Nat.cast), 0 ≤ p.1 ∧ (id : ℤ) ∈ p.2 := by
  induction xs generalizing last d run r with
  | nil => simp [compressFrom, runsFrom, h.mem_ids]
  | cons x xs ih =>
      have hx := hxs x (by simp)
      have hrest : ∀ y ∈ xs, y < 2 ^ 31 := fun y hy => hxs y (by simp [hy])
      rw [List.map_cons, List.map_cons, compressFrom, runsFrom]
      by_cases hnext : (x : ℤ) = last + d
      · obtain ⟨r', hjoin, hrun⟩ := h.next hx hnext
        rw [hjoin, if_pos hnext]
        exact ih hrun hrest
      · rw [if_neg hnext]
        by_cases hd : d = 0
        · subst hd
          obtain ⟨r', hjoin, hrun⟩ := h.other hx (by omega)
          rw [hjoin, if_pos rfl]
          exact ih hrun hrest
        · rw [h.stop hx hd hnext, if_neg hd]
          simp only [ids_cons, Set.mem_union, List.exists_mem_cons_iff, h.mem_ids,
            ih (RunRange.start hx) hrest]

theorem ids_rangeListCompress (hxs : ∀ x ∈ xs, x < 2 ^ 31) (id : ℕ) :
    id ∈ ids (rangeListCompress (xs.map singleId)) ↔ (id : ℤ) ∈ rising (xs.map Nat.cast) := by
  cases xs with
  | nil => simp [rangeListCompress, rising, runs]
  | cons x xs =>
      exact ids_compressFrom (RunRange.start (hxs x (by simp)))
        (fun y hy => hxs y (by simp [hy])) id

/-- The list that holds single ids, which exists once there is one. -/
def singleList (xs : List ℕ) : Option (List Range) :=
  if xs = [] then none else some (xs.map singleId)

theorem singleList_getD : (singleList xs).getD [] = xs.map singleId := by
  unfold singleList
  split_ifs with h
  · rw [h, Option.getD_none, List.map_nil]
  · rw [Option.getD_some]

theorem foldl_appendWithin (is : List ℕ) :
    is.foldl (appendWithin l₂) (singleList xs) =
      singleList (xs ++ is.filter (fun id => rangeListIsIdWithin l₂ id)) := by
  induction is generalizing xs with
  | nil => simp
  | cons id is ih =>
      rw [List.foldl_cons, appendWithin, List.filter_cons]
      by_cases hid : rangeListIsIdWithin l₂ id = true
      · have happend : some ((singleList xs).getD [] ++ [singleId id]) = singleList (xs ++ [id]) := by
          rw [singleList_getD, singleList, if_neg (by simp), List.map_append, List.map_singleton]
        rw [if_pos hid, if_pos hid, happend, ih, List.append_assoc, List.singleton_append]
      · rw [if_neg hid, if_neg hid, ih]

theorem Range.Small.loopIds (h : r.Small) :
    (∀ fuel, 2 ^ 31 < fuel → forIds fuel r.min r.max r.step = some r.loopIds) ∧
      ∀ x, x ∈ r.loopIds ↔ x ∈ r.ids ∪ r.wrapIds := by
  obtain ⟨is, his, hset, -⟩ := h.visits (Nat.lt_succ_self (2 ^ 31))
  have hloop : r.loopIds = is := by rw [Range.loopIds, his, Option.getD_some]
  rw [hloop]
  exact ⟨fun fuel hfuel => forIds_mono hfuel his, fun x => hset ▸ Iff.rfl⟩

theorem mem_metIds (h₁ : ∀ r ∈ l₁, r.Small) :
    x ∈ metIds l₁ l₂ ↔ x ∈ ids l₁ ∪ wrapIds l₁ ∧ x ∈ ids l₂ := by
  have hvisited : (∃ r ∈ l₁, x ∈ r.loopIds) ↔ x ∈ ids l₁ ∪ wrapIds l₁ := by
    rw [← visited_eq]
    exact exists_congr fun r => and_congr_right fun hr => (h₁ r hr).loopIds.2 x
  rw [metIds, List.mem_filter, List.mem_flatMap, hvisited, rangeListIsIdWithin_iff]

theorem metIds_lt (h₁ : ∀ r ∈ l₁, r.Small) : ∀ x ∈ metIds l₁ l₂, x < 2 ^ 31 := by
  intro x hx
  rcases ((mem_metIds h₁).mp hx).1 with ⟨r, hr, hxr⟩ | ⟨r, hr, hxr⟩
  · exact (segment_le hxr).2.trans_lt (h₁ r hr).max_lt
  · have hle := Range.wrapIds_le hxr
    have hr := h₁ r hr
    exact (hle.trans hr.le).trans_lt hr.max_lt

theorem intersectionSet_eq (h₁ : ∀ r ∈ l₁, r.Small) {fuel : ℕ} (hfuel : 2 ^ 31 < fuel) :
    rangeListCalculateIntersectionSet fuel (some l₁) (some l₂) =
      some ((singleList (metIds l₁ l₂)).map rangeListCompress) := by
  have hloop : ∀ (l : List Range) (xs : List ℕ), (∀ r ∈ l, r.Small) →
      l.foldlM (fun l r =>
        (forIds fuel r.min r.max r.step).map (fun is => is.foldl (appendWithin l₂) l))
        (singleList xs) = some (singleList (xs ++ metIds l l₂)) := by
    intro l
    induction l with
    | nil => simp [metIds]
    | cons r l ih =>
        intro xs hl
        have hr := (hl r (by simp)).loopIds.1 fuel hfuel
        rw [List.foldlM_cons, hr, Option.map_some, Option.bind_eq_bind, Option.bind_some,
          foldl_appendWithin, ih _ (fun q hq => hl q (by simp [hq])), metIds, metIds,
          List.flatMap_cons, List.filter_append, List.append_assoc]
  have hrun := hloop l₁ [] h₁
  rw [singleList, if_pos rfl] at hrun
  rw [rangeListCalculateIntersectionSet, hrun, Option.bind_eq_bind, Option.bind_some,
    List.nil_append]
  rfl

/-- The intersection is exact, whatever fuel from some point on. -/
def IntersectionExact (o₁ o₂ : Option (List Range)) : Prop :=
  ∃ (out : Option (List Range)) (bound : ℕ),
    (∀ fuel, bound ≤ fuel → rangeListCalculateIntersectionSet fuel o₁ o₂ = some out) ∧
    ids (out.getD []) = ids (o₁.getD []) ∩ ids (o₂.getD [])

/-- The ids of the runs that do not descend, in the order in which the loop meets them. -/
def keptIds (l₁ l₂ : List Range) : Set ℕ :=
  {id | (id : ℤ) ∈ rising ((metIds l₁ l₂).map Nat.cast)}

theorem intersectionExact_iff_keptIds (h₁ : ∀ r ∈ l₁, r.Small) :
    IntersectionExact (some l₁) (some l₂) ↔ keptIds l₁ l₂ = ids l₁ ∩ ids l₂ := by
  have hids : ids (((singleList (metIds l₁ l₂)).map rangeListCompress).getD []) =
      keptIds l₁ l₂ := by
    have hmap := Option.getD_map rangeListCompress [] (singleList (metIds l₁ l₂))
    rw [singleList_getD] at hmap
    exact (congrArg ids hmap).trans (Set.ext (ids_rangeListCompress (metIds_lt h₁)))
  constructor
  · rintro ⟨out, bound, hout, heq⟩
    obtain rfl := fuel_unique hout (fun fuel hfuel => @intersectionSet_eq l₁ l₂ h₁ fuel hfuel)
    rw [← hids]
    exact heq
  · intro heq
    exact ⟨_, 2 ^ 31 + 1, fun fuel hfuel => intersectionSet_eq h₁ hfuel, hids.trans heq⟩

theorem keptIds_subset : keptIds l₁ l₂ ⊆ {x | x ∈ metIds l₁ l₂} := by
  intro id hid
  obtain ⟨x, hx, heq⟩ := List.mem_map.mp (rising_subset hid)
  rwa [← Nat.cast_inj.mp heq]

theorem metIds_ascending (h : Canonical l₁) : (metIds l₁ l₂).Pairwise (· < ·) := by
  refine List.Pairwise.filter _ ?_
  induction l₁ with
  | nil => exact List.Pairwise.nil
  | cons r l ih =>
      obtain ⟨hr, hl, hlt⟩ := Canonical.cons_iff.mp h
      obtain ⟨is, his, hasc, hset, -⟩ := forIds_range hr (Nat.lt_succ_self (2 ^ 31))
      have hloop : r.loopIds = is := by rw [Range.loopIds, his, Option.getD_some]
      rw [List.flatMap_cons, hloop]
      refine List.pairwise_append.mpr ⟨hasc, ih hl, fun x hx y hy => ?_⟩
      obtain ⟨q, hq, hyq⟩ := List.mem_flatMap.mp hy
      obtain ⟨js, hjs, -, hsetq, -⟩ := forIds_range (hl.ok q hq) (Nat.lt_succ_self (2 ^ 31))
      have hloopq : q.loopIds = js := by rw [Range.loopIds, hjs, Option.getD_some]
      rw [hloopq] at hyq
      have hxr : x ∈ r.ids := hset ▸ hx
      have hyq' : y ∈ q.ids := hsetq ▸ hyq
      have hxle := (segment_le hxr).2
      have hyge := (segment_le hyq').1
      exact (hxle.trans_lt (hlt q hq)).trans_le hyge

theorem keptIds_of_runs {xs : List ℕ} {rs : List (ℤ × List ℤ)} (hmet : metIds l₁ l₂ = xs)
    (hruns : runs (xs.map (Nat.cast : ℕ → ℤ)) = rs) :
    keptIds l₁ l₂ = {id : ℕ | ∃ p ∈ rs, 0 ≤ p.1 ∧ (id : ℤ) ∈ p.2} := by
  rw [keptIds, hmet, rising, hruns]
  rfl

end Intersection

end GridEngine
