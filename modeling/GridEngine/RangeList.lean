import GridEngine.Words
import GridEngine.Segments
import Mathlib.Order.CompletePartialOrder

/-!
# Range elements and the ids they contain

An `RN_Type` element holds the words `RN_min`, `RN_max` and `RN_step`. The set `ids l` says
what a list of ranges stands for. A range is well formed when its end lies on its step grid,
and a list is canonical when its well formed ranges follow each other without overlap. On
canonical lists the number of ids computed by the source is the cardinality of `ids`.
-/

namespace GridEngine
open Segments

/-- One `RN_Type` element. -/
structure Range where
  min : ℕ
  max : ℕ
  step : ℕ
deriving DecidableEq, Repr

/-- `range_set_all_ids`: the step of a single id is normalised. -/
def rangeSetAllIds (min max step : ℕ) : Range :=
  if min ≠ max then ⟨min, max, step⟩ else ⟨min, max, 1⟩

/-- `range_correct_end`. -/
def rangeCorrectEnd (r : Range) : Range :=
  if 0 < r.step then
    if wsub r.max r.min % r.step ≠ 0 then
      rangeSetAllIds r.min (wadd r.min (wmul (wsub r.max r.min / r.step) r.step)) r.step
    else rangeSetAllIds r.min r.max r.step
  else rangeSetAllIds r.min r.max (wsub r.max r.min)

/-- `range_is_id_within`. -/
def rangeIsIdWithin (r : Range) (id : ℕ) : Bool :=
  decide (r.min ≤ id) && decide (id ≤ r.max) && decide ((id - r.min) % r.step = 0)

/-- `range_list_is_id_within`. -/
def rangeListIsIdWithin (l : List Range) (id : ℕ) : Bool :=
  l.any (fun r => rangeIsIdWithin r id)

/-- `range_get_number_of_ids`. -/
def rangeGetNumberOfIds (r : Range) : ℕ :=
  wadd 1 (wsub r.max r.min / r.step)

/-- `range_list_get_number_of_ids`. -/
def rangeListGetNumberOfIds (l : List Range) : ℕ :=
  l.foldl (fun ret r => wadd ret (rangeGetNumberOfIds r)) 0

namespace Range

/-- The ids of one range. -/
def ids (r : Range) : Set ℕ := segment r.min r.max r.step

/-- What an input range promises: `min ≤ max` and small ids and steps. -/
structure Valid (r : Range) : Prop where
  le : r.min ≤ r.max
  max_lt : r.max < 2 ^ 32
  step_pos : 1 ≤ r.step
  step_lt : r.step < 2 ^ 31
  ids_lt : ∀ id ∈ r.ids, id < 2 ^ 31

/-- Words with small ids and any step. -/
structure Small (r : Range) : Prop where
  le : r.min ≤ r.max
  max_lt : r.max < 2 ^ 31
  step_pos : 1 ≤ r.step
  step_lt : r.step < 2 ^ 32

/-- A range whose end is one of its ids. -/
structure Ok (r : Range) : Prop where
  max_mem : r.max ∈ r.ids
  max_lt : r.max < 2 ^ 31
  step_pos : 1 ≤ r.step
  step_lt : r.step < 2 ^ 31

variable {r : Range}

theorem Ok.le (h : r.Ok) : r.min ≤ r.max := (segment_le h.max_mem).1

theorem Ok.min_mem (h : r.Ok) : r.min ∈ r.ids := ⟨left_mem_grid, h.le⟩

theorem Ok.max_grid (h : r.Ok) : r.max ∈ grid r.min r.step := h.max_mem.1

theorem Ok.valid (h : r.Ok) : r.Valid where
  le := h.le
  max_lt := by have := h.max_lt; omega
  step_pos := h.step_pos
  step_lt := h.step_lt
  ids_lt := fun _ hid => (segment_le hid).2.trans_lt h.max_lt

/-- `range_correct_end` makes the range well formed and changes none of its ids. -/
structure Corrects (r : Range) : Prop where
  ok : (rangeCorrectEnd r).Ok
  min_eq : (rangeCorrectEnd r).min = r.min
  ids_eq : (rangeCorrectEnd r).ids = r.ids

end Range

section Elements
variable {r : Range} {a e s x : ℕ}

@[simp] theorem rangeSetAllIds_min : (rangeSetAllIds a e s).min = a := by
  unfold rangeSetAllIds
  split_ifs <;> rfl

@[simp] theorem rangeSetAllIds_max : (rangeSetAllIds a e s).max = e := by
  unfold rangeSetAllIds
  split_ifs <;> rfl

@[simp] theorem rangeSetAllIds_ids : (rangeSetAllIds a e s).ids = segment a e s := by
  unfold rangeSetAllIds
  split_ifs with h
  · rfl
  · obtain rfl : a = e := not_not.mp h
    simp [Range.ids]

theorem rangeSetAllIds_ok (he : e ∈ grid a s) (hlt : e < 2 ^ 31) (hs : 1 ≤ s)
    (hs' : s < 2 ^ 31) : (rangeSetAllIds a e s).Ok := by
  have hmem : e ∈ segment a e s := ⟨he, le_rfl⟩
  refine ⟨by simpa using hmem, by simpa using hlt, ?_, ?_⟩
  · unfold rangeSetAllIds
    split_ifs
    · exact hs
    · exact le_rfl
  · unfold rangeSetAllIds
    split_ifs
    · exact hs'
    · norm_num

theorem Range.Valid.corrects (h : r.Valid) : r.Corrects := by
  have hle := h.le
  have hlt := h.max_lt
  have hw : wsub r.max r.min = r.max - r.min := wsub_eq hle hlt
  have hround := round_mem_segment (s := r.step) hle
  have hrlt := h.ids_lt _ hround
  have hdiv := Nat.div_mul_le_self (r.max - r.min) r.step
  have hend : wadd r.min (wmul ((r.max - r.min) / r.step) r.step) =
      r.min + (r.max - r.min) / r.step * r.step := by
    rw [wmul_eq (by omega), wadd_eq (by omega)]
  have hstep := h.step_pos
  suffices hspec : (rangeCorrectEnd r).Ok ∧ (rangeCorrectEnd r).min = r.min ∧
      (rangeCorrectEnd r).ids = r.ids from ⟨hspec.1, hspec.2.1, hspec.2.2⟩
  unfold rangeCorrectEnd
  rw [if_pos (by omega), hw, hend]
  split_ifs with hmod
  · refine ⟨rangeSetAllIds_ok hround.1 hrlt hstep h.step_lt, by simp, ?_⟩
    rw [rangeSetAllIds_ids, segment_round (by omega) hle, Range.ids]
  · have hmax : r.max ∈ r.ids := mem_segment_iff_mod.mpr ⟨hle, le_rfl, not_not.mp hmod⟩
    exact ⟨rangeSetAllIds_ok hmax.1 (h.ids_lt _ hmax) hstep h.step_lt, by simp, by
      rw [rangeSetAllIds_ids, Range.ids]⟩

/-- With a step behind its end a range is its first id, also for `range_correct_end`. -/
theorem Range.Small.corrects (h : r.Small) : r.Corrects := by
  have hle := h.le
  have hmax := h.max_lt
  have hpos := h.step_pos
  by_cases hstep : r.step < 2 ^ 31
  · have hvalid : r.Valid := ⟨hle, by omega, hpos, hstep,
      fun id hid => (segment_le hid).2.trans_lt hmax⟩
    exact hvalid.corrects
  · have hids : r.ids = {r.min} := segment_eq_singleton hle (by omega)
    have heq : rangeCorrectEnd r = ⟨r.min, r.min, 1⟩ := by
      have hdiv : (r.max - r.min) / r.step = 0 := Nat.div_eq_of_lt (by omega)
      have hmod : (r.max - r.min) % r.step = r.max - r.min := Nat.mod_eq_of_lt (by omega)
      rw [rangeCorrectEnd, if_pos (by omega), wsub_eq hle (by omega), hdiv, hmod, wmul_eq (by omega),
        Nat.zero_mul, wadd_eq (by omega), Nat.add_zero]
      split_ifs with hne
      · simp [rangeSetAllIds]
      · have heq : r.max = r.min := by omega
        simp [rangeSetAllIds, heq]
    have hok : Range.Ok ⟨r.min, r.min, 1⟩ := by
      refine ⟨?_, by simp only; omega, le_rfl, by norm_num⟩
      rw [Range.ids, segment_self]
      rfl
    refine ⟨heq ▸ hok, by rw [heq], ?_⟩
    rw [heq, hids, Range.ids, segment_self]

theorem rangeIsIdWithin_iff : rangeIsIdWithin r x = true ↔ x ∈ r.ids := by
  simp [rangeIsIdWithin, Range.ids, mem_segment_iff_mod, and_assoc]

end Elements

/-- The ids of a list of ranges. -/
def ids (l : List Range) : Set ℕ := {x | ∃ r ∈ l, x ∈ r.ids}

section Ids
variable {l l₁ l₂ : List Range} {r : Range} {x : ℕ}

theorem mem_ids : x ∈ ids l ↔ ∃ r ∈ l, x ∈ r.ids := Iff.rfl

@[simp] theorem ids_nil : ids [] = ∅ := by
  ext x
  simp [ids]

@[simp] theorem ids_cons : ids (r :: l) = r.ids ∪ ids l := by
  ext x
  simp [mem_ids]

@[simp] theorem ids_append : ids (l₁ ++ l₂) = ids l₁ ∪ ids l₂ := by
  ext x
  simp [mem_ids, or_and_right, exists_or]

@[simp] theorem ids_reverse : ids l.reverse = ids l := by
  ext x
  simp [mem_ids]

theorem ids_perm (h : l₁.Perm l₂) : ids l₁ = ids l₂ := by
  ext x
  simp only [mem_ids, h.mem_iff]

theorem rangeListIsIdWithin_iff : rangeListIsIdWithin l x = true ↔ x ∈ ids l := by
  simp [rangeListIsIdWithin, rangeIsIdWithin_iff, mem_ids]

end Ids

/-- Well formed ranges in ascending order whose intervals are disjoint. -/
structure Canonical (l : List Range) : Prop where
  ok : ∀ r ∈ l, r.Ok
  sorted : l.Pairwise (fun a b => a.max < b.min)

namespace Canonical
variable {l l₁ l₂ : List Range} {r : Range}

theorem nil : Canonical [] := ⟨by simp, List.Pairwise.nil⟩

theorem singleton (h : r.Ok) : Canonical [r] := ⟨by simpa using h, by simp⟩

theorem append_iff : Canonical (l₁ ++ l₂) ↔
    Canonical l₁ ∧ Canonical l₂ ∧ ∀ a ∈ l₁, ∀ b ∈ l₂, a.max < b.min := by
  constructor
  · rintro ⟨hok, hs⟩
    rw [List.pairwise_append] at hs
    exact ⟨⟨fun r hr => hok r (by simp [hr]), hs.1⟩,
      ⟨fun r hr => hok r (by simp [hr]), hs.2.1⟩, hs.2.2⟩
  · rintro ⟨h₁, h₂, h⟩
    refine ⟨fun r hr => ?_, List.pairwise_append.mpr ⟨h₁.sorted, h₂.sorted, h⟩⟩
    rcases List.mem_append.mp hr with hr | hr
    · exact h₁.ok r hr
    · exact h₂.ok r hr

theorem cons_iff : Canonical (r :: l) ↔
    r.Ok ∧ Canonical l ∧ ∀ b ∈ l, r.max < b.min := by
  rw [← List.singleton_append, append_iff]
  constructor
  · rintro ⟨h₁, h₂, h⟩
    exact ⟨h₁.ok r (by simp), h₂, h r (by simp)⟩
  · rintro ⟨h₁, h₂, h⟩
    exact ⟨singleton h₁, h₂, by simpa using h⟩

theorem min_lt (h : Canonical l) : l.Pairwise (fun a b => a.min < b.min) :=
  h.sorted.imp_of_mem (fun ha _ hab => (h.ok _ ha).le.trans_lt hab)

theorem ids_lt (h : Canonical l) {x : ℕ} (hx : x ∈ ids l) : x < 2 ^ 31 := by
  obtain ⟨r, hr, hxr⟩ := hx
  exact (h.ok r hr).valid.ids_lt x hxr

theorem disjoint_ids (h : ∀ b ∈ l, r.max < b.min) : Disjoint r.ids (ids l) := by
  rw [Set.disjoint_left]
  rintro x hx ⟨b, hb, hxb⟩
  have hrb := h b hb
  have hxr := segment_le hx
  have hxb := segment_le hxb
  omega

end Canonical

section Count
variable {l : List Range} {r : Range}

theorem ids_finite : (ids l).Finite := by
  induction l with
  | nil => simp
  | cons r l ih => simpa using ⟨segment_finite, ih⟩

theorem rangeGetNumberOfIds_eq (h : r.Ok) : rangeGetNumberOfIds r = r.ids.ncard := by
  have hle := h.le
  have hlt := h.max_lt
  have hdiv := Nat.div_le_self (r.max - r.min) r.step
  rw [Range.ids, ncard_segment h.step_pos hle, rangeGetNumberOfIds,
    wsub_eq hle (by omega), wadd_eq (by omega), Nat.add_comm]

theorem ncard_ids_cons (h : Canonical (r :: l)) :
    (ids (r :: l)).ncard = r.ids.ncard + (ids l).ncard := by
  have hc := Canonical.cons_iff.mp h
  rw [ids_cons, Set.ncard_union_eq (Canonical.disjoint_ids hc.2.2) segment_finite ids_finite]

theorem ncard_le_of_lt {D : Set ℕ} (h : ∀ id ∈ D, id < 2 ^ 31) : D.ncard ≤ 2 ^ 31 := by
  have hsub : D ⊆ (Finset.range (2 ^ 31) : Set ℕ) := by
    intro x hx
    simpa using h x hx
  calc D.ncard ≤ (Finset.range (2 ^ 31) : Set ℕ).ncard :=
        Set.ncard_le_ncard hsub (Finset.finite_toSet _)
    _ = 2 ^ 31 := by rw [Set.ncard_coe_finset, Finset.card_range]

/-- The counting loop does not wrap, since ids are below `2 ^ 31`. -/
theorem rangeListGetNumberOfIds_eq (h : Canonical l) :
    rangeListGetNumberOfIds l = (ids l).ncard := by
  have hgen : ∀ (m : List Range) (acc : ℕ), Canonical m → acc + (ids m).ncard < 2 ^ 32 →
      m.foldl (fun ret r => wadd ret (rangeGetNumberOfIds r)) acc = acc + (ids m).ncard := by
    intro m
    induction m with
    | nil => intro acc _ _; simp
    | cons r m ih =>
        intro acc hm hlt
        have hc := Canonical.cons_iff.mp hm
        rw [ncard_ids_cons hm] at hlt ⊢
        rw [List.foldl_cons, rangeGetNumberOfIds_eq hc.1, wadd_eq (by omega),
          ih _ hc.2.1 (by omega), Nat.add_assoc]
  have hle := ncard_le_of_lt (fun x hx => h.ids_lt hx)
  rw [rangeListGetNumberOfIds, hgen l 0 h (by omega), Nat.zero_add]

end Count

end GridEngine
