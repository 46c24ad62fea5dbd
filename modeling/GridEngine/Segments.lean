import Mathlib.Tactic

/-!
# Stepped segments of natural numbers

A grid is an arithmetic progression, and a segment is the part of a grid up to an end
point. Cutting a grid behind one of its own points is the only fact that the splitting,
joining and shrinking of segments needs. The library closes with the number of points of a
segment.
-/

namespace Segments

/-- All points `a, a + s, a + 2 * s, ...`. -/
def grid (a s : ℕ) : Set ℕ := {x | ∃ k, x = a + k * s}

/-- The grid points up to and including `e`. -/
def segment (a e s : ℕ) : Set ℕ := {x | x ∈ grid a s ∧ x ≤ e}

variable {a e s x y : ℕ}

theorem mem_grid : x ∈ grid a s ↔ ∃ k, x = a + k * s := Iff.rfl

theorem mem_segment : x ∈ segment a e s ↔ x ∈ grid a s ∧ x ≤ e := Iff.rfl

theorem left_mem_grid : a ∈ grid a s := ⟨0, by simp⟩

theorem grid_le (h : x ∈ grid a s) : a ≤ x := by
  obtain ⟨k, rfl⟩ := h
  exact Nat.le_add_right a _

theorem segment_le (h : x ∈ segment a e s) : a ≤ x ∧ x ≤ e := ⟨grid_le h.1, h.2⟩

theorem mem_grid_iff_mod : x ∈ grid a s ↔ a ≤ x ∧ (x - a) % s = 0 := by
  constructor
  · rintro ⟨k, rfl⟩
    exact ⟨Nat.le_add_right a _, by simp⟩
  · rintro ⟨hle, hmod⟩
    obtain ⟨k, hk⟩ := Nat.dvd_of_mod_eq_zero hmod
    exact ⟨k, by rw [Nat.mul_comm k s, ← hk]; omega⟩

theorem mem_segment_iff_mod :
    x ∈ segment a e s ↔ a ≤ x ∧ x ≤ e ∧ (x - a) % s = 0 := by
  rw [mem_segment, mem_grid_iff_mod]
  tauto

theorem grid_trans (hy : y ∈ grid a s) (hx : x ∈ grid y s) : x ∈ grid a s := by
  obtain ⟨k, rfl⟩ := hy
  obtain ⟨j, rfl⟩ := hx
  exact ⟨k + j, by ring⟩

theorem add_step_mem_grid (hy : y ∈ grid a s) : y + s ∈ grid a s :=
  grid_trans hy ⟨1, by simp⟩

theorem grid_of_le (hx : x ∈ grid a s) (hy : y ∈ grid a s) (hle : y ≤ x) : x ∈ grid y s := by
  obtain ⟨k, rfl⟩ := hx
  obtain ⟨j, rfl⟩ := hy
  rcases Nat.eq_zero_or_pos s with hs | hs
  · exact ⟨0, by simp [hs]⟩
  · have hjk : j ≤ k := by
      have := Nat.le_of_add_le_add_left hle
      exact Nat.le_of_mul_le_mul_right this hs
    obtain ⟨d, rfl⟩ := Nat.exists_eq_add_of_le hjk
    exact ⟨d, by ring⟩

theorem grid_lt_add (hx : x ∈ grid a s) (hy : y ∈ grid a s) (hlt : y < x) :
    x ∈ grid (y + s) s := by
  obtain ⟨k, hk⟩ := grid_of_le hx hy hlt.le
  have hk0 : k ≠ 0 := by
    rintro rfl
    omega
  obtain ⟨j, rfl⟩ := Nat.exists_eq_succ_of_ne_zero hk0
  exact ⟨j, by rw [hk, Nat.succ_mul]; ring⟩

theorem segment_cut {p : ℕ} (hp : p ∈ segment a e s) :
    segment a e s = segment a p s ∪ segment (p + s) e s := by
  ext x
  constructor
  · rintro ⟨hx, hxe⟩
    by_cases hxp : x ≤ p
    · exact Or.inl ⟨hx, hxp⟩
    · exact Or.inr ⟨grid_lt_add hx hp.1 (by omega), hxe⟩
  · rintro (⟨hx, hxp⟩ | ⟨hx, hxe⟩)
    · exact ⟨hx, hxp.trans hp.2⟩
    · exact ⟨grid_trans (add_step_mem_grid hp.1) hx, hxe⟩

theorem segment_eq_empty (h : e < a) : segment a e s = ∅ := by
  ext x
  simp only [Set.mem_empty_iff_false, iff_false]
  intro hx
  have := segment_le hx
  omega

@[simp] theorem segment_self : segment a a s = {a} := by
  ext x
  constructor
  · intro hx
    have := segment_le hx
    exact Set.mem_singleton_iff.mpr (by omega)
  · rintro rfl
    exact ⟨left_mem_grid, le_rfl⟩

theorem segment_eq_singleton (h : a ≤ e) (hlt : e < a + s) : segment a e s = {a} := by
  rw [segment_cut (p := a) ⟨left_mem_grid, h⟩, segment_self, segment_eq_empty hlt,
    Set.union_empty]

/-- Taking out an inner grid point leaves the segments on both sides of it. -/
theorem segment_diff_cut {p : ℕ} (hs : 0 < s) (hp : p ∈ segment a e s) (hap : a ≠ p) :
    p - s ∈ grid a s ∧ a ≤ p - s ∧ s ≤ p ∧
      segment a e s \ {p} = segment a (p - s) s ∪ segment (p + s) e s := by
  obtain ⟨k, hk⟩ := hp.1
  have hk0 : k ≠ 0 := by
    rintro rfl
    omega
  obtain ⟨j, rfl⟩ := Nat.exists_eq_succ_of_ne_zero hk0
  have hmul : j.succ * s = j * s + s := Nat.succ_mul j s
  have hprev : p - s = a + j * s := by omega
  have hgrid : p - s ∈ grid a s := ⟨j, hprev⟩
  refine ⟨hgrid, by omega, by omega, ?_⟩
  have hcut := segment_cut (e := p) (p := p - s) ⟨hgrid, by omega⟩
  have hback : p - s + s = p := by omega
  rw [hback, segment_self] at hcut
  rw [segment_cut hp, hcut]
  ext x
  simp only [Set.mem_sdiff, Set.mem_union, Set.mem_singleton_iff]
  constructor
  · rintro ⟨(hx | hx) | hx, hne⟩
    · exact Or.inl hx
    · exact absurd hx hne
    · exact Or.inr hx
  · rintro (hx | hx)
    · have := (segment_le hx).2
      exact ⟨Or.inl (Or.inl hx), by omega⟩
    · have := (segment_le hx).1
      exact ⟨Or.inr hx, by omega⟩

theorem segment_diff_left (hs : 0 < s) (h : a ≤ e) :
    segment a e s \ {a} = segment (a + s) e s := by
  rw [segment_cut (p := a) ⟨left_mem_grid, h⟩, segment_self]
  ext x
  simp only [Set.mem_sdiff, Set.mem_union, Set.mem_singleton_iff]
  constructor
  · rintro ⟨hx | hx, hne⟩
    · exact absurd hx hne
    · exact hx
  · intro hx
    have := (segment_le hx).1
    exact ⟨Or.inr hx, by omega⟩

/-- Only grid points count, so an end point may be rounded down to the grid. -/
theorem segment_round (hs : 0 < s) (h : a ≤ e) :
    segment a (a + (e - a) / s * s) s = segment a e s := by
  have hdm := Nat.div_add_mod (e - a) s
  have hml := Nat.mod_lt (e - a) hs
  rw [Nat.mul_comm] at hdm
  ext x
  constructor
  · rintro ⟨hx, hxe⟩
    exact ⟨hx, by omega⟩
  · rintro ⟨⟨k, rfl⟩, hxe⟩
    refine ⟨⟨k, rfl⟩, Nat.add_le_add_left (Nat.mul_le_mul_right s ?_) a⟩
    exact (Nat.le_div_iff_mul_le hs).mpr (by omega)

theorem round_mem_segment (h : a ≤ e) :
    a + (e - a) / s * s ∈ segment a e s := by
  have := Nat.div_mul_le_self (e - a) s
  exact ⟨⟨_, rfl⟩, by omega⟩

/-- The points of a segment in ascending order. -/
def points (a s n : ℕ) : List ℕ := List.range' a n s

theorem mem_points_iff (hs : 0 < s) (h : a ≤ e) :
    x ∈ points a s ((e - a) / s + 1) ↔ x ∈ segment a e s := by
  rw [← segment_round hs h]
  simp only [points, List.mem_range', mem_segment, mem_grid]
  constructor
  · rintro ⟨i, hi, rfl⟩
    refine ⟨⟨i, by ring⟩, ?_⟩
    rw [Nat.mul_comm s i]
    exact Nat.add_le_add_left (Nat.mul_le_mul_right s (by omega)) a
  · rintro ⟨⟨k, rfl⟩, hk⟩
    refine ⟨k, ?_, by ring⟩
    have := Nat.le_of_mul_le_mul_right (Nat.le_of_add_le_add_left hk) hs
    omega

theorem ncard_segment (hs : 0 < s) (h : a ≤ e) :
    (segment a e s).ncard = (e - a) / s + 1 := by
  have hset : segment a e s = ((points a s ((e - a) / s + 1)).toFinset : Set ℕ) := by
    ext x
    rw [List.coe_toFinset, Set.mem_ofPred_eq, mem_points_iff hs h]
  rw [hset, Set.ncard_coe_finset, List.toFinset_card_of_nodup, points, List.length_range']
  exact List.nodup_range' s hs

theorem segment_finite : (segment a e s).Finite :=
  (Set.finite_Iic e).subset (fun _ hx => hx.2)

end Segments

/-!
## Blocks of two grids

Every point of a grid of step `s` begins a block of `s` numbers. For two grids with one origin,
the points of the one whose blocks meet a block of the other form a segment. Meeting is
symmetric, so each grid can be asked for the points that meet a point of the other.
-/

namespace Segments
variable {o s r a t x : ℕ}

/-- The start of the block of `x`. -/
def blockStart (o s x : ℕ) : ℕ := o + (x - o) / s * s

/-- The blocks that begin at `a` and `t` have a number in common. -/
def BlocksMeet (a s t r : ℕ) : Prop := a < t + r ∧ t < a + s

theorem blocksMeet_comm : BlocksMeet a s t r ↔ BlocksMeet t r a s := and_comm

theorem blockStart_mem_grid : blockStart o s x ∈ grid o s := ⟨_, rfl⟩

theorem blockStart_le (h : o ≤ x) : blockStart o s x ≤ x := by
  have := Nat.div_mul_le_self (x - o) s
  unfold blockStart
  omega

theorem lt_blockStart_add (hs : 0 < s) (h : o ≤ x) : x < blockStart o s x + s := by
  have hlt := Nat.lt_div_mul_add (a := x - o) hs
  unfold blockStart
  omega

theorem le_blockStart_iff (hs : 0 < s) (h : o ≤ x) (ha : a ∈ grid o s) :
    a ≤ blockStart o s x ↔ a ≤ x := by
  constructor
  · intro hle
    exact hle.trans (blockStart_le h)
  · intro hle
    by_contra hlt
    have hgrid := grid_lt_add ha blockStart_mem_grid (not_le.mp hlt)
    have := grid_le hgrid
    have := lt_blockStart_add hs h
    omega

theorem blockStart_le_iff (hs : 0 < s) (h : o ≤ x) (ha : a ∈ grid o s) :
    blockStart o s x ≤ a ↔ x < a + s := by
  constructor
  · intro hle
    have := lt_blockStart_add hs h
    omega
  · intro hlt
    by_contra hle
    have hgrid := grid_lt_add blockStart_mem_grid ha (not_le.mp hle)
    have := grid_le hgrid
    have := blockStart_le (s := s) h
    omega

/-- The points whose blocks meet the block of `t` form a segment. -/
theorem mem_segment_blocks_iff (hs : 0 < s) (hr : 0 < r) (ht : o ≤ t) :
    a ∈ segment (blockStart o s t) (blockStart o s (t + r - 1)) s ↔
      a ∈ grid o s ∧ BlocksMeet a s t r := by
  have hrange : ∀ b ∈ grid o s, blockStart o s t ≤ b ∧ b ≤ blockStart o s (t + r - 1) ↔
      BlocksMeet b s t r := by
    intro b hb
    rw [blockStart_le_iff hs ht hb, le_blockStart_iff hs (by omega) hb, BlocksMeet]
    omega
  constructor
  · intro ha
    have hgrid : a ∈ grid o s := grid_trans blockStart_mem_grid ha.1
    exact ⟨hgrid, (hrange a hgrid).mp (segment_le ha)⟩
  · rintro ⟨hgrid, hmeet⟩
    obtain ⟨hlow, hup⟩ := (hrange a hgrid).mpr hmeet
    exact ⟨grid_of_le hgrid blockStart_mem_grid hlow, hup⟩

end Segments
