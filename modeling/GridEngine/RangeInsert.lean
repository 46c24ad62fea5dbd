import GridEngine.RangeList

/-!
# Inserting one id

`range_list_insert_id` walks from the last range towards the first until it has the id
between `range` and `next_range`, and then decides among five cases. The ranges from `range`
downwards are kept in `rev`, the ranges from `next_range` upwards in `done`.

Every case yields a canonical list whose ids are the old ones and the new one.
-/

namespace GridEngine
open Segments

def singleId (id : ℕ) : Range := rangeSetAllIds id id 1

/-- Case 2: an id inside the interval of `next` but not on its grid splits it in three. -/
def splitInThree (id : ℕ) (next : Range) : List Range :=
  let factor := wsub id next.min / next.step
  let prevId := wadd next.min (wmul factor next.step)
  let nextId := wadd next.min (wmul (wadd factor 1) next.step)
  [rangeSetAllIds next.min prevId next.step, singleId id, rangeSetAllIds nextId next.max next.step]

/-- Cases 4 and 5: extend `next_range` downwards or add a range of its own. -/
def insertBelow (id : ℕ) (rev done : List Range) : List Range :=
  match done with
  | next :: rest =>
      if wsub next.min next.step = id then
        rev.reverse ++ rangeSetAllIds id next.max next.step :: rest
      else rev.reverse ++ singleId id :: done
  | [] => rev.reverse ++ [singleId id]

/-- Case 3: extend `range` upwards. -/
def insertAbove (id : ℕ) (rev done : List Range) : List Range :=
  match rev with
  | range :: prev =>
      if wadd range.max range.step = id then
        prev.reverse ++ rangeSetAllIds range.min id range.step :: done
      else insertBelow id rev done
  | [] => insertBelow id rev done

/-- The id is the last of `range` or the first of `next_range`. -/
def isBound (id : ℕ) (rev done : List Range) : Bool :=
  rev.head?.any (fun range => range.max == id) || done.head?.any (fun next => next.min == id)

def insertBetween (id : ℕ) (rev done : List Range) : List Range :=
  match done with
  | next :: rest =>
      if next.min < id then
        if wsub id next.min % next.step = 0 then rev.reverse ++ done
        else rev.reverse ++ splitInThree id next ++ rest
      else if isBound id rev done then rev.reverse ++ done
      else insertAbove id rev done
  | [] => if isBound id rev done then rev.reverse ++ done else insertAbove id rev done

/-- The search loop of `range_list_insert_id`; an empty list takes the id as its only range. -/
def insertLoop (id : ℕ) : List Range → List Range → List Range
  | [], done => done ++ [singleId id]
  | [range], done =>
      if id < range.max then insertBetween id [] (range :: done)
      else insertBetween id [range] done
  | range :: prev :: rev, done =>
      if id < range.max then insertLoop id (prev :: rev) (range :: done)
      else insertBetween id (range :: prev :: rev) done

/-- A result that is canonical and contains exactly one more id. -/
structure Adds (id : ℕ) (l out : List Range) : Prop where
  canonical : Canonical out
  ids_eq : ids out = insert id (ids l)

section Spec
variable {id : ℕ} {rev done prev rest l : List Range} {range next : Range}

theorem singleId_ok (hid : id < 2 ^ 31) : (singleId id).Ok :=
  rangeSetAllIds_ok left_mem_grid hid le_rfl (by norm_num)

@[simp] theorem singleId_ids : (singleId id).ids = {id} := by simp [singleId]

@[simp] theorem singleId_min : (singleId id).min = id := by simp [singleId]

@[simp] theorem singleId_max : (singleId id).max = id := by simp [singleId]

theorem Adds.of_mem (h : Canonical l) (hid : id ∈ ids l) : Adds id l l :=
  ⟨h, (Set.insert_eq_of_mem hid).symm⟩

theorem splitInThree_spec (h : next.Ok) (hlo : next.min < id) (hhi : id < next.max)
    (hoff : wsub id next.min % next.step ≠ 0) :
    Canonical (splitInThree id next) ∧ ids (splitInThree id next) = insert id next.ids ∧
      ∀ r ∈ splitInThree id next, next.min ≤ r.min ∧ r.max ≤ next.max := by
  have hmax := h.max_lt
  have hpos := h.step_pos
  have hstep := h.step_lt
  have hw : wsub id next.min = id - next.min := wsub_eq (by omega) (by omega)
  rw [hw] at hoff
  have hlt : next.min + (id - next.min) / next.step * next.step < id := by
    have hdm := Nat.div_add_mod (id - next.min) next.step
    rw [Nat.mul_comm] at hdm
    omega
  set f := (id - next.min) / next.step with hf
  set p := next.min + f * next.step with hp
  have hpgrid : p ∈ grid next.min next.step := ⟨f, rfl⟩
  have hnext : id < p + next.step := by
    have hml := Nat.mod_lt (id - next.min) hpos
    have hdm := Nat.div_add_mod (id - next.min) next.step
    rw [Nat.mul_comm, ← hf] at hdm
    omega
  have hmaxgrid : next.max ∈ grid (p + next.step) next.step :=
    grid_lt_add h.max_grid hpgrid (by omega)
  have hple := grid_le hmaxgrid
  have hfle : f ≤ id - next.min := Nat.div_le_self _ _
  have hfm : (f + 1) * next.step = f * next.step + next.step := by ring
  have hsplit : splitInThree id next = [rangeSetAllIds next.min p next.step, singleId id,
      rangeSetAllIds (p + next.step) next.max next.step] := by
    simp only [splitInThree, hw, ← hf]
    rw [wmul_eq (a := f) (by omega), wadd_eq (a := f) (by omega),
      wmul_eq (by omega), wadd_eq (by omega), wadd_eq (by omega), hfm, ← Nat.add_assoc]
  have hok₁ : (rangeSetAllIds next.min p next.step).Ok :=
    rangeSetAllIds_ok hpgrid (by omega) hpos hstep
  have hok₃ : (rangeSetAllIds (p + next.step) next.max next.step).Ok :=
    rangeSetAllIds_ok hmaxgrid hmax hpos hstep
  rw [hsplit]
  refine ⟨⟨?_, ?_⟩, ?_, ?_⟩
  · simp only [List.forall_mem_cons, List.not_mem_nil, false_imp_iff, implies_true, and_true]
    exact ⟨hok₁, singleId_ok (by omega), hok₃⟩
  · simp
    omega
  · have hcut : next.ids = segment next.min p next.step ∪
        segment (p + next.step) next.max next.step := segment_cut ⟨hpgrid, by omega⟩
    simp only [ids_cons, rangeSetAllIds_ids, singleId_ids, ids_nil, Set.union_empty, hcut]
    ext x
    simp only [Set.mem_union, Set.mem_insert_iff, Set.mem_singleton_iff]
    tauto
  · simp
    omega

/-- What the search loop has established when it stops between `rev` and `done`. -/
structure Between (id : ℕ) (rev done : List Range) : Prop where
  canonical : Canonical (rev.reverse ++ done)
  above : ∀ range ∈ rev.head?, range.max ≤ id
  below : ∀ next ∈ done.head?, id < next.max
  id_lt : id < 2 ^ 31

theorem Between.rev_le (h : Between id rev done) : ∀ r ∈ rev, r.max ≤ id := by
  have hc := (Canonical.append_iff.mp h.canonical).1
  cases rev with
  | nil => simp
  | cons range prev =>
      have hr : range.max ≤ id := h.above range rfl
      rw [List.reverse_cons, Canonical.append_iff] at hc
      intro r hmem
      rcases List.mem_cons.mp hmem with rfl | hmem
      · exact hr
      · have hlt := hc.2.2 r (List.mem_reverse.mpr hmem) range (by simp)
        have hle := (hc.2.1.ok range (by simp)).le
        omega

/-- `id` lies strictly between the two neighbours. -/
structure Gap (id : ℕ) (rev done : List Range) : Prop where
  canonical : Canonical (rev.reverse ++ done)
  above : ∀ r ∈ rev, r.max < id
  below : ∀ r ∈ done, id < r.min
  id_lt : id < 2 ^ 31

theorem Gap.singleId_adds (h : Gap id rev done) :
    Adds id (rev.reverse ++ done) (rev.reverse ++ singleId id :: done) := by
  obtain ⟨hr, hd, hrd⟩ := Canonical.append_iff.mp h.canonical
  refine ⟨Canonical.append_iff.mpr ⟨hr, Canonical.cons_iff.mpr ⟨singleId_ok h.id_lt, hd, ?_⟩, ?_⟩, ?_⟩
  · simpa using h.below
  · intro a ha b hb
    rcases List.mem_cons.mp hb with rfl | hb
    · simpa using h.above a (List.mem_reverse.mp ha)
    · exact hrd a ha b hb
  · simp only [ids_append, ids_reverse, ids_cons, singleId_ids, Set.singleton_union,
      Set.union_insert]

theorem insertBelow_spec (h : Gap id rev done) :
    Adds id (rev.reverse ++ done) (insertBelow id rev done) := by
  cases done with
  | nil => exact h.singleId_adds
  | cons next rest =>
      simp only [insertBelow]
      split_ifs with hnext
      · obtain ⟨hr, hd, hrd⟩ := Canonical.append_iff.mp h.canonical
        obtain ⟨hn, hrest, hlt⟩ := Canonical.cons_iff.mp hd
        have hid := h.id_lt
        have hidlt := h.below next (by simp)
        have hmax := hn.max_lt
        have hle := hn.le
        have heq : next.min = id + next.step :=
          (wsub_eq_iff (by omega) hn.step_lt hid).mp hnext
        have hgrid : next.max ∈ grid id next.step :=
          grid_trans (add_step_mem_grid left_mem_grid) (heq ▸ hn.max_grid)
        refine ⟨Canonical.append_iff.mpr ⟨hr, Canonical.cons_iff.mpr ⟨?_, hrest, ?_⟩, ?_⟩, ?_⟩
        · exact rangeSetAllIds_ok hgrid hmax hn.step_pos hn.step_lt
        · simpa using hlt
        · intro a ha b hb
          rcases List.mem_cons.mp hb with rfl | hb
          · simpa using h.above a (List.mem_reverse.mp ha)
          · exact hrd a ha b (List.mem_cons_of_mem _ hb)
        · have hcut : segment id next.max next.step = {id} ∪ next.ids := by
            rw [segment_cut (p := id) ⟨left_mem_grid, by omega⟩, segment_self, ← heq, Range.ids]
          simp only [ids_append, ids_reverse, ids_cons, rangeSetAllIds_ids, hcut]
          ext x
          simp only [Set.mem_union, Set.mem_insert_iff, Set.mem_singleton_iff]
          tauto
      · exact h.singleId_adds

theorem insertAbove_spec (h : Gap id rev done) :
    Adds id (rev.reverse ++ done) (insertAbove id rev done) := by
  cases rev with
  | nil => exact insertBelow_spec h
  | cons range prev =>
      simp only [insertAbove]
      split_ifs with hrange
      · have hc := h.canonical
        rw [List.reverse_cons, List.append_assoc, List.singleton_append] at hc ⊢
        obtain ⟨hp, hd, hpd⟩ := Canonical.append_iff.mp hc
        obtain ⟨hr, hdone, hlt⟩ := Canonical.cons_iff.mp hd
        have hmax := hr.max_lt
        have hstep := hr.step_lt
        have hgap := h.above range (by simp)
        rw [wadd_eq (by omega)] at hrange
        have hgrid : id ∈ grid range.min range.step := hrange ▸ add_step_mem_grid hr.max_grid
        refine ⟨Canonical.append_iff.mpr ⟨hp, Canonical.cons_iff.mpr ⟨?_, hdone, ?_⟩, ?_⟩, ?_⟩
        · exact rangeSetAllIds_ok hgrid h.id_lt hr.step_pos hstep
        · simpa using h.below
        · intro a ha b hb
          rcases List.mem_cons.mp hb with rfl | hb
          · simpa using hpd a ha range (by simp)
          · exact hpd a ha b (List.mem_cons_of_mem _ hb)
        · have hcut : segment range.min id range.step = range.ids ∪ {id} := by
            rw [segment_cut (p := range.max) ⟨hr.max_grid, by omega⟩, hrange, segment_self,
              Range.ids]
          simp only [ids_append, ids_reverse, ids_cons, rangeSetAllIds_ids, hcut]
          ext x
          simp only [Set.mem_union, Set.mem_insert_iff, Set.mem_singleton_iff]
          tauto
      · exact insertBelow_spec h

theorem isBound_iff : isBound id rev done = true ↔
    (∃ range ∈ rev.head?, range.max = id) ∨ ∃ next ∈ done.head?, next.min = id := by
  simp [isBound, Option.any_eq_true]

theorem Between.of_isBound (h : Between id rev done) (hb : isBound id rev done = true) :
    Adds id (rev.reverse ++ done) (rev.reverse ++ done) := by
  have hok := h.canonical.ok
  apply Adds.of_mem h.canonical
  rcases isBound_iff.mp hb with ⟨range, hmem, rfl⟩ | ⟨next, hmem, rfl⟩
  · have hr := List.mem_of_mem_head? hmem
    exact ⟨range, by simp [hr], (hok range (by simp [hr])).max_mem⟩
  · have hn := List.mem_of_mem_head? hmem
    exact ⟨next, by simp [hn], (hok next (by simp [hn])).min_mem⟩

theorem Between.gap (h : Between id rev done) (hmin : ∀ next ∈ done.head?, id ≤ next.min)
    (hb : ¬ isBound id rev done = true) : Gap id rev done := by
  rw [isBound_iff, not_or] at hb
  obtain ⟨hr, hd, -⟩ := Canonical.append_iff.mp h.canonical
  refine ⟨h.canonical, ?_, ?_, h.id_lt⟩
  · intro r hmem
    cases rev with
    | nil => simp at hmem
    | cons range prev =>
        have hne : range.max ≠ id := fun heq => hb.1 ⟨range, rfl, heq⟩
        have hle := h.rev_le r hmem
        rcases List.mem_cons.mp hmem with rfl | hmem
        · omega
        · rw [List.reverse_cons, Canonical.append_iff] at hr
          have hlt := hr.2.2 r (List.mem_reverse.mpr hmem) range (by simp)
          have hrange := (hr.2.1.ok range (by simp)).le
          have := h.above range rfl
          omega
  · intro r hmem
    cases done with
    | nil => simp at hmem
    | cons next rest =>
        have hne : next.min ≠ id := fun heq => hb.2 ⟨next, rfl, heq⟩
        have hle := hmin next rfl
        rw [Canonical.cons_iff] at hd
        rcases List.mem_cons.mp hmem with rfl | hmem
        · omega
        · have hlt := hd.2.2 r hmem
          have := hd.1.le
          omega

theorem insertBetween_spec (h : Between id rev done) :
    Adds id (rev.reverse ++ done) (insertBetween id rev done) := by
  cases done with
  | nil =>
      simp only [insertBetween]
      split_ifs with hb
      · exact h.of_isBound hb
      · exact insertAbove_spec (h.gap (by simp) hb)
  | cons next rest =>
      simp only [insertBetween]
      split_ifs with hlo hgrid hb
      · obtain ⟨-, hd, -⟩ := Canonical.append_iff.mp h.canonical
        have hn := (Canonical.cons_iff.mp hd).1
        have hhi : id < next.max := h.below next rfl
        have hmax := hn.max_lt
        rw [wsub_eq hlo.le (by omega)] at hgrid
        apply Adds.of_mem h.canonical
        exact ⟨next, by simp, mem_segment_iff_mod.mpr ⟨hlo.le, hhi.le, hgrid⟩⟩
      · obtain ⟨hr, hd, hrd⟩ := Canonical.append_iff.mp h.canonical
        obtain ⟨hn, hrest, hlt⟩ := Canonical.cons_iff.mp hd
        obtain ⟨hc, hids, hin⟩ := splitInThree_spec hn hlo (h.below next rfl) hgrid
        rw [List.append_assoc]
        refine ⟨Canonical.append_iff.mpr ⟨hr, Canonical.append_iff.mpr ⟨hc, hrest, ?_⟩, ?_⟩, ?_⟩
        · intro a ha b hb
          have hle := (hin a ha).2
          have := hlt b hb
          omega
        · intro a ha b hb
          rcases List.mem_append.mp hb with hb | hb
          · have hle := (hin b hb).1
            have := hrd a ha next (by simp)
            omega
          · exact hrd a ha b (List.mem_cons_of_mem _ hb)
        · simp only [ids_append, ids_reverse, ids_cons, hids, Set.insert_union, Set.union_insert]
      · exact h.of_isBound hb
      · exact insertAbove_spec (h.gap (by simpa using hlo) hb)

theorem insertLoop_spec (hc : Canonical (rev.reverse ++ done)) (hid : id < 2 ^ 31)
    (hd : ∀ next ∈ done.head?, id < next.max) (hne : rev = [] → done = []) :
    Adds id (rev.reverse ++ done) (insertLoop id rev done) := by
  induction rev generalizing done with
  | nil =>
      obtain rfl := hne rfl
      have hgap : Gap id [] [] := ⟨hc, by simp, by simp, hid⟩
      exact hgap.singleId_adds
  | cons range prev ih =>
      have happ : (range :: prev).reverse ++ done = prev.reverse ++ range :: done := by simp
      cases prev with
      | nil =>
          unfold insertLoop
          split_ifs with hlt
          · have hbetween : Between id [] (range :: done) :=
              ⟨hc, by simp, by simpa using hlt, hid⟩
            exact insertBetween_spec hbetween
          · exact insertBetween_spec ⟨hc, by simpa using hlt, hd, hid⟩
      | cons p rev =>
          unfold insertLoop
          split_ifs with hlt
          · rw [happ] at hc ⊢
            exact ih hc (by simpa using hlt) (by simp)
          · exact insertBetween_spec ⟨hc, by simpa using hlt, hd, hid⟩

end Spec

end GridEngine
