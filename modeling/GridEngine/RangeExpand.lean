import GridEngine.RangeList

/-!
# Inserting a range into a descending list

`expand_range_list` wants to keep "a descending sorted list of non overlapping ranges". A range
that lies between two elements is inserted at the head of the list, and the loop that takes in
the elements below the one it enlarges moves on by two elements after each removal. What the
function is for is `addBlock`: one block takes the place of all elements that the range meets.
-/

namespace GridEngine
open Segments

/-- The loop over the elements behind `rr`, with what it makes of `rr`. -/
def absorb (rmin : ℕ) (rr : Range) : List Range → Range × List Range
  | [] => (rr, [])
  | ep :: rest =>
      if rmin < ep.min then
        match rest with
        | [] => (rr, [])
        | next :: rest =>
            let out := absorb rmin rr rest
            (out.1, next :: out.2)
      else if rmin ≤ ep.max then ({ rr with min := ep.min }, rest)
      else (rr, ep :: rest)

/-- The loop over the elements, with the ones already passed in reverse. -/
def expandLoop (r : Range) : List Range → List Range → List Range
  | passed, [] => passed.reverse
  | passed, ep :: rest =>
      if r.step ≠ ep.step ∨ 1 < r.step ∨ 1 < ep.step then r :: (passed.reverse ++ ep :: rest)
      else if ep.max < r.min then r :: (passed.reverse ++ ep :: rest)
      else if r.max < ep.min then
        match rest with
        | [] => passed.reverse ++ [ep, r]
        | next :: rest => expandLoop r (ep :: passed) (next :: rest)
      else if r.max ≤ ep.max ∧ ep.min ≤ r.min then passed.reverse ++ ep :: rest
      else if r.min < ep.min then
        let out := absorb r.min ⟨r.min, if ep.max < r.max then r.max else ep.max, ep.step⟩ rest
        passed.reverse ++ out.1 :: out.2
      else if ep.max < r.max then passed.reverse ++ { ep with max := r.max } :: rest
      else passed.reverse ++ ep :: rest

/-- `expand_range_list`. -/
def expandRangeList (r : Range) (rl : Option (List Range)) : List Range :=
  match rl.getD [] with
  | [] => [r]
  | ep :: rest => expandLoop r [] (ep :: rest)

/-- A range without gaps. -/
structure Block (r : Range) : Prop where
  le : r.min ≤ r.max
  step_eq : r.step = 1

/-- Blocks in descending order that do not overlap. -/
structure Descending (l : List Range) : Prop where
  blocks : ∀ b ∈ l, Block b
  sorted : l.Pairwise (fun a b => b.max < a.min)

section Blocks
variable (r : Range) (l : List Range)

def higher : List Range := l.filter (fun b => r.max < b.min)

def met : List Range := l.filter (fun b => b.min ≤ r.max ∧ r.min ≤ b.max)

def lower : List Range := l.filter (fun b => b.max < r.min)

/-- The least block around `r` and the blocks of `l`. -/
def hull : Range := l.foldl (fun h b => ⟨min h.min b.min, max h.max b.max, 1⟩) r

/-- One block takes the place of those that `r` meets. -/
def addBlock : List Range := higher r l ++ hull r (met r l) :: lower r l

/-- At most two blocks are met, and with none met `r` is above or below all of them. -/
def Fits : Prop := (met r l).length ≤ 2 ∧ (met r l = [] → higher r l = [] ∨ lower r l = [])

end Blocks

section Descending
variable {r b : Range} {l l₁ l₂ : List Range} {x : ℕ}

theorem Block.mem_ids (h : Block r) : x ∈ r.ids ↔ r.min ≤ x ∧ x ≤ r.max := by
  rw [Range.ids, h.step_eq, mem_segment_iff_mod, Nat.mod_one]
  simp

theorem descending_append_iff : Descending (l₁ ++ l₂) ↔
    Descending l₁ ∧ Descending l₂ ∧ ∀ a ∈ l₁, ∀ b ∈ l₂, b.max < a.min := by
  constructor
  · rintro ⟨hblocks, hsorted⟩
    obtain ⟨h₁, h₂, h₁₂⟩ := List.pairwise_append.mp hsorted
    exact ⟨⟨fun b hb => hblocks b (by simp [hb]), h₁⟩,
      ⟨fun b hb => hblocks b (by simp [hb]), h₂⟩, h₁₂⟩
  · rintro ⟨h₁, h₂, h₁₂⟩
    refine ⟨fun b hb => ?_, List.pairwise_append.mpr ⟨h₁.sorted, h₂.sorted, h₁₂⟩⟩
    rcases List.mem_append.mp hb with hb | hb
    · exact h₁.blocks b hb
    · exact h₂.blocks b hb

theorem descending_cons_iff : Descending (b :: l) ↔
    Block b ∧ Descending l ∧ ∀ a ∈ l, a.max < b.min := by
  rw [← List.singleton_append, descending_append_iff]
  constructor
  · rintro ⟨h₁, h₂, h₁₂⟩
    exact ⟨h₁.blocks b (by simp), h₂, h₁₂ b (by simp)⟩
  · rintro ⟨hb, hl, hlt⟩
    exact ⟨⟨by simpa using hb, by simp⟩, hl, by simpa using hlt⟩

/-- The blocks above `r`, those that it meets and those below it follow each other. -/
theorem Descending.split (h : Descending l) (hr : r.min ≤ r.max) :
    l = higher r l ++ (met r l ++ lower r l) := by
  induction l with
  | nil => rfl
  | cons b l ih =>
      obtain ⟨hb, hl, hlt⟩ := descending_cons_iff.mp h
      have hle := hb.le
      have hbelow : ∀ a ∈ l, a.min ≤ a.max ∧ a.max < b.min := fun a ha =>
        ⟨(hl.blocks a ha).le, hlt a ha⟩
      by_cases habove : r.max < b.min
      · have hmet : met r (b :: l) = met r l := List.filter_cons_of_neg (by simp; omega)
        have hlower : lower r (b :: l) = lower r l := List.filter_cons_of_neg (by simp; omega)
        have hhigher : higher r (b :: l) = b :: higher r l :=
          List.filter_cons_of_pos (by simpa using habove)
        rw [hmet, hlower, hhigher, List.cons_append, ← ih hl]
      · have hhigher : higher r (b :: l) = [] := by
          refine List.filter_eq_nil_iff.mpr fun a ha => ?_
          rcases List.mem_cons.mp ha with rfl | ha
          · simpa using habove
          · have := hbelow a ha
            simp
            omega
        have hhigherTail : higher r l = [] :=
          List.filter_eq_nil_iff.mpr fun a ha =>
            List.filter_eq_nil_iff.mp hhigher a (List.mem_cons_of_mem b ha)
        have htail := ih hl
        rw [hhigherTail, List.nil_append] at htail
        rw [hhigher, List.nil_append]
        by_cases hmeet : r.min ≤ b.max
        · have hmet : met r (b :: l) = b :: met r l :=
            List.filter_cons_of_pos (by simp; omega)
          have hlower : lower r (b :: l) = lower r l := List.filter_cons_of_neg (by simp; omega)
          rw [hmet, hlower, List.cons_append, ← htail]
        · have hmet : met r (b :: l) = [] := by
            refine List.filter_eq_nil_iff.mpr fun a ha => ?_
            rcases List.mem_cons.mp ha with rfl | ha
            · simp
              omega
            · have := hbelow a ha
              simp
              omega
          have hlower : lower r (b :: l) = b :: l := by
            refine List.filter_eq_self.mpr fun a ha => ?_
            rcases List.mem_cons.mp ha with rfl | ha
            · simp
              omega
            · have := hbelow a ha
              simp
              omega
          rw [hmet, hlower, List.nil_append]

end Descending

section Loops
variable {r b o o₁ o₂ o₃ rr : Range} {l hi lo rest passed : List Range} {rmin : ℕ}

theorem absorb_lower (hlo : ∀ b ∈ lo, b.min ≤ b.max ∧ b.max < rmin) :
    absorb rmin rr lo = (rr, lo) := by
  cases lo with
  | nil => rfl
  | cons b lo =>
      have hb := hlo b (by simp)
      rw [absorb.eq_def]
      dsimp only
      rw [if_neg (by omega), if_neg (by omega)]

theorem absorb_one (ho : rmin ≤ o.max) (hlo : ∀ b ∈ lo, b.min ≤ b.max ∧ b.max < rmin)
    (hrr : rr.min = rmin) : absorb rmin rr (o :: lo) = ({ rr with min := min rmin o.min }, lo) := by
  by_cases hin : rmin < o.min
  · have hself : ({ rr with min := min rmin o.min } : Range) = rr := by
      rw [min_eq_left hin.le, ← hrr]
    rw [hself]
    cases lo with
    | nil => rw [absorb, if_pos hin]
    | cons next lo =>
        have hrest := @absorb_lower rr lo rmin (fun b hb => hlo b (by simp [hb]))
        rw [absorb, if_pos hin, hrest]
  · rw [absorb.eq_def]
    dsimp only
    rw [if_neg hin, if_pos ho, min_eq_right (by omega)]

theorem absorb_skip (ho : rmin < o.min) :
    absorb rmin rr (o :: b :: rest) = ((absorb rmin rr rest).1, b :: (absorb rmin rr rest).2) := by
  rw [absorb, if_pos ho]

theorem absorb_min_le (hrr : rr.min ≤ rmin) : (absorb rmin rr l).1.min ≤ rmin := by
  fun_induction absorb rmin rr l with
  | case1 => exact hrr
  | case2 => exact hrr
  | case3 ep hlt next rest out ih => exact ih
  | case4 ep rest hnot hle => exact not_lt.mp hnot
  | case5 => exact hrr

theorem expandLoop_insert (hlt : b.max < r.min) :
    expandLoop r passed (b :: rest) = r :: (passed.reverse ++ b :: rest) := by
  rw [expandLoop.eq_def]
  dsimp only
  rw [if_pos hlt, ite_self]

theorem expandLoop_pass (hr : Block r) (hb : Block b) (hlt : r.max < b.min) (hrest : rest ≠ []) :
    expandLoop r passed (b :: rest) = expandLoop r (b :: passed) rest := by
  have hle := hr.le
  have hleb := hb.le
  cases rest with
  | nil => exact absurd rfl hrest
  | cons next rest =>
      rw [expandLoop, hr.step_eq, hb.step_eq, if_neg (by simp), if_neg (by omega), if_pos hlt]

theorem expandLoop_last (hr : Block r) (hb : Block b) (hlt : r.max < b.min) :
    expandLoop r passed [b] = passed.reverse ++ [b, r] := by
  have hle := hr.le
  have hleb := hb.le
  rw [expandLoop, hr.step_eq, hb.step_eq, if_neg (by simp), if_neg (by omega), if_pos hlt]

theorem expandLoop_meet (hr : Block r) (hb : Block b) (h₁ : r.min ≤ b.max) (h₂ : b.min ≤ r.max) :
    expandLoop r passed (b :: rest) = passed.reverse ++
      if r.min < b.min then
        (absorb r.min ⟨r.min, max b.max r.max, 1⟩ rest).1 ::
          (absorb r.min ⟨r.min, max b.max r.max, 1⟩ rest).2
      else ⟨b.min, max b.max r.max, 1⟩ :: rest := by
  have hmax : (if b.max < r.max then r.max else b.max) = max b.max r.max := by
    split_ifs with h
    · rw [max_eq_right h.le]
    · rw [max_eq_left (not_lt.mp h)]
  rw [expandLoop.eq_def]
  dsimp only
  rw [hr.step_eq, hb.step_eq, if_neg (by simp), if_neg (by omega), if_neg (by omega)]
  by_cases hin : r.max ≤ b.max ∧ b.min ≤ r.min
  · have hself : (⟨b.min, max b.max r.max, 1⟩ : Range) = b := by
      rw [max_eq_left hin.1, ← hb.step_eq]
    rw [if_pos hin, if_neg (by omega), hself]
  · rw [if_neg hin]
    by_cases hlt : r.min < b.min
    · rw [if_pos hlt, if_pos hlt, hmax]
    · rw [if_neg hlt, if_neg hlt, if_pos (by omega), max_eq_right (by omega)]

theorem expandLoop_higher (hr : Block r) (hhi : ∀ b ∈ hi, Block b ∧ r.max < b.min)
    (hrest : rest ≠ []) :
    expandLoop r passed (hi ++ rest) = expandLoop r (hi.reverse ++ passed) rest := by
  induction hi generalizing passed with
  | nil => rfl
  | cons b hi ih =>
      obtain ⟨hb, hlt⟩ := hhi b (by simp)
      rw [List.cons_append, expandLoop_pass hr hb hlt (by simp [hrest]),
        ih (fun c hc => hhi c (by simp [hc])), List.reverse_cons, List.append_assoc,
        List.singleton_append]

theorem expandLoop_append (hr : Block r) (hhi : ∀ b ∈ hi, Block b ∧ r.max < b.min)
    (hne : hi ≠ []) : expandLoop r [] hi = hi ++ [r] := by
  obtain ⟨init, b, rfl⟩ := (List.eq_nil_or_concat' hi).resolve_left hne
  obtain ⟨hb, hlt⟩ := hhi b (by simp)
  rw [expandLoop_higher hr (fun c hc => hhi c (by simp [hc])) (by simp),
    expandLoop_last hr hb hlt]
  simp

theorem expandRangeList_eq (hl : l ≠ []) : expandRangeList r (some l) = expandLoop r [] l := by
  cases l with
  | nil => exact absurd rfl hl
  | cons b l => rfl

end Loops

section Spec
variable {r : Range} {l : List Range} {x : ℕ}

theorem higher_spec (h : Descending l) : ∀ b ∈ higher r l, Block b ∧ r.max < b.min := by
  intro b hb
  obtain ⟨hbl, hlt⟩ := List.mem_filter.mp hb
  exact ⟨h.blocks b hbl, of_decide_eq_true hlt⟩

theorem met_spec (h : Descending l) :
    ∀ b ∈ met r l, Block b ∧ b.min ≤ r.max ∧ r.min ≤ b.max := by
  intro b hb
  obtain ⟨hbl, hmet⟩ := List.mem_filter.mp hb
  exact ⟨h.blocks b hbl, of_decide_eq_true hmet⟩

theorem lower_spec (h : Descending l) : ∀ b ∈ lower r l, Block b ∧ b.max < r.min := by
  intro b hb
  obtain ⟨hbl, hlt⟩ := List.mem_filter.mp hb
  exact ⟨h.blocks b hbl, of_decide_eq_true hlt⟩

/-- Where a range fits, the source does what `addBlock` says. -/
theorem expandRangeList_of_fits (h : Descending l) (hr : Block r) (hfit : Fits r l) :
    expandRangeList r (some l) = addBlock r l := by
  have hhi := higher_spec (r := r) h
  have hme := met_spec (r := r) h
  have hlo := lower_spec (r := r) h
  have hsplit := h.split hr.le
  have hsorted := h.sorted
  obtain ⟨hlen, hnone⟩ := hfit
  rw [addBlock]
  rw [hsplit] at hsorted
  conv_lhs => rw [hsplit]
  generalize higher r l = hi at *
  generalize met r l = me at *
  generalize lower r l = lo at *
  match me, hlen with
  | [], _ =>
      rcases hnone rfl with rfl | rfl
      · cases lo with
        | nil => rfl
        | cons b lo =>
            obtain ⟨hb, hlt⟩ := hlo b (by simp)
            exact expandLoop_insert hlt
      · cases hi with
        | nil => rfl
        | cons b hi =>
            rw [List.nil_append, List.append_nil, expandRangeList_eq (by simp)]
            exact expandLoop_append hr hhi (by simp)
  | [o], _ =>
      obtain ⟨ho, hle, hge⟩ := hme o (by simp)
      have hbelow : ∀ b ∈ lo, b.min ≤ b.max ∧ b.max < r.min := fun b hb =>
        ⟨(hlo b hb).1.le, (hlo b hb).2⟩
      have hhull : hull r [o] = ⟨min r.min o.min, max o.max r.max, 1⟩ := by
        simp [hull, max_comm]
      rw [expandRangeList_eq (by simp), expandLoop_higher hr hhi (by simp), List.append_nil,
        List.singleton_append, expandLoop_meet hr ho hge hle, List.reverse_reverse, hhull]
      by_cases hlt : r.min < o.min
      · rw [if_pos hlt, absorb_lower hbelow, min_eq_left hlt.le]
      · rw [if_neg hlt, min_eq_right (not_lt.mp hlt)]
  | [o₁, o₂], _ =>
      obtain ⟨ho₁, hle₁, hge₁⟩ := hme o₁ (by simp)
      obtain ⟨ho₂, hle₂, hge₂⟩ := hme o₂ (by simp)
      have hbelow : ∀ b ∈ lo, b.min ≤ b.max ∧ b.max < r.min := fun b hb =>
        ⟨(hlo b hb).1.le, (hlo b hb).2⟩
      have horder : o₂.max < o₁.min := by
        have hpair := (List.pairwise_append.mp hsorted).2.1
        simp only [List.cons_append, List.pairwise_cons] at hpair
        exact hpair.1 o₂ (by simp)
      have hle := ho₁.le
      have hhull : hull r [o₁, o₂] = ⟨min r.min o₂.min, max o₁.max r.max, 1⟩ := by
        simp only [hull, List.foldl_cons, List.foldl_nil]
        congr 1
        · omega
        · omega
      have habsorb := @absorb_one o₂ ⟨r.min, max o₁.max r.max, 1⟩ lo r.min hge₂ hbelow rfl
      rw [expandRangeList_eq (by simp), expandLoop_higher hr hhi (by simp), List.append_nil,
        List.cons_append, expandLoop_meet hr ho₁ hge₁ hle₁, List.reverse_reverse,
        if_pos (by omega), List.singleton_append, habsorb, hhull]

theorem hull_spec (hr : Block r) (hl : ∀ b ∈ l, Block b ∧ b.min ≤ r.max ∧ r.min ≤ b.max) :
    Block (hull r l) ∧ ∀ x, x ∈ (hull r l).ids ↔ x ∈ r.ids ∨ x ∈ ids l := by
  induction l generalizing r with
  | nil => exact ⟨hr, by simp [hull]⟩
  | cons b l ih =>
      obtain ⟨hb, hle, hge⟩ := hl b (by simp)
      have hbr := hb.le
      have hrle := hr.le
      have hjoin : Block ⟨min r.min b.min, max r.max b.max, 1⟩ := ⟨by simp only; omega, rfl⟩
      obtain ⟨hblock, hids⟩ := ih hjoin (fun c hc => by
        obtain ⟨hc, hcle, hcge⟩ := hl c (by simp [hc])
        exact ⟨hc, by simp only; omega, by simp only; omega⟩)
      refine ⟨hblock, fun x => (hids x).trans ?_⟩
      have hboth : (min r.min b.min ≤ x ∧ x ≤ max r.max b.max) ↔
          (r.min ≤ x ∧ x ≤ r.max) ∨ (b.min ≤ x ∧ x ≤ b.max) := by omega
      rw [hjoin.mem_ids, hboth, hr.mem_ids, ids_cons, Set.mem_union, hb.mem_ids, or_assoc]

theorem hull_bounds {c : ℕ} :
    (r.max < c → (∀ b ∈ l, b.max < c) → (hull r l).max < c) ∧
      (c < r.min → (∀ b ∈ l, c < b.min) → c < (hull r l).min) := by
  induction l generalizing r with
  | nil => exact ⟨fun h _ => h, fun h _ => h⟩
  | cons b l ih =>
      obtain ⟨hmax, hmin⟩ := @ih ⟨min r.min b.min, max r.max b.max, 1⟩
      constructor
      · intro hr hl
        exact hmax (max_lt hr (hl b (by simp))) (fun d hd => hl d (by simp [hd]))
      · intro hr hl
        exact hmin (lt_min hr (hl b (by simp))) (fun d hd => hl d (by simp [hd]))

theorem addBlock_spec (h : Descending l) (hr : Block r) :
    Descending (addBlock r l) ∧ ids (addBlock r l) = ids l ∪ r.ids := by
  have hhi := higher_spec (r := r) h
  have hlo := lower_spec (r := r) h
  obtain ⟨hhull, hids⟩ := hull_spec hr (met_spec (r := r) h)
  have hsplit := h.split hr.le
  have hparts := h
  rw [hsplit] at hparts
  obtain ⟨hhigher, hrest, hhr⟩ := descending_append_iff.mp hparts
  obtain ⟨hmet, hlower, hml⟩ := descending_append_iff.mp hrest
  have hbelow : ∀ b ∈ lower r l, b.max < (hull r (met r l)).min := fun b hb =>
    hull_bounds.2 (hlo b hb).2 (fun m hm => hml m hm b hb)
  have habove : ∀ a ∈ higher r l, (hull r (met r l)).max < a.min := fun a ha =>
    hull_bounds.1 (hhi a ha).2 (fun m hm => hhr a ha m (by simp [hm]))
  constructor
  · refine descending_append_iff.mpr
      ⟨hhigher, descending_cons_iff.mpr ⟨hhull, hlower, hbelow⟩, fun a ha b hb => ?_⟩
    rcases List.mem_cons.mp hb with rfl | hb
    · exact habove a ha
    · exact hhr a ha b (by simp [hb])
  · conv_rhs => rw [hsplit]
    have hhullIds : (hull r (met r l)).ids = r.ids ∪ ids (met r l) := Set.ext hids
    rw [addBlock, ids_append, ids_append, ids_append, ids_cons, hhullIds]
    ext x
    simp only [Set.mem_union]
    tauto

/-- A range that does not fit leaves a list that is not descending, or whose blocks overlap. -/
theorem expandRangeList_of_not_fits (h : Descending l) (hr : Block r) (hfit : ¬ Fits r l) :
    ¬ Descending (expandRangeList r (some l)) := by
  have hhi := higher_spec (r := r) h
  have hme := met_spec (r := r) h
  have hlo := lower_spec (r := r) h
  have hsplit := h.split hr.le
  have hsorted := h.sorted
  have hle := hr.le
  rw [Fits] at hfit
  rw [hsplit] at hsorted ⊢
  generalize higher r l = hi at *
  generalize met r l = me at *
  generalize lower r l = lo at *
  match me, hfit with
  | [], hfit =>
      simp only [List.length_nil, Nat.zero_le, forall_const, true_and, not_or] at hfit
      obtain ⟨a, hi, rfl⟩ := List.exists_cons_of_ne_nil hfit.1
      obtain ⟨b, lo, rfl⟩ := List.exists_cons_of_ne_nil hfit.2
      obtain ⟨hb, hlt⟩ := hlo b (by simp)
      rw [expandRangeList_eq (by simp), List.nil_append, expandLoop_higher hr hhi (by simp),
        expandLoop_insert hlt]
      intro hdesc
      have hhead := (descending_cons_iff.mp hdesc).2.2 a (by simp)
      obtain ⟨ha, hgt⟩ := hhi a (by simp)
      have := ha.le
      omega
  | [o], hfit => exact absurd hfit (by simp)
  | [o₁, o₂], hfit => exact absurd hfit (by simp)
  | o₁ :: o₂ :: o₃ :: me, _ =>
      obtain ⟨ho₁, hle₁, hge₁⟩ := hme o₁ (by simp)
      obtain ⟨ho₂, hle₂, hge₂⟩ := hme o₂ (by simp)
      obtain ⟨ho₃, hle₃, hge₃⟩ := hme o₃ (by simp)
      have hpair := (List.pairwise_append.mp hsorted).2.1
      simp only [List.cons_append, List.pairwise_cons] at hpair
      have h₁₂ := hpair.1 o₂ (by simp)
      have h₂₃ := hpair.2.1 o₃ (by simp)
      have hle₂ := ho₂.le
      rw [expandRangeList_eq (by simp), expandLoop_higher hr hhi (by simp), List.append_nil,
        List.cons_append, expandLoop_meet hr ho₁ hge₁ hle₁, List.reverse_reverse,
        if_pos (by omega), List.cons_append, List.cons_append, absorb_skip (by omega)]
      intro hdesc
      have htail := (descending_append_iff.mp hdesc).2.1
      have hskip : o₃.max < (absorb r.min ⟨r.min, max o₁.max r.max, 1⟩ (me ++ lo)).1.min :=
        (descending_cons_iff.mp htail).2.2 o₃ (by simp)
      have hmin := @absorb_min_le ⟨r.min, max o₁.max r.max, 1⟩ (me ++ lo) r.min le_rfl
      omega

end Spec

/-- The list after all ranges, from no list. -/
def expandAll (rs : List Range) : Option (List Range) :=
  rs.foldl (fun rl r => some (expandRangeList r rl)) none

/-- The blocks of all ranges. -/
def blocksOf (rs : List Range) : List Range := rs.foldl (fun l r => addBlock r l) []

section All
variable {rs : List Range} {r : Range}

theorem blocksOf_spec (hrs : ∀ r ∈ rs, Block r) :
    Descending (blocksOf rs) ∧ ids (blocksOf rs) = ids rs := by
  induction rs using List.reverseRecOn with
  | nil => exact ⟨⟨by simp [blocksOf], by simp [blocksOf]⟩, rfl⟩
  | append_singleton rs r ih =>
      obtain ⟨hdesc, hids⟩ := ih (fun q hq => hrs q (by simp [hq]))
      obtain ⟨hdesc', hids'⟩ := addBlock_spec hdesc (hrs r (by simp))
      rw [blocksOf, List.foldl_append, List.foldl_cons, List.foldl_nil, ← blocksOf]
      exact ⟨hdesc', by rw [hids', hids]; simp⟩

theorem expandAll_append : expandAll (rs ++ [r]) =
    some (expandRangeList r (some ((expandAll rs).getD []))) := by
  rw [expandAll, List.foldl_append, List.foldl_cons, List.foldl_nil, ← expandAll]
  rfl

/-- Every range fits the blocks of the ones before it. -/
def AllFit (rs : List Range) : Prop :=
  ∀ before r after, rs = before ++ r :: after → Fits r (blocksOf before)

theorem allFit_append : AllFit (rs ++ [r]) ↔ AllFit rs ∧ Fits r (blocksOf rs) := by
  constructor
  · intro h
    exact ⟨fun before q after heq => h before q (after ++ [r]) (by simp [heq]), h rs r [] rfl⟩
  · rintro ⟨hrs, hr⟩ before q after heq
    rcases List.eq_nil_or_concat' after with rfl | ⟨after, s, rfl⟩
    · obtain ⟨rfl, hlast⟩ := List.append_inj' heq rfl
      rw [← (List.cons.inj hlast).1]
      exact hr
    · rw [← List.cons_append, ← List.append_assoc] at heq
      exact hrs before q after (List.append_inj' heq rfl).1

theorem expandAll_of_allFit (hrs : ∀ r ∈ rs, Block r) (h : AllFit rs) :
    (expandAll rs).getD [] = blocksOf rs := by
  induction rs using List.reverseRecOn with
  | nil => rfl
  | append_singleton rs r ih =>
      obtain ⟨hfit, hr⟩ := allFit_append.mp h
      have hbefore : ∀ q ∈ rs, Block q := fun q hq => hrs q (by simp [hq])
      rw [expandAll_append, ih hbefore hfit, Option.getD_some,
        expandRangeList_of_fits (blocksOf_spec hbefore).1 (hrs r (by simp)) hr, blocksOf, blocksOf,
        List.foldl_append]
      rfl

/-- The list is descending, without overlaps, and has the ids of the ranges. -/
def Expands (rs l : List Range) : Prop := Descending l ∧ ids l = ids rs

/-- The list stays right after each range exactly when every range fits. -/
theorem expandAll_iff (hrs : ∀ r ∈ rs, Block r) :
    (∀ p, p <+: rs → Expands p ((expandAll p).getD [])) ↔ AllFit rs := by
  induction rs using List.reverseRecOn with
  | nil =>
      refine iff_of_true (fun p hp => ?_) (fun before r after heq => by simp at heq)
      rw [List.prefix_nil.mp hp]
      have hnone : ∀ r ∈ ([] : List Range), Block r := by simp
      exact blocksOf_spec hnone
  | append_singleton rs r ih =>
      have hbefore : ∀ q ∈ rs, Block q := fun q hq => hrs q (by simp [hq])
      have hr := hrs r (by simp)
      rw [allFit_append, ← ih hbefore]
      constructor
      · intro h
        have hpre : ∀ p, p <+: rs → Expands p ((expandAll p).getD []) := fun p hp =>
          h p (hp.trans (List.prefix_append rs [r]))
        have heq := expandAll_of_allFit hbefore ((ih hbefore).mp hpre)
        refine ⟨hpre, by_contra fun hfit => ?_⟩
        have hlast := (h (rs ++ [r]) List.prefix_rfl).1
        rw [expandAll_append, heq, Option.getD_some] at hlast
        exact expandRangeList_of_not_fits (blocksOf_spec hbefore).1 hr hfit hlast
      · rintro ⟨hpre, hfit⟩ p hp
        rcases List.prefix_concat_iff.mp hp with rfl | hp
        · have hall := allFit_append.mpr ⟨(ih hbefore).mp hpre, hfit⟩
          rw [expandAll_of_allFit hrs hall]
          exact blocksOf_spec hrs
        · exact hpre p hp

end All

end GridEngine
