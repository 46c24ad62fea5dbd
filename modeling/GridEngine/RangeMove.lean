import GridEngine.RangeSets

/-!
# Moving the first ids of a range list

`range_list_move_first_n_ids` counts its `n` down over the ids of all ranges, one range after
the other. The `break` at zero leaves the loop over the ids of one range only: when ranges are
left, the counter wraps and their ids are moved as well.
-/

namespace GridEngine
open Segments

variable (srt : PSortList Range Range.min) (fuel : ℕ)

/-- The loop over the ids of one range. -/
def moveRange (l₂ : Option (List Range)) (n : ℕ) : List ℕ → Option (List Range) × ℕ
  | [] => (l₂, n)
  | id :: rest =>
      let l₂ := (rangeListInsertIdOpt srt l₂ id).map rangeListCompress
      let n := wsub n 1
      if n = 0 then (l₂, n) else moveRange l₂ n rest

/-- The loop over the ranges. -/
def moveRanges (l₂ : Option (List Range)) (n : ℕ) : List Range → Option (Option (List Range))
  | [] => some l₂
  | r :: rest => do
      let is ← forIds fuel r.min r.max r.step
      let moved := moveRange srt l₂ n is
      moveRanges moved.1 moved.2 rest

/-- Removes every id of every range of `l₂`. -/
def removeRanges (l₁ : Option (List Range)) (l₂ : List Range) : Option (Option (List Range)) :=
  l₂.foldlM (fun l r =>
    (forIds fuel r.min r.max r.step).map (fun is => is.foldl rangeListRemoveId l)) l₁

/-- `range_list_move_first_n_ids` with both lists after it. -/
def rangeListMoveFirstNIds (l₁ l₂ : Option (List Range)) (n : ℕ) :
    Option (Option (List Range) × Option (List Range)) :=
  match l₁ with
  | none => some (none, l₂)
  | some l => do
      let l₂ ← moveRanges srt fuel l₂ n l
      let l₁ ← removeRanges fuel (some l) (l₂.getD [])
      return (l₁, l₂)

/-- `moved` are the `n` smallest members of `S`, or all of them when there are fewer. -/
structure FirstN (n : ℕ) (S moved : Set ℕ) : Prop where
  ncard_eq : moved.ncard = min n S.ncard
  lt_rest : ∀ x ∈ moved, ∀ y ∈ S, y ∉ moved → x < y

section Loops
variable {fuel} {l : List Range} {r : Range} {l₂ : Option (List Range)} {n a e s : ℕ}

theorem forIds_ascending {is : List ℕ} (he : e < 2 ^ 31) (hs : 1 ≤ s) (hs' : s < 2 ^ 31)
    (h : forIds fuel a e s = some is) : is.Pairwise (· < ·) := by
  induction fuel generalizing a is with
  | zero => simp [forIds] at h
  | succ fuel ih =>
      rw [forIds] at h
      by_cases hle : a ≤ e
      · rw [if_pos hle, Option.map_eq_some_iff] at h
        obtain ⟨js, hjs, rfl⟩ := h
        refine List.pairwise_cons.mpr ⟨fun x hx => ?_, ih hjs⟩
        obtain ⟨ks, hks, hmem⟩ := @forIds_spec (fuel + e + 2) (wadd a s) e s he hs hs'
          (by omega) (by omega)
        have hsame : js = ks := by
          have hmono := forIds_mono (n := fuel + e + 2) (by omega) hjs
          exact Option.some.inj (hmono.symm.trans hks)
        have hlow := (segment_le ((hmem x).mp (hsame ▸ hx))).1
        rw [wadd_eq (by omega)] at hlow
        omega
      · rw [if_neg hle, Option.some.injEq] at h
        rw [← h]
        exact List.Pairwise.nil

/-- The ids of a range as its loop visits them. -/
theorem forIds_range (h : r.Ok) (hfuel : 2 ^ 31 < fuel) :
    ∃ is, forIds fuel r.min r.max r.step = some is ∧ is.Pairwise (· < ·) ∧
      {x | x ∈ is} = r.ids ∧ is.length = r.ids.ncard := by
  have hmax := h.max_lt
  obtain ⟨is, his, hmem⟩ := forIds_spec (a := r.min) hmax h.step_pos h.step_lt
    (show 0 < fuel by omega) (by omega)
  have hasc := forIds_ascending hmax h.step_pos h.step_lt his
  have hset : {x | x ∈ is} = r.ids := by
    ext x
    exact hmem x
  refine ⟨is, his, hasc, hset, ?_⟩
  have hcoe : ((is.toFinset : Finset ℕ) : Set ℕ) = r.ids := by
    rw [List.coe_toFinset, hset]
  rw [← hcoe, Set.ncard_coe_finset, List.toFinset_card_of_nodup (hasc.imp (fun h => h.ne))]

theorem insertCompress_spec {id : ℕ} (h : Canonical (l₂.getD [])) (hid : id < 2 ^ 31) :
    Canonical (((rangeListInsertIdOpt srt l₂ id).map rangeListCompress).getD []) ∧
      ids (((rangeListInsertIdOpt srt l₂ id).map rangeListCompress).getD []) =
        insert id (ids (l₂.getD [])) := by
  obtain ⟨hc, hids⟩ := rangeListInsertIdOpt_spec srt h hid
  obtain ⟨hc', hids'⟩ := compressOpt_spec hc
  exact ⟨hc', hids'.trans hids⟩

theorem moveRange_bounds (is : List ℕ) (h : Canonical (l₂.getD [])) (his : ∀ x ∈ is, x < 2 ^ 31) :
    Canonical ((moveRange srt l₂ n is).1.getD []) ∧
      ids ((moveRange srt l₂ n is).1.getD []) ⊆ ids (l₂.getD []) ∪ {x | x ∈ is} := by
  induction is generalizing l₂ n with
  | nil => exact ⟨h, by simp [moveRange]⟩
  | cons id is ih =>
      obtain ⟨hc, hids⟩ := insertCompress_spec srt h (his id (by simp))
      have hinsert : insert id (ids (l₂.getD [])) ⊆ ids (l₂.getD []) ∪ {x | x ∈ id :: is} :=
        Set.insert_subset (Or.inr (by simp)) Set.subset_union_left
      rw [moveRange]
      split_ifs with hzero
      · exact ⟨hc, hids.le.trans hinsert⟩
      · obtain ⟨hc', hsub⟩ := ih (n := wsub n 1) hc (fun x hx => his x (by simp [hx]))
        refine ⟨hc', hsub.trans (Set.union_subset (hids.le.trans hinsert) ?_)⟩
        intro x hx
        exact Or.inr (List.mem_cons_of_mem id hx)

theorem moveRange_take (is : List ℕ) (h : Canonical (l₂.getD [])) (his : ∀ x ∈ is, x < 2 ^ 31)
    (hn : 0 < n) (hlt : n < 2 ^ 32) :
    ids ((moveRange srt l₂ n is).1.getD []) = ids (l₂.getD []) ∪ {x | x ∈ is.take n} ∧
      (is.length < n → (moveRange srt l₂ n is).2 = n - is.length) := by
  induction is generalizing l₂ n with
  | nil => simp [moveRange]
  | cons id is ih =>
      obtain ⟨hc, hids⟩ := insertCompress_spec srt h (his id (by simp))
      obtain ⟨m, rfl⟩ : ∃ m, n = m + 1 := ⟨n - 1, by omega⟩
      have hpred : wsub (m + 1) 1 = m := by
        rw [wsub_eq (by omega) hlt]
        rfl
      rw [moveRange]
      simp only [hpred, List.take_succ_cons, List.length_cons]
      by_cases hzero : m = 0
      · subst hzero
        refine ⟨?_, fun hlen => absurd hlen (by omega)⟩
        simpa [Set.union_comm] using hids
      · obtain ⟨hset, hcount⟩ := ih hc (fun x hx => his x (by simp [hx]))
          (by omega) (by omega : m < 2 ^ 32)
        rw [if_neg hzero]
        refine ⟨?_, fun hlen => ?_⟩
        · have hcons : {x | x ∈ id :: is.take m} = insert id {x | x ∈ is.take m} := by
            ext x
            exact List.mem_cons
          rw [hset, hids, hcons, Set.insert_union, Set.union_insert]
        · rw [hcount (by omega)]
          omega

/-- The ids of a canonical list are visited to the end, and none is added. -/
theorem moveRanges_bounds (hl : Canonical l) (h : Canonical (l₂.getD [])) (hfuel : 2 ^ 31 < fuel) :
    ∃ out, moveRanges srt fuel l₂ n l = some out ∧ Canonical (out.getD []) ∧
      ids (out.getD []) ⊆ ids (l₂.getD []) ∪ ids l := by
  induction l generalizing l₂ n with
  | nil => exact ⟨l₂, rfl, h, Set.subset_union_left⟩
  | cons r l ih =>
      obtain ⟨hr, hrest, -⟩ := Canonical.cons_iff.mp hl
      obtain ⟨is, his, -, hset, -⟩ := forIds_range hr hfuel
      have hlt : ∀ x ∈ is, x < 2 ^ 31 := fun x hx => hr.valid.ids_lt x (hset ▸ hx)
      obtain ⟨hc, hsub⟩ := moveRange_bounds srt (n := n) is h hlt
      obtain ⟨out, hout, hcOut, hsubOut⟩ := ih (n := (moveRange srt l₂ n is).2) hrest hc
      refine ⟨out, ?_, hcOut, ?_⟩
      · rw [moveRanges, his]
        exact hout
      · rw [ids_cons, ← Set.union_assoc, ← hset]
        exact hsubOut.trans (Set.union_subset_union_left _ hsub)

/-- A counter above the number of ids of all ranges but the last stops in the last one. -/
theorem moveRanges_take (is : List ℕ) (hl : Canonical (l ++ [r])) (h : Canonical (l₂.getD []))
    (hfuel : 2 ^ 31 < fuel) (his : forIds fuel r.min r.max r.step = some is)
    (hn : (ids l).ncard < n) (hlt : n < 2 ^ 32) :
    ∃ out, moveRanges srt fuel l₂ n (l ++ [r]) = some out ∧
      ids (out.getD []) =
        ids (l₂.getD []) ∪ ids l ∪ {x | x ∈ is.take (n - (ids l).ncard)} := by
  induction l generalizing l₂ n with
  | nil =>
      obtain ⟨hr, -, -⟩ := Canonical.cons_iff.mp hl
      obtain ⟨js, hjs, -, hset, -⟩ := forIds_range hr hfuel
      obtain rfl : js = is := Option.some.inj (hjs.symm.trans his)
      have hjlt : ∀ x ∈ js, x < 2 ^ 31 := fun x hx => hr.valid.ids_lt x (hset ▸ hx)
      obtain ⟨hids, -⟩ := moveRange_take srt js h hjlt (by omega) hlt
      refine ⟨(moveRange srt l₂ n js).1, by simp [moveRanges, his], ?_⟩
      simpa using hids
  | cons q l ih =>
      obtain ⟨hq, hrest, -⟩ := Canonical.cons_iff.mp hl
      obtain ⟨js, hjs, -, hset, hlen⟩ := forIds_range hq hfuel
      have hjlt : ∀ x ∈ js, x < 2 ^ 31 := fun x hx => hq.valid.ids_lt x (hset ▸ hx)
      have hcard := ncard_ids_cons (Canonical.append_iff.mp hl).1
      obtain ⟨hc, -⟩ := moveRange_bounds srt (n := n) js h hjlt
      obtain ⟨hids, hcount⟩ := moveRange_take srt js h hjlt (by omega) hlt
      rw [List.take_of_length_le (by omega)] at hids
      replace hcount := hcount (by omega)
      obtain ⟨out, hout, hidsOut⟩ := ih (n := n - js.length) hrest hc (by omega) (by omega)
      refine ⟨out, ?_, ?_⟩
      · rw [List.cons_append, moveRanges, hjs]
        simp only [Option.bind_eq_bind, Option.bind_some, hcount]
        exact hout
      · have hleft : n - js.length - (ids l).ncard = n - (ids (q :: l)).ncard := by omega
        rw [hidsOut, hids, hleft, hset, ids_cons]
        simp only [Set.union_assoc]

theorem foldl_removeId_spec (is : List ℕ) (h : Canonical (l₂.getD [])) :
    Canonical ((is.foldl rangeListRemoveId l₂).getD []) ∧
      ids ((is.foldl rangeListRemoveId l₂).getD []) = ids (l₂.getD []) \ {x | x ∈ is} := by
  induction is generalizing l₂ with
  | nil => exact ⟨h, by simp⟩
  | cons id is ih =>
      obtain ⟨hc, hids⟩ := rangeListRemoveId_spec id h
      obtain ⟨hc', hids'⟩ := ih hc
      refine ⟨hc', ?_⟩
      rw [List.foldl_cons, hids', hids]
      ext x
      simp only [Set.mem_sdiff, Set.mem_singleton_iff, Set.mem_ofPred_eq, List.mem_cons]
      tauto

theorem removeRanges_visits {S : Range → Set ℕ} (h : Canonical (l₂.getD []))
    (hl : ∀ r ∈ l, r.Visits fuel (S r)) :
    ∃ out, removeRanges fuel l₂ l = some out ∧ Canonical (out.getD []) ∧
      ids (out.getD []) = ids (l₂.getD []) \ {x | ∃ r ∈ l, x ∈ S r} := by
  induction l generalizing l₂ with
  | nil => exact ⟨l₂, rfl, h, by simp⟩
  | cons r l ih =>
      obtain ⟨is, his, hset, -⟩ := hl r (by simp)
      obtain ⟨hc, hids⟩ := foldl_removeId_spec is h
      obtain ⟨out, hout, hcOut, hidsOut⟩ := ih hc (fun q hq => hl q (by simp [hq]))
      refine ⟨out, ?_, hcOut, ?_⟩
      · rw [removeRanges, List.foldlM_cons, his]
        exact hout
      · rw [hidsOut, hids, hset]
        ext x
        simp only [Set.mem_sdiff, Set.mem_ofPred_eq, List.exists_mem_cons_iff, not_or, and_assoc]

theorem removeRanges_spec (h : Canonical (l₂.getD [])) (hl : ∀ r ∈ l, r.Ok)
    (hfuel : 2 ^ 31 < fuel) :
    ∃ out, removeRanges fuel l₂ l = some out ∧ Canonical (out.getD []) ∧
      ids (out.getD []) = ids (l₂.getD []) \ ids l :=
  removeRanges_visits h (fun r hr => (hl r hr).visits hfuel)

/-- The last of several ranges holds the largest ids, and its loop visits them in order. -/
theorem firstN_take {is : List ℕ} (hl : Canonical (l ++ [r])) (hasc : is.Pairwise (· < ·))
    (hset : {x | x ∈ is} = r.ids) (hn : (ids l).ncard < n) :
    FirstN n (ids (l ++ [r])) (ids l ∪ {x | x ∈ is.take (n - (ids l).ncard)}) := by
  obtain ⟨hcl, hcr, hbelow⟩ := Canonical.append_iff.mp hl
  have hr : r.Ok := hcr.ok r (by simp)
  have hall : ids (l ++ [r]) = ids l ∪ {x | x ∈ is} := by
    rw [ids_append, hset, ids_cons, ids_nil, Set.union_empty]
  have hlow : ∀ x ∈ ids l, ∀ y ∈ is, x < y := by
    intro x ⟨q, hq, hx⟩ y hy
    have hxq := (segment_le hx).2
    have hyr := (segment_le (show y ∈ r.ids from hset ▸ hy)).1
    have hqr := hbelow q hq r (by simp)
    omega
  have hnodup : is.Nodup := hasc.imp (fun h => h.ne)
  have hncard : ∀ js : List ℕ, js.Sublist is → (ids l ∪ {x | x ∈ js}).ncard =
      (ids l).ncard + js.length := by
    intro js hjs
    have hdisj : Disjoint (ids l) {x | x ∈ js} :=
      Set.disjoint_left.mpr (fun x hx hy => (hlow x hx x (hjs.subset hy)).ne rfl)
    rw [← List.coe_toFinset, Set.ncard_union_eq (by rwa [List.coe_toFinset]) ids_finite
      (Finset.finite_toSet _), Set.ncard_coe_finset,
      List.toFinset_card_of_nodup (hjs.nodup hnodup)]
  refine ⟨?_, ?_⟩
  · rw [hncard _ (List.take_sublist _ _), hall, hncard _ (List.Sublist.refl _), List.length_take]
    omega
  · intro x hx y hy hnot
    simp only [Set.mem_union, not_or] at hnot
    rw [hall] at hy
    have hyis : y ∈ is := hy.resolve_left hnot.1
    rcases hx with hx | hx
    · exact hlow x hx y hyis
    · set k := n - (ids l).ncard
      have hsplit : (is.take k ++ is.drop k).Pairwise (· < ·) := by
        rwa [List.take_append_drop]
      have hdrop : y ∈ is.drop k := by
        have hmem : y ∈ is.take k ++ is.drop k := by rwa [List.take_append_drop]
        exact (List.mem_append.mp hmem).resolve_left hnot.2
      exact (List.pairwise_append.mp hsplit).2.2 x hx y hdrop

theorem rangeListMoveFirstNIds_spec {l₁ : Option (List Range)} (hl : Canonical (l₁.getD []))
    (hn : n < 2 ^ 32) (hfuel : 2 ^ 31 < fuel) :
    ∃ rest moved, rangeListMoveFirstNIds srt fuel l₁ none n = some (rest, moved) ∧
      Canonical (rest.getD []) ∧ Canonical (moved.getD []) ∧
      ids (moved.getD []) ⊆ ids (l₁.getD []) ∧
      ids (rest.getD []) = ids (l₁.getD []) \ ids (moved.getD []) ∧
      (rangeListGetNumberOfIds (l₁.getD []).dropLast < n →
        FirstN n (ids (l₁.getD [])) (ids (moved.getD []))) := by
  have hnil : Canonical ((none : Option (List Range)).getD []) := Canonical.nil
  cases l₁ with
  | none =>
      refine ⟨none, none, rfl, hl, hl, le_rfl, by simp, fun _ => ⟨by simp, by simp⟩⟩
  | some l =>
      replace hl : Canonical l := hl
      obtain ⟨moved, hmoved, hcMoved, hsub⟩ := moveRanges_bounds srt (n := n) hl hnil hfuel
      have hok : ∀ r ∈ moved.getD [], r.Ok := hcMoved.ok
      obtain ⟨rest, hrest, hcRest, hidsRest⟩ := @removeRanges_spec _ _ (some l) hl hok hfuel
      refine ⟨rest, moved, ?_, hcRest, hcMoved, by simpa using hsub, hidsRest, fun hlast => ?_⟩
      · simp [rangeListMoveFirstNIds, hmoved, hrest]
      · simp only [Option.getD_some] at hlast ⊢
        rcases List.eq_nil_or_concat l with rfl | ⟨init, r, rfl⟩
        · rw [ids_nil] at hsub ⊢
          have hempty : ids (moved.getD []) = ∅ := by simpa using hsub
          rw [hempty]
          exact ⟨by simp, by simp⟩
        · rw [List.concat_eq_append] at hl hmoved hlast ⊢
          rw [List.dropLast_concat] at hlast
          obtain ⟨hcInit, hcr, -⟩ := Canonical.append_iff.mp hl
          rw [rangeListGetNumberOfIds_eq hcInit] at hlast
          obtain ⟨is, his, hasc, hset, -⟩ := forIds_range (hcr.ok r (by simp)) hfuel
          obtain ⟨out, hout, hids⟩ := moveRanges_take srt is hl hnil hfuel his hlast hn
          obtain rfl : moved = out := Option.some.inj (hmoved.symm.trans hout)
          rw [hids, Option.getD_none, ids_nil, Set.empty_union]
          exact firstN_take hl hasc hset hlast

theorem moveRange_grows (is : List ℕ) (h : Canonical (l₂.getD [])) (his : ∀ x ∈ is, x < 2 ^ 31) :
    ids (l₂.getD []) ∪ {x | x ∈ is.head?} ⊆ ids ((moveRange srt l₂ n is).1.getD []) := by
  induction is generalizing l₂ n with
  | nil => simp [moveRange]
  | cons id is ih =>
      obtain ⟨hc, hids⟩ := insertCompress_spec srt h (his id (by simp))
      have hstep : ids (l₂.getD []) ∪ {x | x ∈ (id :: is).head?} ⊆
          ids (((rangeListInsertIdOpt srt l₂ id).map rangeListCompress).getD []) := by
        rw [hids]
        rintro x (hx | hx)
        · exact Set.mem_insert_of_mem id hx
        · obtain rfl := Option.some.inj hx
          exact Set.mem_insert id _
      rw [moveRange]
      split_ifs with hzero
      · exact hstep
      · have hrest := ih (n := wsub n 1) hc (fun x hx => his x (by simp [hx]))
        exact hstep.trans (Set.subset_union_left.trans hrest)

/-- The first id of each range is moved, wherever the counter stands. -/
theorem moveRanges_mins (hl : Canonical l) (h : Canonical (l₂.getD [])) (hfuel : 2 ^ 31 < fuel) :
    ∃ out, moveRanges srt fuel l₂ n l = some out ∧
      ids (l₂.getD []) ∪ {x | ∃ r ∈ l, x = r.min} ⊆ ids (out.getD []) := by
  induction l generalizing l₂ n with
  | nil => exact ⟨l₂, rfl, by simp⟩
  | cons r l ih =>
      obtain ⟨hr, hrest, -⟩ := Canonical.cons_iff.mp hl
      obtain ⟨is, his, hasc, hset, -⟩ := forIds_range hr hfuel
      have hlt : ∀ x ∈ is, x < 2 ^ 31 := fun x hx => hr.valid.ids_lt x (hset ▸ hx)
      obtain ⟨hc, -⟩ := moveRange_bounds srt (n := n) is h hlt
      have hgrows := moveRange_grows srt (n := n) is h hlt
      obtain ⟨out, hout, hsub⟩ := ih (n := (moveRange srt l₂ n is).2) hrest hc
      refine ⟨out, by rw [moveRanges, his]; exact hout, ?_⟩
      have hhead : is.head? = some r.min := by
        have hmin : r.min ∈ is := by
          have hmem : r.min ∈ {x | x ∈ is} := hset ▸ hr.min_mem
          exact hmem
        cases is with
        | nil => cases hmin
        | cons id is =>
            have hlow : r.min ≤ id := (segment_le (show id ∈ r.ids from hset ▸ List.mem_cons_self)).1
            rcases List.mem_cons.mp hmin with heq | hmem
            · rw [List.head?_cons, heq]
            · have hgt := (List.pairwise_cons.mp hasc).1 r.min hmem
              omega
      have hkeep : ids ((moveRange srt l₂ n is).1.getD []) ⊆ ids (out.getD []) :=
        Set.subset_union_left.trans hsub
      rintro x (hx | ⟨q, hq, rfl⟩)
      · exact hkeep (hgrows (Or.inl hx))
      · rcases List.mem_cons.mp hq with rfl | hq
        · exact hkeep (hgrows (Or.inr hhead))
        · exact hsub (Or.inr ⟨q, hq, rfl⟩)

theorem Canonical.ncard_le (hl : Canonical l) : (ids l).ncard ≤ 2 ^ 31 := by
  have hsub : ids l ⊆ Set.Iio (2 ^ 31) := by
    rintro x ⟨r, hr, hx⟩
    exact (hl.ok r hr).valid.ids_lt x hx
  have hcard := Set.ncard_le_ncard hsub (Set.finite_Iio _)
  rwa [← Finset.coe_range, Set.ncard_coe_finset, Finset.card_range] at hcard

/-- The ids `moved` were taken out of `S`: they are its `n` smallest ones, and `rest` is left. -/
structure MovesFirst (n : ℕ) (S rest moved : Set ℕ) : Prop where
  subset : moved ⊆ S
  first : FirstN n S moved
  rest_eq : rest = S \ moved

/-- The first id of the last range is only moved in time when `n` exceeds the ids before it. -/
theorem FirstN.lt_of_last_mem {moved : Set ℕ} (hl : Canonical (l ++ [r]))
    (hn : n ≤ (ids (l ++ [r])).ncard) (h : FirstN n (ids (l ++ [r])) moved)
    (hsub : moved ⊆ ids (l ++ [r])) (hmin : r.min ∈ moved) : (ids l).ncard < n := by
  obtain ⟨hcl, hcr, hbelow⟩ := Canonical.append_iff.mp hl
  have hlow : ∀ x ∈ ids l, x < r.min := by
    rintro x ⟨q, hq, hx⟩
    have hxq := (segment_le hx).2
    have hqr := hbelow q hq r (by simp)
    omega
  have hall : ids l ⊆ moved := by
    intro x hx
    by_contra hnot
    have hxS : x ∈ ids (l ++ [r]) := by
      rw [ids_append]
      exact Or.inl hx
    have hlt := h.lt_rest r.min hmin x hxS hnot
    have hgt := hlow x hx
    omega
  have hfinite : moved.Finite := ids_finite.subset hsub
  have hproper : ids l ⊂ moved := by
    refine ⟨hall, fun hback => ?_⟩
    have hgt := hlow r.min (hback hmin)
    omega
  have hlt := Set.ncard_lt_ncard hproper hfinite
  have heq := h.ncard_eq
  omega

theorem MovesFirst.lt {rest moved : Option (List Range)} (hfuel : 2 ^ 31 < fuel)
    (hl : Canonical (l ++ [r])) (hn : n ≤ (ids (l ++ [r])).ncard)
    (hrun : rangeListMoveFirstNIds srt fuel (some (l ++ [r])) none n = some (rest, moved))
    (h : MovesFirst n (ids (l ++ [r])) (ids (rest.getD [])) (ids (moved.getD []))) :
    (ids l).ncard < n := by
  obtain ⟨out, hout, hmins⟩ := @moveRanges_mins srt fuel _ none n hl Canonical.nil hfuel
  have hmoved : out = moved := by
    rw [rangeListMoveFirstNIds, hout] at hrun
    cases hrem : removeRanges fuel (some (l ++ [r])) (out.getD []) with
    | none => simp [hrem] at hrun
    | some left =>
        simp only [Option.bind_eq_bind, Option.bind_some, hrem, pure] at hrun
        exact (Prod.mk.inj (Option.some.inj hrun)).2
  have hlast : r.min ∈ ids (moved.getD []) := hmoved ▸ hmins (Or.inr ⟨r, by simp, rfl⟩)
  exact h.first.lt_of_last_mem hl hn h.subset hlast

/-- Exactly the first `n` ids are moved when they do not all lie in front of the last range. -/
theorem rangeListMoveFirstNIds_iff (hfuel : 2 ^ 31 < fuel) (hl : Canonical l) (hpos : 1 ≤ n)
    (hn : n ≤ (ids l).ncard) :
    ∃ rest moved, rangeListMoveFirstNIds srt fuel (some l) none n = some (rest, moved) ∧
      (MovesFirst n (ids l) (ids (rest.getD [])) (ids (moved.getD [])) ↔
        (ids l.dropLast).ncard < n) := by
  have hcard := hl.ncard_le
  have hspec := @rangeListMoveFirstNIds_spec srt fuel n (some l) hl (by omega) hfuel
  obtain ⟨rest, moved, hrun, -, -, hsub, hrest, hfirst⟩ := hspec
  refine ⟨rest, moved, hrun, ?_⟩
  rcases List.eq_nil_or_concat' l with rfl | ⟨init, r, rfl⟩
  · rw [ids_nil, Set.ncard_empty] at hn
    omega
  · have hinit := (Canonical.append_iff.mp hl).1
    rw [Option.getD_some, List.dropLast_concat, rangeListGetNumberOfIds_eq hinit] at hfirst
    rw [List.dropLast_concat]
    constructor
    · exact fun h => h.lt srt hfuel hl hn hrun
    · exact fun hlt => ⟨hsub, hfirst hlt, hrest⟩

/-- The ids one to three and five to seven. -/
def twoRanges : List Range := [⟨1, 3, 1⟩, ⟨5, 7, 1⟩]

theorem twoRanges_canonical : Canonical twoRanges := by
  have hok : ∀ a, a < 10 → (⟨a, a + 2, 1⟩ : Range).Ok := fun a ha =>
    ⟨⟨⟨2, rfl⟩, le_rfl⟩, by simp only; omega, le_rfl, by simp⟩
  refine ⟨?_, by simp [twoRanges]⟩
  simp only [twoRanges, List.forall_mem_cons, List.not_mem_nil, false_implies, implies_true, and_true]
  exact ⟨hok 1 (by omega), hok 5 (by omega)⟩

theorem twoRanges_init_canonical : Canonical [⟨1, 3, 1⟩] :=
  (Canonical.append_iff.mp (show Canonical ([⟨1, 3, 1⟩] ++ [⟨5, 7, 1⟩]) from twoRanges_canonical)).1

theorem twoRanges_ncard : (ids [⟨1, 3, 1⟩]).ncard = 3 ∧ (ids twoRanges).ncard = 6 := by
  rw [← rangeListGetNumberOfIds_eq twoRanges_init_canonical,
    ← rangeListGetNumberOfIds_eq twoRanges_canonical]
  decide

theorem twoRanges_five :
    ∃ rest moved, rangeListMoveFirstNIds (PSortList.stable Range Range.min) (2 ^ 31 + 1)
        (some twoRanges) none 5 = some (rest, moved) ∧
      (MovesFirst 5 (ids twoRanges) (ids (rest.getD [])) (ids (moved.getD [])) ↔
        (ids twoRanges.dropLast).ncard < 5) :=
  rangeListMoveFirstNIds_iff _ (by omega) twoRanges_canonical (by omega)
    (by rw [twoRanges_ncard.2]; omega)

/-- Two ids are asked for, and the whole second range is moved with them. -/
theorem twoRanges_two :
    ∃ rest moved, rangeListMoveFirstNIds (PSortList.stable Range Range.min) (2 ^ 31 + 1)
        (some twoRanges) none 2 = some (rest, moved) ∧
      ¬MovesFirst 2 (ids twoRanges) (ids (rest.getD [])) (ids (moved.getD [])) := by
  obtain ⟨rest, moved, hrun, -⟩ := @rangeListMoveFirstNIds_spec
    (PSortList.stable Range Range.min) (2 ^ 31 + 1) 2 (some twoRanges) twoRanges_canonical
    (by omega) (by omega)
  refine ⟨rest, moved, hrun, fun h => ?_⟩
  have hn : 2 ≤ (ids twoRanges).ncard := by
    rw [twoRanges_ncard.2]
    omega
  have hlt := MovesFirst.lt (l := [⟨1, 3, 1⟩]) _ (by omega) twoRanges_canonical hn hrun h
  rw [twoRanges_ncard.1] at hlt
  omega

end Loops

end GridEngine
