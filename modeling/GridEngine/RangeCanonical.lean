import GridEngine.RangeInsert

/-!
# Joining neighbouring ranges

`range_list_compress` looks at two neighbours at a time. Where one of four patterns applies it
replaces both by one range and looks at the result and its new neighbour, elsewhere it moves
on. A join covers exactly the ids of both ranges, so a canonical list stays canonical.
-/

namespace GridEngine
open Segments

/-- The four joins in the order of the source. -/
def joinRanges (r₁ r₂ : Range) : Option Range :=
  if wadd r₁.max r₁.step = r₂.min ∧ r₁.step = r₂.step then
    some (rangeSetAllIds r₁.min r₂.max r₂.step)
  else if r₁.min = r₁.max ∧ r₁.step = 1 ∧ r₁.max = wsub r₂.min r₂.step then
    some (rangeSetAllIds r₁.min r₂.max r₂.step)
  else if r₂.min = r₂.max ∧ r₂.step = 1 ∧ wadd r₁.max r₁.step = r₂.max then
    some (rangeSetAllIds r₁.min r₂.max r₁.step)
  else if r₁.min = r₁.max ∧ r₂.min = r₂.max ∧ r₁.step = r₂.step ∧ r₁.step = 1 then
    some (rangeSetAllIds r₁.min r₂.min (wsub r₂.min r₁.min))
  else none

def compressFrom (r₁ : Range) : List Range → List Range
  | [] => [r₁]
  | r₂ :: rest =>
      match joinRanges r₁ r₂ with
      | some r => compressFrom r rest
      | none => r₁ :: compressFrom r₂ rest

/-- `range_list_compress`. -/
def rangeListCompress : List Range → List Range
  | [] => []
  | r :: rest => compressFrom r rest

section Join
variable {r r₁ r₂ : Range}

/-- A join covers both ranges and keeps their outer ends. -/
structure Joins (r₁ r₂ r : Range) : Prop where
  ok : r.Ok
  min_eq : r.min = r₁.min
  max_eq : r.max = r₂.max
  ids_eq : r.ids = r₁.ids ∪ r₂.ids

theorem joins_of_next {s : ℕ} (h₂ : r₂.Ok) (hs : 1 ≤ s) (hs' : s < 2 ^ 31)
    (hnext : r₂.min = r₁.max + s) (hmax : r₁.max ∈ grid r₁.min s)
    (hids₁ : r₁.ids = segment r₁.min r₁.max s) (hids₂ : r₂.ids = segment r₂.min r₂.max s) :
    Joins r₁ r₂ (rangeSetAllIds r₁.min r₂.max s) := by
  have hle := h₂.le
  have hgrid : r₂.max ∈ grid r₂.min s := (hids₂ ▸ h₂.max_mem).1
  have hgrid' : r₂.max ∈ grid r₁.min s :=
    grid_trans (add_step_mem_grid hmax) (hnext ▸ hgrid)
  refine ⟨rangeSetAllIds_ok hgrid' h₂.max_lt hs hs', by simp, by simp, ?_⟩
  rw [rangeSetAllIds_ids, hids₁, hids₂, hnext]
  exact segment_cut ⟨hmax, by omega⟩

theorem ids_of_single {s : ℕ} (h : r.min = r.max) : r.ids = segment r.min r.max s := by
  rw [Range.ids, h, segment_self, segment_self]

theorem joinRanges_spec (h₁ : r₁.Ok) (h₂ : r₂.Ok) (hlt : r₁.max < r₂.min)
    (h : joinRanges r₁ r₂ = some r) : Joins r₁ r₂ r := by
  have hmax₁ := h₁.max_lt
  have hmax₂ := h₂.max_lt
  have hstep₁ := h₁.step_lt
  have hstep₂ := h₂.step_lt
  have hle₂ := h₂.le
  rw [joinRanges] at h
  split_ifs at h with hc₁ hc₂ hc₃ hc₄
  · obtain rfl := Option.some.inj h
    obtain ⟨hnext, hstep⟩ := hc₁
    rw [wadd_eq (by omega)] at hnext
    exact joins_of_next h₂ h₂.step_pos hstep₂ (by omega) (hstep ▸ h₁.max_grid)
      (by rw [Range.ids, hstep]) rfl
  · obtain rfl := Option.some.inj h
    obtain ⟨hsingle, -, hnext⟩ := hc₂
    have hnext : r₂.min = r₁.max + r₂.step :=
      (wsub_eq_iff (by omega) hstep₂ hmax₁).mp hnext.symm
    exact joins_of_next h₂ h₂.step_pos hstep₂ hnext (hsingle ▸ left_mem_grid)
      (ids_of_single hsingle) rfl
  · obtain rfl := Option.some.inj h
    obtain ⟨hsingle, -, hnext⟩ := hc₃
    rw [wadd_eq (by omega)] at hnext
    exact joins_of_next h₂ h₁.step_pos hstep₁ (by omega) h₁.max_grid rfl
      (ids_of_single hsingle)
  · obtain rfl := Option.some.inj h
    obtain ⟨hsingle₁, hsingle₂, -⟩ := hc₄
    rw [wsub_eq (by omega) (by omega)]
    have hjoin := joins_of_next (s := r₂.min - r₁.min) h₂ (by omega) (by omega) (by omega)
      (hsingle₁ ▸ left_mem_grid) (ids_of_single hsingle₁) (ids_of_single hsingle₂)
    rwa [← hsingle₂] at hjoin

end Join

section Compress
variable {l rest : List Range} {r₁ : Range}

theorem compressFrom_spec (h : Canonical (r₁ :: rest)) :
    Canonical (compressFrom r₁ rest) ∧ ids (compressFrom r₁ rest) = ids (r₁ :: rest) ∧
      ∀ b ∈ compressFrom r₁ rest, r₁.min ≤ b.min := by
  induction rest generalizing r₁ with
  | nil => exact ⟨h, rfl, by simp [compressFrom]⟩
  | cons r₂ rest ih =>
      obtain ⟨h₁, hrest, hlt⟩ := Canonical.cons_iff.mp h
      obtain ⟨h₂, hrest₂, hlt₂⟩ := Canonical.cons_iff.mp hrest
      have hgap := hlt r₂ (by simp)
      cases hj : joinRanges r₁ r₂ with
      | some r =>
          have hjoin := joinRanges_spec h₁ h₂ hgap hj
          have hcan : Canonical (r :: rest) := by
            refine Canonical.cons_iff.mpr ⟨hjoin.ok, hrest₂, fun b hb => ?_⟩
            rw [hjoin.max_eq]
            exact hlt₂ b hb
          obtain ⟨hc, hids, hmin⟩ := ih hcan
          simp only [compressFrom, hj]
          refine ⟨hc, ?_, fun b hb => hjoin.min_eq ▸ hmin b hb⟩
          rw [hids, ids_cons, ids_cons, ids_cons, hjoin.ids_eq, Set.union_assoc]
      | none =>
          obtain ⟨hc, hids, hmin⟩ := ih hrest
          have hle := h₁.le
          simp only [compressFrom, hj]
          refine ⟨Canonical.cons_iff.mpr ⟨h₁, hc, fun b hb => ?_⟩, ?_, fun b hb => ?_⟩
          · exact hgap.trans_le (hmin b hb)
          · rw [ids_cons, hids, ← ids_cons]
          · rcases List.mem_cons.mp hb with rfl | hb
            · exact le_rfl
            · have := hmin b hb
              omega

theorem rangeListCompress_spec (h : Canonical l) :
    Canonical (rangeListCompress l) ∧ ids (rangeListCompress l) = ids l := by
  cases l with
  | nil => exact ⟨h, rfl⟩
  | cons r rest => exact ⟨(compressFrom_spec h).1, (compressFrom_spec h).2.1⟩

end Compress

end GridEngine

/-!
## Sorted, unique and compressed range lists

`range_list_sort_uniq_compress` sorts the list by minimum, corrects the ends, moves every range
that overlaps its predecessor into a second list, inserts the ids of that list one by one and
joins what is adjacent. The sort is `qsort`, which promises nothing about elements with equal
minima, so it is a parameter here. The loop over the ids of a range is run with fuel, because
a word may wrap; on valid ranges enough fuel always gives the result.
-/

namespace GridEngine
open Segments

/-- `lPSortList` with one ascending key. -/
structure PSortList (α : Type*) (key : α → ℕ) where
  run : List α → List α
  perm : ∀ l, (run l).Perm l
  sorted : ∀ l, (run l).Pairwise (fun a b => key a ≤ key b)

namespace PSortList
variable {α : Type*} {key : α → ℕ}

/-- A stable implementation. -/
def stable (α : Type*) (key : α → ℕ) : PSortList α key where
  run l := l.mergeSort (fun a b => decide (key a ≤ key b))
  perm l := List.mergeSort_perm l _
  sorted l := by
    have h := @List.pairwise_mergeSort _ (fun a b => decide (key a ≤ key b))
      (fun a b c hab hbc => by simp only [decide_eq_true_eq] at *; omega)
      (fun a b => by simp only [Bool.or_eq_true, decide_eq_true_eq]; omega) l
    exact h.imp (fun hab => of_decide_eq_true hab)

theorem run_eq (s : PSortList α key) {l : List α} (h : l.Pairwise (fun a b => key a < key b)) :
    s.run l = l := by
  have hnodup : (l.map key).Nodup := by
    rw [List.Nodup, List.pairwise_map]
    exact h.imp (fun hab => hab.ne)
  apply List.Perm.eq_of_pairwise _ (s.sorted l) (h.imp (fun hab => hab.le)) (s.perm l)
  intro a b ha hb hab hba
  exact List.inj_on_of_nodup_map hnodup ((s.perm l).mem_iff.mp ha) hb (le_antisymm hab hba)

end PSortList

variable (srt : PSortList Range Range.min) (fuel : ℕ)

/-- `range_list_insert_id`. -/
def rangeListInsertId (l : List Range) (id : ℕ) : List Range :=
  insertLoop id (srt.run l).reverse []

/-- The values of `for (; start <= end; start += step)`. -/
def forIds : ℕ → ℕ → ℕ → ℕ → Option (List ℕ)
  | 0, _, _, _ => none
  | fuel + 1, start, «end», step =>
      if start ≤ «end» then (forIds fuel (wadd start step) «end» step).map (start :: ·)
      else some []

/-- Inserts every id of every range of `tmp`. -/
def insertRanges (l tmp : List Range) : Option (List Range) :=
  tmp.foldlM (fun l r =>
    (forIds fuel r.min r.max r.step).map (fun is => is.foldl (rangeListInsertId srt) l)) l

def correctIf (correctEnd : Bool) (r : Range) : Range :=
  if correctEnd then rangeCorrectEnd r else r

/-- `range_is_overlapping`. -/
def rangeIsOverlapping (r₁ r₂ : Range) : Bool := decide (r₂.min ≤ r₁.max)

/-- The ranges that stay in the list and the ones moved to the temporary list. -/
def sortOutFrom (correctEnd : Bool) (r₁ : Range) : List Range → List Range × List Range
  | [] => ([r₁], [])
  | r₂ :: rest =>
      let r₂ := correctIf correctEnd r₂
      if rangeIsOverlapping r₁ r₂ then
        let (kept, tmp) := sortOutFrom correctEnd r₁ rest
        (kept, r₂ :: tmp)
      else
        let (kept, tmp) := sortOutFrom correctEnd (correctIf correctEnd r₂) rest
        (r₁ :: kept, tmp)

def sortOut (correctEnd : Bool) : List Range → List Range × List Range
  | [] => ([], [])
  | r :: rest => sortOutFrom correctEnd (correctIf correctEnd r) rest

/-- `range_list_sort_uniq_compress`. -/
def rangeListSortUniqCompress (correctEnd : Bool) (l : List Range) : Option (List Range) :=
  let (kept, tmp) := sortOut correctEnd (srt.run l)
  (insertRanges srt fuel kept tmp).map rangeListCompress

section Insert
variable {fuel} {l tmp : List Range} {a e s x id : ℕ}

theorem rangeListInsertId_spec (h : Canonical l) (hid : id < 2 ^ 31) :
    Adds id l (rangeListInsertId srt l id) := by
  have hrun : srt.run l = l := srt.run_eq h.min_lt
  have hspec : Adds id (l.reverse.reverse ++ []) (insertLoop id l.reverse []) :=
    insertLoop_spec (by simpa using h) hid (by simp) (by simp)
  rw [rangeListInsertId, hrun]
  simpa using hspec

theorem foldl_insertId_spec (is : List ℕ) (h : Canonical l) (his : ∀ id ∈ is, id < 2 ^ 31) :
    Canonical (is.foldl (rangeListInsertId srt) l) ∧
      ids (is.foldl (rangeListInsertId srt) l) = ids l ∪ {id | id ∈ is} := by
  induction is generalizing l with
  | nil => exact ⟨h, by simp⟩
  | cons id is ih =>
      have hadd := rangeListInsertId_spec srt h (his id (by simp))
      obtain ⟨hc, hids⟩ := ih hadd.canonical (fun j hj => his j (by simp [hj]))
      refine ⟨hc, ?_⟩
      rw [List.foldl_cons, hids, hadd.ids_eq]
      ext x
      simp only [Set.mem_union, Set.mem_insert_iff, Set.mem_ofPred_eq, List.mem_cons]
      tauto

theorem forIds_spec (he : e < 2 ^ 31) (hs : 1 ≤ s) (hs' : s < 2 ^ 31) (hpos : 0 < fuel)
    (hfuel : e + 1 < fuel + a) :
    ∃ is, forIds fuel a e s = some is ∧ ∀ x, x ∈ is ↔ x ∈ segment a e s := by
  induction fuel generalizing a with
  | zero => exact absurd hpos (lt_irrefl 0)
  | succ fuel ih =>
      by_cases hle : a ≤ e
      · obtain ⟨is, his, hmem⟩ := ih (a := wadd a s) (by omega)
          (by rw [wadd_eq (by omega)]; omega)
        refine ⟨a :: is, by simp [forIds, hle, his], fun x => ?_⟩
        rw [segment_cut (p := a) ⟨left_mem_grid, hle⟩, segment_self, List.mem_cons, hmem,
          wadd_eq (by omega)]
        rfl
      · refine ⟨[], by simp [forIds, hle], fun x => ?_⟩
        rw [segment_eq_empty (by omega)]
        simp

theorem forIds_mono {m n : ℕ} {is : List ℕ} (hmn : m ≤ n) (h : forIds m a e s = some is) :
    forIds n a e s = some is := by
  induction m generalizing a n is with
  | zero => simp [forIds] at h
  | succ m ih =>
      obtain ⟨n, rfl⟩ : ∃ k, n = k + 1 := ⟨n - 1, by omega⟩
      rw [forIds] at h ⊢
      by_cases hle : a ≤ e
      · rw [if_pos hle, Option.map_eq_some_iff] at h
        obtain ⟨js, hjs, rfl⟩ := h
        rw [if_pos hle, ih (by omega) hjs, Option.map_some]
      · rwa [if_neg hle] at h ⊢

theorem insertRanges_mono {m n : ℕ} {out : List Range} (hmn : m ≤ n)
    (h : insertRanges srt m l tmp = some out) : insertRanges srt n l tmp = some out := by
  induction tmp generalizing l with
  | nil => exact h
  | cons r tmp ih =>
      rw [insertRanges, List.foldlM_cons, Option.bind_eq_bind, Option.bind_eq_some_iff] at h ⊢
      obtain ⟨mid, hmid, hrest⟩ := h
      obtain ⟨is, his, rfl⟩ := Option.map_eq_some_iff.mp hmid
      exact ⟨_, by rw [forIds_mono hmn his, Option.map_some], ih hrest⟩

/-- The loop over the ids of a range ends and visits `S`. -/
def Range.Visits (fuel : ℕ) (r : Range) (S : Set ℕ) : Prop :=
  ∃ is, forIds fuel r.min r.max r.step = some is ∧ {x | x ∈ is} = S ∧ ∀ x ∈ S, x < 2 ^ 31

theorem Range.Ok.visits {r : Range} (h : r.Ok) (hfuel : 2 ^ 31 < fuel) : r.Visits fuel r.ids := by
  have hmax := h.max_lt
  obtain ⟨is, his, hmem⟩ := forIds_spec (a := r.min) h.max_lt h.step_pos h.step_lt
    (show 0 < fuel by omega) (by omega)
  exact ⟨is, his, Set.ext hmem, h.valid.ids_lt⟩

theorem insertRanges_visits {S : Range → Set ℕ} (h : Canonical l)
    (htmp : ∀ r ∈ tmp, r.Visits fuel (S r)) :
    ∃ out, insertRanges srt fuel l tmp = some out ∧ Canonical out ∧
      ids out = ids l ∪ {x | ∃ r ∈ tmp, x ∈ S r} := by
  induction tmp generalizing l with
  | nil => exact ⟨l, rfl, h, by simp⟩
  | cons r tmp ih =>
      obtain ⟨is, his, hset, hlt⟩ := htmp r (by simp)
      obtain ⟨hc, hids⟩ := foldl_insertId_spec srt is h
        (fun id hid => hlt id (hset ▸ hid))
      obtain ⟨out, hout, hcan, hidsOut⟩ := ih hc (fun q hq => htmp q (by simp [hq]))
      refine ⟨out, ?_, hcan, ?_⟩
      · rw [insertRanges, List.foldlM_cons, his]
        exact hout
      · rw [hidsOut, hids, hset]
        ext x
        simp only [Set.mem_union, Set.mem_ofPred_eq, List.exists_mem_cons_iff]
        tauto

theorem insertRanges_spec (h : Canonical l) (htmp : ∀ r ∈ tmp, r.Ok) (hfuel : 2 ^ 31 < fuel) :
    ∃ out, insertRanges srt fuel l tmp = some out ∧ Canonical out ∧
      ids out = ids l ∪ ids tmp :=
  insertRanges_visits srt h (fun r hr => (htmp r hr).visits hfuel)

end Insert

section SortOut
variable {fuel} {l rest : List Range} {r₁ : Range}

/-- What remains of the removal of overlaps for the insertion loop. -/
structure SortedOut (l : List Range) (p : List Range × List Range) : Prop where
  canonical : Canonical p.1
  ok : ∀ r ∈ p.2, r.Ok
  ids_eq : ids p.1 ∪ ids p.2 = ids l

theorem correctIf_true (r : Range) : correctIf true r = rangeCorrectEnd r := rfl

theorem sortOutFrom_overlap {r₂ : Range} (h : rangeIsOverlapping r₁ (rangeCorrectEnd r₂) = true) :
    sortOutFrom true r₁ (r₂ :: rest) =
      ((sortOutFrom true r₁ rest).1, rangeCorrectEnd r₂ :: (sortOutFrom true r₁ rest).2) :=
  if_pos h

theorem sortOutFrom_apart {r₂ : Range} (h : ¬ rangeIsOverlapping r₁ (rangeCorrectEnd r₂) = true) :
    sortOutFrom true r₁ (r₂ :: rest) =
      (r₁ :: (sortOutFrom true (rangeCorrectEnd (rangeCorrectEnd r₂)) rest).1,
        (sortOutFrom true (rangeCorrectEnd (rangeCorrectEnd r₂)) rest).2) :=
  if_neg h

theorem sortOutFrom_spec (h₁ : r₁.Ok) (hrest : ∀ r ∈ rest, r.Corrects)
    (hsort : (r₁ :: rest).Pairwise (fun a b => a.min ≤ b.min)) :
    SortedOut (r₁ :: rest) (sortOutFrom true r₁ rest) ∧
      ∀ b ∈ (sortOutFrom true r₁ rest).1, r₁.min ≤ b.min := by
  induction rest generalizing r₁ with
  | nil => exact ⟨⟨Canonical.singleton h₁, by simp [sortOutFrom], by simp [sortOutFrom]⟩,
      by simp [sortOutFrom]⟩
  | cons r₂ rest ih =>
      have hrest' : ∀ r ∈ rest, r.Corrects := fun r hr => hrest r (by simp [hr])
      obtain ⟨hok, hmin, hids⟩ := hrest r₂ (by simp)
      obtain ⟨hle, hsort₂⟩ := List.pairwise_cons.mp hsort
      by_cases hov : rangeIsOverlapping r₁ (rangeCorrectEnd r₂) = true
      · rw [sortOutFrom_overlap hov]
        have hsort' : (r₁ :: rest).Pairwise (fun a b => a.min ≤ b.min) :=
          List.pairwise_cons.mpr ⟨fun b hb => hle b (by simp [hb]),
            (List.pairwise_cons.mp hsort₂).2⟩
        obtain ⟨hout, hmins⟩ := ih h₁ hrest' hsort'
        refine ⟨⟨hout.canonical, ?_, ?_⟩, hmins⟩
        · intro r hr
          rcases List.mem_cons.mp hr with rfl | hr
          · exact hok
          · exact hout.ok r hr
        · have heq := hout.ids_eq
          simp only [ids_cons, hids] at heq ⊢
          rw [Set.union_left_comm, heq, Set.union_left_comm]
      · rw [sortOutFrom_apart hov]
        obtain ⟨hok', hmin', hids'⟩ := hok.valid.corrects
        have hsort' : (rangeCorrectEnd (rangeCorrectEnd r₂) :: rest).Pairwise
            (fun a b => a.min ≤ b.min) := by
          refine List.pairwise_cons.mpr ⟨fun b hb => ?_, (List.pairwise_cons.mp hsort₂).2⟩
          rw [hmin', hmin]
          exact (List.pairwise_cons.mp hsort₂).1 b hb
        obtain ⟨hout, hmins⟩ := ih hok' hrest' hsort'
        have hgap : r₁.max < r₂.min := by
          simpa [rangeIsOverlapping, hmin] using hov
        have hle₁ := h₁.le
        refine ⟨⟨Canonical.cons_iff.mpr ⟨h₁, hout.canonical, ?_⟩, hout.ok, ?_⟩, ?_⟩
        · intro b hb
          have := hmins b hb
          omega
        · have heq := hout.ids_eq
          simp only [ids_cons, hids', hids] at heq ⊢
          rw [Set.union_assoc, heq]
        · intro b hb
          rcases List.mem_cons.mp hb with rfl | hb
          · exact le_rfl
          · have := hmins b hb
            omega

theorem sortOut_spec (hl : ∀ r ∈ l, r.Corrects) (hsort : l.Pairwise (fun a b => a.min ≤ b.min)) :
    SortedOut l (sortOut true l) := by
  cases l with
  | nil => exact ⟨Canonical.nil, by simp [sortOut], by simp [sortOut]⟩
  | cons r rest =>
      obtain ⟨hok, hmin, hids⟩ := hl r (by simp)
      obtain ⟨hle, hrest⟩ := List.pairwise_cons.mp hsort
      have hout := (sortOutFrom_spec hok (fun q hq => hl q (by simp [hq]))
        (List.pairwise_cons.mpr ⟨by simpa [hmin] using hle, hrest⟩)).1
      refine ⟨hout.canonical, hout.ok, ?_⟩
      rw [sortOut, correctIf_true, hout.ids_eq, ids_cons, ids_cons, hids]

theorem rangeListSortUniqCompress_spec (hl : ∀ r ∈ l, r.Corrects) (hfuel : 2 ^ 31 < fuel) :
    ∃ out, rangeListSortUniqCompress srt fuel true l = some out ∧ Canonical out ∧
      ids out = ids l := by
  have hout := sortOut_spec (l := srt.run l) (fun r hr => hl r ((srt.perm l).mem_iff.mp hr))
    (srt.sorted l)
  obtain ⟨mid, hmid, hcan, hids⟩ := insertRanges_spec srt hout.canonical hout.ok hfuel
  obtain ⟨hc, hidsC⟩ := rangeListCompress_spec hcan
  refine ⟨rangeListCompress mid, ?_, hc, ?_⟩
  · simp [rangeListSortUniqCompress, hmid]
  · rw [hidsC, hids, hout.ids_eq, ids_perm (srt.perm l)]

theorem rangeListSortUniqCompress_mono {m n : ℕ} {correctEnd : Bool} {out : List Range}
    (hmn : m ≤ n) (h : rangeListSortUniqCompress srt m correctEnd l = some out) :
    rangeListSortUniqCompress srt n correctEnd l = some out := by
  rw [rangeListSortUniqCompress, Option.map_eq_some_iff] at h ⊢
  obtain ⟨mid, hmid, rfl⟩ := h
  exact ⟨mid, insertRanges_mono srt hmn hmid, rfl⟩

/-- The list becomes canonical, keeps its ids and counts each of them once. -/
theorem rangeListSortUniqCompress_canonical (hl : ∀ r ∈ l, r.Valid) :
    ∃ (out : List Range) (bound : ℕ),
      (∀ fuel, bound ≤ fuel → rangeListSortUniqCompress srt fuel true l = some out) ∧
      (∀ id, rangeListIsIdWithin out id = rangeListIsIdWithin l id) ∧
      out.Pairwise (fun a b => a.max < b.min) ∧
      (∀ r ∈ out, r.min ≤ r.max ∧ 1 ≤ r.step ∧ (r.max - r.min) % r.step = 0) ∧
      rangeListGetNumberOfIds out = {id | rangeListIsIdWithin l id = true}.ncard := by
  obtain ⟨out, hout, hc, hids⟩ := rangeListSortUniqCompress_spec srt (fun r hr => (hl r hr).corrects)
    (Nat.lt_succ_self (2 ^ 31))
  have hwithin : ∀ id, rangeListIsIdWithin out id = rangeListIsIdWithin l id := fun id => by
    rw [Bool.eq_iff_iff, rangeListIsIdWithin_iff, rangeListIsIdWithin_iff, hids]
  have hset : {id | rangeListIsIdWithin l id = true} = ids out := by
    rw [hids]
    exact Set.ext (fun id => rangeListIsIdWithin_iff)
  refine ⟨out, 2 ^ 31 + 1, fun fuel hfuel => ?_, hwithin, hc.sorted, fun r hr => ?_, ?_⟩
  · exact rangeListSortUniqCompress_mono srt hfuel hout
  · have hr := hc.ok r hr
    exact ⟨hr.le, hr.step_pos, (mem_segment_iff_mod.mp hr.max_mem).2.2⟩
  · rw [rangeListGetNumberOfIds_eq hc, hset]

theorem Range.Valid.of_bounds {r : Range} (hle : r.min ≤ r.max) (hmax : r.max < 2 ^ 31)
    (hpos : 1 ≤ r.step) (hstep : r.step < 2 ^ 31) : r.Valid :=
  ⟨hle, by omega, hpos, hstep, fun _ hid => (segment_le hid).2.trans_lt hmax⟩

/-- The list `12-12:7,1-7:1,3-5:2,14-16:2` of the source's example. -/
def interleavedRanges : List Range := [⟨12, 12, 7⟩, ⟨1, 7, 1⟩, ⟨3, 5, 2⟩, ⟨14, 16, 2⟩]

theorem interleavedRanges_canonical :
    ∃ (out : List Range) (bound : ℕ),
      (∀ fuel, bound ≤ fuel → rangeListSortUniqCompress (PSortList.stable Range Range.min) fuel true
        interleavedRanges = some out) ∧
      (∀ id, rangeListIsIdWithin out id = rangeListIsIdWithin interleavedRanges id) ∧
      out.Pairwise (fun a b => a.max < b.min) ∧
      (∀ r ∈ out, r.min ≤ r.max ∧ 1 ≤ r.step ∧ (r.max - r.min) % r.step = 0) ∧
      rangeListGetNumberOfIds out =
        {id | rangeListIsIdWithin interleavedRanges id = true}.ncard := by
  apply rangeListSortUniqCompress_canonical
  intro r hr
  simp only [interleavedRanges, List.mem_cons, List.not_mem_nil, or_false] at hr
  rcases hr with rfl | rfl | rfl | rfl <;> exact Range.Valid.of_bounds (by decide) (by norm_num)
    (by decide) (by norm_num)

end SortOut

end GridEngine
