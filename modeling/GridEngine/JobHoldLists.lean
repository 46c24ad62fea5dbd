import GridEngine.JobTasks
import GridEngine.RangeIntersection

/-!
# Lists for hold combinations

`job_create_hold_id_lists` sorts the ids of a job by the combination of their holds. The sixteen
lists are made of intersections and differences of the four hold lists. Every list on the way
selects the ids by a Boolean function of their four holds, and the functions of the results are
compared with the table of hold states.
-/

namespace GridEngine
open Segments

section Model
variable (srt : PSortList Range Range.min) (fuel : ℕ) (job : Job)

/-- `job_get_ja_task_hold_state`. -/
def jobGetJaTaskHoldState (id : ℕ) : ℕ :=
  let ret := 0
  let ret := if inIdList job .jaUHIds id then ret ||| minusHTgtUser else ret
  let ret := if inIdList job .jaOHIds id then ret ||| minusHTgtOperator else ret
  let ret := if inIdList job .jaSHIds id then ret ||| minusHTgtSystem else ret
  if inIdList job .jaAHIds id then ret ||| minusHTgtJaAd else ret

/-- The array `hold_state`. -/
def holdState : List ℕ :=
  [0, minusHTgtUser, minusHTgtOperator, minusHTgtSystem, minusHTgtJaAd,
    minusHTgtUser ||| minusHTgtOperator, minusHTgtUser ||| minusHTgtSystem,
    minusHTgtUser ||| minusHTgtJaAd, minusHTgtOperator ||| minusHTgtSystem,
    minusHTgtOperator ||| minusHTgtJaAd, minusHTgtSystem ||| minusHTgtJaAd,
    minusHTgtUser ||| minusHTgtOperator ||| minusHTgtSystem,
    minusHTgtUser ||| minusHTgtOperator ||| minusHTgtJaAd,
    minusHTgtUser ||| minusHTgtSystem ||| minusHTgtJaAd,
    minusHTgtOperator ||| minusHTgtSystem ||| minusHTgtJaAd,
    minusHTgtUser ||| minusHTgtOperator ||| minusHTgtSystem ||| minusHTgtJaAd]

/-- `job_create_hold_id_lists` with the array `id_list`. -/
def jobCreateHoldIdLists : Option (List (Option (List Range))) := do
  let u := job.idLists .jaUHIds
  let o := job.idLists .jaOHIds
  let s := job.idLists .jaSHIds
  let a := job.idLists .jaAHIds
  let inter := rangeListCalculateIntersectionSet fuel
  let diff := rangeListCalculateDifferenceSet srt fuel none
  let list0 ← inter u o
  let list1 ← inter u s
  let list2 ← inter u a
  let list3 ← inter o s
  let list4 ← inter o a
  let list5 ← inter s a
  let list6 ← inter list0 list3
  let list7 ← inter list0 list4
  let list8 ← inter list1 list5
  let list9 ← inter list3 list5
  let idList15 ← inter list6 list7
  let idList14 ← diff list9 idList15
  let idList13 ← diff list8 idList15
  let idList12 ← diff list7 idList15
  let idList11 ← diff list6 idList15
  let list10 ← diff list5 list8
  let idList10 ← diff list10 idList14
  let list11 ← diff list4 list7
  let idList9 ← diff list11 idList14
  let list12 ← diff list3 list6
  let idList8 ← diff list12 idList14
  let list13 ← diff list2 list7
  let idList7 ← diff list13 idList13
  let list14 ← diff list1 list6
  let idList6 ← diff list14 idList13
  let list15 ← diff list0 list6
  let idList5 ← diff list15 idList12
  let list16 ← diff a list2
  let list17 ← diff list16 list11
  let idList4 ← diff list17 idList10
  let list18 ← diff s list1
  let list19 ← diff list18 list12
  let idList3 ← diff list19 idList10
  let list20 ← diff o list0
  let list21 ← diff list20 list12
  let idList2 ← diff list21 idList9
  let list22 ← diff u list0
  let list23 ← diff list22 list14
  let idList1 ← diff list23 idList7
  let idList0 := job.idLists .jaNHIds
  return [idList0, idList1, idList2, idList3, idList4, idList5, idList6, idList7, idList8, idList9,
    idList10, idList11, idList12, idList13, idList14, idList15]

end Model

section Sets
variable {fuel : ℕ} {o₁ o₂ : Option (List Range)}

theorem singles_canonical {xs : List ℕ} (hasc : xs.Pairwise (· < ·)) (hlt : ∀ x ∈ xs, x < 2 ^ 31) :
    Canonical (xs.map singleId) := by
  constructor
  · intro r hr
    obtain ⟨x, hx, rfl⟩ := List.mem_map.mp hr
    exact singleId_ok (hlt x hx)
  · rw [List.pairwise_map]
    exact hasc.imp fun h => by simpa using h

theorem Canonical.small {l : List Range} (h : Canonical l) : ∀ r ∈ l, r.Small := fun r hr =>
  ⟨(h.ok r hr).le, (h.ok r hr).max_lt, (h.ok r hr).step_pos,
    (h.ok r hr).step_lt.trans (by norm_num)⟩

theorem Canonical.wrapIds_eq {l : List Range} (h : Canonical l) : wrapIds l = ∅ := by
  ext x
  refine iff_of_false ?_ (Set.notMem_empty x)
  rintro ⟨r, hr, hwrap, -⟩
  have hlt := (h.ok r hr).step_lt
  have hmin := (h.ok r hr).le.trans_lt (h.ok r hr).max_lt
  omega

theorem intersection_spec (h₁ : Canonical (o₁.getD [])) (hfuel : 2 ^ 31 < fuel) :
    ∃ out, rangeListCalculateIntersectionSet fuel o₁ o₂ = some out ∧ Canonical (out.getD []) ∧
      ids (out.getD []) = ids (o₁.getD []) ∩ ids (o₂.getD []) := by
  cases o₁ with
  | none => exact ⟨none, rfl, Canonical.nil, by simp⟩
  | some l₁ =>
      replace h₁ : Canonical l₁ := h₁
      cases o₂ with
      | none => exact ⟨none, rfl, Canonical.nil, by simp⟩
      | some l₂ =>
          have hsmall := h₁.small
          have hsingles := singles_canonical (metIds_ascending h₁) (@metIds_lt l₁ l₂ hsmall)
          obtain ⟨hc, hids⟩ := rangeListCompress_spec hsingles
          have hout : ((singleList (metIds l₁ l₂)).map rangeListCompress).getD [] =
              rangeListCompress ((metIds l₁ l₂).map singleId) := by
            rw [← singleList_getD]
            exact Option.getD_map rangeListCompress [] (singleList (metIds l₁ l₂))
          refine ⟨_, intersectionSet_eq hsmall hfuel, by rwa [hout], ?_⟩
          rw [hout, hids]
          ext x
          have hmem : x ∈ ids ((metIds l₁ l₂).map singleId) ↔ x ∈ metIds l₁ l₂ := by
            rw [mem_ids]
            constructor
            · rintro ⟨r, hr, hx⟩
              obtain ⟨y, hy, rfl⟩ := List.mem_map.mp hr
              rw [singleId_ids] at hx
              rwa [Set.mem_singleton_iff.mp hx]
            · intro hx
              exact ⟨singleId x, List.mem_map_of_mem hx, by rw [singleId_ids]; rfl⟩
          rw [hmem, mem_metIds hsmall, Canonical.wrapIds_eq h₁, Set.union_empty]
          rfl

/-- The difference of canonical lists, written to a list that does not exist yet. -/
theorem difference_spec (srt : PSortList Range Range.min) (h₁ : Canonical (o₁.getD []))
    (h₂ : Canonical (o₂.getD [])) (hfuel : 2 ^ 31 < fuel) :
    ∃ out, rangeListCalculateDifferenceSet srt fuel none o₁ o₂ = some out ∧
      Canonical (out.getD []) ∧ ids (out.getD []) = ids (o₁.getD []) \ ids (o₂.getD []) := by
  cases o₁ with
  | none => exact ⟨none, rfl, Canonical.nil, by simp⟩
  | some l₁ =>
      replace h₁ : Canonical l₁ := h₁
      cases o₂ with
      | none =>
          obtain ⟨out, hout, hc, hids⟩ := exists_sortUniqCompress srt h₁.small
          refine ⟨some out, ?_, hc, by simpa using hids⟩
          rw [rangeListCalculateDifferenceSet, hout fuel hfuel, Option.map_some]
      | some l₂ =>
          replace h₂ : Canonical l₂ := h₂
          obtain ⟨out, hout, hc, hids, -⟩ := differenceSet_ids srt h₁.small h₂.small
          refine ⟨out, hout fuel none hfuel, hc, ?_⟩
          rw [hids, Canonical.wrapIds_eq h₂, Set.union_empty]
          rfl

end Sets

section Selection
variable {job : Job} {l l' : Option (List Range)} {f g : Bool → Bool → Bool → Bool → Bool} {fuel : ℕ}

/-- The list selects the ids whose holds satisfy `f`. -/
structure Selects (job : Job) (l : Option (List Range)) (f : Bool → Bool → Bool → Bool → Bool) :
    Prop where
  canonical : Canonical (l.getD [])
  mem_iff : ∀ id, id ∈ ids (l.getD []) ↔
    f (inIdList job .jaUHIds id) (inIdList job .jaOHIds id) (inIdList job .jaSHIds id)
      (inIdList job .jaAHIds id) = true

theorem Selects.inter (h : Selects job l f) (h' : Selects job l' g) (hfuel : 2 ^ 31 < fuel) :
    ∃ out, rangeListCalculateIntersectionSet fuel l l' = some out ∧
      Selects job out (fun u o s a => f u o s a && g u o s a) := by
  obtain ⟨out, hout, hc, hids⟩ := @intersection_spec fuel l l' h.canonical hfuel
  refine ⟨out, hout, hc, fun id => ?_⟩
  rw [hids, Set.mem_inter_iff, h.mem_iff, h'.mem_iff, Bool.and_eq_true]

theorem Selects.diff (srt : PSortList Range Range.min) (h : Selects job l f)
    (h' : Selects job l' g) (hfuel : 2 ^ 31 < fuel) :
    ∃ out, rangeListCalculateDifferenceSet srt fuel none l l' = some out ∧
      Selects job out (fun u o s a => f u o s a && !g u o s a) := by
  obtain ⟨out, hout, hc, hids⟩ := difference_spec srt h.canonical h'.canonical hfuel
  refine ⟨out, hout, hc, fun id => ?_⟩
  rw [hids, Set.mem_sdiff, h.mem_iff, h'.mem_iff, Bool.and_eq_true, Bool.not_eq_true',
    Bool.not_eq_true]

/-- The hold state as a function of the four holds. -/
def holdMask (u o s a : Bool) : ℕ :=
  let ret := 0
  let ret := if u then ret ||| minusHTgtUser else ret
  let ret := if o then ret ||| minusHTgtOperator else ret
  let ret := if s then ret ||| minusHTgtSystem else ret
  if a then ret ||| minusHTgtJaAd else ret

/-- The list holds the ids with the hold state `m`. -/
def SelectsState (job : Job) (l : Option (List Range)) (m : ℕ) : Prop :=
  ∀ id, id ∈ ids (l.getD []) ↔ jobGetJaTaskHoldState job id = m

theorem Selects.state {m : ℕ} (h : Selects job l f)
    (hf : ∀ u o s a, f u o s a = true ↔ holdMask u o s a = m) : SelectsState job l m :=
  fun id => (h.mem_iff id).trans (hf _ _ _ _)

/-- The sixteen lists: the first one is the list without holds, and the other ones hold the ids
with the hold states of the table. -/
structure SortsHolds (job : Job) (idList : List (Option (List Range))) : Prop where
  length_eq : idList.length = 16
  head_eq : idList.head? = some (job.idLists .jaNHIds)
  states : List.Forall₂ (SelectsState job) idList.tail holdState.tail

/-- One step of a computation in `Option`. -/
theorem bind_step {α β : Type} {x : Option α} {a : α} {k : α → Option β} {r : Option β}
    (hx : x = some a) (h : k a = r) : (x >>= k) = r := by
  rw [hx, ← h]
  rfl

theorem selects_idList {attr : IdList} (h : Canonical ((job.idLists attr).getD []))
    (hf : ∀ id, f (inIdList job .jaUHIds id) (inIdList job .jaOHIds id) (inIdList job .jaSHIds id)
      (inIdList job .jaAHIds id) = inIdList job attr id) : Selects job (job.idLists attr) f := by
  refine ⟨h, fun id => ?_⟩
  rw [hf, inIdList, rangeListIsIdWithin_iff]

/-- The lists on the way to the sixteen ones, each with the combination it stands for. -/
theorem jobCreateHoldIdLists_sorts (srt : PSortList Range Range.min) (hfuel : 2 ^ 31 < fuel)
    (h : ∀ attr, Canonical ((job.idLists attr).getD [])) :
    ∃ idList, jobCreateHoldIdLists srt fuel job = some idList ∧ SortsHolds job idList := by
  have hu : Selects job (job.idLists .jaUHIds) (fun u _ _ _ => u) := selects_idList (h _) fun _ => rfl
  have ho : Selects job (job.idLists .jaOHIds) (fun _ o _ _ => o) := selects_idList (h _) fun _ => rfl
  have hs : Selects job (job.idLists .jaSHIds) (fun _ _ s _ => s) := selects_idList (h _) fun _ => rfl
  have ha : Selects job (job.idLists .jaAHIds) (fun _ _ _ a => a) := selects_idList (h _) fun _ => rfl
  obtain ⟨l0, r0, h0⟩ := hu.inter ho hfuel
  obtain ⟨l1, r1, h1⟩ := hu.inter hs hfuel
  obtain ⟨l2, r2, h2⟩ := hu.inter ha hfuel
  obtain ⟨l3, r3, h3⟩ := ho.inter hs hfuel
  obtain ⟨l4, r4, h4⟩ := ho.inter ha hfuel
  obtain ⟨l5, r5, h5⟩ := hs.inter ha hfuel
  obtain ⟨l6, r6, h6⟩ := h0.inter h3 hfuel
  obtain ⟨l7, r7, h7⟩ := h0.inter h4 hfuel
  obtain ⟨l8, r8, h8⟩ := h1.inter h5 hfuel
  obtain ⟨l9, r9, h9⟩ := h3.inter h5 hfuel
  obtain ⟨ld15, rd15, hd15⟩ := h6.inter h7 hfuel
  obtain ⟨ld14, rd14, hd14⟩ := h9.diff srt hd15 hfuel
  obtain ⟨ld13, rd13, hd13⟩ := h8.diff srt hd15 hfuel
  obtain ⟨ld12, rd12, hd12⟩ := h7.diff srt hd15 hfuel
  obtain ⟨ld11, rd11, hd11⟩ := h6.diff srt hd15 hfuel
  obtain ⟨l10, r10, h10⟩ := h5.diff srt h8 hfuel
  obtain ⟨ld10, rd10, hd10⟩ := h10.diff srt hd14 hfuel
  obtain ⟨l11, r11, h11⟩ := h4.diff srt h7 hfuel
  obtain ⟨ld9, rd9, hd9⟩ := h11.diff srt hd14 hfuel
  obtain ⟨l12, r12, h12⟩ := h3.diff srt h6 hfuel
  obtain ⟨ld8, rd8, hd8⟩ := h12.diff srt hd14 hfuel
  obtain ⟨l13, r13, h13⟩ := h2.diff srt h7 hfuel
  obtain ⟨ld7, rd7, hd7⟩ := h13.diff srt hd13 hfuel
  obtain ⟨l14, r14, h14⟩ := h1.diff srt h6 hfuel
  obtain ⟨ld6, rd6, hd6⟩ := h14.diff srt hd13 hfuel
  obtain ⟨l15, r15, h15⟩ := h0.diff srt h6 hfuel
  obtain ⟨ld5, rd5, hd5⟩ := h15.diff srt hd12 hfuel
  obtain ⟨l16, r16, h16⟩ := ha.diff srt h2 hfuel
  obtain ⟨l17, r17, h17⟩ := h16.diff srt h11 hfuel
  obtain ⟨ld4, rd4, hd4⟩ := h17.diff srt hd10 hfuel
  obtain ⟨l18, r18, h18⟩ := hs.diff srt h1 hfuel
  obtain ⟨l19, r19, h19⟩ := h18.diff srt h12 hfuel
  obtain ⟨ld3, rd3, hd3⟩ := h19.diff srt hd10 hfuel
  obtain ⟨l20, r20, h20⟩ := ho.diff srt h0 hfuel
  obtain ⟨l21, r21, h21⟩ := h20.diff srt h12 hfuel
  obtain ⟨ld2, rd2, hd2⟩ := h21.diff srt hd9 hfuel
  obtain ⟨l22, r22, h22⟩ := hu.diff srt h0 hfuel
  obtain ⟨l23, r23, h23⟩ := h22.diff srt h14 hfuel
  obtain ⟨ld1, rd1, hd1⟩ := h23.diff srt hd7 hfuel
  refine ⟨[job.idLists .jaNHIds, ld1, ld2, ld3, ld4, ld5, ld6, ld7, ld8, ld9, ld10, ld11, ld12, ld13,
    ld14, ld15], ?_, rfl, rfl, ?_⟩
  · unfold jobCreateHoldIdLists
    exact bind_step r0 (bind_step r1 (bind_step r2 (bind_step r3 (bind_step r4 (bind_step r5
      (bind_step r6 (bind_step r7 (bind_step r8 (bind_step r9 (bind_step rd15 (bind_step rd14
      (bind_step rd13 (bind_step rd12 (bind_step rd11 (bind_step r10 (bind_step rd10
      (bind_step r11 (bind_step rd9 (bind_step r12 (bind_step rd8 (bind_step r13 (bind_step rd7
      (bind_step r14 (bind_step rd6 (bind_step r15 (bind_step rd5 (bind_step r16 (bind_step r17
      (bind_step rd4 (bind_step r18 (bind_step r19 (bind_step rd3 (bind_step r20 (bind_step r21
      (bind_step rd2 (bind_step r22 (bind_step r23 (bind_step rd1
      rfl))))))))))))))))))))))))))))))))))))))
  · exact .cons (hd1.state (by decide)) (.cons (hd2.state (by decide))
      (.cons (hd3.state (by decide)) (.cons (hd4.state (by decide))
      (.cons (hd5.state (by decide)) (.cons (hd6.state (by decide))
      (.cons (hd7.state (by decide)) (.cons (hd8.state (by decide))
      (.cons (hd9.state (by decide)) (.cons (hd10.state (by decide))
      (.cons (hd11.state (by decide)) (.cons (hd12.state (by decide))
      (.cons (hd13.state (by decide)) (.cons (hd14.state (by decide))
      (.cons (hd15.state (by decide)) .nil))))))))))))))

/-- The list `id_list[k]`. -/
def idListAt (idList : List (Option (List Range))) (k : ℕ) : List Range := (idList.getD k none).getD []

/-- The sixteen lists hold what their hold states say, and every task that is not enrolled is in
one of them when no task without hold has one. -/
structure HoldPartition (job : Job) (idList : List (Option (List Range))) : Prop where
  length_eq : idList.length = 16
  held : ∀ k, 1 ≤ k → k < 16 → ∀ id, id ∈ ids (idListAt idList k) ↔
    jobGetJaTaskHoldState job id = holdState.getD k 0
  free : ids (idListAt idList 0) = ids ((job.idLists .jaNHIds).getD [])
  once : (∀ attr, attr ≠ .jaNHIds →
      Disjoint (ids ((job.idLists .jaNHIds).getD [])) (ids ((job.idLists attr).getD []))) →
    ∀ id, jobIsEnrolled job id = false → ∃! k, k < 16 ∧ id ∈ ids (idListAt idList k)

theorem SortsHolds.held {idList : List (Option (List Range))} (h : SortsHolds job idList) {k : ℕ}
    (hpos : 1 ≤ k) (hk : k < 16) (id : ℕ) :
    id ∈ ids (idListAt idList k) ↔ jobGetJaTaskHoldState job id = holdState.getD k 0 := by
  obtain ⟨j, rfl⟩ : ∃ j, k = j + 1 := ⟨k - 1, by omega⟩
  have hlen := h.length_eq
  have htable : holdState.length = 16 := rfl
  have hleft : j < idList.tail.length := by
    rw [List.length_tail]
    omega
  have hright : j < holdState.tail.length := by
    rw [List.length_tail]
    omega
  have hstate := h.states.get hleft hright id
  have hlist : idListAt idList (j + 1) = (idList.tail.get ⟨j, hleft⟩).getD [] := by
    rw [idListAt, List.getD_eq_getElem?_getD, List.getElem?_eq_getElem (by omega),
      Option.getD_some, List.get_eq_getElem, List.getElem_tail]
  have hvalue : holdState.getD (j + 1) 0 = holdState.tail.get ⟨j, hright⟩ := by
    rw [List.getD_eq_getElem?_getD, List.getElem?_eq_getElem (by omega), Option.getD_some,
      List.get_eq_getElem, List.getElem_tail]
  rw [hlist, hvalue]
  exact hstate

theorem SortsHolds.free {idList : List (Option (List Range))} (h : SortsHolds job idList) :
    idListAt idList 0 = (job.idLists .jaNHIds).getD [] := by
  have hhead := h.head_eq
  cases idList with
  | nil => cases hhead
  | cons l idList =>
      cases hhead
      rfl

theorem holdState_injective : ∀ j < 16, ∀ k < 16,
    holdState.getD j 0 = holdState.getD k 0 → j = k := by decide

theorem holdMask_mem : ∀ u o s a, ∃ k < 16, holdState.getD k 0 = holdMask u o s a := by decide

theorem holdMask_eq_zero_iff : ∀ u o s a,
    holdMask u o s a = 0 ↔ (u || o || s || a) = false := by decide

theorem SortsHolds.once_held {idList : List (Option (List Range))} (h : SortsHolds job idList)
    {id : ℕ} (hn : id ∉ ids ((job.idLists .jaNHIds).getD []))
    (hheld : jobGetJaTaskHoldState job id ≠ 0) :
    ∃! k, k < 16 ∧ id ∈ ids (idListAt idList k) := by
  obtain ⟨k, hk, hstate⟩ := holdMask_mem (inIdList job .jaUHIds id) (inIdList job .jaOHIds id)
    (inIdList job .jaSHIds id) (inIdList job .jaAHIds id)
  have hpos : 1 ≤ k := by
    by_contra hzero
    obtain rfl : k = 0 := by omega
    exact hheld hstate.symm
  refine ⟨k, ⟨hk, (h.held hpos hk id).mpr hstate.symm⟩, ?_⟩
  rintro j ⟨hj, hmem⟩
  by_cases hzero : j = 0
  · subst hzero
    rw [h.free] at hmem
    exact absurd hmem hn
  · have hstate' := (h.held (by omega) hj id).mp hmem
    exact holdState_injective j hj k hk (hstate'.symm.trans hstate.symm)

theorem SortsHolds.once_free {idList : List (Option (List Range))} (h : SortsHolds job idList)
    {id : ℕ} (hn : id ∈ ids ((job.idLists .jaNHIds).getD []))
    (hfree : jobGetJaTaskHoldState job id = 0) :
    ∃! k, k < 16 ∧ id ∈ ids (idListAt idList k) := by
  refine ⟨0, ⟨by omega, by rwa [h.free]⟩, ?_⟩
  rintro j ⟨hj, hmem⟩
  by_contra hne
  have hstate := (h.held (by omega) hj id).mp hmem
  exact hne (holdState_injective j hj 0 (by omega) (hstate.symm.trans hfree))

/-- Every hold combination gets its tasks. -/
theorem jobCreateHoldIdLists_partition (srt : PSortList Range Range.min) (hfuel : 2 ^ 31 < fuel)
    (h : ∀ attr, Canonical ((job.idLists attr).getD [])) :
    ∃ idList, jobCreateHoldIdLists srt fuel job = some idList ∧ HoldPartition job idList := by
  obtain ⟨idList, hrun, hsorts⟩ := jobCreateHoldIdLists_sorts srt hfuel h
  refine ⟨idList, hrun, hsorts.length_eq, fun k hpos hk => hsorts.held hpos hk,
    congrArg ids hsorts.free, ?_⟩
  intro hdisj id hid
  have hwithin : ∀ attr, inIdList job attr id = true ↔ id ∈ ids ((job.idLists attr).getD []) :=
    fun attr => rangeListIsIdWithin_iff
  have hzero := holdMask_eq_zero_iff (inIdList job .jaUHIds id) (inIdList job .jaOHIds id)
    (inIdList job .jaSHIds id) (inIdList job .jaAHIds id)
  by_cases hn : id ∈ ids ((job.idLists .jaNHIds).getD [])
  · have hnone : ∀ attr, attr ≠ .jaNHIds → inIdList job attr id = false := by
      intro attr hattr
      by_contra hmem
      rw [Bool.not_eq_false, hwithin] at hmem
      exact Set.disjoint_left.mp (hdisj attr hattr) hn hmem
    refine hsorts.once_free hn (hzero.mpr ?_)
    rw [hnone .jaUHIds nofun, hnone .jaOHIds nofun, hnone .jaSHIds nofun, hnone .jaAHIds nofun]
    rfl
  · refine hsorts.once_held hn fun hstate => ?_
    have hnot : inIdList job .jaNHIds id = false := by
      rw [← Bool.not_eq_true, hwithin]
      exact hn
    have hall := hzero.mp hstate
    simp only [Bool.or_eq_false_iff] at hall
    simp [jobIsEnrolled, hnot, hall] at hid

/-- A job with user holds on the tasks one to three, and system holds on two to four. -/
def heldJob : Job where
  jaStructure := some [⟨1, 6, 1⟩]
  idLists := fun attr => match attr with
    | .jaNHIds => some [⟨5, 6, 1⟩]
    | .jaUHIds => some [⟨1, 3, 1⟩]
    | .jaSHIds => some [⟨2, 4, 1⟩]
    | _ => none
  jaTasks := []
  jaTemplate := ⟨0, 0, 0⟩

theorem heldJob_partition :
    ∃ idList, jobCreateHoldIdLists (PSortList.stable Range Range.min) (2 ^ 31 + 1) heldJob =
        some idList ∧ HoldPartition heldJob idList := by
  have hok : ∀ a k, a < 10 → k < 10 → Canonical [⟨a, a + k, 1⟩] := fun a k ha hk =>
    Canonical.singleton ⟨⟨⟨k, by simp⟩, le_rfl⟩, by simp only; omega, le_rfl, by simp⟩
  apply jobCreateHoldIdLists_partition _ (by omega)
  intro attr
  cases attr with
  | jaNHIds => exact hok 5 1 (by omega) (by omega)
  | jaUHIds => exact hok 1 2 (by omega) (by omega)
  | jaSHIds => exact hok 2 2 (by omega) (by omega)
  | jaOHIds | jaAHIds => exact Canonical.nil

end Selection

end GridEngine
