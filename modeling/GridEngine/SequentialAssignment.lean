import GridEngine.SequentialChoice

/-!
# The queue of a sequential job

The search leaves out queues whose time and violations are not better without the global time. It is
right when the best queue is the first one of its time or would be earlier without the global time,
and when no queue behind the last visited one has a tag of an earlier search that looks better.
-/

namespace GridEngine

open FirstLeast

section Claim
variable {Q H : Type*}

/-- The matching queues that are as good as any other one. A reservation prefers the earliest start,
soft requests prefer the least violations among equal starts. -/
structure QueueChecks.IsBest (a : QueueChecks Q H) (q : Q) : Prop where
  mem : q ∈ a.queueList
  isMatch : a.Matches q
  earliest : a.isReservation → ∀ q' ∈ a.queueList, a.Matches q' → a.tt q ≤ a.tt q'
  leastViolations : a.isSoft → ∀ q' ∈ a.queueList, a.Matches q' →
    (a.isReservation → a.tt q' = a.tt q) → a.queueViolations q ≤ a.queueViolations q'

/-- The result of the assignment is one of the best queues with its start, or nothing when no queue
matches. -/
structure QueueChecks.ChoosesBest (a : QueueChecks Q H) (result : Option (Q × ℕ)) : Prop where
  isSome : result.isSome ↔ ∃ q ∈ a.queueList, a.Matches q
  isBest : ∀ q start, result = some (q, start) →
    a.IsBest q ∧ (a.isReservation → start = a.tt q)

/-- The queues behind one that depends on the global time only, where the search of a reservation
without soft requests ends. -/
def QueueChecks.LeftBehind (a : QueueChecks Q H) (q : Q) : Prop :=
  ∃ pre b suf, a.queueList = pre ++ b :: suf ∧ q ∈ suf ∧ a.Matches b ∧ a.ttLocal b ≤ a.ttGlobal

/-- When the search finds a best queue. -/
def QueueChecks.FindsBest (a : QueueChecks Q H) (tags : QueueTags Q) : Prop :=
  (∃ q ∈ a.queueList, a.Matches q) → (a.isReservation ∨ a.isSoft) →
    ∃ q, a.IsBest q ∧
      if a.isSoft then a.Kept a.queueList q ∧ a.softKey q < a.softBound
      else a.tt q < uLong32Max ∧ ∀ s, a.LeftBehind s → tags.tag s ≠ 0 → a.tt q ≤ tags.availableAt s

end Claim

section Results
variable {Q H : Type*} {a : QueueChecks Q H} {tags : QueueTags Q}

theorem QueueChecks.choosesBest_none (hnone : ¬ ∃ q ∈ a.queueList, a.Matches q) :
    a.ChoosesBest none where
  isSome := ⟨fun h => absurd h Bool.false_ne_true, fun h => absurd h hnone⟩
  isBest := fun _ _ h => nomatch h

theorem QueueChecks.choosesBest_some {q : Q} {start : ℕ} (hbest : a.IsBest q)
    (hstart : a.isReservation → start = a.tt q) : a.ChoosesBest (some (q, start)) where
  isSome := ⟨fun _ => ⟨q, hbest.mem, hbest.isMatch⟩, fun _ => rfl⟩
  isBest := by
    intro q' start' heq
    obtain ⟨rfl, rfl⟩ := Prod.mk.inj (Option.some.inj heq)
    exact ⟨hbest, hstart⟩

/-- What the loop leaves for a reservation without soft requests. -/
structure QueueSearch.HardEnd (a : QueueChecks Q H) (tags : QueueTags Q) (visited rest acc : List Q)
    (st : QueueSearch Q H) : Prop where
  split : a.queueList = visited ++ rest
  found : st.found ↔ ∃ q ∈ a.queueList, a.Matches q
  tag : ∀ q ∈ visited, st.tags.tag q ≠ 0 ↔ q ∈ acc
  taken : ∀ q ∈ acc, q ∈ visited ∧ a.Matches q ∧ st.tags.availableAt q = a.tt q
  earliest : (∃ q ∈ a.queueList, a.Matches q) →
    ∃ e ∈ acc, ∀ q ∈ a.queueList, a.Matches q → a.tt e ≤ a.tt q
  outside : ∀ q ∈ rest, st.tags.tag q = tags.tag q ∧ st.tags.availableAt q = tags.availableAt q
  left : ∀ q, a.LeftBehind q ↔ q ∈ rest

/-- The choice of a reservation. -/
def QueueSearch.choice (a : QueueChecks Q H) (st : QueueSearch Q H) : Option (Q × ℕ) :=
  let c := a.queueList.foldl (QueueChoice.pick a st.tags) ⟨none, uLong32Max, uLong32Max⟩
  c.bestQueue.map fun q => (q, c.jobStartTime)

variable {visited rest acc : List Q} {st : QueueSearch Q H}

theorem QueueSearch.HardEnd.choosesBest_iff (hres : a.isReservation) (hissoft : a.isSoft = false)
    (h : st.HardEnd a tags visited rest acc) :
    a.ChoosesBest (if st.found then st.choice a else none) ↔ a.FindsBest tags := by
  have hbest : ∀ q ∈ a.queueList, a.Matches q →
      (∀ q' ∈ a.queueList, a.Matches q' → a.tt q ≤ a.tt q') → a.IsBest q := by
    intro q hq hmatch hle
    exact ⟨hq, hmatch, fun _ => hle, fun hsoft => by simp [hissoft] at hsoft⟩
  by_cases hmatch : ∃ q ∈ a.queueList, a.Matches q
  swap
  · rw [if_neg (fun hfound => hmatch (h.found.mp hfound))]
    exact ⟨fun _ hex => absurd hex hmatch, fun _ => QueueChecks.choosesBest_none hmatch⟩
  rw [if_pos (h.found.mpr hmatch)]
  obtain ⟨e, he, hearliest⟩ := h.earliest hmatch
  obtain ⟨heV, hematch, heavail⟩ := h.taken e he
  have heL : e ∈ a.queueList := h.split ▸ List.mem_append_left _ heV
  obtain ⟨hscan, hkey, hstart⟩ := @QueueChoice.foldl_pick _ _ a st.tags a.queueList
  rw [QueueSearch.choice]
  generalize a.queueList.foldl (QueueChoice.pick a st.tags) ⟨none, uLong32Max, uLong32Max⟩ = c
    at hscan hkey hstart ⊢
  have hlt : ∀ p, st.tags.pickKey a p < a.pickBound ↔ st.tags.availableAt p < uLong32Max := by
    intro p
    rw [QueueTags.pickKey, QueueChecks.pickBound, hissoft, Prod.Lex.toLex_lt_toLex]
    simp
  have hle : ∀ p p', st.tags.pickKey a p ≤ st.tags.pickKey a p' ↔
      st.tags.availableAt p ≤ st.tags.availableAt p' := by
    intro p p'
    rw [QueueTags.pickKey, QueueTags.pickKey, hissoft, Prod.Lex.toLex_le_toLex]
    simp [le_iff_lt_or_eq]
  constructor
  · intro hchooses _ _
    obtain ⟨b, hb⟩ : ∃ b, c.bestQueue = some b := by
      have hsome := hchooses.isSome.mpr hmatch
      rw [Option.isSome_map] at hsome
      exact Option.isSome_iff_exists.mp hsome
    obtain ⟨hbbest, hbtt⟩ := hchooses.isBest b c.jobStartTime (by rw [hb, Option.map_some])
    rw [hb] at hscan
    have hbavail : st.tags.availableAt b = a.tt b := (hstart b hb).symm.trans (hbtt hres)
    refine ⟨b, hbbest, ?_⟩
    simp only [hissoft, Bool.false_eq_true, if_false]
    refine ⟨?_, fun s hs htag => ?_⟩
    · rw [← hbavail]
      exact (hlt b).mp hscan.mem.2.2
    · have hsrest : s ∈ rest := (h.left s).mp hs
      have hout := h.outside s hsrest
      rw [← hout.1] at htag
      have hsL : s ∈ a.queueList := h.split ▸ List.mem_append_right _ hsrest
      have hbs := (hle b s).mp (hscan.le hsL htag)
      rw [← hbavail, ← hout.2]
      exact hbs
  · intro hfinds
    obtain ⟨q, hq, hcond⟩ := hfinds hmatch (Or.inl hres)
    simp only [hissoft, Bool.false_eq_true, if_false] at hcond
    obtain ⟨hmax, hleft⟩ := hcond
    have hqe : a.tt q = a.tt e :=
      le_antisymm (hq.earliest hres e heL hematch) (hearliest q hq.mem hq.isMatch)
    have hetag : st.tags.tag e ≠ 0 := (h.tag e heV).mpr he
    have hsome : ∃ b, c.bestQueue = some b := by
      cases hb : c.bestQueue with
      | some b => exact ⟨b, rfl⟩
      | none =>
          rw [hb] at hscan
          have hebound := (hlt e).mpr (by rw [heavail, ← hqe]; exact hmax)
          exact absurd (hscan.le heL hetag) (not_le_of_gt hebound)
    obtain ⟨b, hb⟩ := hsome
    rw [hb] at hscan
    have hbV : b ∈ visited := by
      rw [h.split] at hscan
      refine hscan.mem_left heV hetag fun s hs htag => ?_
      have hout := h.outside s hs
      rw [hle, heavail, ← hqe, hout.2]
      exact hleft s ((h.left s).mpr hs) (hout.1 ▸ htag)
    have hbacc : b ∈ acc := (h.tag b hbV).mp hscan.mem.2.1
    obtain ⟨-, hbmatch, hbavail⟩ := h.taken b hbacc
    have hble : a.tt b ≤ a.tt e := by
      rw [← hbavail, ← heavail]
      exact (hle b e).mp (hscan.le heL hetag)
    rw [hb, Option.map_some]
    refine QueueChecks.choosesBest_some (hbest b hscan.mem.1 hbmatch ?_) fun _ => ?_
    · exact fun q' hq' hmatch' => le_trans hble (hearliest q' hq' hmatch')
    · rw [hstart b hb, hbavail]

variable {pre suf : List Q} {b : Q}

theorem QueueSearch.HardTags.hardEnd (hres : a.isReservation) (hissoft : a.isSoft = false)
    (hsearched : st.Searched a tags a.queueList acc) (h : st.HardTags a a.queueList acc) :
    st.HardEnd a tags a.queueList [] acc where
  split := (List.append_nil _).symm
  found := by
    rw [hsearched.found]
    constructor
    · intro hgot
      obtain ⟨q, hq, -⟩ := hsearched.reached hgot
      exact ⟨q, (hsearched.taken q hq).1, (hsearched.taken q hq).2.1⟩
    · intro hmatch
      obtain ⟨q, hq, hqmatch⟩ := hmatch
      exact (hsearched.least q hq hqmatch).1
  tag := h.tag
  taken := fun q hq =>
    ⟨(hsearched.taken q hq).1, (hsearched.taken q hq).2.1, hsearched.availableAt q hq hres⟩
  earliest := by
    intro hmatch
    obtain ⟨q, hq, hqmatch⟩ := hmatch
    obtain ⟨e, he, hcost⟩ := hsearched.reached (hsearched.least q hq hqmatch).1
    refine ⟨e, he, fun p hp hpmatch => ?_⟩
    have hle := (hsearched.least p hp hpmatch).2
    rw [← hcost, QueueChecks.cost, QueueChecks.cost, if_pos hres, if_pos hres] at hle
    exact hle
  outside := fun _ hq => absurd hq List.not_mem_nil
  left := by
    intro q
    refine ⟨fun hleft => ?_, fun hq => absurd hq List.not_mem_nil⟩
    obtain ⟨pre, b, suf, hsplit, -, hmatch, hle⟩ := hleft
    have hb : b ∈ a.queueList := hsplit ▸ List.mem_append_right _ List.mem_cons_self
    exact absurd hle (not_le_of_gt (h.global_lt hres hissoft hsearched hb hmatch))

theorem QueueSearch.EndsAt.hardEnd {st0 : QueueSearch Q H} (hres : a.isReservation)
    (hissoft : a.isSoft = false) (hsplit : a.queueList = pre ++ b :: suf)
    (hsearched : st0.Searched a tags pre acc) (hhard : st0.HardTags a pre acc)
    (h : st.EndsAt a tags pre acc b) :
    st.HardEnd a tags (pre ++ [b]) suf (acc ++ [b]) := by
  have hbL : b ∈ a.queueList := hsplit ▸ List.mem_append_right _ List.mem_cons_self
  have hsplit' : a.queueList = (pre ++ [b]) ++ suf := by
    rw [hsplit, List.append_assoc, List.singleton_append]
  have hglobal : a.ttLocal b ≤ a.ttGlobal := by
    have hends := h.ends
    rw [QueueChecks.endsSearch_iff, if_pos hres] at hends
    exact hends.1
  have hnodup := a.nodup
  rw [hsplit] at hnodup
  have hbpre : b ∉ pre := fun hmem =>
    (List.nodup_append.mp hnodup).2.2 b hmem b List.mem_cons_self rfl
  refine ⟨hsplit', ⟨fun _ => ⟨b, hbL, h.isMatch⟩, fun _ => h.found⟩, fun q hq => ?_, fun q hq => ?_,
    fun _ => ⟨b, List.mem_append_right _ (List.mem_singleton_self b), fun q _ _ => ?_⟩,
    fun q hq => h.outside q fun hmem => ?_, fun q => ⟨fun hleft => ?_, fun hq => ?_⟩⟩
  · rw [List.mem_append, List.mem_singleton]
    rcases List.mem_append.mp hq with hq | hq
    · rw [h.tag q hq]
      have hne : q ≠ b := fun heq => hbpre (heq ▸ hq)
      simp [hne, hissoft]
    · rw [List.mem_singleton.mp hq]
      exact ⟨fun _ => Or.inr rfl, fun _ => h.tag_self⟩
  · rcases List.mem_append.mp hq with hq | hq
    · obtain ⟨hqpre, hqmatch, -⟩ := hsearched.taken q hq
      exact ⟨List.mem_append_left _ hqpre, hqmatch, h.availableAt q hq hres⟩
    · rw [List.mem_singleton.mp hq]
      exact ⟨List.mem_append_right _ (List.mem_singleton_self b), h.isMatch,
        h.availableAt_self hres⟩
  · rw [QueueChecks.tt_eq, QueueChecks.tt_eq, max_eq_right hglobal]
    exact le_max_right _ _
  · exact (List.nodup_append.mp (hsplit' ▸ a.nodup)).2.2 q hmem q hq rfl
  · obtain ⟨pre', b', suf', hsplit'', hq, hmatch, hle⟩ := hleft
    have hb' : b' ∉ pre := fun hmem =>
      absurd hle (not_le_of_gt (hhard.global_lt hres hissoft hsearched hmem hmatch))
    rcases List.append_eq_append_iff.mp (hsplit.symm.trans hsplit'') with
      ⟨mid, -, hmid⟩ | ⟨mid, hpre, hmid⟩
    · cases mid with
      | nil =>
          rw [List.nil_append, List.cons.injEq] at hmid
          exact hmid.2 ▸ hq
      | cons c mid =>
          rw [List.cons_append, List.cons.injEq] at hmid
          rw [hmid.2]
          exact List.mem_append_right _ (List.mem_cons_of_mem _ hq)
    · cases mid with
      | nil =>
          rw [List.nil_append, List.cons.injEq] at hmid
          exact hmid.2 ▸ hq
      | cons c mid =>
          rw [List.cons_append, List.cons.injEq] at hmid
          exact absurd (hpre ▸ hmid.1 ▸ List.mem_append_right _ List.mem_cons_self) hb'
  · exact ⟨pre, b, suf, hsplit, hq, h.isMatch, hglobal⟩

theorem QueueSearch.EndsAt.choosesBest {st0 : QueueSearch Q H} (hres : a.isReservation = false)
    (hsplit : a.queueList = pre ++ b :: suf) (hsearched : st0.Searched a tags pre acc)
    (htags : if a.isSoft then st0.SoftTags a pre acc else st0.HardTags a pre acc)
    (h : st.EndsAt a tags pre acc b) :
    a.ChoosesBest ((a.queueList.find? fun q => st.tags.tag q ≠ 0).map fun q => (q, 0)) ∧
      a.FindsBest tags := by
  have hbL : b ∈ a.queueList := hsplit ▸ List.mem_append_right _ List.mem_cons_self
  have hends := h.ends
  rw [QueueChecks.endsSearch_iff, hres] at hends
  have hzero : a.isSoft → a.queueViolations b = 0 := by
    intro hissoft
    have hviol : a.violations b = a.queueViolations b := by
      rw [QueueChecks.violations, if_pos hissoft]
    rw [← hviol]
    refine hends.resolve_left fun hnot => ?_
    simp [hissoft] at hnot
  have hbest : a.IsBest b := by
    refine ⟨hbL, h.isMatch, fun htrue => ?_, fun hissoft q' _ _ _ => ?_⟩
    · simp [hres] at htrue
    · rw [hzero hissoft]
      exact Nat.zero_le _
  have hnone : ∀ q ∈ pre, ¬ st.tags.tag q ≠ 0 := by
    intro q hq htag
    obtain ⟨hacc, hissoft⟩ := (h.tag q hq).mp htag
    simp only [hissoft, Bool.false_eq_true, if_false] at htags
    rw [(htags.no_match hres hissoft hsearched).1] at hacc
    exact absurd hacc List.not_mem_nil
  have hfind : (a.queueList.find? fun q => st.tags.tag q ≠ 0) = some b := by
    rw [List.find?_eq_some_iff_append]
    refine ⟨by simpa using h.tag_self, pre, suf, hsplit, fun q hq => ?_⟩
    simpa using hnone q hq
  refine ⟨?_, fun _ hmode => ?_⟩
  · rw [hfind, Option.map_some]
    exact QueueChecks.choosesBest_some hbest fun htrue => by simp [hres] at htrue
  · have hissoft : a.isSoft := hmode.resolve_left (by simp [hres])
    refine ⟨b, hbest, ?_⟩
    rw [if_pos hissoft]
    refine ⟨?_, ?_⟩
    · rw [hsplit, ← List.singleton_append, ← List.append_assoc]
      exact h.kept.append
    · rw [QueueChecks.softKey, QueueChecks.softBound, Prod.Lex.toLex_lt_toLex, hzero hissoft]
      simp [hres, uLong32Max]

/-- With soft requests the loop ends with the tag at `best_qep`, which is then chosen. -/
theorem QueueSearch.SoftTags.choice_eq (hissoft : a.isSoft = true)
    (hsearched : st.Searched a tags a.queueList acc) (h : st.SoftTags a a.queueList acc) :
    (if a.isReservation then st.choice a
      else (a.queueList.find? fun q => st.tags.tag q ≠ 0).map fun q => (q, 0)) =
        st.bestQep.map fun q => (q, if a.isReservation then a.tt q else 0) := by
  have honly : ∀ q ∈ a.queueList, st.tags.tag q ≠ 0 → st.bestQep = some q := fun q hq =>
    (h.tag q hq).mp
  cases hbest : st.bestQep with
  | none =>
      rw [hbest] at honly
      split_ifs
      · obtain ⟨hscan, -, -⟩ := @QueueChoice.foldl_pick _ _ a st.tags a.queueList
        rw [QueueSearch.choice]
        generalize a.queueList.foldl (QueueChoice.pick a st.tags) ⟨none, uLong32Max, uLong32Max⟩ = c
          at hscan ⊢
        cases hc : c.bestQueue with
        | none => rfl
        | some b =>
            rw [hc] at hscan
            exact absurd (honly b hscan.mem.1 hscan.mem.2.1) (Option.some_ne_none b).symm
      · have hfind : (a.queueList.find? fun q => st.tags.tag q ≠ 0) = none := by
          rw [List.find?_eq_none]
          intro q hq htag
          exact absurd (honly q hq (by simpa using htag)) (Option.some_ne_none q).symm
        rw [hfind]
  | some b =>
      have hscanb := h.scanned
      rw [hbest] at hscanb
      obtain ⟨hbacc, -, hbbound⟩ := hscanb.mem
      have hbL : b ∈ a.queueList := (hsearched.taken b hbacc).1
      have hbtag : st.tags.tag b ≠ 0 := (h.tag b hbL).mpr hbest
      have hbonly : ∀ q ∈ a.queueList, st.tags.tag q ≠ 0 → q = b := by
        intro q hq htag
        have heq := honly q hq htag
        rw [hbest] at heq
        exact (Option.some.inj heq).symm
      split_ifs with hres
      · obtain ⟨hscan, -, hstart⟩ := @QueueChoice.foldl_pick _ _ a st.tags a.queueList
        rw [QueueSearch.choice]
        generalize a.queueList.foldl (QueueChoice.pick a st.tags) ⟨none, uLong32Max, uLong32Max⟩ = c
          at hscan hstart ⊢
        have hkey : st.tags.pickKey a b < a.pickBound := by
          rw [QueueChecks.softKey, QueueChecks.softBound, if_pos hres, if_pos hres] at hbbound
          rw [QueueTags.pickKey, QueueChecks.pickBound, if_pos hissoft, if_pos hissoft,
            hsearched.availableAt b hbacc hres, hsearched.softViolation b hbacc]
          exact hbbound
        cases hc : c.bestQueue with
        | none =>
            rw [hc] at hscan
            exact absurd (hscan.le hbL hbtag) (not_le_of_gt hkey)
        | some b' =>
            rw [hc] at hscan
            have hb' := hbonly b' hscan.mem.1 hscan.mem.2.1
            simp only [Option.map_some, hstart b' hc, hb', hsearched.availableAt b hbacc hres]
      · have hfind : (a.queueList.find? fun q => st.tags.tag q ≠ 0) = some b := by
          obtain ⟨pre, suf, hsplit⟩ := List.append_of_mem hbL
          rw [List.find?_eq_some_iff_append]
          refine ⟨by simpa using hbtag, pre, suf, hsplit, fun q hq => ?_⟩
          have hnodup := a.nodup
          rw [hsplit] at hnodup
          have hne : q ≠ b := (List.nodup_append.mp hnodup).2.2 q hq b List.mem_cons_self
          have hqL : q ∈ a.queueList := hsplit ▸ List.mem_append_left _ hq
          simpa using fun htag => hne (hbonly q hqL htag)
        rw [hfind, Option.map_some]

theorem QueueSearch.SoftTags.choosesBest_iff (hissoft : a.isSoft = true)
    (hsearched : st.Searched a tags a.queueList acc) (h : st.SoftTags a a.queueList acc) :
    a.ChoosesBest (st.bestQep.map fun q => (q, if a.isReservation then a.tt q else 0)) ↔
      a.FindsBest tags := by
  by_cases hmatch : ∃ q ∈ a.queueList, a.Matches q
  swap
  · refine ⟨fun _ hex => absurd hex hmatch, fun _ => ?_⟩
    cases hbest : st.bestQep with
    | none => exact QueueChecks.choosesBest_none hmatch
    | some b =>
        have hscan := h.scanned
        rw [hbest] at hscan
        obtain ⟨hb, hbmatch, -⟩ := hsearched.taken b hscan.mem.1
        exact absurd ⟨b, hb, hbmatch⟩ hmatch
  obtain ⟨m, hm, hmmatch⟩ := hmatch
  obtain ⟨e, he, hcost⟩ := hsearched.reached (hsearched.least m hm hmmatch).1
  obtain ⟨heL, hematch, -⟩ := hsearched.taken e he
  constructor
  · intro hchooses _ _
    cases hbest : st.bestQep with
    | none =>
        rw [hbest] at hchooses
        exact absurd (hchooses.isSome.mpr ⟨m, hm, hmmatch⟩) Bool.false_ne_true
    | some b =>
        have hscan := h.scanned
        rw [hbest] at hscan hchooses
        refine ⟨b, (hchooses.isBest b _ rfl).1, ?_⟩
        rw [if_pos hissoft]
        exact ⟨(hsearched.taken b hscan.mem.1).2.2, hscan.mem.2.2⟩
  · intro hfinds
    obtain ⟨q, hq, hcond⟩ := hfinds ⟨m, hm, hmmatch⟩ (Or.inr hissoft)
    rw [if_pos hissoft] at hcond
    obtain ⟨hkept, hbound⟩ := hcond
    have hqcost : a.cost q = st.bestCost a := by
      refine le_antisymm ?_ (hsearched.least q hq.mem hq.isMatch).2
      rw [← hcost, QueueChecks.cost, QueueChecks.cost]
      split_ifs with hres
      · exact hq.earliest hres e heL hematch
      · exact hq.leastViolations hissoft e heL hematch fun htrue => absurd htrue hres
    have hqacc := hsearched.complete q hq.mem hq.isMatch hkept hqcost
    have hle := h.scanned.le hqacc trivial
    cases hbest : st.bestQep with
    | none =>
        rw [hbest] at hle
        exact absurd hle (not_le_of_gt hbound)
    | some b =>
        have hscan := h.scanned
        rw [hbest] at hle hscan
        obtain ⟨hbL, hbmatch, -⟩ := hsearched.taken b hscan.mem.1
        have hkey : a.softKey b ≤ a.softKey q := hle
        rw [QueueChecks.softKey, QueueChecks.softKey, Prod.Lex.toLex_le_toLex] at hkey
        rw [Option.map_some]
        refine QueueChecks.choosesBest_some ⟨hbL, hbmatch, fun hres => ?_, fun _ => ?_⟩ ?_
        · simp only [if_pos hres] at hkey
          intro q' hq' hmatch'
          have hqle := hq.earliest hres q' hq' hmatch'
          omega
        · intro q' hq' hmatch' heq
          have hqle := hq.leastViolations hissoft q' hq' hmatch'
          cases hres : a.isReservation with
          | false =>
              simp only [hres, Bool.false_eq_true, if_false] at hkey
              have hle' := hqle fun htrue => absurd (hres.symm.trans htrue) Bool.false_ne_true
              omega
          | true =>
              simp only [hres, if_true] at hkey
              have hqb := hq.earliest hres b hbL hbmatch
              have heq' := heq hres
              have hle' := hqle fun _ => by omega
              omega
        · intro hres
          exact if_pos hres

end Results

section Claim
variable {Q H : Type*} [DecidableEq Q] [DecidableEq H] {a : QueueChecks Q H} {tags : QueueTags Q}

theorem sgeSequentialAssignment_eq (hglobal : a.globalOk) :
    sgeSequentialAssignment a tags =
      let st : QueueSearch Q H := (QueueSearch.start tags).visitAll a a.queueList
      if st.found then
        if a.isReservation then st.choice a
        else (a.queueList.find? fun q => st.tags.tag q ≠ 0).map fun q => (q, 0)
      else none := by
  rw [sgeSequentialAssignment, sequentialTagQueuesSuitable4job, hglobal]
  simp only [Bool.not_true, Bool.false_eq_true, if_false]
  generalize (QueueSearch.start tags : QueueSearch Q H).visitAll a a.queueList = st
  cases st.found <;> rfl

/-- The cuts and the early end of the search lose the best queue in no other case. -/
theorem sgeSequentialAssignment_choosesBest_iff (a : QueueChecks Q H) (tags : QueueTags Q) :
    a.ChoosesBest (sgeSequentialAssignment a tags) ↔ a.FindsBest tags := by
  by_cases hglobal : a.globalOk
  swap
  · have hnone : ¬ ∃ q ∈ a.queueList, a.Matches q := by
      intro hmatch
      obtain ⟨q, -, hq⟩ := hmatch
      exact hglobal hq.globalOk
    have hresult : sgeSequentialAssignment a tags = none := by
      rw [sgeSequentialAssignment, sequentialTagQueuesSuitable4job,
        Bool.eq_false_of_not_eq_true hglobal]
      rfl
    rw [hresult]
    exact ⟨fun _ hex => absurd hex hnone, fun _ => QueueChecks.choosesBest_none hnone⟩
  rw [sgeSequentialAssignment_eq hglobal]
  dsimp only
  rcases @QueueSearch.visitAll_start Q H a tags _ _ hglobal with
    ⟨acc, hsearched, htags⟩ | ⟨pre, suf, acc, b, st0, hsplit, hsearched, htags, hends⟩
  · generalize (QueueSearch.start tags : QueueSearch Q H).visitAll a a.queueList = st
      at hsearched htags ⊢
    cases hissoft : a.isSoft with
    | true =>
        rw [if_pos hissoft] at htags
        have hfound : st.found = false → st.bestQep = none := by
          intro hnot
          cases hbest : st.bestQep with
          | none => rfl
          | some b =>
              have hscan := htags.scanned
              rw [hbest] at hscan
              obtain ⟨hb, hbmatch, -⟩ := hsearched.taken b hscan.mem.1
              rw [hsearched.found, (hsearched.least b hb hbmatch).1] at hnot
              cases hnot
        rw [htags.choice_eq hissoft hsearched, ← htags.choosesBest_iff hissoft hsearched]
        cases hcase : st.found with
        | true => rw [if_pos rfl]
        | false => rw [hfound hcase, Option.map_none, ite_self]
    | false =>
        simp only [hissoft, Bool.false_eq_true, if_false] at htags
        cases hres : a.isReservation with
        | true =>
            simp only [if_true]
            exact (htags.hardEnd hres hissoft hsearched).choosesBest_iff hres hissoft
        | false =>
            have hnone : ¬ ∃ q ∈ a.queueList, a.Matches q := by
              intro hmatch
              obtain ⟨q, hq, hqmatch⟩ := hmatch
              exact (htags.no_match hres hissoft hsearched).2 q hq hqmatch
            have hfound : st.found = false := by
              rw [hsearched.found, ← Bool.not_eq_true]
              intro hgot
              obtain ⟨q, hq, -⟩ := hsearched.reached hgot
              exact hnone ⟨q, (hsearched.taken q hq).1, (hsearched.taken q hq).2.1⟩
            rw [hfound, if_neg Bool.false_ne_true]
            exact ⟨fun _ hex => absurd hex hnone, fun _ => QueueChecks.choosesBest_none hnone⟩
  · rw [if_pos hends.found]
    cases hres : a.isReservation with
    | false =>
        rw [if_neg Bool.false_ne_true]
        obtain ⟨hchooses, hfinds⟩ := hends.choosesBest hres hsplit hsearched htags
        exact ⟨fun _ => hfinds, fun _ => hchooses⟩
    | true =>
        rw [if_pos rfl]
        have hissoft : a.isSoft = false := by
          have hat := hends.ends
          rw [QueueChecks.endsSearch_iff, if_pos hres] at hat
          exact hat.2
        simp only [hissoft, Bool.false_eq_true, if_false] at htags
        have hiff := (hends.hardEnd hres hissoft hsplit hsearched htags).choosesBest_iff hres hissoft
        rwa [if_pos hends.found] at hiff

end Claim

section Failure

theorem freeAtOnce_nodup : [0, 1].Nodup := by decide

/-- A reservation with soft requests and two queues on two hosts that both are free at time 100. Only
the second one meets the soft requests. -/
def freeAtOnce : QueueChecks ℕ ℕ where
  isReservation := true
  isSoft := true
  queueList := [0, 1]
  nodup := freeAtOnce_nodup
  host := id
  globalOk := true
  ttGlobal := 1
  rqsOk := fun _ => true
  ttRqs := fun _ => 0
  staticOk := fun _ => true
  hostOk := fun _ => true
  ttHost := fun _ => 1
  hostViolations := fun _ => 0
  queueOk := fun _ => true
  ttQueue := fun _ => 100
  queueViolations := fun q => 1 - q
  hostViolations_le := fun _ => Nat.zero_le _

/-- Queues that no search has tagged yet. -/
def untagged : QueueTags ℕ := ⟨fun _ => 0, fun _ => 0, fun _ => 0⟩

theorem freeAtOnce_notBest :
    ¬ freeAtOnce.ChoosesBest (sgeSequentialAssignment freeAtOnce untagged) := by
  intro h
  have hresult : sgeSequentialAssignment freeAtOnce untagged = some (0, 100) := by decide +kernel
  obtain ⟨hbest, -⟩ := h.isBest 0 100 hresult
  have hle : 1 ≤ 0 := hbest.leastViolations rfl 1 (by decide) ⟨rfl, rfl, rfl, rfl, rfl⟩ fun _ => rfl
  exact absurd hle (by decide)

end Failure

end GridEngine
