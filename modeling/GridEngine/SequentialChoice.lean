import GridEngine.FirstLeast
import GridEngine.SequentialRuns

/-!
# Tags of the search

Without soft requests every queue that was taken keeps its tag. With soft requests one queue keeps
it, the first of those that were taken with the least time and violations. At the end the first
tagged queue is chosen, for a reservation the first one with the least time and violations.
-/

namespace GridEngine

open FirstLeast

section Pick
variable {Q H : Type*} {a : QueueChecks Q H} {tags : QueueTags Q} {c : QueueChoice Q} {q : Q}

/-- What the choice among the tagged queues of a reservation minimises. -/
def QueueTags.pickKey (a : QueueChecks Q H) (tags : QueueTags Q) (q : Q) : ℕ ×ₗ ℕ :=
  toLex (tags.availableAt q, if a.isSoft then tags.softViolation q else 0)

def QueueChecks.pickBound (a : QueueChecks Q H) : ℕ ×ₗ ℕ :=
  toLex (uLong32Max, if a.isSoft then uLong32Max else 0)

def QueueChoice.key (a : QueueChecks Q H) (c : QueueChoice Q) : ℕ ×ₗ ℕ :=
  toLex (c.jobStartTime, if a.isSoft then c.minSoftViolations else 0)

theorem QueueChoice.pick_eq :
    c.pick a tags q =
      if tags.tag q ≠ 0 ∧ tags.pickKey a q < c.key a then
        ⟨some q, tags.availableAt q, tags.softViolation q⟩
      else c := by
  have hkey : tags.pickKey a q < c.key a ↔ (c.jobStartTime > tags.availableAt q ∨
      a.isSoft ∧ c.minSoftViolations > tags.softViolation q ∧
        c.jobStartTime = tags.availableAt q) := by
    rw [QueueTags.pickKey, QueueChoice.key, Prod.Lex.toLex_lt_toLex]
    cases a.isSoft with
    | false => simp
    | true =>
        simp only [if_true, true_and, gt_iff_lt]
        tauto
  rw [QueueChoice.pick]
  simp only [hkey]

theorem QueueChoice.foldl_pick (l : List Q) :
    let c := l.foldl (QueueChoice.pick a tags) ⟨none, uLong32Max, uLong32Max⟩
    FirstLeast.Scanned (fun q => tags.tag q ≠ 0) (tags.pickKey a) a.pickBound l c.bestQueue ∧
      c.key a = best (tags.pickKey a) a.pickBound c.bestQueue ∧
      ∀ b, c.bestQueue = some b → c.jobStartTime = tags.availableAt b := by
  induction l using List.reverseRecOn with
  | nil => exact ⟨.nil, rfl, fun b hb => absurd hb (Option.some_ne_none b).symm⟩
  | append_singleton l q ih =>
      dsimp only at ih ⊢
      rw [List.foldl_append, List.foldl_cons, List.foldl_nil]
      generalize l.foldl (QueueChoice.pick a tags) ⟨none, uLong32Max, uLong32Max⟩ = c at ih ⊢
      obtain ⟨hscan, hkey, hstart⟩ := ih
      rw [QueueChoice.pick_eq]
      split_ifs with htake
      · refine ⟨hscan.take htake.1 (hkey ▸ htake.2), rfl, fun b hb => ?_⟩
        rw [Option.some.inj hb]
      · refine ⟨hscan.skip fun htag => ?_, hkey, hstart⟩
        rw [← hkey]
        exact le_of_not_gt fun hlt => htake ⟨htag, hlt⟩

end Pick

section Tags
variable {Q H : Type*} {a : QueueChecks Q H} {P acc : List Q} {st : QueueSearch Q H} {q : Q}

/-- What the search minimises among the queues it takes. -/
def QueueChecks.softKey (a : QueueChecks Q H) (q : Q) : ℕ ×ₗ ℕ :=
  toLex (if a.isReservation then a.tt q else 0, a.queueViolations q)

def QueueChecks.softBound (a : QueueChecks Q H) : ℕ ×ₗ ℕ :=
  toLex (if a.isReservation then uLong32Max else 0, uLong32Max)

def QueueSearch.bestKey (a : QueueChecks Q H) (st : QueueSearch Q H) : ℕ ×ₗ ℕ :=
  toLex (if a.isReservation then st.bestQepTt else 0, st.bestQepViolations)

theorem QueueSearch.isBetter_iff :
    st.isBetter a (if a.isReservation then a.tt q else 0) (a.queueViolations q) = true ↔
      a.softKey q < st.bestKey a := by
  rw [QueueSearch.isBetter, QueueChecks.softKey, QueueSearch.bestKey, Prod.Lex.toLex_lt_toLex]
  cases a.isReservation <;> simp

/-- The tags of a job without soft requests. -/
structure QueueSearch.HardTags (a : QueueChecks Q H) (P acc : List Q) (st : QueueSearch Q H) :
    Prop where
  bestQep : st.bestQep = none
  tag : ∀ q ∈ P, st.tags.tag q ≠ 0 ↔ q ∈ acc
  goesOn : ∀ q ∈ acc, a.endsSearch q (a.violations q) = false

/-- The tags of a job with soft requests. -/
structure QueueSearch.SoftTags (a : QueueChecks Q H) (P acc : List Q) (st : QueueSearch Q H) :
    Prop where
  scanned : FirstLeast.Scanned (fun _ => True) a.softKey a.softBound acc st.bestQep
  bestKey : st.bestKey a = best a.softKey a.softBound st.bestQep
  tag : ∀ q ∈ P, st.tags.tag q ≠ 0 ↔ st.bestQep = some q

end Tags

section Steps
variable {Q H : Type*} [DecidableEq Q] {a : QueueChecks Q H} {tags : QueueTags Q}
  {P acc : List Q} {st st' : QueueSearch Q H} {q : Q}

theorem update_ne_zero_iff {f : Q → ℕ} {p q : Q} {n : ℕ} :
    Function.update f q n p ≠ 0 ↔ p = q ∧ n ≠ 0 ∨ p ≠ q ∧ f p ≠ 0 := by
  rcases eq_or_ne p q with rfl | hne
  · rw [Function.update_self]
    simp
  · rw [Function.update_of_ne hne]
    simp [hne]

theorem QueueSearch.tagQueue_tag : (st.tagQueue a q).tags.tag = Function.update st.tags.tag q 1 :=
  QueueSearch.tagQueue_tags.1

theorem QueueSearch.tagQueue_bestQep : (st.tagQueue a q).bestQep = st.bestQep := by
  rw [QueueSearch.tagQueue]
  cases a.isReservation <;> rfl

theorem QueueSearch.tagQueue_bestKey : (st.tagQueue a q).bestKey a = st.bestKey a := by
  rw [QueueSearch.tagQueue]
  cases a.isReservation <;> rfl

theorem QueueSearch.untagBest_tag {p : Q} :
    st.untagBest.tags.tag p ≠ 0 ↔ st.tags.tag p ≠ 0 ∧ st.bestQep ≠ some p := by
  rw [QueueSearch.untagBest]
  cases hbest : st.bestQep with
  | none => simp
  | some b =>
      dsimp only [QueueSearch.setTag]
      rw [update_ne_zero_iff]
      simp only [ne_eq, Option.some.injEq]
      tauto

theorem QueueSearch.untagBest_tagQueue {p : Q} (hbest : st.bestQep ≠ some q) :
    (st.tagQueue a q).untagBest.tags.tag p ≠ 0 ↔
      p = q ∨ st.tags.tag p ≠ 0 ∧ st.bestQep ≠ some p := by
  rw [QueueSearch.untagBest_tag, QueueSearch.tagQueue_tag, QueueSearch.tagQueue_bestQep,
    update_ne_zero_iff]
  rcases eq_or_ne p q with rfl | hne
  · simp [hbest]
  · simp [hne]

theorem QueueSearch.untagBest_tagQueue_of_ne {p : Q} (hne : p ≠ q) (hbest : st.bestQep ≠ some p) :
    (st.tagQueue a q).untagBest.tags.tag p = st.tags.tag p := by
  rw [QueueSearch.untagBest]
  cases hcase : (st.tagQueue a q).bestQep with
  | none =>
      dsimp only
      rw [QueueSearch.tagQueue_tag, Function.update_of_ne hne]
  | some b =>
      rw [QueueSearch.tagQueue_bestQep] at hcase
      dsimp only [QueueSearch.setTag]
      have hpb : p ≠ b := fun heq => hbest (heq ▸ hcase)
      rw [Function.update_of_ne hpb, QueueSearch.tagQueue_tag, Function.update_of_ne hne]

theorem QueueSearch.HardTags.leave (h : QueueSearch.HardTags a P acc st) (hq : q ∉ P)
    (hsub : ∀ p ∈ acc, p ∈ P) (hpassed : QueueSearch.Passed a q st st') :
    QueueSearch.HardTags a (P ++ [q]) acc st' where
  bestQep := hpassed.bestQep.trans h.bestQep
  tag := by
    intro p hp
    rw [hpassed.tag, update_ne_zero_iff]
    rcases List.mem_append.mp hp with hp | hp
    · rw [← h.tag p hp]
      have hne : p ≠ q := fun heq => hq (heq ▸ hp)
      simp [hne]
    · rw [List.mem_singleton.mp hp]
      have hnot : q ∉ acc := fun hmem => hq (hsub q hmem)
      simp [hnot]
  goesOn := h.goesOn

theorem QueueSearch.HardTags.take {st0 : QueueSearch Q H} (hissoft : a.isSoft = false)
    (h : QueueSearch.HardTags a P acc st) (hq : q ∉ P)
    (hpassed : QueueSearch.Passed a q st st0) (hends : a.endsSearch q (a.violations q) = false) :
    QueueSearch.HardTags a (P ++ [q]) (acc ++ [q]) (st0.takeQueue a q) ∧
      ∀ p ∉ P ++ [q], (st0.takeQueue a q).tags.tag p = st0.tags.tag p := by
  have htag : (st0.takeQueue a q).tags.tag = Function.update st0.tags.tag q 1 := by
    rw [QueueSearch.takeQueue, hissoft]
    exact QueueSearch.tagQueue_tag
  have hbest : (st0.takeQueue a q).bestQep = st0.bestQep := by
    rw [QueueSearch.takeQueue, hissoft]
    exact QueueSearch.tagQueue_bestQep
  refine ⟨⟨hbest.trans (hpassed.bestQep.trans h.bestQep), fun p hp => ?_, fun p hp => ?_⟩,
    fun p hp => ?_⟩
  · rw [htag, update_ne_zero_iff, hpassed.tag, update_ne_zero_iff, List.mem_append,
      List.mem_singleton]
    rcases List.mem_append.mp hp with hp | hp
    · rw [← h.tag p hp]
      have hne : p ≠ q := fun heq => hq (heq ▸ hp)
      simp [hne]
    · simp [List.mem_singleton.mp hp]
  · rcases List.mem_append.mp hp with hp | hp
    · exact h.goesOn p hp
    · rw [List.mem_singleton.mp hp]
      exact hends
  · rw [List.mem_append, List.mem_singleton, not_or] at hp
    rw [htag, Function.update_of_ne hp.2]

theorem QueueSearch.SoftTags.leave (h : QueueSearch.SoftTags a P acc st) (hq : q ∉ P)
    (hsub : ∀ p ∈ acc, p ∈ P) (hpassed : QueueSearch.Passed a q st st') :
    QueueSearch.SoftTags a (P ++ [q]) acc st' where
  scanned := by
    rw [hpassed.bestQep]
    exact h.scanned
  bestKey := by
    rw [QueueSearch.bestKey, hpassed.bestQepTt, hpassed.bestQepViolations, hpassed.bestQep]
    exact h.bestKey
  tag := by
    intro p hp
    rw [hpassed.tag, hpassed.bestQep, update_ne_zero_iff]
    rcases List.mem_append.mp hp with hp | hp
    · rw [← h.tag p hp]
      have hne : p ≠ q := fun heq => hq (heq ▸ hp)
      simp [hne]
    · rw [List.mem_singleton.mp hp]
      have hnot : st.bestQep ≠ some q := by
        intro hbest
        have hscan := h.scanned
        rw [hbest] at hscan
        exact hq (hsub q hscan.mem.1)
      simp [hnot]

theorem QueueSearch.SoftTags.take {st0 : QueueSearch Q H} (hissoft : a.isSoft = true)
    (h : QueueSearch.SoftTags a P acc st) (hq : q ∉ P) (hsub : ∀ p ∈ acc, p ∈ P)
    (hpassed : QueueSearch.Passed a q st st0) :
    QueueSearch.SoftTags a (P ++ [q]) (acc ++ [q]) (st0.takeQueue a q) ∧
      ∀ p ∉ P ++ [q], (st0.takeQueue a q).tags.tag p = st0.tags.tag p := by
  have hbestmem : ∀ p, st0.bestQep = some p → p ∈ P := by
    intro p hbest
    have hscan := h.scanned
    rw [← hpassed.bestQep, hbest] at hscan
    exact hsub p hscan.mem.1
  have hbestq : st0.bestQep ≠ some q := fun hbest => hq (hbestmem q hbest)
  have hkey : st0.bestKey a = best a.softKey a.softBound st.bestQep := by
    rw [QueueSearch.bestKey, hpassed.bestQepTt, hpassed.bestQepViolations]
    exact h.bestKey
  have hviol : a.violations q = a.queueViolations q := by
    rw [QueueChecks.violations, hissoft, if_pos rfl]
  have hbetter : (st0.tagQueue a q).isBetter a (if a.isReservation then a.tt q else 0)
      (a.violations q) = true ↔ a.softKey q < best a.softKey a.softBound st.bestQep := by
    rw [hviol, QueueSearch.isBetter_iff, QueueSearch.tagQueue_bestKey, hkey]
  by_cases hlt : a.softKey q < best a.softKey a.softBound st.bestQep
  · have hbest : (st0.takeQueue a q).bestQep = some q := by
      rw [QueueSearch.takeQueue, hissoft]
      simp only [if_true, QueueSearch.keepBest, if_pos (hbetter.mpr hlt)]
    have htag : (st0.takeQueue a q).tags.tag = (st0.tagQueue a q).untagBest.tags.tag := by
      rw [QueueSearch.takeQueue, hissoft]
      simp only [if_true, QueueSearch.keepBest, if_pos (hbetter.mpr hlt)]
    have hbestKey : (st0.takeQueue a q).bestKey a = a.softKey q := by
      rw [QueueSearch.takeQueue, hissoft, QueueSearch.bestKey, QueueChecks.softKey, ← hviol]
      simp only [if_true, QueueSearch.keepBest, if_pos (hbetter.mpr hlt)]
      cases a.isReservation <;> rfl
    refine ⟨⟨?_, ?_, fun p hp => ?_⟩, fun p hp => ?_⟩
    · rw [hbest]
      exact h.scanned.take trivial hlt
    · rw [hbestKey, hbest]
      rfl
    · rw [htag, hbest, QueueSearch.untagBest_tagQueue hbestq, Option.some.injEq, eq_comm]
      refine or_iff_left fun hother => ?_
      have hother' := hother.1
      rw [hpassed.tag, update_ne_zero_iff] at hother'
      obtain ⟨hne, htagp⟩ := hother'.resolve_left fun hself => hself.2 rfl
      have hpP : p ∈ P := (List.mem_append.mp hp).resolve_right
        fun hmem => hne (List.mem_singleton.mp hmem)
      rw [hpassed.bestQep] at hother
      exact hother.2 ((h.tag p hpP).mp htagp)
    · rw [List.mem_append, List.mem_singleton, not_or] at hp
      rw [htag]
      exact QueueSearch.untagBest_tagQueue_of_ne hp.2 fun hbestp => hp.1 (hbestmem p hbestp)
  · have hnot := fun hb => hlt (hbetter.mp hb)
    have hstate : st0.takeQueue a q =
        { (st0.tagQueue a q).setTag q 0 with
          gotSolution := true
          violationsBest := a.violations q
          ttBest := if a.isReservation then a.tt q else 0 } := by
      rw [QueueSearch.takeQueue, hissoft]
      simp only [if_true, QueueSearch.keepBest, if_neg hnot]
    have hbest : (st0.takeQueue a q).bestQep = st.bestQep := by
      rw [hstate]
      exact QueueSearch.tagQueue_bestQep.trans hpassed.bestQep
    have htag : (st0.takeQueue a q).tags.tag = Function.update st0.tags.tag q 0 := by
      rw [hstate]
      dsimp only [QueueSearch.setTag]
      rw [QueueSearch.tagQueue_tag, Function.update_idem]
    have hbestKey : (st0.takeQueue a q).bestKey a = (st0.tagQueue a q).bestKey a := by
      rw [hstate]
      rfl
    refine ⟨⟨?_, ?_, fun p hp => ?_⟩, fun p hp => ?_⟩
    · rw [hbest]
      exact h.scanned.skip fun _ => le_of_not_gt hlt
    · rw [hbestKey, QueueSearch.tagQueue_bestKey, hkey, hbest]
    · rw [htag, hbest, update_ne_zero_iff, hpassed.tag, update_ne_zero_iff]
      rcases List.mem_append.mp hp with hp | hp
      · rw [← h.tag p hp]
        have hne : p ≠ q := fun heq => hq (heq ▸ hp)
        simp [hne]
      · rw [List.mem_singleton.mp hp, ← hpassed.bestQep]
        simp [hbestq]
    · rw [List.mem_append, List.mem_singleton, not_or] at hp
      rw [htag, Function.update_of_ne hp.2]

end Steps

end GridEngine

/-!
## Ends of the search

The loop over the queues ends behind the last one, or at a queue that nothing can be better than.
-/

namespace GridEngine

open FirstLeast

section Loop
variable {Q H : Type*} {a : QueueChecks Q H} {tags : QueueTags Q} {P pre suf acc : List Q}
  {st : QueueSearch Q H} {q b : Q}

/-- The states of the loop between two rounds. -/
def QueueSearch.Between (a : QueueChecks Q H) (tags : QueueTags Q) (P : List Q)
    (st : QueueSearch Q H) : Prop :=
  ∃ acc, st.Searched a tags P acc ∧
    if a.isSoft then st.SoftTags a P acc else st.HardTags a P acc

theorem QueueSearch.between_start :
    QueueSearch.Between a tags [] (QueueSearch.start tags) := by
  refine ⟨[], QueueSearch.searched_start, ?_⟩
  split_ifs
  · exact ⟨.nil, rfl, fun _ hq => absurd hq List.not_mem_nil⟩
  · exact ⟨rfl, fun _ hq => absurd hq List.not_mem_nil, fun _ hq => absurd hq List.not_mem_nil⟩

theorem QueueChecks.endsSearch_iff {n : ℕ} :
    a.endsSearch q n = true ↔
      if a.isReservation then a.ttLocal q ≤ a.ttGlobal ∧ a.isSoft = false
      else a.isSoft = false ∨ n = 0 := by
  rw [QueueChecks.endsSearch]
  cases a.isReservation <;> simp

/-- A reservation goes on while every matching queue is later than the global time. -/
theorem QueueSearch.HardTags.global_lt (hres : a.isReservation) (hissoft : a.isSoft = false)
    (hsearched : st.Searched a tags P acc) (h : st.HardTags a P acc) (hq : q ∈ P)
    (hmatch : a.Matches q) : a.ttGlobal < a.ttLocal q := by
  have hgoes : ∀ p ∈ acc, a.ttGlobal < a.ttLocal p := by
    intro p hp
    have hends := h.goesOn p hp
    rw [← Bool.not_eq_true, QueueChecks.endsSearch_iff, if_pos hres] at hends
    exact lt_of_not_ge fun hle => hends ⟨hle, hissoft⟩
  have hcost : ∀ p, a.cost p = max (a.ttLocal p) a.ttGlobal := by
    intro p
    rw [QueueChecks.cost, if_pos hres, QueueChecks.tt_eq]
  obtain ⟨hgot, hle⟩ := hsearched.least q hq hmatch
  obtain ⟨p, hp, hpcost⟩ := hsearched.reached hgot
  have hlt := hgoes p hp
  rw [hcost] at hle hpcost
  omega

/-- An immediate job without soft requests goes on while no queue matches. -/
theorem QueueSearch.HardTags.no_match (hres : a.isReservation = false) (hissoft : a.isSoft = false)
    (hsearched : st.Searched a tags P acc) (h : st.HardTags a P acc) :
    acc = [] ∧ ∀ q ∈ P, ¬ a.Matches q := by
  have hacc : acc = [] := by
    refine List.eq_nil_iff_forall_not_mem.mpr fun p hp => ?_
    have hends := h.goesOn p hp
    rw [← Bool.not_eq_true, QueueChecks.endsSearch_iff, hres] at hends
    exact hends (Or.inl hissoft)
  refine ⟨hacc, fun q hq hmatch => ?_⟩
  obtain ⟨p, hp, -⟩ := hsearched.reached (hsearched.least q hq hmatch).1
  rw [hacc] at hp
  exact absurd hp List.not_mem_nil

variable [DecidableEq Q] [DecidableEq H]

theorem QueueSearch.Between.visit (hglobal : a.globalOk) (hnodup : (P ++ [q]).Nodup)
    (h : st.Between a tags P) (hgoes : (st.visit a q).2 = false) :
    (st.visit a q).1.Between a tags (P ++ [q]) := by
  obtain ⟨acc, hsearched, htags⟩ := h
  have hq : q ∉ P := fun hmem =>
    (List.nodup_append.mp hnodup).2.2 q hmem q (List.mem_singleton_self q) rfl
  have hsub : ∀ p ∈ acc, p ∈ P := fun p hp => (hsearched.taken p hp).1
  obtain ⟨st0, hpassed, ⟨hout, hvisit⟩ | ⟨hmatch, hnot, hsoft, hvisit⟩⟩ :=
    @QueueSearch.visit_cases _ _ a st q _ _ hglobal hsearched.skips
  · rw [hvisit]
    refine ⟨acc, hsearched.leave hnodup hpassed hout, ?_⟩
    split_ifs at htags ⊢
    · exact htags.leave hq hsub hpassed
    · exact htags.leave hq hsub hpassed
  · rw [hvisit, QueueSearch.accept_eq hsoft] at hgoes ⊢
    cases hends : a.endsSearch q (a.violations q) with
    | true => simp [hends] at hgoes
    | false =>
        simp only [Bool.false_eq_true, if_false]
        have htook := @QueueSearch.takeQueue_took _ _ _ a st0 q hends
        have hnext : (if a.isSoft then (st0.takeQueue a q).SoftTags a (P ++ [q]) (acc ++ [q])
            else (st0.takeQueue a q).HardTags a (P ++ [q]) (acc ++ [q])) ∧
            ∀ p ∉ P ++ [q], (st0.takeQueue a q).tags.tag p = st0.tags.tag p := by
          split_ifs at htags ⊢ with hissoft
          · exact htags.take hissoft hq hsub hpassed
          · exact htags.take (Bool.eq_false_of_not_eq_true hissoft) hq hpassed hends
        exact ⟨acc ++ [q],
          hsearched.take hnodup hpassed hmatch hnot hsoft htook hnext.2, hnext.1⟩

/-- A queue that ends the loop. -/
structure QueueSearch.EndsAt (a : QueueChecks Q H) (tags : QueueTags Q) (pre acc : List Q) (b : Q)
    (st : QueueSearch Q H) : Prop where
  isMatch : a.Matches b
  kept : a.Kept (pre ++ [b]) b
  ends : a.endsSearch b (a.violations b) = true
  found : st.found = true
  tag_self : st.tags.tag b ≠ 0
  tag : ∀ q ∈ pre, st.tags.tag q ≠ 0 ↔ q ∈ acc ∧ a.isSoft = false
  availableAt_self : a.isReservation → st.tags.availableAt b = a.tt b
  availableAt : ∀ q ∈ acc, a.isReservation → st.tags.availableAt q = a.tt q
  outside : ∀ q ∉ pre ++ [b],
    st.tags.tag q = tags.tag q ∧ st.tags.availableAt q = tags.availableAt q

theorem QueueSearch.Between.endsAt (hglobal : a.globalOk) (hnodup : (pre ++ [b]).Nodup)
    (h : st.Between a tags pre) (hends : (st.visit a b).2 = true) :
    ∃ acc, st.Searched a tags pre acc ∧
      (if a.isSoft then st.SoftTags a pre acc else st.HardTags a pre acc) ∧
      (st.visit a b).1.EndsAt a tags pre acc b := by
  obtain ⟨acc, hsearched, htags⟩ := h
  refine ⟨acc, hsearched, htags, ?_⟩
  have hb : b ∉ pre := fun hmem =>
    (List.nodup_append.mp hnodup).2.2 b hmem b (List.mem_singleton_self b) rfl
  obtain ⟨st0, hpassed, ⟨hout, hvisit⟩ | ⟨hmatch, hnot, hsoft, hvisit⟩⟩ :=
    @QueueSearch.visit_cases _ _ a st b _ _ hglobal hsearched.skips
  · rw [hvisit] at hends
    cases hends
  rw [hvisit, QueueSearch.accept_eq hsoft] at hends ⊢
  cases hendsb : a.endsSearch b (a.violations b) with
  | false => simp [hendsb] at hends
  | true =>
      simp only [if_true]
      have hbestmem : ∀ p, st0.bestQep = some p → p ∈ pre := by
        intro p hbest
        rw [hpassed.bestQep] at hbest
        split_ifs at htags
        · have hscan := htags.scanned
          rw [hbest] at hscan
          exact (hsearched.taken p hscan.mem.1).1
        · rw [htags.bestQep] at hbest
          cases hbest
      have hbestb : st0.bestQep ≠ some b := fun hbest => hb (hbestmem b hbest)
      have hfield := @QueueSearch.untagBest_tags _ _ _ (st0.tagQueue a b)
      have htagQueue := @QueueSearch.tagQueue_tags _ _ _ a st0 b
      have htag := fun p => @QueueSearch.untagBest_tagQueue _ _ _ a st0 b p hbestb
      refine ⟨hmatch, hsearched.kept_of_not_dominated hnot, hendsb, hfield.2.2.2, ?_,
        fun p hp => ?_, fun hres => ?_, fun p hp hres => ?_, fun p hp => ?_⟩
      · rw [htag]
        exact Or.inl rfl
      · have hne : p ≠ b := fun heq => hb (heq ▸ hp)
        rw [htag, hpassed.tag, update_ne_zero_iff, hpassed.bestQep]
        split_ifs at htags with hissoft
        · simp [hne, hissoft, htags.tag p hp]
        · simp [hne, hissoft, htags.bestQep, htags.tag p hp]
      · rw [hfield.1]
        exact htagQueue.2.2.1 hres
      · have hne : p ≠ b := fun heq => hb (heq ▸ (hsearched.taken p hp).1)
        rw [hfield.1, htagQueue.2.2.2.1 p hne, hpassed.availableAt]
        exact hsearched.availableAt p hp hres
      · rw [List.mem_append, List.mem_singleton, not_or] at hp
        have hout := hsearched.outside p hp.1
        refine ⟨?_, ?_⟩
        · rw [QueueSearch.untagBest_tagQueue_of_ne hp.2 fun hbest => hp.1 (hbestmem p hbest),
            hpassed.tag, Function.update_of_ne hp.2]
          exact hout.1
        · rw [← hout.2, hfield.1, htagQueue.2.2.2.1 p hp.2, hpassed.availableAt]

theorem QueueSearch.visitAll_start (hglobal : a.globalOk) :
    ((QueueSearch.start tags : QueueSearch Q H).visitAll a a.queueList).Between a tags a.queueList ∨
      ∃ (pre suf acc : List Q) (b : Q) (st : QueueSearch Q H),
        a.queueList = pre ++ b :: suf ∧ st.Searched a tags pre acc ∧
        (if a.isSoft then st.SoftTags a pre acc else st.HardTags a pre acc) ∧
        ((QueueSearch.start tags : QueueSearch Q H).visitAll a a.queueList).EndsAt a tags pre acc
          b := by
  have hcases := @QueueSearch.visitAll_cases Q H _ a [] (QueueSearch.start tags) _
    (QueueSearch.Between a tags)
    (fun P q st hnodup h hgoes => QueueSearch.Between.visit hglobal hnodup h hgoes) a.queueList
    a.nodup QueueSearch.between_start
  rcases hcases with h | ⟨pre, b, suf, st, hsplit, h, hends, hfinal⟩
  · exact Or.inl h
  · rw [List.nil_append] at hsplit
    have hnodup : (pre ++ [b]).Nodup := by
      have hall := a.nodup
      rw [hsplit, ← List.singleton_append, ← List.append_assoc] at hall
      exact (List.nodup_append.mp hall).1
    obtain ⟨acc, hsearched, htags, hat⟩ := h.endsAt hglobal hnodup hends
    exact Or.inr ⟨pre, suf, acc, b, st, hsplit, hsearched, htags, hfinal ▸ hat⟩

end Loop

end GridEngine
