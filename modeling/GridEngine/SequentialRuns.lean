import GridEngine.SequentialQueues

/-!
# Runs of the search

After any number of rounds the last solution has the least cost of the matching queues seen so far.
A queue of this cost was taken when it is the first one, or when it would cost less without the
global time.
-/

namespace GridEngine

section Taken
variable {Q H : Type*} {a : QueueChecks Q H} {P : List Q} {q : Q}

/-- The queues among `P` that the cuts do not drop once their cost is the least. -/
def QueueChecks.Kept (a : QueueChecks Q H) (P : List Q) (q : Q) : Prop :=
  a.localCost q < a.cost q ∨
    ∃ pre suf, P = pre ++ q :: suf ∧ ∀ p ∈ pre, a.Matches p → a.cost q < a.cost p

theorem QueueChecks.Kept.append {rest : List Q} (h : a.Kept P q) : a.Kept (P ++ rest) q := by
  rcases h with h | ⟨pre, suf, rfl, hpre⟩
  · exact Or.inl h
  · exact Or.inr ⟨pre, suf ++ rest, by rw [List.append_assoc, List.cons_append], hpre⟩

theorem QueueChecks.kept_append_iff {rest : List Q} (hnodup : (P ++ rest).Nodup) (hq : q ∈ P) :
    a.Kept (P ++ rest) q ↔ a.Kept P q := by
  refine ⟨fun h => ?_, QueueChecks.Kept.append⟩
  rcases h with h | ⟨pre, suf, heq, hpre⟩
  · exact Or.inl h
  · obtain ⟨pre', suf', rfl⟩ := List.append_of_mem hq
    have hsplit : pre' ++ q :: (suf' ++ rest) = pre ++ q :: suf := by
      rw [← heq, List.append_assoc, List.cons_append]
    rw [List.append_assoc, List.cons_append] at hnodup
    have hnot := (List.nodup_append.mp hnodup).2.2
    have hpre' : pre' = pre := by
      refine (List.append_cons_inj_of_notMem ?_ ?_).mp hsplit |>.1
      · exact fun hmem => hnot q hmem q List.mem_cons_self rfl
      · exact (List.nodup_cons.mp (List.nodup_append.mp hnodup).2.1).1
    exact Or.inr ⟨pre', suf', rfl, hpre' ▸ hpre⟩

/-- The search after it has seen the queues of `P` and taken those of `acc`. -/
structure QueueSearch.Searched (a : QueueChecks Q H) (tags : QueueTags Q) (P acc : List Q)
    (st : QueueSearch Q H) : Prop where
  skips : st.SkipsRightly a
  taken : ∀ q ∈ acc, q ∈ P ∧ a.Matches q ∧ a.Kept P q
  reached : st.gotSolution → ∃ q ∈ acc, a.cost q = st.bestCost a
  least : ∀ q ∈ P, a.Matches q → st.gotSolution ∧ st.bestCost a ≤ a.cost q
  complete : ∀ q ∈ P, a.Matches q → a.Kept P q → a.cost q = st.bestCost a → q ∈ acc
  found : st.found = st.gotSolution
  softViolation : ∀ q ∈ acc, st.tags.softViolation q = a.queueViolations q
  availableAt : ∀ q ∈ acc, a.isReservation → st.tags.availableAt q = a.tt q
  outside : ∀ q ∉ P, st.tags.tag q = tags.tag q ∧ st.tags.availableAt q = tags.availableAt q

theorem QueueSearch.searched_start {tags : QueueTags Q} :
    QueueSearch.Searched a tags [] [] (QueueSearch.start tags) where
  skips := fun _ hq => absurd hq List.not_mem_nil
  taken := fun _ hq => absurd hq List.not_mem_nil
  reached := fun h => absurd h Bool.false_ne_true
  least := fun _ hq => absurd hq List.not_mem_nil
  complete := fun _ hq => absurd hq List.not_mem_nil
  found := rfl
  softViolation := fun _ hq => absurd hq List.not_mem_nil
  availableAt := fun _ hq => absurd hq List.not_mem_nil
  outside := fun _ _ => ⟨rfl, rfl⟩

variable {tags : QueueTags Q} {acc : List Q} {st : QueueSearch Q H}

/-- A queue that is not dominated costs at most what the last solution does. -/
theorem QueueSearch.Searched.cost_le (h : QueueSearch.Searched a tags P acc st)
    (hgot : st.gotSolution) (hnot : ¬ st.Dominated a q) : a.cost q ≤ st.bestCost a := by
  obtain ⟨q', hq', hcost⟩ := h.reached hgot
  rw [← hcost]
  apply QueueChecks.cost_le
  rw [hcost]
  exact lt_of_not_ge fun hle => hnot ⟨hgot, hle⟩

theorem QueueSearch.Searched.kept_of_not_dominated (h : QueueSearch.Searched a tags P acc st)
    (hnot : ¬ st.Dominated a q) : a.Kept (P ++ [q]) q := by
  by_cases hlt : a.localCost q < a.cost q
  · exact Or.inl hlt
  · refine Or.inr ⟨P, [], rfl, fun p hp hmatch => ?_⟩
    obtain ⟨hgot, hle⟩ := h.least p hp hmatch
    have hlocal : a.localCost q < st.bestCost a := lt_of_not_ge fun hle => hnot ⟨hgot, hle⟩
    omega

/-- A dominated queue of the least cost is not one that the cuts keep. -/
theorem QueueSearch.Searched.not_kept_of_dominated (h : QueueSearch.Searched a tags P acc st)
    (hq : q ∉ P) (hdom : st.Dominated a q) (hcost : a.cost q = st.bestCost a) :
    ¬ a.Kept (P ++ [q]) q := by
  intro hkept
  rcases hkept with hlt | ⟨pre, suf, heq, hpre⟩
  · have hle := hdom.2
    omega
  · obtain ⟨p, hp, hpcost⟩ := h.reached hdom.1
    obtain ⟨hpP, hmatch, -⟩ := h.taken p hp
    have hpre' : P = pre := (List.append_cons_inj_of_notMem hq List.not_mem_nil).mp heq |>.1
    have hlt := hpre p (hpre' ▸ hpP) hmatch
    omega

end Taken

section Steps
variable {Q H : Type*} [DecidableEq Q] {a : QueueChecks Q H} {tags : QueueTags Q}
  {P acc : List Q} {st st' : QueueSearch Q H} {q : Q}

/-- The soft violations that the loop has for a queue it takes. -/
def QueueChecks.violations (a : QueueChecks Q H) (q : Q) : ℕ :=
  if a.isSoft then a.queueViolations q else 0

/-- What taking a queue does to the other variables when the search goes on. -/
structure QueueSearch.Took (a : QueueChecks Q H) (q : Q) (st st' : QueueSearch Q H) : Prop where
  skipHostList : st'.skipHostList = st.skipHostList
  softViolation : st'.tags.softViolation = st.tags.softViolation
  availableAt_self : a.isReservation → st'.tags.availableAt q = a.tt q
  availableAt : ∀ q' ≠ q, st'.tags.availableAt q' = st.tags.availableAt q'
  found : st'.found = true
  gotSolution : st'.gotSolution = true
  bestCost : st'.bestCost a = a.cost q

theorem QueueSearch.untagBest_tags :
    st.untagBest.tags.availableAt = st.tags.availableAt ∧
      st.untagBest.tags.softViolation = st.tags.softViolation ∧
      st.untagBest.skipHostList = st.skipHostList ∧ st.untagBest.found = st.found := by
  rw [QueueSearch.untagBest]
  cases st.bestQep <;> exact ⟨rfl, rfl, rfl, rfl⟩

theorem QueueSearch.keepBest_tags {tt n : ℕ} :
    (st.keepBest a q tt n).tags.availableAt = st.tags.availableAt ∧
      (st.keepBest a q tt n).tags.softViolation = st.tags.softViolation ∧
      (st.keepBest a q tt n).skipHostList = st.skipHostList ∧
      (st.keepBest a q tt n).found = st.found := by
  rw [QueueSearch.keepBest]
  cases st.isBetter a tt n with
  | true => exact st.untagBest_tags
  | false => exact ⟨rfl, rfl, rfl, rfl⟩

theorem QueueSearch.tagQueue_tags :
    (st.tagQueue a q).tags.tag = Function.update st.tags.tag q 1 ∧
      (st.tagQueue a q).tags.softViolation = st.tags.softViolation ∧
      (a.isReservation → (st.tagQueue a q).tags.availableAt q = a.tt q) ∧
      (∀ q' ≠ q, (st.tagQueue a q).tags.availableAt q' = st.tags.availableAt q') ∧
      (st.tagQueue a q).skipHostList = st.skipHostList := by
  rw [QueueSearch.tagQueue]
  cases hres : a.isReservation with
  | false => exact ⟨rfl, rfl, fun h => absurd h Bool.false_ne_true, fun _ _ => rfl, rfl⟩
  | true =>
      refine ⟨rfl, rfl, fun _ => Function.update_self _ _ _, fun q' hne => ?_, rfl⟩
      exact Function.update_of_ne hne _ _

/-- The state that a taken queue leaves when the search goes on. -/
def QueueSearch.takeQueue (a : QueueChecks Q H) (st : QueueSearch Q H) (q : Q) :
    QueueSearch Q H :=
  let thisTt := if a.isReservation then a.tt q else 0
  let st' := st.tagQueue a q
  let st' := if a.isSoft then st'.keepBest a q thisTt (a.violations q) else st'
  { st' with gotSolution := true, violationsBest := a.violations q, ttBest := thisTt }

theorem QueueSearch.accept_eq (hsoft : st.tags.softViolation q = a.queueViolations q) :
    st.accept a q =
      if a.endsSearch q (a.violations q) then ((st.tagQueue a q).untagBest, true)
      else (st.takeQueue a q, false) := by
  rw [QueueSearch.accept, hsoft]
  rfl

theorem QueueSearch.takeQueue_took (hends : a.endsSearch q (a.violations q) = false) :
    QueueSearch.Took a q st (st.takeQueue a q) := by
  have htag := @QueueSearch.tagQueue_tags _ _ _ a st q
  have hkeep : (st.takeQueue a q).tags.availableAt = (st.tagQueue a q).tags.availableAt ∧
      (st.takeQueue a q).tags.softViolation = (st.tagQueue a q).tags.softViolation ∧
      (st.takeQueue a q).skipHostList = (st.tagQueue a q).skipHostList ∧
      (st.takeQueue a q).found = (st.tagQueue a q).found := by
    rw [QueueSearch.takeQueue]
    cases a.isSoft with
    | false => exact ⟨rfl, rfl, rfl, rfl⟩
    | true => exact QueueSearch.keepBest_tags
  obtain ⟨havail, hsoft, hskip, hfound⟩ := hkeep
  refine ⟨hskip.trans htag.2.2.2.2, hsoft.trans htag.2.1, ?_, ?_, hfound.trans rfl, rfl, ?_⟩
  · rw [havail]
    exact htag.2.2.1
  · rw [havail]
    exact htag.2.2.2.1
  · have hbest : (st.takeQueue a q).bestCost a =
        if a.isReservation then (if a.isReservation then a.tt q else 0) else a.violations q := rfl
    rw [hbest, QueueChecks.cost, QueueChecks.violations]
    cases hres : a.isReservation with
    | true => rfl
    | false =>
        cases hissoft : a.isSoft with
        | true => rfl
        | false => simp [QueueChecks.endsSearch, hres, hissoft] at hends

theorem QueueSearch.Searched.leave (h : QueueSearch.Searched a tags P acc st)
    (hnodup : (P ++ [q]).Nodup) (hpassed : QueueSearch.Passed a q st st')
    (hout : ¬ a.Matches q ∨ st.Dominated a q) :
    QueueSearch.Searched a tags (P ++ [q]) acc st' := by
  have hq : q ∉ P := fun hmem =>
    (List.nodup_append.mp hnodup).2.2 q hmem q (List.mem_singleton_self q) rfl
  have hne : ∀ p ∈ P, p ≠ q := fun p hp heq => hq (heq ▸ hp)
  refine ⟨hpassed.skips, ?_, ?_, ?_, ?_, ?_, ?_, ?_, ?_⟩
  · intro p hp
    obtain ⟨hpP, hmatch, hkept⟩ := h.taken p hp
    exact ⟨List.mem_append_left _ hpP, hmatch, hkept.append⟩
  · rw [hpassed.gotSolution, hpassed.bestCost]
    exact h.reached
  · intro p hp hmatch
    rw [hpassed.gotSolution, hpassed.bestCost]
    rcases List.mem_append.mp hp with hp | hp
    · exact h.least p hp hmatch
    · rw [List.mem_singleton.mp hp] at hmatch ⊢
      obtain ⟨hgot, hle⟩ := hout.resolve_left (not_not_intro hmatch)
      exact ⟨hgot, le_trans hle QueueChecks.localCost_le⟩
  · intro p hp hmatch hkept hcost
    rw [hpassed.bestCost] at hcost
    rcases List.mem_append.mp hp with hp | hp
    · exact h.complete p hp hmatch ((QueueChecks.kept_append_iff hnodup hp).mp hkept) hcost
    · rw [List.mem_singleton.mp hp] at hmatch hkept hcost
      have hdom := hout.resolve_left (not_not_intro hmatch)
      exact absurd hkept (h.not_kept_of_dominated hq hdom hcost)
  · rw [hpassed.found, hpassed.gotSolution]
    exact h.found
  · intro p hp
    rw [hpassed.softViolation p (hne p (h.taken p hp).1)]
    exact h.softViolation p hp
  · rw [hpassed.availableAt]
    exact h.availableAt
  · intro p hp
    rw [List.mem_append, List.mem_singleton, not_or] at hp
    rw [hpassed.tag, hpassed.availableAt, Function.update_of_ne hp.2]
    exact h.outside p hp.1

/-- A round that takes a queue and goes on. The tags of the other queues are another matter. -/
theorem QueueSearch.Searched.take {st0 : QueueSearch Q H}
    (h : QueueSearch.Searched a tags P acc st) (hnodup : (P ++ [q]).Nodup)
    (hpassed : QueueSearch.Passed a q st st0) (hmatch : a.Matches q) (hnot : ¬ st.Dominated a q)
    (hsoft : st0.tags.softViolation q = a.queueViolations q)
    (htook : QueueSearch.Took a q st0 st')
    (houtside : ∀ p ∉ P ++ [q], st'.tags.tag p = st0.tags.tag p) :
    QueueSearch.Searched a tags (P ++ [q]) (acc ++ [q]) st' := by
  have hq : q ∉ P := fun hmem =>
    (List.nodup_append.mp hnodup).2.2 q hmem q (List.mem_singleton_self q) rfl
  have hne : ∀ p ∈ P, p ≠ q := fun p hp heq => hq (heq ▸ hp)
  have hmem : q ∈ acc ++ [q] := List.mem_append_right _ (List.mem_singleton_self q)
  have hbetter : ∀ p ∈ P, a.Matches p → a.cost q ≤ a.cost p := fun p hp hp' =>
    le_trans (h.cost_le (h.least p hp hp').1 hnot) (h.least p hp hp').2
  refine ⟨?_, ?_, ?_, ?_, ?_, ?_, ?_, ?_, ?_⟩
  · intro p hp
    rw [htook.skipHostList] at hp
    rcases hpassed.skips p hp with hnotm | hdom
    · exact Or.inl hnotm
    · rw [hpassed.dominated] at hdom
      refine Or.inr ⟨htook.gotSolution, ?_⟩
      rw [htook.bestCost]
      exact le_trans (h.cost_le hdom.1 hnot) hdom.2
  · intro p hp
    rcases List.mem_append.mp hp with hp | hp
    · obtain ⟨hpP, hpmatch, hkept⟩ := h.taken p hp
      exact ⟨List.mem_append_left _ hpP, hpmatch, hkept.append⟩
    · rw [List.mem_singleton.mp hp]
      exact ⟨List.mem_append_right _ (List.mem_singleton_self q), hmatch,
        h.kept_of_not_dominated hnot⟩
  · exact fun _ => ⟨q, hmem, htook.bestCost.symm⟩
  · intro p hp hpmatch
    rw [htook.bestCost]
    rcases List.mem_append.mp hp with hp | hp
    · exact ⟨htook.gotSolution, hbetter p hp hpmatch⟩
    · rw [List.mem_singleton.mp hp]
      exact ⟨htook.gotSolution, le_rfl⟩
  · intro p hp hpmatch hkept hcost
    rw [htook.bestCost] at hcost
    rcases List.mem_append.mp hp with hp | hp
    · obtain ⟨hgot, hle⟩ := h.least p hp hpmatch
      have hbest : a.cost p = st.bestCost a :=
        le_antisymm (hcost ▸ h.cost_le hgot hnot) hle
      exact List.mem_append_left _
        (h.complete p hp hpmatch ((QueueChecks.kept_append_iff hnodup hp).mp hkept) hbest)
    · rw [List.mem_singleton.mp hp]
      exact hmem
  · rw [htook.found, htook.gotSolution]
  · intro p hp
    rw [htook.softViolation]
    rcases List.mem_append.mp hp with hp | hp
    · rw [hpassed.softViolation p (hne p (h.taken p hp).1)]
      exact h.softViolation p hp
    · rw [List.mem_singleton.mp hp]
      exact hsoft
  · intro p hp hres
    rcases List.mem_append.mp hp with hp | hp
    · rw [htook.availableAt p (hne p (h.taken p hp).1), hpassed.availableAt]
      exact h.availableAt p hp hres
    · rw [List.mem_singleton.mp hp]
      exact htook.availableAt_self hres
  · intro p hp
    rw [houtside p hp]
    rw [List.mem_append, List.mem_singleton, not_or] at hp
    rw [htook.availableAt p hp.2, hpassed.tag, hpassed.availableAt, Function.update_of_ne hp.2]
    exact h.outside p hp.1

variable [DecidableEq H]

/-- The loop keeps what a round that goes on keeps, and it ends at the end of the list or with the
first round that leaves it. -/
theorem QueueSearch.visitAll_cases {I : List Q → QueueSearch Q H → Prop}
    (hstep : ∀ P q st, (P ++ [q]).Nodup → I P st → (st.visit a q).2 = false →
      I (P ++ [q]) (st.visit a q).1) {rest : List Q} (hnodup : (P ++ rest).Nodup) (h : I P st) :
    I (P ++ rest) (st.visitAll a rest) ∨
      ∃ pre q suf st', P ++ rest = pre ++ q :: suf ∧ I pre st' ∧ (st'.visit a q).2 = true ∧
        st.visitAll a rest = (st'.visit a q).1 := by
  induction rest generalizing P st with
  | nil =>
      rw [List.append_nil]
      exact Or.inl h
  | cons q rest ih =>
      rw [QueueSearch.visitAll]
      cases hvisit : st.visit a q with
      | mk st' leaves =>
          cases leaves with
          | true => exact Or.inr ⟨P, q, rest, st, rfl, h, by rw [hvisit], by rw [hvisit]⟩
          | false =>
              have hsplit : P ++ q :: rest = (P ++ [q]) ++ rest := by
                rw [List.append_assoc, List.singleton_append]
              rw [hsplit] at hnodup ⊢
              have hnext := hstep P q st (List.nodup_append.mp hnodup).1 h (by rw [hvisit])
              rw [hvisit] at hnext
              exact ih hnodup hnext

end Steps

end GridEngine
