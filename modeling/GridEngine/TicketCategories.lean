import GridEngine.GreedyRuns
import GridEngine.TicketPolicies

/-!
# The functional categories

The categories hold every pending task that has shares exactly once, and taking a winner out of
its category takes out no other task. The tasks of a category have the same shares of the same
objects, and they stand in the order of their previous tickets, submission times, job numbers and
task numbers.
-/

namespace GridEngine.TicketPolicies
open GreedyRuns

section Lists
variable {category : Category} {categories : List Category} {jref : ℕ}

theorem refs_insert (stop : ℕ → Bool) (jref : ℕ) (category : Category) :
    (category.insert stop jref).refs =
      (category.refs.rdropWhile fun ref => !stop ref) ++
        jref :: category.refs.rtakeWhile fun ref => !stop ref := by
  have hsplit := List.rdropWhile_append_rtakeWhile (p := fun ref => !stop ref) (l := category.refs)
  cases hbefore : category.refs.rdropWhile fun ref => !stop ref with
  | nil =>
      rw [hbefore, List.nil_append] at hsplit
      unfold Category.insert
      rw [hbefore, hsplit]
      rfl
  | cons first next =>
      unfold Category.insert
      rw [hbefore]
      rfl

theorem refs_insert_perm (stop : ℕ → Bool) (jref : ℕ) (category : Category) :
    (category.insert stop jref).refs.Perm (jref :: category.refs) := by
  have hsplit := List.rdropWhile_append_rtakeWhile (p := fun ref => !stop ref) (l := category.refs)
  rw [refs_insert]
  conv_rhs => rw [← hsplit]
  exact List.perm_middle

/-- The tasks of all categories. -/
def categoryRefs (categories : List Category) : List ℕ := categories.flatMap Category.refs

theorem categoryRefs_cons (category : Category) (categories : List Category) :
    categoryRefs (category :: categories) = category.refs ++ categoryRefs categories :=
  List.flatMap_cons

/-- The tasks that come first in their categories. -/
def firsts (categories : List Category) : List ℕ := categories.map Category.first

theorem firsts_sublist (categories : List Category) :
    (firsts categories).Sublist (categoryRefs categories) := by
  induction categories with
  | nil => exact List.Sublist.refl _
  | cons category categories ih =>
      rw [categoryRefs_cons, Category.refs, firsts, List.map_cons, List.cons_append]
      exact (ih.trans (List.sublist_append_right _ _)).cons_cons _

theorem eq_nil_of_categoryRefs (h : categoryRefs categories = []) : categories = [] := by
  cases categories with
  | nil => rfl
  | cons category categories =>
      rw [categoryRefs_cons, Category.refs, List.cons_append] at h
      exact absurd h (List.cons_ne_nil _ _)

theorem dropFirst_refs (category : Category) :
    (category.dropFirst.toList).flatMap Category.refs = category.next := by
  unfold Category.dropFirst
  cases hnext : category.next with
  | nil => rfl
  | cons first next => simp [Category.refs]

theorem removeWinner_cons (winner : ℕ) (category : Category) (categories : List Category) :
    removeWinner winner (category :: categories) =
      (if category.first = winner then category.dropFirst.toList else [category]) ++
        removeWinner winner categories := by
  unfold removeWinner
  by_cases h : category.first = winner
  · rw [List.filterMap_cons, if_pos h, if_pos h]
    cases category.dropFirst with
    | none => rfl
    | some rest => rfl
  · rw [List.filterMap_cons, if_neg h, if_neg h]
    rfl

theorem removeWinner_of_notMem {winner : ℕ} (h : winner ∉ firsts categories) :
    removeWinner winner categories = categories := by
  induction categories with
  | nil => rfl
  | cons category categories ih =>
      rw [firsts, List.map_cons, List.mem_cons, not_or] at h
      rw [removeWinner_cons, if_neg (Ne.symm h.1), ih h.2]
      rfl

theorem categoryRefs_removeWinner {winner : ℕ} (hnodup : (categoryRefs categories).Nodup)
    (h : winner ∈ firsts categories) :
    (winner :: categoryRefs (removeWinner winner categories)).Perm (categoryRefs categories) := by
  induction categories with
  | nil => exact absurd h List.not_mem_nil
  | cons category categories ih =>
      rw [categoryRefs_cons] at hnodup
      obtain ⟨-, hrest, hdisjoint⟩ := List.nodup_append.mp hnodup
      rw [removeWinner_cons, categoryRefs_cons]
      by_cases hfirst : category.first = winner
      · have hnot : winner ∉ firsts categories := by
          intro hmem
          exact hdisjoint winner (hfirst ▸ List.mem_cons_self) winner
            ((firsts_sublist categories).subset hmem) rfl
        rw [if_pos hfirst, removeWinner_of_notMem hnot, categoryRefs, List.flatMap_append,
          dropFirst_refs, Category.refs, hfirst]
        exact List.Perm.refl _
      · have hmem : winner ∈ firsts categories := by
          rw [firsts, List.map_cons] at h
          rcases List.mem_cons.mp h with h | h
          · exact absurd h.symm hfirst
          · exact h
        rw [if_neg hfirst, List.singleton_append, categoryRefs_cons]
        exact List.perm_middle.symm.trans ((ih hrest hmem).append_left _)

end Lists

section Build
variable {K : Type} {cfg : Config K} {tickets : ℕ → K} {dependent : Bool}
  {jobTickets : Ref → ℕ} {ownerTickets : Owner → ℕ → ℕ}

/-- The pending tasks that have shares. -/
def sharingTasks (cfg : Config K) (jobTickets : Ref → ℕ) (ownerTickets : Owner → ℕ → ℕ) : List ℕ :=
  (List.range cfg.numJobs).filter fun jref =>
    (cfg.ref jref).queued && hasShares cfg jobTickets ownerTickets jref

theorem nodup_sharingTasks (cfg : Config K) (jobTickets : Ref → ℕ) (ownerTickets : Owner → ℕ → ℕ) :
    (sharingTasks cfg jobTickets ownerTickets).Nodup :=
  List.nodup_range.filter _

theorem lt_of_sharing {jref : ℕ} (h : jref ∈ sharingTasks cfg jobTickets ownerTickets) :
    jref < cfg.numJobs :=
  List.mem_range.mp (List.mem_filter.mp h).1

theorem queued_of_sharing {jref : ℕ} (h : jref ∈ sharingTasks cfg jobTickets ownerTickets) :
    (cfg.ref jref).queued := by
  have := (List.mem_filter.mp h).2
  rw [Bool.and_eq_true] at this
  exact this.1

variable [LinearOrder K]

theorem categoryRefs_addToCategories (jref : ℕ) (categories : List Category) :
    (categoryRefs (addToCategories cfg tickets dependent jobTickets ownerTickets jref
      categories)).Perm (jref :: categoryRefs categories) := by
  induction categories with
  | nil => exact List.Perm.refl _
  | cons category categories ih =>
      rw [addToCategories]
      split_ifs
      · rw [categoryRefs_cons, categoryRefs_cons, ← List.cons_append]
        exact (refs_insert_perm _ jref category).append_right _
      · rw [categoryRefs_cons, categoryRefs_cons]
        exact (ih.append_left _).trans List.perm_middle

theorem buildFunctionalCategories_spec (cfg : Config K) (tickets : ℕ → K) (dependent : Bool)
    (jobTickets : Ref → ℕ) (ownerTickets : Owner → ℕ → ℕ) :
    (categoryRefs (buildFunctionalCategories cfg tickets dependent jobTickets ownerTickets).1).Perm
        (sharingTasks cfg jobTickets ownerTickets) ∧
      (buildFunctionalCategories cfg tickets dependent jobTickets ownerTickets).2 =
        (sharingTasks cfg jobTickets ownerTickets).length := by
  unfold buildFunctionalCategories sharingTasks
  induction List.range cfg.numJobs using List.reverseRecOn with
  | nil => exact ⟨List.Perm.refl _, rfl⟩
  | append_singleton jrefs jref ih =>
      rw [List.foldl_append, List.foldl_cons, List.foldl_nil, List.filter_append]
      by_cases h : ((cfg.ref jref).queued && hasShares cfg jobTickets ownerTickets jref) = true
      · rw [if_pos h, List.filter_singleton, h, cond_true, List.length_append]
        refine ⟨?_, congrArg (· + 1) ih.2⟩
        refine (categoryRefs_addToCategories jref _).trans ?_
        exact (ih.1.cons jref).trans (List.perm_append_singleton jref _).symm
      · rw [if_neg h, List.filter_singleton, eq_false_of_ne_true h, cond_false, List.append_nil]
        exact ih

end Build

section Ranks
variable {K : Type} {cfg : Config K} {j k : ℕ}

/-- The tasks of a job were submitted together, and a task stands once in the `job_ref` array. -/
structure Config.TasksNamed (cfg : Config K) : Prop where
  submissionTime : ∀ j < cfg.numJobs, ∀ k < cfg.numJobs,
    (cfg.ref j).jobNumber = (cfg.ref k).jobNumber →
      (cfg.ref j).submissionTime = (cfg.ref k).submissionTime
  unique : ∀ j < cfg.numJobs, ∀ k < cfg.numJobs, (cfg.ref j).jobNumber = (cfg.ref k).jobNumber →
    (cfg.ref j).taskNumber = (cfg.ref k).taskNumber → j = k

/-- More tickets come first, then the earlier submission time, the smaller job number and the
smaller task number. -/
def rank (cfg : Config K) (tickets : K) (jref : ℕ) : Kᵒᵈ ×ₗ ℕ ×ₗ ℕ ×ₗ ℕ :=
  toLex (OrderDual.toDual tickets, toLex ((cfg.ref jref).submissionTime,
    toLex ((cfg.ref jref).jobNumber, (cfg.ref jref).taskNumber)))

theorem eq_of_rank (h : cfg.TasksNamed) {x y : K} (hj : j < cfg.numJobs) (hk : k < cfg.numJobs)
    (heq : rank cfg x j = rank cfg y k) : j = k := by
  simp only [rank, toLex_inj, Prod.mk.injEq] at heq
  exact h.unique j hj k hk heq.2.2.1 heq.2.2.2

variable [LinearOrder K]

theorem rank_lt_iff {x y : K} : rank cfg x j < rank cfg y k ↔
    y < x ∨ (x = y ∧ ((cfg.ref j).submissionTime < (cfg.ref k).submissionTime ∨
      ((cfg.ref j).submissionTime = (cfg.ref k).submissionTime ∧
        ((cfg.ref j).jobNumber < (cfg.ref k).jobNumber ∨
          ((cfg.ref j).jobNumber = (cfg.ref k).jobNumber ∧
            (cfg.ref j).taskNumber < (cfg.ref k).taskNumber))))) := by
  simp only [rank, Prod.Lex.toLex_lt_toLex, OrderDual.toDual_lt_toDual,
    EmbeddingLike.apply_eq_iff_eq]

theorem rank_add_lt [Field K] [IsStrictOrderedRing K] {x y : K} (z : K) :
    rank cfg (x + z) j < rank cfg (y + z) k ↔ rank cfg x j < rank cfg y k := by
  rw [rank_lt_iff, rank_lt_iff, add_lt_add_iff_right, add_left_inj]

theorem tickets_le_of_rank_le {x y : K} (h : rank cfg x j ≤ rank cfg y k) : y ≤ x := by
  by_contra hlt
  exact absurd (rank_lt_iff.mpr (Or.inl (not_le.mp hlt))) (not_lt.mpr h)

theorem stopsAt_iff (h : cfg.TasksNamed) (tickets : ℕ → K) (hj : j < cfg.numJobs)
    (hk : k < cfg.numJobs) :
    stopsAt cfg tickets j k = true ↔ rank cfg (tickets k) k < rank cfg (tickets j) j := by
  have htime := h.submissionTime k hk j hj
  rw [rank_lt_iff]
  unfold stopsAt
  dsimp only
  split_ifs with hlt heq hbefore
  · simp [hlt]
  · simp only [true_iff]
    right
    refine ⟨heq, ?_⟩
    rcases hbefore with hbefore | ⟨hbefore, hjob⟩
    · exact Or.inl hbefore
    · exact Or.inr ⟨hbefore, Or.inl hjob⟩
  · rw [decide_eq_true_iff]
    constructor
    · rintro ⟨hjob, htask⟩
      exact Or.inr ⟨heq, Or.inr ⟨htime hjob, Or.inr ⟨hjob, htask⟩⟩⟩
    · rintro (hlt' | ⟨-, hrest⟩)
      · exact absurd hlt' hlt
      · rcases hrest with hrest | ⟨hrest, hjob | hjob⟩
        · exact absurd (Or.inl hrest) hbefore
        · exact absurd (Or.inr ⟨hrest, hjob⟩) hbefore
        · exact hjob
  · simp only [false_iff, not_or, not_and]
    exact ⟨hlt, fun h => absurd h heq⟩

end Ranks

section Kinds
variable {K : Type} {cfg : Config K} {jobTickets : Ref → ℕ} {ownerTickets : Owner → ℕ → ℕ}
  {j k : ℕ} {category : Category}

/-- What a category is looked up by. -/
def Category.kind (category : Category) : ℕ × Option ℕ × Option ℕ × Option ℕ :=
  (category.jobShare, category.owner .user, category.owner .department, category.owner .project)

/-- What the category of a task is looked up by. -/
def taskKind (cfg : Config K) (jobTickets : Ref → ℕ) (ownerTickets : Owner → ℕ → ℕ) (jref : ℕ) :
    ℕ × Option ℕ × Option ℕ × Option ℕ :=
  (jobTickets (cfg.ref jref), ownerElem cfg ownerTickets jref .user,
    ownerElem cfg ownerTickets jref .department, ownerElem cfg ownerTickets jref .project)

/-- The new category of a task. -/
def ownCategory (cfg : Config K) (jobTickets : Ref → ℕ) (ownerTickets : Owner → ℕ → ℕ)
    (jref : ℕ) : Category where
  jobShare := jobTickets (cfg.ref jref)
  owner := ownerElem cfg ownerTickets jref
  ownerShare := ownerShare cfg ownerTickets jref
  first := jref
  next := []

theorem isOf_iff : category.isOf cfg jobTickets ownerTickets j = true ↔
    category.kind = taskKind cfg jobTickets ownerTickets j := by
  unfold Category.isOf Category.kind taskKind
  simp only [decide_eq_true_eq, Prod.mk.injEq]

theorem ownerElem_of_kind
    (h : taskKind cfg jobTickets ownerTickets j = taskKind cfg jobTickets ownerTickets k) :
    ownerElem cfg ownerTickets j = ownerElem cfg ownerTickets k := by
  simp only [taskKind, Prod.mk.injEq] at h
  funext owner
  cases owner with
  | user => exact h.2.1
  | project => exact h.2.2.2
  | department => exact h.2.2.1

theorem ownerShare_eq_elim (cfg : Config K) (ownerTickets : Owner → ℕ → ℕ) (jref : ℕ)
    (owner : Owner) : ownerShare cfg ownerTickets jref owner =
      (ownerElem cfg ownerTickets jref owner).elim 0 (ownerTickets owner) := by
  unfold ownerShare ownerElem
  cases (cfg.ref jref).owner owner with
  | none => rfl
  | some object =>
      by_cases h : ownerTickets owner object = 0
      · simp [Option.filter_some, h]
      · simp [Option.filter_some, h]

theorem ownerShare_of_kind
    (h : taskKind cfg jobTickets ownerTickets j = taskKind cfg jobTickets ownerTickets k) :
    ownerShare cfg ownerTickets j = ownerShare cfg ownerTickets k := by
  funext owner
  rw [ownerShare_eq_elim, ownerShare_eq_elim, ownerElem_of_kind h]

end Kinds

section Groups
variable {K : Type} [LinearOrder K] {cfg : Config K} {tickets : ℕ → K} {jobTickets : Ref → ℕ}
  {ownerTickets : Owner → ℕ → ℕ} {tasks : List ℕ} {categories : List Category} {jref : ℕ}

/-- The tasks stand in the categories of their kinds, each category in its order. -/
structure Grouped (cfg : Config K) (tickets : ℕ → K) (jobTickets : Ref → ℕ)
    (ownerTickets : Owner → ℕ → ℕ) (tasks : List ℕ) (categories : List Category) : Prop where
  perm : (categoryRefs categories).Perm tasks
  kind : ∀ category ∈ categories, ∀ j ∈ category.refs,
    taskKind cfg jobTickets ownerTickets j = category.kind
  share : ∀ category ∈ categories, ∀ j ∈ category.refs,
    ownerShare cfg ownerTickets j = category.ownerShare
  sorted : ∀ category ∈ categories,
    category.refs.Pairwise fun j k => rank cfg (tickets j) j < rank cfg (tickets k) k
  distinct : (categories.map Category.kind).Nodup

/-- The tasks that wait in their categories, each once. -/
structure Waiting (cfg : Config K) (tickets : ℕ → K) (jobTickets : Ref → ℕ)
    (ownerTickets : Owner → ℕ → ℕ) (tasks : List ℕ) (categories : List Category) : Prop
    extends Grouped cfg tickets jobTickets ownerTickets tasks categories where
  nodup : tasks.Nodup
  bound : ∀ j ∈ tasks, j < cfg.numJobs

theorem kind_insert (stop : ℕ → Bool) (jref : ℕ) (category : Category) :
    (category.insert stop jref).kind = category.kind ∧
      (category.insert stop jref).ownerShare = category.ownerShare := by
  unfold Category.insert
  dsimp only
  split <;> exact ⟨rfl, rfl⟩

theorem map_kind_addToCategories (jref : ℕ) (categories : List Category) :
    (addToCategories cfg tickets true jobTickets ownerTickets jref categories).map Category.kind =
      if taskKind cfg jobTickets ownerTickets jref ∈ categories.map Category.kind then
        categories.map Category.kind
      else categories.map Category.kind ++ [taskKind cfg jobTickets ownerTickets jref] := by
  induction categories with
  | nil => rfl
  | cons category categories ih =>
      rw [addToCategories, List.map_cons]
      by_cases hof : category.isOf cfg jobTickets ownerTickets jref = true
      · rw [if_pos hof, if_pos (List.mem_cons.mpr (Or.inl (isOf_iff.mp hof).symm)), List.map_cons,
          (kind_insert _ jref category).1]
      · have hne : taskKind cfg jobTickets ownerTickets jref ≠ category.kind := fun h =>
          hof (isOf_iff.mpr h.symm)
        rw [if_neg hof, List.map_cons, ih]
        by_cases hmem : taskKind cfg jobTickets ownerTickets jref ∈ categories.map Category.kind
        · rw [if_pos hmem, if_pos (List.mem_cons_of_mem _ hmem)]
        · rw [if_neg hmem, if_neg, List.cons_append]
          rw [List.mem_cons, not_or]
          exact ⟨hne, hmem⟩

theorem mem_addToCategories {jref : ℕ} {categories : List Category} {category : Category}
    (h : category ∈ addToCategories cfg tickets true jobTickets ownerTickets jref categories) :
    category ∈ categories ∨ category = ownCategory cfg jobTickets ownerTickets jref ∨
      ∃ c ∈ categories, c.kind = taskKind cfg jobTickets ownerTickets jref ∧
        category = c.insert (stopsAt cfg tickets jref) jref := by
  induction categories with
  | nil => exact Or.inr (Or.inl (List.mem_singleton.mp h))
  | cons c categories ih =>
      rw [addToCategories] at h
      split_ifs at h with hof
      · rcases List.mem_cons.mp h with rfl | h
        · exact Or.inr (Or.inr ⟨c, List.mem_cons_self, isOf_iff.mp hof, rfl⟩)
        · exact Or.inl (List.mem_cons_of_mem _ h)
      · rcases List.mem_cons.mp h with rfl | h
        · exact Or.inl List.mem_cons_self
        · rcases ih h with h | h | ⟨d, hd, h⟩
          · exact Or.inl (List.mem_cons_of_mem _ h)
          · exact Or.inr (Or.inl h)
          · exact Or.inr (Or.inr ⟨d, List.mem_cons_of_mem _ hd, h⟩)

namespace Grouped

theorem mem_tasks (h : Grouped cfg tickets jobTickets ownerTickets tasks categories)
    {category : Category} (hcategory : category ∈ categories) {j : ℕ} (hj : j ∈ category.refs) :
    j ∈ tasks :=
  h.perm.subset (List.mem_flatMap.mpr ⟨category, hcategory, hj⟩)

theorem exists_category (h : Grouped cfg tickets jobTickets ownerTickets tasks categories) {j : ℕ}
    (hj : j ∈ tasks) : ∃ category ∈ categories, j ∈ category.refs :=
  List.mem_flatMap.mp (h.perm.symm.subset hj)

theorem eq_of_kind (h : Grouped cfg tickets jobTickets ownerTickets tasks categories)
    {c d : Category} (hc : c ∈ categories) (hd : d ∈ categories) {j k : ℕ} (hj : j ∈ c.refs)
    (hk : k ∈ d.refs) (hkind : taskKind cfg jobTickets ownerTickets j =
      taskKind cfg jobTickets ownerTickets k) : c = d := by
  apply List.inj_on_of_nodup_map h.distinct hc hd
  rw [← h.kind c hc j hj, hkind, h.kind d hd k hk]

theorem first_notMem (h : Grouped cfg tickets jobTickets ownerTickets tasks categories)
    {c d : Category} (hc : c ∈ categories) (hd : d ∈ categories) : c.first ∉ d.next := by
  intro hmem
  obtain rfl := h.eq_of_kind hc hd List.mem_cons_self (List.mem_cons_of_mem _ hmem) rfl
  exact lt_irrefl _ ((List.pairwise_cons.mp (h.sorted c hc)).1 c.first hmem)

theorem add (h : Grouped cfg tickets jobTickets ownerTickets tasks categories)
    (hnamed : cfg.TasksNamed) (htasks : ∀ j ∈ tasks, j < cfg.numJobs) (hlt : jref < cfg.numJobs)
    (hnot : jref ∉ tasks) :
    Grouped cfg tickets jobTickets ownerTickets (jref :: tasks)
      (addToCategories cfg tickets true jobTickets ownerTickets jref categories) where
  perm := (categoryRefs_addToCategories jref categories).trans (h.perm.cons jref)
  kind := by
    intro category hcategory j hj
    rcases mem_addToCategories hcategory with hold | rfl | ⟨c, hc, hkind, rfl⟩
    · exact h.kind category hold j hj
    · rw [List.mem_singleton.mp hj]
      rfl
    · rw [(kind_insert _ jref c).1]
      rcases List.mem_cons.mp ((refs_insert_perm _ jref c).subset hj) with rfl | hj
      · exact hkind.symm
      · exact h.kind c hc j hj
  share := by
    intro category hcategory j hj
    rcases mem_addToCategories hcategory with hold | rfl | ⟨c, hc, hkind, rfl⟩
    · exact h.share category hold j hj
    · rw [List.mem_singleton.mp hj]
      rfl
    · rw [(kind_insert _ jref c).2]
      rcases List.mem_cons.mp ((refs_insert_perm _ jref c).subset hj) with rfl | hj
      · rw [← h.share c hc c.first List.mem_cons_self]
        exact ownerShare_of_kind (hkind.symm.trans (h.kind c hc c.first List.mem_cons_self).symm)
      · exact h.share c hc j hj
  sorted := by
    intro category hcategory
    rcases mem_addToCategories hcategory with hold | rfl | ⟨c, hc, -, rfl⟩
    · exact h.sorted category hold
    · exact List.pairwise_singleton _ _
    · rw [refs_insert]
      refine @pairwise_insert ℕ _ _ (fun j => rank cfg (tickets j) j) jref c.refs _ ?_
        (h.sorted c hc) ?_
      · exact fun k hk => stopsAt_iff hnamed tickets hlt (htasks k (h.mem_tasks hc hk))
      · intro k hk heq
        have hmem := h.mem_tasks hc hk
        exact hnot (eq_of_rank hnamed (htasks k hmem) hlt heq ▸ hmem)
  distinct := by
    rw [map_kind_addToCategories]
    split_ifs with hmem
    · exact h.distinct
    · rw [List.nodup_append]
      refine ⟨h.distinct, List.nodup_singleton _, ?_⟩
      intro kind hkind other hother heq
      rw [List.mem_singleton.mp hother] at heq
      exact hmem (heq ▸ hkind)

theorem congr {tasks' : List ℕ} (h : Grouped cfg tickets jobTickets ownerTickets tasks categories)
    (hperm : tasks.Perm tasks') :
    Grouped cfg tickets jobTickets ownerTickets tasks' categories :=
  { h with perm := h.perm.trans hperm }

end Grouped

theorem mem_removeWinner {winner : ℕ} {category : Category}
    (h : category ∈ removeWinner winner categories) :
    ∃ c ∈ categories, category.kind = c.kind ∧ category.ownerShare = c.ownerShare ∧
      category.refs.Sublist c.refs := by
  obtain ⟨c, hc, heq⟩ := List.mem_filterMap.mp h
  refine ⟨c, hc, ?_⟩
  split_ifs at heq with hfirst
  · unfold Category.dropFirst at heq
    cases hnext : c.next with
    | nil => simp [hnext] at heq
    | cons first next =>
        rw [hnext] at heq
        obtain rfl := Option.some.inj heq
        refine ⟨rfl, rfl, ?_⟩
        rw [Category.refs, Category.refs, hnext]
        exact List.sublist_cons_self _ _
  · obtain rfl := Option.some.inj heq
    exact ⟨rfl, rfl, List.Sublist.refl _⟩

theorem map_kind_removeWinner (winner : ℕ) (categories : List Category) :
    ((removeWinner winner categories).map Category.kind).Sublist
      (categories.map Category.kind) := by
  induction categories with
  | nil => exact List.Sublist.refl _
  | cons category categories ih =>
      rw [removeWinner_cons, List.map_append, List.map_cons]
      have hhead : ((if category.first = winner then category.dropFirst.toList
          else [category]).map Category.kind).Sublist [category.kind] := by
        split_ifs
        · unfold Category.dropFirst
          cases category.next with
          | nil => exact List.nil_sublist _
          | cons first next => exact List.Sublist.refl _
        · exact List.Sublist.refl _
      exact hhead.append ih

namespace Grouped

theorem remove (h : Grouped cfg tickets jobTickets ownerTickets tasks categories)
    (hnodup : tasks.Nodup) {winner : ℕ} (hwinner : winner ∈ firsts categories) :
    Grouped cfg tickets jobTickets ownerTickets (tasks.erase winner)
      (removeWinner winner categories) where
  perm := by
    have hperm := categoryRefs_removeWinner (h.perm.nodup_iff.mpr hnodup) hwinner
    exact (List.cons_perm_iff_perm_erase.mp (hperm.trans h.perm)).2
  kind := by
    intro category hcategory j hj
    obtain ⟨c, hc, hkind, -, hrefs⟩ := mem_removeWinner hcategory
    rw [hkind]
    exact h.kind c hc j (hrefs.subset hj)
  share := by
    intro category hcategory j hj
    obtain ⟨c, hc, -, hshare, hrefs⟩ := mem_removeWinner hcategory
    rw [hshare]
    exact h.share c hc j (hrefs.subset hj)
  sorted := by
    intro category hcategory
    obtain ⟨c, hc, -, -, hrefs⟩ := mem_removeWinner hcategory
    exact (h.sorted c hc).sublist hrefs
  distinct := h.distinct.sublist (map_kind_removeWinner winner categories)

theorem first_le (h : Grouped cfg tickets jobTickets ownerTickets tasks categories)
    {category : Category} (hcategory : category ∈ categories) {j : ℕ} (hj : j ∈ category.refs) :
    rank cfg (tickets category.first) category.first ≤ rank cfg (tickets j) j := by
  rcases List.mem_cons.mp hj with rfl | hj
  · exact le_rfl
  · exact ((List.pairwise_cons.mp (h.sorted category hcategory)).1 j hj).le

/-- The order in a category stays the same when a policy gives its tasks the same tickets. -/
theorem first_add_le {K : Type} [Field K] [LinearOrder K] [IsStrictOrderedRing K] {cfg : Config K}
    {tickets : ℕ → K} (h : Grouped cfg tickets jobTickets ownerTickets tasks categories)
    {category : Category} (hcategory : category ∈ categories) {j : ℕ} (hj : j ∈ category.refs)
    {v : ℕ → K} (hv : ∀ j k, taskKind cfg jobTickets ownerTickets j =
      taskKind cfg jobTickets ownerTickets k → v j = v k) :
    rank cfg (tickets category.first + v category.first) category.first ≤
      rank cfg (tickets j + v j) j := by
  have hkind := (h.kind category hcategory category.first List.mem_cons_self).trans
    (h.kind category hcategory j hj).symm
  rw [hv _ _ hkind, ← not_lt, rank_add_lt, not_lt]
  exact h.first_le hcategory hj

theorem mem_firsts_iff (h : Grouped cfg tickets jobTickets ownerTickets tasks categories)
    (hnamed : cfg.TasksNamed) (htasks : ∀ j ∈ tasks, j < cfg.numJobs) {j : ℕ} :
    j ∈ firsts categories ↔ j ∈ tasks ∧ ∀ k ∈ tasks,
      taskKind cfg jobTickets ownerTickets k = taskKind cfg jobTickets ownerTickets j →
        rank cfg (tickets j) j ≤ rank cfg (tickets k) k := by
  constructor
  · intro hj
    obtain ⟨category, hcategory, rfl⟩ := List.mem_map.mp hj
    refine ⟨h.mem_tasks hcategory List.mem_cons_self, fun k hk hkind => ?_⟩
    obtain ⟨c, hc, hkc⟩ := h.exists_category hk
    obtain rfl := h.eq_of_kind hc hcategory hkc List.mem_cons_self hkind
    exact h.first_le hc hkc
  · rintro ⟨hj, hle⟩
    obtain ⟨category, hcategory, hjc⟩ := h.exists_category hj
    have hfirst := h.mem_tasks hcategory List.mem_cons_self
    have hkind := (h.kind category hcategory category.first List.mem_cons_self).trans
      (h.kind category hcategory j hjc).symm
    have heq := le_antisymm (hle _ hfirst hkind) (h.first_le hcategory hjc)
    rw [eq_of_rank hnamed (htasks j hj) (htasks _ hfirst) heq]
    exact List.mem_map_of_mem hcategory

end Grouped

namespace Waiting

theorem firsts_subset (h : Waiting cfg tickets jobTickets ownerTickets tasks categories) :
    firsts categories ⊆ tasks := fun _ hj =>
  h.perm.subset ((firsts_sublist categories).subset hj)

theorem nodup_firsts (h : Waiting cfg tickets jobTickets ownerTickets tasks categories) :
    (firsts categories).Nodup :=
  (h.perm.nodup_iff.mpr h.nodup).sublist (firsts_sublist categories)

theorem remove (h : Waiting cfg tickets jobTickets ownerTickets tasks categories) {winner : ℕ}
    (hwinner : winner ∈ firsts categories) :
    Waiting cfg tickets jobTickets ownerTickets (tasks.erase winner)
      (removeWinner winner categories) :=
  { h.toGrouped.remove h.nodup hwinner with
    nodup := h.nodup.erase _
    bound := fun j hj => h.bound j (List.mem_of_mem_erase hj) }

end Waiting

/-- The categories that are built hold the pending tasks with shares. -/
theorem grouped_buildFunctionalCategories (hnamed : cfg.TasksNamed) (tickets : ℕ → K)
    (jobTickets : Ref → ℕ) (ownerTickets : Owner → ℕ → ℕ) :
    Grouped cfg tickets jobTickets ownerTickets (sharingTasks cfg jobTickets ownerTickets)
      (buildFunctionalCategories cfg tickets true jobTickets ownerTickets).1 := by
  unfold buildFunctionalCategories sharingTasks
  have hlt : ∀ j ∈ List.range cfg.numJobs, j < cfg.numJobs := fun j => List.mem_range.mp
  have hnodup : (List.range cfg.numJobs).Nodup := List.nodup_range
  generalize List.range cfg.numJobs = jrefs at hlt hnodup ⊢
  induction jrefs using List.reverseRecOn with
  | nil => exact ⟨List.Perm.refl _, by simp, by simp, by simp, List.nodup_nil⟩
  | append_singleton jrefs jref ih =>
      obtain ⟨hnodup, -, hdisjoint⟩ := List.nodup_append.mp hnodup
      have hih := ih (fun j hj => hlt j (List.mem_append_left _ hj)) hnodup
      rw [List.foldl_append, List.foldl_cons, List.foldl_nil, List.filter_append]
      by_cases h : ((cfg.ref jref).queued && hasShares cfg jobTickets ownerTickets jref) = true
      · rw [if_pos h, List.filter_singleton, h, cond_true]
        refine (hih.add hnamed ?_ (hlt jref (by simp)) ?_).congr
          (List.perm_append_singleton jref _).symm
        · exact fun j hj => hlt j (List.mem_append_left _ (List.mem_filter.mp hj).1)
        · exact fun hmem => hdisjoint jref (List.mem_filter.mp hmem).1 jref
            (List.mem_singleton_self jref) rfl
      · rw [if_neg h, List.filter_singleton, eq_false_of_ne_true h, cond_false, List.append_nil]
        exact hih

theorem waiting_buildFunctionalCategories (hnamed : cfg.TasksNamed) (tickets : ℕ → K)
    (jobTickets : Ref → ℕ) (ownerTickets : Owner → ℕ → ℕ) :
    Waiting cfg tickets jobTickets ownerTickets (sharingTasks cfg jobTickets ownerTickets)
      (buildFunctionalCategories cfg tickets true jobTickets ownerTickets).1 :=
  { grouped_buildFunctionalCategories hnamed tickets jobTickets ownerTickets with
    nodup := nodup_sharingTasks cfg jobTickets ownerTickets
    bound := fun _ => lt_of_sharing }

end Groups

end GridEngine.TicketPolicies
