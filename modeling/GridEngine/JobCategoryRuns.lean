import GridEngine.JobCategoryBooks
import GridEngine.Machine

/-!
# Runs of the job category functions
-/

namespace GridEngine
variable {J D L : Type*} [DecidableEq J]

namespace CategorySystem
variable {filtering : Bool} {build : CategoryJob D → L → String × Bool}
  {s s' : CategorySystem J D} {job : J} {jobs : J → CategoryJob D}
  {actions : List (CategoryAction J D L)}

/-- What the category lists promise in every state. -/
structure Consistent (filtering : Bool) (s : CategorySystem J D) : Prop where
  one_each : (s.books.categoryList.map (·.str)).Nodup
  in_use : ∀ str, (∃ cat ∈ s.books.categoryList, cat.str = str) ↔
    ∃ j ∈ s.jobList, s.books.category j ≠ none ∧ s.text j = str
  distinct : s.addresses.Nodup
  refers : ∀ j address, s.books.category j = some address →
    ∃ cat ∈ s.books.categoryList, cat.address = address ∧ cat.str = s.text j
  refcount : ∀ cat ∈ s.books.categoryList,
    cat.refcount = (s.jobList.filter fun j => s.books.category j = some cat.address).length ∧
      1 ≤ cat.refcount
  once : filtering = true → ∀ j, (csRefs s.books.csCategoryList).count j =
    if s.books.category j = none then 0 else 1
  nonempty : filtering = true → ∀ cat ∈ s.books.csCategoryList, cat.refs ≠ []

/-- The books of the jobs that have a category, and the rejections with reservation. -/
structure Inv (filtering : Bool) (s : CategorySystem J D) : Prop where
  nodup : s.jobList.Nodup
  books : ∃ members, Books filtering s.books s.text members ∧
    ∀ j, j ∈ members ↔ s.books.category j ≠ none
  present : ∀ j, s.books.category j ≠ none → j ∈ s.jobList
  reserved_sub : ∀ a ∈ s.reserved, a ∈ s.addresses
  reserved_iff : ∀ cat ∈ s.books.categoryList,
    cat.address ∈ s.reserved ↔ sgeIsJobCategoryReservationRejected cat = true

theorem Inv.consistent (h : Inv filtering s) : Consistent filtering s := by
  obtain ⟨members, hbooks, hmembers⟩ := h.books
  refine ⟨hbooks.texts, fun str => ?_, hbooks.addresses, fun j address hj => ?_, fun cat hcat => ?_,
    fun hfiltering j => ?_, hbooks.cs_nonempty⟩
  · constructor
    · rintro ⟨cat, hcat, rfl⟩
      have hpos := hbooks.pos cat hcat
      rw [hbooks.refcount cat hcat] at hpos
      obtain ⟨j, hj⟩ := Finset.card_pos.mp hpos
      obtain ⟨hmem, hcategory⟩ := Finset.mem_filter.mp hj
      obtain ⟨e, he, hcategory', htext⟩ := hbooks.refers j hmem
      rw [hcategory, Option.some.injEq] at hcategory'
      have hcat' := eq_of_address hbooks.addresses hcat he hcategory'.symm
      subst hcat'
      have hnone := (hmembers j).mp hmem
      exact ⟨j, h.present j hnone, hnone, htext.symm⟩
    · rintro ⟨j, -, hnone, rfl⟩
      obtain ⟨cat, hcat, -, htext⟩ := hbooks.refers j ((hmembers j).mpr hnone)
      exact ⟨cat, hcat, htext⟩
  · obtain ⟨cat, hcat, hcategory, htext⟩ := hbooks.refers j ((hmembers j).mpr (by simp [hj]))
    rw [hj, Option.some.injEq] at hcategory
    exact ⟨cat, hcat, hcategory.symm, htext⟩
  · refine ⟨?_, hbooks.pos cat hcat⟩
    have hfilter : (members.filter fun j => s.books.category j = some cat.address) =
        (s.jobList.filter fun j => s.books.category j = some cat.address).toFinset := by
      ext j
      simp only [Finset.mem_filter, List.mem_toFinset, List.mem_filter, decide_eq_true_eq]
      constructor
      · rintro ⟨-, hj⟩
        exact ⟨h.present j (by simp [hj]), hj⟩
      · rintro ⟨-, hj⟩
        exact ⟨(hmembers j).mpr (by simp [hj]), hj⟩
    rw [hbooks.refcount cat hcat, hfilter, List.toFinset_card_of_nodup (h.nodup.filter _)]
  · have hnodup := hbooks.cs_nodup hfiltering
    have hmem := hbooks.mem_cs hfiltering j
    rw [hmembers] at hmem
    split_ifs with hnone
    · exact List.count_eq_zero_of_not_mem fun hj => hmem.mp hj hnone
    · exact List.count_eq_one_of_mem hnodup (hmem.mpr hnone)

omit [DecidableEq J] in
theorem Inv.init : Inv filtering (init jobs) where
  nodup := List.nodup_nil
  books := ⟨∅, Books.empty rfl rfl, fun j => by simp [CategorySystem.init]⟩
  present _ h := absurd rfl h
  reserved_sub a h := by cases h
  reserved_iff cat h := by cases h

/-- A category found for a text exists already or is new and unmarked. -/
theorem mem_findCategory {m : Malloc} {cstr : String} {cats : List CtElem} {cat : CtElem}
    (h : cat ∈ (findCategory m cstr cats).2) :
    cat ∈ cats ∨ cat.reservationRejected = 0 ∧ cat.address ∉ cats.map (·.address) := by
  cases hfind : cats.find? (fun cat => cat.str = cstr) with
  | some found =>
      rw [findCategory_of_some hfind] at h
      exact .inl h
  | none =>
      rw [findCategory_of_none hfind] at h
      rcases List.mem_append.mp h with h | h
      · exact .inl h
      · rw [List.mem_singleton] at h
        subst h
        exact .inr ⟨rfl, m.2 _⟩

theorem mem_sgeAddJobCategory {m : Malloc} {lists : L} {books : CategoryState J D} {cat : CtElem}
    (h : cat ∈ (sgeAddJobCategory filtering build lists m books job).categoryList) :
    (∃ e ∈ books.categoryList, e.address = cat.address ∧
      e.reservationRejected = cat.reservationRejected) ∨
      cat.reservationRejected = 0 ∧ cat.address ∉ books.categoryList.map (·.address) := by
  obtain ⟨e, he, rfl⟩ := mem_updateCategory.mp h
  rcases mem_findCategory he with he | ⟨hzero, hnew⟩
  · refine .inl ⟨e, he, ?_, ?_⟩ <;> split_ifs <;> rfl
  · refine .inr ⟨?_, ?_⟩ <;> split_ifs <;> assumption

theorem foldl_add_unmarked {m : Malloc} {lists : L} {jobList : List J}
    {books : CategoryState J D} (h : ∀ cat ∈ books.categoryList, cat.reservationRejected = 0) :
    ∀ cat ∈ (jobList.foldl (sgeAddJobCategory filtering build lists m) books).categoryList,
      cat.reservationRejected = 0 := by
  induction jobList generalizing books with
  | nil => exact h
  | cons job jobList ih =>
      apply ih
      intro cat hcat
      rcases mem_sgeAddJobCategory hcat with ⟨e, he, -, heq⟩ | ⟨hzero, -⟩
      · rw [← heq]
        exact h e he
      · exact hzero

theorem addresses_sgeAddJobCategory {m : Malloc} {lists : L} {books : CategoryState J D} {a : ℕ}
    (h : a ∈ books.categoryList.map (·.address)) :
    a ∈ (sgeAddJobCategory filtering build lists m books job).categoryList.map (·.address) := by
  rw [sgeAddJobCategory]
  dsimp only
  rw [map_updateCategory]
  · cases hfind : books.categoryList.find?
        (fun cat => cat.str = categoryText build (books.jobs job) lists) with
    | some found => rwa [findCategory_of_some hfind]
    | none =>
        rw [findCategory_of_none hfind, List.map_append]
        exact List.mem_append_left _ h
  · intro e
    rfl

omit [DecidableEq J] in
theorem Inv.set_jobs (h : Inv filtering s) {jobs : J → CategoryJob D} {rebCat : Bool}
    {jobList : List J} (hnodup : jobList.Nodup)
    (hpresent : ∀ j, s.books.category j ≠ none → j ∈ jobList) :
    Inv filtering
      { s with books := { s.books with jobs := jobs, rebCat := rebCat }, jobList := jobList } := by
  obtain ⟨members, hbooks, hmembers⟩ := h.books
  exact ⟨hnodup, ⟨members, hbooks.set_jobs jobs rebCat, hmembers⟩, hpresent, h.reserved_sub,
    h.reserved_iff⟩

theorem Inv.add {m : Malloc} {lists : L} (h : Inv filtering s) (hjob : job ∈ s.jobList)
    (hnone : s.books.category job = none) :
    Inv filtering { s with
      books := sgeAddJobCategory filtering build lists m s.books job
      text := Function.update s.text job (categoryText build (s.books.jobs job) lists) } := by
  obtain ⟨members, hbooks, hmembers⟩ := h.books
  have hnot : job ∉ members := by
    rw [hmembers]
    exact fun hne => hne hnone
  refine ⟨h.nodup, ⟨insert job members, hbooks.add hnot, fun j => ?_⟩, fun j hj => ?_,
    fun a ha => addresses_sgeAddJobCategory (h.reserved_sub a ha), fun cat hcat => ?_⟩
  · simp only [sgeAddJobCategory, Finset.mem_insert, hmembers, Function.update_apply]
    by_cases hj : j = job <;> simp [hj]
  · simp only [sgeAddJobCategory, Function.update_apply] at hj
    split_ifs at hj with hjj
    · rwa [hjj]
    · exact h.present j hj
  · rcases mem_sgeAddJobCategory hcat with ⟨e, he, haddress, heq⟩ | ⟨hzero, hnew⟩
    · have hiff := h.reserved_iff e he
      rw [haddress] at hiff
      rw [hiff, sgeIsJobCategoryReservationRejected, sgeIsJobCategoryReservationRejected, heq]
    · simp only [sgeIsJobCategoryReservationRejected, hzero]
      refine iff_of_false (fun hmem => hnew (h.reserved_sub _ hmem)) (by decide)

theorem Inv.delete (h : Inv filtering s) :
    Inv filtering { s with
      books := sgeDeleteJobCategory filtering s.books job
      reserved := s.reserved.filter fun a =>
        a ∈ (sgeDeleteJobCategory filtering s.books job).categoryList.map (·.address) } := by
  obtain ⟨members, hbooks, hmembers⟩ := h.books
  by_cases hjob : job ∈ members
  · obtain ⟨cat, hcat, hcategory, -⟩ := hbooks.refers job hjob
    refine ⟨h.nodup, ⟨members.erase job, hbooks.delete hjob, fun j => ?_⟩, fun j hj => ?_,
      fun a ha => ?_, fun e' he' => ?_⟩
    · simp only [sgeDeleteJobCategory, Finset.mem_erase, hmembers, Function.update_apply]
      by_cases hj : j = job <;> simp [hj]
    · simp only [sgeDeleteJobCategory, Function.update_apply] at hj
      split_ifs at hj with hjj
      · exact absurd rfl hj
      · exact h.present j hj
    · exact decide_eq_true_eq.mp (List.mem_filter.mp ha).2
    · have haddress : e'.address ∈
          (sgeDeleteJobCategory filtering s.books job).categoryList.map (·.address) :=
        List.mem_map_of_mem he'
      rw [List.mem_filter, decide_eq_true_eq, and_iff_left haddress]
      have hreleased := Books.released hbooks.addresses hbooks.pos hcat rfl
      simp only [sgeDeleteJobCategory, hcategory] at he'
      obtain ⟨e, he, heq, -, -, hmark⟩ := hreleased.origin e' he'
      have hiff := h.reserved_iff e he
      rwa [heq, sgeIsJobCategoryReservationRejected, hmark] at hiff
  · have hnone : s.books.category job = none := by
      rw [hmembers] at hjob
      exact not_not.mp hjob
    rw [hbooks.delete_of_notMem hjob hnone]
    have hfilter : (s.reserved.filter fun a => a ∈ s.books.categoryList.map (·.address)) =
        s.reserved := by
      rw [List.filter_eq_self]
      intro a ha
      exact decide_eq_true_eq.mpr (h.reserved_sub a ha)
    rw [hfilter]
    exact h

omit [DecidableEq J] in
theorem Inv.map (h : Inv filtering s) {f : CtElem → CtElem} {reserved : List ℕ}
    (haddress : ∀ e, (f e).address = e.address) (hstr : ∀ e, (f e).str = e.str)
    (hrefcount : ∀ e, (f e).refcount = e.refcount) (hsub : ∀ a ∈ reserved, a ∈ s.addresses)
    (hiff : ∀ e ∈ s.books.categoryList,
      e.address ∈ reserved ↔ sgeIsJobCategoryReservationRejected (f e) = true) :
    Inv filtering { s with
      books := { s.books with categoryList := s.books.categoryList.map f }
      reserved := reserved } := by
  obtain ⟨members, hbooks, hmembers⟩ := h.books
  refine ⟨h.nodup, ⟨members, hbooks.map haddress hstr hrefcount, hmembers⟩, h.present,
    fun a ha => ?_, fun cat hcat => ?_⟩
  · simpa [addresses, List.map_map, Function.comp_def, haddress] using hsub a ha
  · obtain ⟨e, he, rfl⟩ := List.mem_map.mp hcat
    rw [haddress]
    exact hiff e he

omit [DecidableEq J] in
theorem Inv.reject {cat : ℕ} {withReservation : Bool} (h : Inv filtering s)
    (hcat : cat ∈ s.addresses) :
    Inv filtering { s with
      books := sgeRejectCategory s.books cat withReservation
      reserved := if withReservation then cat :: s.reserved else s.reserved } := by
  apply h.map
  · intro e
    split_ifs <;> rfl
  · intro e
    split_ifs <;> rfl
  · intro e
    split_ifs <;> rfl
  · intro a ha
    split_ifs at ha with hreserve
    · rcases List.mem_cons.mp ha with rfl | ha
      · exact hcat
      · exact h.reserved_sub a ha
    · exact h.reserved_sub a ha
  · intro e he
    have hiff := h.reserved_iff e he
    split_ifs with hreserve haddress haddress
    · simp [haddress, sgeIsJobCategoryReservationRejected]
    · rw [List.mem_cons, hiff, or_iff_right haddress]
    · rw [hiff]
      rfl
    · exact hiff

theorem category_foldl_add {m : Malloc} {lists : L} {jobList : List J} {books : CategoryState J D}
    {j : J} (hj : j ∉ jobList) :
    (jobList.foldl (sgeAddJobCategory filtering build lists m) books).category j =
      books.category j := by
  induction jobList generalizing books with
  | nil => rfl
  | cons job jobList ih =>
      rw [List.mem_cons, not_or] at hj
      rw [List.foldl_cons, ih hj.2]
      exact Function.update_of_ne hj.1 _ _

theorem Inv.rebuild {m : Malloc} {lists : L} (h : Inv filtering s) :
    Inv filtering { s with
      books := sgeRebuildJobCategory filtering build lists m s.jobList s.books
      text := if s.books.rebCat then
          fun j => if j ∈ s.jobList then categoryText build (s.books.jobs j) lists else s.text j
        else s.text
      reserved := if s.books.rebCat then [] else s.reserved } := by
  rw [sgeRebuildJobCategory]
  split_ifs with hreb
  · have hempty : Books filtering { s.books with categoryList := [], csCategoryList := [] } s.text ∅ :=
      Books.empty rfl rfl
    have hfold : Books filtering (s.jobList.foldl (sgeAddJobCategory filtering build lists m)
        { s.books with categoryList := [], csCategoryList := [] }) _ (∅ ∪ s.jobList.toFinset) :=
      hempty.foldl_add h.nodup (by simp)
    rw [Finset.empty_union] at hfold
    have hcategory : ∀ j, j ∈ s.jobList.toFinset ↔
        (s.jobList.foldl (sgeAddJobCategory filtering build lists m)
          { s.books with categoryList := [], csCategoryList := [] }).category j ≠ none := by
      intro j
      rw [List.mem_toFinset]
      constructor
      · intro hj
        obtain ⟨cat, -, hcategory, -⟩ := hfold.refers j (List.mem_toFinset.mpr hj)
        rw [hcategory]
        exact Option.some_ne_none _
      · intro hne
        by_contra hj
        rw [category_foldl_add hj] at hne
        exact hj (h.present j hne)
    refine ⟨h.nodup, ⟨_, hfold.set_jobs _ false, hcategory⟩, fun j hj => ?_, by simp,
      fun cat hcat => ?_⟩
    · exact List.mem_toFinset.mp ((hcategory j).mpr hj)
    · have hunmarked := foldl_add_unmarked (by simp) cat hcat
      simp [sgeIsJobCategoryReservationRejected, hunmarked]
  · exact h

theorem Inv.step {action : CategoryAction J D L} (h : Inv filtering s)
    (hstep : s.step filtering build action = some s') : Inv filtering s' := by
  cases action with
  | enter job data =>
      simp only [CategorySystem.step] at hstep
      split_ifs at hstep with hnew
      cases hstep
      refine h.set_jobs (h.nodup.append (List.nodup_singleton _) (by simpa using hnew.1)) ?_
      exact fun j hj => List.mem_append_left _ (h.present j hj)
  | leave job =>
      simp only [CategorySystem.step] at hstep
      split_ifs at hstep with hnone
      cases hstep
      refine h.set_jobs (h.nodup.filter _) fun j hj => ?_
      rw [List.mem_filter, decide_eq_true_eq]
      refine ⟨h.present j hj, ?_⟩
      rintro rfl
      exact hj hnone
  | change job data =>
      cases hstep
      exact h.set_jobs h.nodup h.present
  | add job lists m =>
      simp only [CategorySystem.step] at hstep
      split_ifs at hstep with hjob
      cases hstep
      exact h.add hjob.1 hjob.2
  | delete job =>
      simp only [CategorySystem.step] at hstep
      split_ifs at hstep
      cases hstep
      exact h.delete
  | reject cat withReservation =>
      simp only [CategorySystem.step] at hstep
      by_cases hcat : cat ∈ s.addresses
      · rw [if_pos hcat] at hstep
        cases hstep
        exact h.reject hcat
      · rw [if_neg hcat] at hstep
        cases hstep
  | reset =>
      cases hstep
      exact h.map (fun _ => rfl) (fun _ => rfl) (fun _ => rfl) h.reserved_sub h.reserved_iff
  | setRebuild newValue =>
      cases hstep
      exact h.set_jobs h.nodup h.present
  | rebuild lists m =>
      cases hstep
      exact h.rebuild

/-- The state after a sequence of calls. -/
def run (filtering : Bool) (build : CategoryJob D → L → String × Bool) (jobs : J → CategoryJob D)
    (actions : List (CategoryAction J D L)) : Option (CategorySystem J D) :=
  actions.foldlM (step filtering build) (init jobs)

theorem Inv.run (h : run filtering build jobs actions = some s) : Inv filtering s :=
  (Machine.Run.of_foldlM actions h).invariant (P := fun _ s => Inv filtering s) Inv.init
    fun _ _ _ _ hinv hstep => hinv.step hstep

/-- No category is rejected, with or without reservation. -/
def NoRejection (s : CategorySystem J D) : Prop :=
  ∀ cat ∈ s.books.categoryList, sgeIsJobCategoryRejected cat = false ∧
    sgeIsJobCategoryReservationRejected cat = false

/-- In every state of a sequence of calls the books are in order, and no rejection survives a
reset. -/
def KeepsBooks (filtering : Bool) (build : CategoryJob D → L → String × Bool)
    (jobs : J → CategoryJob D) (actions : List (CategoryAction J D L)) : Prop :=
  ∀ before after s, actions = before ++ after → run filtering build jobs before = some s →
    Consistent filtering s ∧ ∀ earlier, before = earlier ++ [.reset] → NoRejection s

variable (filtering build jobs actions) in
theorem run_reset : run filtering build jobs (actions ++ [.reset]) =
    (run filtering build jobs actions).map fun s =>
      { s with books := sgeResetJobCategory s.books } := by
  rw [run, List.foldlM_append, ← run]
  cases run filtering build jobs actions <;> rfl

omit [DecidableEq J] in
theorem Inv.noRejection_reset (h : Inv filtering s) :
    NoRejection { s with books := sgeResetJobCategory s.books } ↔ s.reserved = [] := by
  constructor
  · intro hnone
    rw [List.eq_nil_iff_forall_not_mem]
    intro a ha
    obtain ⟨cat, hcat, rfl⟩ := List.mem_map.mp (h.reserved_sub a ha)
    have hmark := (h.reserved_iff cat hcat).mp ha
    have hfalse := (hnone _ (List.mem_map_of_mem hcat)).2
    rw [sgeIsJobCategoryReservationRejected] at hmark hfalse
    exact absurd (hmark.symm.trans hfalse) (by decide)
  · intro hnil cat hcat
    obtain ⟨e, he, rfl⟩ := List.mem_map.mp hcat
    have hiff := h.reserved_iff e he
    rw [hnil] at hiff
    exact ⟨rfl, Bool.eq_false_iff.mpr fun hmark => List.not_mem_nil (hiff.mpr hmark)⟩

/-- The books are in order in every state, and a reset leaves no rejection exactly when no category
that was rejected with reservation still exists. -/
theorem keepsBooks_iff : KeepsBooks filtering build jobs actions ↔
    ∀ before after s, actions = before ++ .reset :: after →
      run filtering build jobs before = some s → s.reserved = [] := by
  constructor
  · intro h before after s hsplit hrun
    have hreset := run_reset filtering build jobs before
    rw [hrun] at hreset
    have hkept := (h (before ++ [.reset]) after _ (by simp [hsplit]) hreset).2 before rfl
    exact (Inv.run hrun).noRejection_reset.mp hkept
  · intro h before after s hsplit hrun
    refine ⟨(Inv.run hrun).consistent, fun earlier hearlier => ?_⟩
    subst hearlier
    rw [run_reset, Option.map_eq_some_iff] at hrun
    obtain ⟨s₀, hrun₀, rfl⟩ := hrun
    exact (Inv.run hrun₀).noRejection_reset.mpr (h earlier after s₀ (by simp [hsplit]) hrun₀)

/-- The memory behind all that is in use. -/
def mallocBehind : Malloc :=
  ⟨fun used => used.foldr max 0 + 1, fun used hmem => by
    have hle : used.foldr max 0 + 1 ≤ used.foldr max 0 := List.le_max_of_le hmem le_rfl
    omega⟩

/-- A category that was rejected with reservation in one scheduling run is rejected for
reservation in the next one. -/
theorem reservation_rejection_survives : ¬ ∀ actions : List (CategoryAction ℕ Unit Unit),
    KeepsBooks true (fun _ _ => ("-l arch=lx", false))
      (fun _ => ⟨[], 0, 1024, 0, 0, "user", none, ()⟩) actions := by
  intro h
  have hkept := (h [.enter 7 ⟨[], 0, 1024, 0, 0, "user", none, ()⟩, .add 7 () mallocBehind,
    .reject 1 true, .reset] _ [] _ (List.append_nil _).symm rfl).2 [.enter 7 ⟨[], 0, 1024, 0, 0,
      "user", none, ()⟩, .add 7 () mallocBehind, .reject 1 true] rfl
  have hfalse := (hkept _ (List.mem_singleton.mpr rfl)).2
  cases hfalse

end CategorySystem

end GridEngine
