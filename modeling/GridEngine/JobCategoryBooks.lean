import GridEngine.JobCategories
import Mathlib.Tactic

/-!
# The books of the job categories

`Books` says what the two category lists hold for a set of jobs. Adding a category puts a job into
that set, and deleting one takes it out.
-/

namespace GridEngine
variable {J D L : Type*} [DecidableEq J]

section References
variable {cat : SctElem J} {cats : List (SctElem J)} {pending : Bool} {job : J} {cstr : String}

/-- The jobs a category of the category scheduler refers to. -/
def SctElem.refs (cat : SctElem J) : List J := cat.jobPendingRef ++ cat.jobRef

def csRefs (cats : List (SctElem J)) : List J := cats.flatMap SctElem.refs

omit [DecidableEq J] in
theorem csRefs_cons : csRefs (cat :: cats) = cat.refs ++ csRefs cats := rfl

omit [DecidableEq J] in
theorem SctElem.mem_refs : job ∈ cat.refs ↔ job ∈ cat.jobPendingRef ∨ job ∈ cat.jobRef :=
  List.mem_append

omit [DecidableEq J] in
variable (cat pending job) in
theorem SctElem.refs_addRef : ((cat.addRef pending job).refs).Perm (job :: cat.refs) := by
  cases pending with
  | true =>
      have hmiddle : (cat.addRef true job).refs = cat.jobPendingRef ++ job :: cat.jobRef := by
        simp [refs, addRef]
      rw [hmiddle]
      exact List.perm_middle
  | false =>
      have hlast : (cat.addRef false job).refs = cat.refs ++ [job] := by
        simp [refs, addRef]
      rw [hlast]
      exact List.perm_append_singleton _ _

variable (pending) in
theorem SctElem.refs_removeRef (h : job ∈ cat.refs) :
    (job :: (cat.removeRef pending job).refs).Perm cat.refs := by
  have hpending : job ∈ cat.jobPendingRef →
      (job :: (cat.jobPendingRef.erase job ++ cat.jobRef)).Perm cat.refs := fun hmem =>
    (List.perm_cons_erase hmem).symm.append_right cat.jobRef
  have hother : job ∈ cat.jobRef →
      (job :: (cat.jobPendingRef ++ cat.jobRef.erase job)).Perm cat.refs := fun hmem =>
    List.perm_middle.symm.trans ((List.perm_cons_erase hmem).symm.append_left cat.jobPendingRef)
  rw [mem_refs] at h
  rw [removeRef]
  split_ifs with _ hmem hmem
  · exact hpending hmem
  · exact hother (h.resolve_left hmem)
  · exact hother hmem
  · exact hpending (h.resolve_right hmem)

omit [DecidableEq J] in
theorem csRefs_addJobRef : (csRefs (addJobRef cstr pending job cats)).Perm (job :: csRefs cats) := by
  induction cats with
  | nil =>
      simp only [addJobRef, csRefs, List.flatMap_cons, List.flatMap_nil, List.append_nil]
      exact SctElem.refs_addRef ⟨cstr, [], []⟩ pending job
  | cons cat cats ih =>
      rw [addJobRef]
      split_ifs
      · exact (cat.refs_addRef pending job).append_right _
      · exact (ih.append_left _).trans List.perm_middle

omit [DecidableEq J] in
theorem ne_nil_of_mem_addJobRef (h : ∀ cat ∈ cats, cat.refs ≠ []) :
    ∀ cat ∈ addJobRef cstr pending job cats, cat.refs ≠ [] := by
  have hadd : ∀ cat : SctElem J, (cat.addRef pending job).refs ≠ [] := by
    intro cat hnil
    have hperm := cat.refs_addRef pending job
    rw [hnil] at hperm
    exact List.cons_ne_nil _ _ hperm.symm.eq_nil
  induction cats with
  | nil => simpa [addJobRef] using hadd _
  | cons cat cats ih =>
      rw [List.forall_mem_cons] at h
      rw [addJobRef]
      split_ifs
      · exact List.forall_mem_cons.mpr ⟨hadd cat, h.2⟩
      · exact List.forall_mem_cons.mpr ⟨h.1, ih h.2⟩

theorem deleteJobRef_of_notMem (h : job ∉ csRefs cats) : deleteJobRef pending job cats = cats := by
  induction cats with
  | nil => rfl
  | cons cat cats ih =>
      rw [csRefs_cons, List.mem_append, not_or, SctElem.mem_refs] at h
      rw [deleteJobRef, if_neg h.1, ih h.2]

variable (pending) in
theorem csRefs_deleteJobRef (h : job ∈ csRefs cats) :
    (job :: csRefs (deleteJobRef pending job cats)).Perm (csRefs cats) := by
  induction cats with
  | nil => cases h
  | cons cat cats ih =>
      rw [csRefs_cons, List.mem_append] at h
      simp only [deleteJobRef]
      split_ifs with hmem hempty
      · have hperm := SctElem.refs_removeRef pending (SctElem.mem_refs.mpr hmem)
        have hnil : (cat.removeRef pending job).refs = [] := by
          rw [SctElem.refs, List.length_eq_zero_iff.mp hempty.1,
            List.length_eq_zero_iff.mp hempty.2, List.append_nil]
        rw [hnil] at hperm
        exact hperm.append_right (csRefs cats)
      · have hperm := SctElem.refs_removeRef pending (SctElem.mem_refs.mpr hmem)
        exact hperm.append_right (csRefs cats)
      · rw [← SctElem.mem_refs] at hmem
        exact List.perm_middle.symm.trans ((ih (h.resolve_left hmem)).append_left cat.refs)

theorem ne_nil_of_mem_deleteJobRef (h : ∀ cat ∈ cats, cat.refs ≠ []) :
    ∀ cat ∈ deleteJobRef pending job cats, cat.refs ≠ [] := by
  induction cats with
  | nil => exact h
  | cons cat cats ih =>
      rw [List.forall_mem_cons] at h
      simp only [deleteJobRef]
      split_ifs with hmem hempty
      · exact h.2
      · refine List.forall_mem_cons.mpr ⟨fun hnil => hempty ?_, h.2⟩
        rw [SctElem.refs, List.append_eq_nil_iff] at hnil
        rw [hnil.1, hnil.2]
        exact ⟨rfl, rfl⟩
      · exact List.forall_mem_cons.mpr ⟨h.1, ih h.2⟩

end References

section Categories
variable {a b : ℕ} {f : CtElem → CtElem} {cats : List CtElem} {m : Malloc} {cstr : String}

theorem mem_updateCategory {cat : CtElem} : cat ∈ updateCategory a f cats ↔
    ∃ e ∈ cats, (if e.address = a then f e else e) = cat := List.mem_map

/-- What `f` does not change is the same in the whole list. -/
theorem map_updateCategory {β : Type*} {g : CtElem → β} (hf : ∀ e, g (f e) = g e) :
    (updateCategory a f cats).map g = cats.map g := by
  rw [updateCategory, List.map_map]
  apply List.map_congr_left
  intro e _
  rw [Function.comp_apply]
  split_ifs
  · exact hf e
  · rfl

theorem findCategory_of_some {cat : CtElem}
    (h : cats.find? (fun cat => cat.str = cstr) = some cat) :
    findCategory m cstr cats = (cat, cats) := by
  rw [findCategory, h]

theorem findCategory_of_none (h : cats.find? (fun cat => cat.str = cstr) = none) :
    findCategory m cstr cats =
      (⟨m.1 (cats.map (·.address)), cstr, 0, 0, 0, false, false, 0⟩,
        cats ++ [⟨m.1 (cats.map (·.address)), cstr, 0, 0, 0, false, false, 0⟩]) := by
  rw [findCategory, h]

theorem eq_of_address {cat e : CtElem} (h : (cats.map (·.address)).Nodup) (hcat : cat ∈ cats)
    (he : e ∈ cats) (haddress : e.address = cat.address) : e = cat :=
  List.inj_on_of_nodup_map h he hcat haddress

end Categories

section Members
variable {members : Finset J} {category : J → Option ℕ} {job : J} {a b : ℕ}

theorem card_insert_update (h : job ∉ members) :
    ((insert job members).filter
      fun j => Function.update category job (some a) j = some b).card =
        (members.filter fun j => category j = some b).card + if a = b then 1 else 0 := by
  have hsame : (members.filter fun j => Function.update category job (some a) j = some b) =
      members.filter fun j => category j = some b := by
    apply Finset.filter_congr
    intro j hj
    rw [Function.update_of_ne]
    rintro rfl
    exact h hj
  rw [Finset.filter_insert, Function.update_self, hsame]
  by_cases hab : a = b
  · rw [if_pos (congrArg some hab), if_pos hab, Finset.card_insert_of_notMem]
    intro hmem
    exact h (Finset.mem_filter.mp hmem).1
  · rw [if_neg (by simpa using hab), if_neg hab, Nat.add_zero]

variable (category b) in
theorem card_erase_update (h : job ∈ members) :
    ((members.erase job).filter fun j => Function.update category job none j = some b).card +
        (if category job = some b then 1 else 0) =
      (members.filter fun j => category j = some b).card := by
  have hsame : ((members.erase job).filter
      fun j => Function.update category job none j = some b) =
        (members.filter fun j => category j = some b).erase job := by
    ext j
    simp only [Finset.mem_filter, Finset.mem_erase]
    by_cases hj : j = job
    · simp [hj]
    · simp [hj]
  rw [hsame]
  split_ifs with hb
  · exact Finset.card_erase_add_one (Finset.mem_filter.mpr ⟨h, hb⟩)
  · rw [Finset.erase_eq_of_notMem, Nat.add_zero]
    intro hmem
    exact hb (Finset.mem_filter.mp hmem).2

end Members

/-- The category lists hold exactly the jobs in `members`, each under its text. -/
structure Books (filtering : Bool) (s : CategoryState J D) (text : J → String)
    (members : Finset J) : Prop where
  addresses : (s.categoryList.map (·.address)).Nodup
  texts : (s.categoryList.map (·.str)).Nodup
  refcount : ∀ cat ∈ s.categoryList,
    cat.refcount = (members.filter fun j => s.category j = some cat.address).card
  pos : ∀ cat ∈ s.categoryList, 0 < cat.refcount
  refers : ∀ j ∈ members, ∃ cat ∈ s.categoryList,
    s.category j = some cat.address ∧ cat.str = text j
  cs_nodup : filtering = true → (csRefs s.csCategoryList).Nodup
  mem_cs : filtering = true → ∀ j, j ∈ csRefs s.csCategoryList ↔ j ∈ members
  cs_nonempty : filtering = true → ∀ cat ∈ s.csCategoryList, cat.refs ≠ []

namespace Books
variable {filtering : Bool} {s : CategoryState J D} {text : J → String} {members : Finset J}
  {job : J} {build : CategoryJob D → L → String × Bool} {lists : L} {m : Malloc} {cstr : String}

omit [DecidableEq J] in
theorem empty (hcat : s.categoryList = []) (hcs : s.csCategoryList = []) :
    Books filtering s text ∅ := by
  refine ⟨by simp [hcat], by simp [hcat], by simp [hcat], by simp [hcat], by simp,
    fun _ => by simp [hcs, csRefs], fun _ => by simp [hcs, csRefs], by simp [hcs]⟩

omit [DecidableEq J] in
theorem set_jobs (h : Books filtering s text members) (jobs : J → CategoryJob D) (rebCat : Bool) :
    Books filtering { s with jobs := jobs, rebCat := rebCat } text members :=
  ⟨h.addresses, h.texts, h.refcount, h.pos, h.refers, h.cs_nodup, h.mem_cs, h.cs_nonempty⟩

omit [DecidableEq J] in
/-- Only the address, the text and the number of references of a category matter. -/
theorem map (h : Books filtering s text members) {f : CtElem → CtElem}
    (haddress : ∀ e, (f e).address = e.address) (hstr : ∀ e, (f e).str = e.str)
    (hrefcount : ∀ e, (f e).refcount = e.refcount) :
    Books filtering { s with categoryList := s.categoryList.map f } text members := by
  refine ⟨?_, ?_, ?_, ?_, fun j hj => ?_, h.cs_nodup, h.mem_cs, h.cs_nonempty⟩
  · simpa [List.map_map, Function.comp_def, haddress] using h.addresses
  · simpa [List.map_map, Function.comp_def, hstr] using h.texts
  · simpa [haddress, hrefcount] using h.refcount
  · simpa [hrefcount] using h.pos
  · obtain ⟨e, he, hcategory, htext⟩ := h.refers j hj
    exact ⟨f e, List.mem_map_of_mem he, by rw [haddress]; exact hcategory, by rw [hstr, htext]⟩

omit [DecidableEq J] in
theorem card_eq_zero (h : Books filtering s text members) {a : ℕ}
    (ha : a ∉ s.categoryList.map (·.address)) :
    (members.filter fun j => s.category j = some a).card = 0 := by
  rw [Finset.card_eq_zero, Finset.filter_eq_empty_iff]
  intro j hj hja
  obtain ⟨cat, hcat, hcategory, -⟩ := h.refers j hj
  rw [hcategory, Option.some.injEq] at hja
  exact ha (List.mem_map.mpr ⟨cat, hcat, hja⟩)

/-- The list in which a category has been found or added. -/
structure Found (s : CategoryState J D) (members : Finset J) (cstr : String)
    (found : CtElem × List CtElem) : Prop where
  addresses : (found.2.map (·.address)).Nodup
  texts : (found.2.map (·.str)).Nodup
  refcount : ∀ cat ∈ found.2,
    cat.refcount = (members.filter fun j => s.category j = some cat.address).card
  pos : ∀ cat ∈ found.2, cat.address ≠ found.1.address → 0 < cat.refcount
  mem : found.1 ∈ found.2
  str_eq : found.1.str = cstr
  subset : ∀ cat ∈ s.categoryList, cat ∈ found.2

omit [DecidableEq J] in
theorem found (h : Books filtering s text members) (m : Malloc) (cstr : String) :
    Found s members cstr (findCategory m cstr s.categoryList) := by
  cases hfind : s.categoryList.find? (fun cat => cat.str = cstr) with
  | some cat =>
      rw [findCategory_of_some hfind]
      exact ⟨h.addresses, h.texts, h.refcount, fun e he _ => h.pos e he,
        List.mem_of_find?_eq_some hfind, by simpa using List.find?_some hfind, fun e he => he⟩
  | none =>
      rw [findCategory_of_none hfind]
      have hfresh := m.2 (s.categoryList.map (·.address))
      have hstr : cstr ∉ s.categoryList.map (·.str) := by
        intro hmem
        obtain ⟨e, he, hcstr⟩ := List.mem_map.mp hmem
        simpa [hcstr] using List.find?_eq_none.mp hfind e he
      refine ⟨?_, ?_, ?_, ?_, by simp, rfl, fun e he => List.mem_append_left _ he⟩
      · rw [List.map_append, List.map_singleton]
        exact h.addresses.append (List.nodup_singleton _) (by simpa using hfresh)
      · rw [List.map_append, List.map_singleton]
        exact h.texts.append (List.nodup_singleton _) (by simpa using hstr)
      · intro e he
        rcases List.mem_append.mp he with he | he
        · exact h.refcount e he
        · rw [List.mem_singleton] at he
          subst he
          exact (h.card_eq_zero hfresh).symm
      · intro e he hne
        rcases List.mem_append.mp he with he | he
        · exact h.pos e he
        · rw [List.mem_singleton] at he
          subst he
          exact absurd rfl hne

theorem add (h : Books filtering s text members) (hjob : job ∉ members) :
    Books filtering (sgeAddJobCategory filtering build lists m s job)
      (Function.update text job (categoryText build (s.jobs job) lists)) (insert job members) := by
  have hfound := h.found m (categoryText build (s.jobs job) lists)
  rw [sgeAddJobCategory]
  generalize findCategory m (categoryText build (s.jobs job) lists) s.categoryList = found
    at hfound
  refine ⟨?_, ?_, ?_, ?_, ?_, ?_, ?_, ?_⟩
  · rw [map_updateCategory]
    · exact hfound.addresses
    · intro e
      rfl
  · rw [map_updateCategory]
    · exact hfound.texts
    · intro e
      rfl
  · intro cat hcat
    obtain ⟨e, he, rfl⟩ := mem_updateCategory.mp hcat
    have hcount := hfound.refcount e he
    rw [card_insert_update hjob]
    split_ifs with h₁ h₂ h₂
    · rw [hcount]
    · exact absurd h₁.symm h₂
    · exact absurd h₂.symm h₁
    · exact hcount
  · intro cat hcat
    obtain ⟨e, he, rfl⟩ := mem_updateCategory.mp hcat
    split_ifs with h₁
    · exact Nat.succ_pos _
    · exact hfound.pos e he h₁
  · intro j hj
    by_cases hjj : j = job
    · subst hjj
      refine ⟨_, mem_updateCategory.mpr ⟨found.1, hfound.mem, rfl⟩, ?_, ?_⟩
      · simp
      · simpa using hfound.str_eq
    · obtain ⟨e, he, hcategory, htext⟩ := h.refers j (Finset.mem_of_mem_insert_of_ne hj hjj)
      refine ⟨_, mem_updateCategory.mpr ⟨e, hfound.subset e he, rfl⟩, ?_, ?_⟩
      · simp only [Function.update_of_ne hjj, hcategory]
        split_ifs <;> rfl
      · simp only [Function.update_of_ne hjj, ← htext]
        split_ifs <;> rfl
  · intro hfiltering
    simp only [hfiltering, if_true]
    rw [csRefs_addJobRef.nodup_iff, List.nodup_cons, h.mem_cs hfiltering]
    exact ⟨hjob, h.cs_nodup hfiltering⟩
  · intro hfiltering j
    simp only [hfiltering, if_true]
    rw [csRefs_addJobRef.mem_iff, List.mem_cons, h.mem_cs hfiltering, Finset.mem_insert]
  · intro hfiltering
    simp only [hfiltering, if_true]
    exact ne_nil_of_mem_addJobRef (h.cs_nonempty hfiltering)

/-- One reference less to an existing category. -/
structure Released (a : ℕ) (cats cats' : List CtElem) : Prop where
  addresses : (cats'.map (·.address)).Sublist (cats.map (·.address))
  texts : (cats'.map (·.str)).Sublist (cats.map (·.str))
  origin : ∀ e' ∈ cats', ∃ e ∈ cats, e.address = e'.address ∧
    e.refcount = e'.refcount + (if a = e'.address then 1 else 0) ∧ 0 < e'.refcount ∧
      e.reservationRejected = e'.reservationRejected
  kept : ∀ e ∈ cats, (e.address = a → 1 < e.refcount) →
    ∃ e' ∈ cats', e'.address = e.address ∧ e'.str = e.str

theorem released {a : ℕ} {cat : CtElem} {cats : List CtElem}
    (hnodup : (cats.map (·.address)).Nodup) (hpos : ∀ e ∈ cats, 0 < e.refcount) (hcat : cat ∈ cats)
    (ha : cat.address = a) : Released a cats (releaseCategory a cats) := by
  obtain ⟨found, hfound⟩ : ∃ found, cats.find? (fun cat => cat.address = a) = some found := by
    rw [← Option.isSome_iff_exists, List.find?_isSome]
    exact ⟨cat, hcat, by simpa using ha⟩
  have hfound_mem := List.mem_of_find?_eq_some hfound
  have hfound_address : found.address = a := by simpa using List.find?_some hfound
  have huniq : ∀ e ∈ cats, e.address = a → e = found := fun e he hea =>
    eq_of_address hnodup hfound_mem he (hea.trans hfound_address.symm)
  rw [releaseCategory, hfound]
  dsimp only
  split_ifs with hcount
  · refine ⟨?_, ?_, fun e' he' => ?_, fun e he _ => ?_⟩
    · rw [map_updateCategory]
      intro e
      rfl
    · rw [map_updateCategory]
      intro e
      rfl
    · obtain ⟨e, he, rfl⟩ := mem_updateCategory.mp he'
      have := hpos e he
      refine ⟨e, he, ?_⟩
      by_cases hea : e.address = a
      · have := huniq e he hea
        subst this
        rw [if_pos hea]
        dsimp only
        rw [if_pos hea.symm]
        refine ⟨rfl, ?_, ?_, rfl⟩ <;> omega
      · rw [if_neg hea, if_neg (Ne.symm hea)]
        exact ⟨rfl, rfl, this, rfl⟩
    · refine ⟨_, mem_updateCategory.mpr ⟨e, he, rfl⟩, ?_, ?_⟩ <;> split_ifs <;> rfl
  · refine ⟨List.filter_sublist.map _, List.filter_sublist.map _, fun e' he' => ?_,
      fun e he hkept => ?_⟩
    · obtain ⟨he, hne⟩ := List.mem_filter.mp he'
      rw [decide_eq_true_eq] at hne
      exact ⟨e', he, rfl, by rw [if_neg hne.symm]; rfl, hpos e' he, rfl⟩
    · have hne : e.address ≠ a := fun hea => by
        rw [huniq e he hea] at hkept
        exact hcount (hkept hfound_address)
      exact ⟨e, List.mem_filter.mpr ⟨he, by simpa using hne⟩, rfl, rfl⟩

theorem delete (h : Books filtering s text members) (hjob : job ∈ members) :
    Books filtering (sgeDeleteJobCategory filtering s job) text (members.erase job) := by
  obtain ⟨cat, hcat, hcategory, -⟩ := h.refers job hjob
  have hcard := fun b => card_erase_update s.category b hjob
  simp only [hcategory, Option.some.injEq] at hcard
  rw [sgeDeleteJobCategory, hcategory]
  dsimp only
  have hreleased := released h.addresses h.pos hcat rfl
  generalize releaseCategory cat.address s.categoryList = cats at hreleased
  have hcs : filtering = true → job ∈ csRefs s.csCategoryList := fun hfiltering =>
    (h.mem_cs hfiltering job).mpr hjob
  have hcs_nodup : filtering = true → (job :: csRefs
      (deleteJobRef (isJobPending (s.jobs job)) job s.csCategoryList)).Nodup := fun hfiltering =>
    (csRefs_deleteJobRef _ (hcs hfiltering)).nodup_iff.mpr (h.cs_nodup hfiltering)
  refine ⟨h.addresses.sublist hreleased.addresses, h.texts.sublist hreleased.texts, ?_, ?_, ?_,
    ?_, ?_, ?_⟩
  · intro e' he'
    obtain ⟨e, he, haddress, hrefcount, -⟩ := hreleased.origin e' he'
    have hcount := h.refcount e he
    have hcard' := hcard e'.address
    rw [haddress] at hcount
    dsimp only
    omega
  · intro e' he'
    obtain ⟨-, -, -, -, hpos, -⟩ := hreleased.origin e' he'
    exact hpos
  · intro j hj
    obtain ⟨hne, hj⟩ := Finset.mem_erase.mp hj
    obtain ⟨e, he, hcategory', htext⟩ := h.refers j hj
    have hkept : e.address = cat.address → 1 < e.refcount := by
      intro haddress
      have hmem : j ∈ (members.erase job).filter
          fun j => Function.update s.category job none j = some cat.address := by
        rw [Finset.mem_filter, Finset.mem_erase, Function.update_of_ne hne, hcategory', haddress]
        exact ⟨⟨hne, hj⟩, rfl⟩
      have hpos := Finset.card_pos.mpr ⟨j, hmem⟩
      have hcard' := hcard cat.address
      rw [if_pos rfl] at hcard'
      rw [h.refcount e he, haddress]
      omega
    obtain ⟨e', he', haddress, hstr⟩ := hreleased.kept e he hkept
    refine ⟨e', he', ?_, hstr.trans htext⟩
    simp only [Function.update_of_ne hne, hcategory', haddress]
  · intro hfiltering
    simp only [hfiltering, if_true]
    exact (hcs_nodup hfiltering).of_cons
  · intro hfiltering j
    simp only [hfiltering, if_true]
    have hmem := (csRefs_deleteJobRef (isJobPending (s.jobs job)) (hcs hfiltering)).mem_iff (a := j)
    rw [List.mem_cons, h.mem_cs hfiltering] at hmem
    have hnot := (List.nodup_cons.mp (hcs_nodup hfiltering)).1
    rw [Finset.mem_erase, ← hmem]
    constructor
    · intro hj
      refine ⟨?_, .inr hj⟩
      rintro rfl
      exact hnot hj
    · rintro ⟨hne, hj⟩
      exact hj.resolve_left hne
  · intro hfiltering
    simp only [hfiltering, if_true]
    exact ne_nil_of_mem_deleteJobRef (h.cs_nonempty hfiltering)

theorem delete_of_notMem (h : Books filtering s text members) (hjob : job ∉ members)
    (hnone : s.category job = none) : sgeDeleteJobCategory filtering s job = s := by
  rw [sgeDeleteJobCategory, hnone]
  have hcategory : Function.update s.category job none = s.category := by
    rw [← hnone, Function.update_eq_self]
  rw [hcategory]
  by_cases hfiltering : filtering = true
  · have hnot : job ∉ csRefs s.csCategoryList := by
      rwa [h.mem_cs hfiltering]
    rw [deleteJobRef_of_notMem hnot, ite_self]
  · rw [if_neg hfiltering]

/-- The jobs of a list, none of which was there before, are added one after the other. -/
theorem foldl_add {jobList : List J} (h : Books filtering s text members) (hnodup : jobList.Nodup)
    (hnew : ∀ j ∈ jobList, j ∉ members) :
    Books filtering (jobList.foldl (sgeAddJobCategory filtering build lists m) s)
      (fun j => if j ∈ jobList then categoryText build (s.jobs j) lists else text j)
      (members ∪ jobList.toFinset) := by
  induction jobList generalizing s text members with
  | nil => simpa using h
  | cons job jobList ih =>
      obtain ⟨hnot, hnodup⟩ := List.nodup_cons.mp hnodup
      have hadd : Books filtering (sgeAddJobCategory filtering build lists m s job) _ _ :=
        h.add (hnew job (by simp))
      have hfold := ih hadd hnodup fun j hj hmem => by
        rcases Finset.mem_insert.mp hmem with rfl | hmem
        · exact hnot hj
        · exact hnew j (List.mem_cons_of_mem _ hj) hmem
      rw [List.foldl_cons]
      convert hfold using 1
      · funext j
        by_cases hj : j = job
        · subst hj
          simp [hnot]
        · simp [hj, sgeAddJobCategory]
      · ext j
        simp only [List.toFinset_cons, Finset.mem_union, Finset.mem_insert]
        tauto

end Books

end GridEngine
