import GridEngine.HostRefs
import GridEngine.ReferenceGraph

/-!
# The closures of host references

Names are the same when their keys are. Over keys, the references of a master list are a relation,
and what `href_list_find_all_references` and `href_list_find_all_referencees` collect level by
level are its paths. On a list without cycles both come to an end.
-/

namespace GridEngine
open ReferenceGraph Relation

variable (cfg : HostConfig)

/-- The keys of a list of names. -/
def hostKeys (l : List String) : Set (List Char) := {k | ∃ x ∈ l, cfg.hostKey x = k}

/-- The host group `a` lists the host group `b`. -/
def Refs (masterList : List HGroup) (a b : List Char) : Prop :=
  ∃ hgroup ∈ masterList, cfg.hostKey hgroup.name = a ∧
    ∃ href ∈ hgroup.hostList.elems, isHgroupName href = true ∧ cfg.hostKey href = b

/-- The host group `a` lists the host `b`. -/
def HostIn (masterList : List HGroup) (a b : List Char) : Prop :=
  ∃ hgroup ∈ masterList, cfg.hostKey hgroup.name = a ∧
    ∃ href ∈ hgroup.hostList.elems, isHgroupName href = false ∧ cfg.hostKey href = b

/-- The hosts a name stands for without going through another host group. -/
def Carries (masterList : List HGroup) (a b : List Char) : Prop :=
  (a.head? ≠ some '@' ∧ a = b) ∨ HostIn cfg masterList a b

/-- Host groups have names of their own, and group names. -/
structure MasterOk (masterList : List HGroup) : Prop where
  distinct : masterList.Pairwise fun a b => cfg.hostKey a.name ≠ cfg.hostKey b.name
  groupNames : ∀ hgroup ∈ masterList, isHgroupName hgroup.name = true

/-- The hash table of a list knows its elements and no others. -/
def HrefList.Hashed (l : HrefList) : Prop := ∀ k, k ∈ l.hashed ↔ k ∈ hostKeys cfg l.elems

/-- More levels than the paths of a master list without cycles have. -/
def refBound (masterList : List HGroup) : ℕ :=
  masterList.length + (masterList.flatMap fun hgroup => hgroup.hostList.elems).length + 1

section Names
variable {cfg} {l : List String} {name h1 h2 : String} {k : List Char}

theorem toLower_eq_at {c : Char} : c.toLower = '@' ↔ c = '@' := by
  constructor
  · intro h
    unfold Char.toLower at h
    split at h
    · rename_i hr
      have hval := congrArg (fun c : Char => c.val.toNat) h
      have h1 := UInt32.le_iff_toNat_le.mp hr.1
      have h2 := UInt32.le_iff_toNat_le.mp hr.2
      simp only [UInt32.toNat_add] at hval
      have ha : ('A' : Char).val.toNat = 65 := rfl
      have hz : ('Z' : Char).val.toNat = 90 := rfl
      have hd : (('a' : Char).val - ('A' : Char).val).toNat = 32 := rfl
      have hat : ('@' : Char).val.toNat = 64 := rfl
      omega
    · exact h
  · rintro rfl
    rfl

theorem head_map_toLower {cs : List Char} :
    (cs.map Char.toLower).head? = some '@' ↔ cs.head? = some '@' := by
  cases cs with
  | nil => simp
  | cons c cs => simp [toLower_eq_at]

theorem head_hostKey : (cfg.hostKey name).head? = some '@' ↔ isHgroupName name = true := by
  rw [HostConfig.hostKey, head_map_toLower]
  have hname : isHgroupName name = true ↔ name.toList.head? = some '@' := by
    simp [isHgroupName]
  rw [hname]
  by_cases hgroup : isHgroupName name = true
  · rw [HostConfig.sgeHostcpy, if_pos hgroup]
  · have hhead : name.toList.head? ≠ some '@' := fun h => hgroup (hname.mpr h)
    rw [HostConfig.sgeHostcpy, if_neg hgroup, iff_false_right hhead]
    split_ifs
    · rw [String.toList_ofList]
      cases hcs : name.toList with
      | nil => simp
      | cons c cs =>
          rw [hcs, List.head?_cons] at hhead
          rw [List.takeWhile_cons]
          split_ifs
          · exact hhead
          · simp
    · split
      · exact hhead
      · split_ifs
        · exact hhead
        · rw [String.toList_ofList]
          cases hcs : name.toList with
          | nil => simp
          | cons c cs => simpa [hcs] using hhead

theorem sgeHostcmp_iff : cfg.sgeHostcmp h1 h2 = true ↔ cfg.hostKey h1 = cfg.hostKey h2 := by
  simp [HostConfig.sgeHostcmp]

theorem isHgroupName_congr (h : cfg.hostKey h1 = cfg.hostKey h2) :
    isHgroupName h1 = isHgroupName h2 := by
  rw [Bool.eq_iff_iff, ← @head_hostKey cfg, ← @head_hostKey cfg, h]

@[simp] theorem hostKeys_nil : hostKeys cfg [] = ∅ := by simp [hostKeys]

theorem hostKeys_append (l₁ l₂ : List String) :
    hostKeys cfg (l₁ ++ l₂) = hostKeys cfg l₁ ∪ hostKeys cfg l₂ := by
  ext k
  simp only [hostKeys, List.mem_append, Set.mem_ofPred_eq, Set.mem_union]
  constructor
  · rintro ⟨x, hx | hx, hk⟩
    · exact Or.inl ⟨x, hx, hk⟩
    · exact Or.inr ⟨x, hx, hk⟩
  · rintro (⟨x, hx, hk⟩ | ⟨x, hx, hk⟩)
    · exact ⟨x, Or.inl hx, hk⟩
    · exact ⟨x, Or.inr hx, hk⟩

theorem hostKeys_cons (x : String) (l : List String) :
    hostKeys cfg (x :: l) = insert (cfg.hostKey x) (hostKeys cfg l) := by
  rw [← List.singleton_append, hostKeys_append, ← Set.singleton_union]
  congr 1
  ext k
  simp [hostKeys, eq_comm]

theorem hrefListHasMember_iff :
    hrefListHasMember cfg l name = true ↔ cfg.hostKey name ∈ hostKeys cfg l := by
  simp only [hrefListHasMember, List.any_eq_true, sgeHostcmp_iff]
  rfl

theorem hostKeys_hrefListAdd :
    hostKeys cfg (hrefListAdd cfg l name) = insert (cfg.hostKey name) (hostKeys cfg l) := by
  rw [hrefListAdd]
  split_ifs with h
  · exact (Set.insert_eq_of_mem (hrefListHasMember_iff.mp h)).symm
  · rw [hostKeys_append, hostKeys_cons, hostKeys_nil, Set.union_insert, Set.union_empty]

end Names

section References
variable {cfg} {masterList : List HGroup} {used : UsedRefs} {name : String} {l : List String}
variable {a b k : List Char}

theorem mem_hostKeys {x : String} (hx : x ∈ l) : cfg.hostKey x ∈ hostKeys cfg l := ⟨x, hx, rfl⟩

theorem Refs.target_head (h : Refs cfg masterList a b) : b.head? = some '@' := by
  obtain ⟨_, _, _, href, _, hgroup, rfl⟩ := h
  exact head_hostKey.mpr hgroup

theorem Refs.source_head (hM : MasterOk cfg masterList) (h : Refs cfg masterList a b) :
    a.head? = some '@' := by
  obtain ⟨hgroup, hmem, rfl, _⟩ := h
  exact head_hostKey.mpr (hM.groupNames hgroup hmem)

theorem HostIn.source_head (hM : MasterOk cfg masterList) (h : HostIn cfg masterList a b) :
    a.head? = some '@' := by
  obtain ⟨hgroup, hmem, rfl, _⟩ := h
  exact head_hostKey.mpr (hM.groupNames hgroup hmem)

theorem locate_eq_some {hgroup : HGroup} (h : hgroupListLocate cfg masterList name = some hgroup) :
    hgroup ∈ masterList ∧ cfg.hostKey hgroup.name = cfg.hostKey name :=
  ⟨List.mem_of_find?_eq_some h, sgeHostcmp_iff.mp
    (@List.find?_some _ (fun hgroup : HGroup => cfg.sgeHostcmp hgroup.name name) _ _ h)⟩

theorem MasterOk.eq_of_key (hM : MasterOk cfg masterList) {g g' : HGroup} (hg : g ∈ masterList)
    (hg' : g' ∈ masterList) (hkey : cfg.hostKey g.name = cfg.hostKey g'.name) : g = g' := by
  by_contra hne
  have hsymm : Std.Symm fun a b : HGroup => cfg.hostKey a.name ≠ cfg.hostKey b.name :=
    ⟨fun _ _ h => h.symm⟩
  exact hM.distinct.forall hg hg' hne hkey

theorem MasterOk.locate (hM : MasterOk cfg masterList) {hgroup : HGroup}
    (hmem : hgroup ∈ masterList) (hkey : cfg.hostKey hgroup.name = cfg.hostKey name) :
    hgroupListLocate cfg masterList name = some hgroup := by
  cases h : hgroupListLocate cfg masterList name with
  | none =>
      have hnot := List.find?_eq_none.mp h hgroup hmem
      exact absurd (sgeHostcmp_iff.mpr hkey) hnot
  | some g =>
      obtain ⟨hg, hgkey⟩ := locate_eq_some h
      rw [hM.eq_of_key hg hmem (hgkey.trans hkey.symm)]

theorem keys_addRef : hostKeys cfg (addRef cfg used name).groups =
      hostKeys cfg used.groups ∪ {k | isHgroupName name = true ∧ cfg.hostKey name = k} ∧
    hostKeys cfg (addRef cfg used name).hosts =
      hostKeys cfg used.hosts ∪ {k | isHgroupName name = false ∧ cfg.hostKey name = k} := by
  have hinsert : ∀ l : List String, hostKeys cfg (hrefListAdd cfg l name) =
      hostKeys cfg l ∪ {k | cfg.hostKey name = k} := by
    intro l
    rw [hostKeys_hrefListAdd, Set.union_comm, ← Set.singleton_union]
    congr 1
    ext k
    exact eq_comm
  rw [addRef]
  cases isHgroupName name with
  | true => simp [hinsert]
  | false => simp [hinsert]

theorem keys_foldl_addRef (l : List String) (used : UsedRefs) :
    hostKeys cfg (l.foldl (addRef cfg) used).groups = hostKeys cfg used.groups ∪
        {k | ∃ x ∈ l, isHgroupName x = true ∧ cfg.hostKey x = k} ∧
      hostKeys cfg (l.foldl (addRef cfg) used).hosts = hostKeys cfg used.hosts ∪
        {k | ∃ x ∈ l, isHgroupName x = false ∧ cfg.hostKey x = k} := by
  induction l generalizing used with
  | nil => simp
  | cons x l ih =>
      obtain ⟨hgroups, hhosts⟩ := ih (addRef cfg used x)
      obtain ⟨hgroups', hhosts'⟩ := @keys_addRef cfg used x
      rw [List.foldl_cons, hgroups, hhosts, hgroups', hhosts', Set.union_assoc, Set.union_assoc]
      simp only [List.exists_mem_cons_iff]
      exact ⟨rfl, rfl⟩

theorem keys_findReference (hM : MasterOk cfg masterList) :
    hostKeys cfg (findReference cfg masterList used name).groups =
        hostKeys cfg used.groups ∪ {k | Refs cfg masterList (cfg.hostKey name) k} ∧
      hostKeys cfg (findReference cfg masterList used name).hosts =
        hostKeys cfg used.hosts ∪ {k | Carries cfg masterList (cfg.hostKey name) k} := by
  rw [findReference]
  by_cases hgroup : isHgroupName name = true
  · have hhead := @head_hostKey cfg name |>.mpr hgroup
    rw [if_pos hgroup]
    cases hloc : hgroupListLocate cfg masterList name with
    | none =>
        have hnone : ∀ g ∈ masterList, cfg.hostKey g.name ≠ cfg.hostKey name := fun g hg hkey =>
          absurd (hM.locate hg hkey) (by rw [hloc]; simp)
        refine ⟨?_, ?_⟩ <;> rw [eq_comm, Set.union_eq_left]
        · rintro k ⟨g, hg, hkey, _⟩
          exact absurd hkey (hnone g hg)
        · rintro k (⟨hno, _⟩ | ⟨g, hg, hkey, _⟩)
          · exact absurd hhead hno
          · exact absurd hkey (hnone g hg)
    | some g =>
        obtain ⟨hg, hkey⟩ := locate_eq_some hloc
        obtain ⟨hgroups, hhosts⟩ := @keys_foldl_addRef cfg g.hostList.elems used
        have hsame : ∀ g' ∈ masterList, cfg.hostKey g'.name = cfg.hostKey name → g' = g :=
          fun g' hg' hkey' => hM.eq_of_key hg' hg (hkey'.trans hkey.symm)
        simp only [hgroups, hhosts]
        refine ⟨?_, ?_⟩ <;> congr 1 <;> ext k
        · constructor
          · intro h
            exact ⟨g, hg, hkey, h⟩
          · rintro ⟨g', hg', hkey', h⟩
            exact hsame g' hg' hkey' ▸ h
        · constructor
          · intro h
            exact Or.inr ⟨g, hg, hkey, h⟩
          · rintro (⟨hno, _⟩ | ⟨g', hg', hkey', h⟩)
            · exact absurd hhead hno
            · exact hsame g' hg' hkey' ▸ h
  · have hhead : (cfg.hostKey name).head? ≠ some '@' := fun h => hgroup (head_hostKey.mp h)
    obtain ⟨hgroups, hhosts⟩ := @keys_addRef cfg used name
    rw [if_neg hgroup, hgroups, hhosts]
    refine ⟨?_, ?_⟩ <;> congr 1 <;> ext k
    · constructor
      · exact fun h => absurd h.1 hgroup
      · exact fun h => absurd (h.source_head hM) hhead
    · constructor
      · exact fun h => Or.inl ⟨hhead, h.2⟩
      · rintro (⟨_, hk⟩ | h)
        · exact ⟨by simpa using hgroup, hk⟩
        · exact absurd (h.source_head hM) hhead

theorem keys_foldl_findReference (hM : MasterOk cfg masterList) (l : List String)
    (used : UsedRefs) :
    hostKeys cfg (l.foldl (findReference cfg masterList) used).groups = hostKeys cfg used.groups ∪
        {k | ∃ x ∈ l, Refs cfg masterList (cfg.hostKey x) k} ∧
      hostKeys cfg (l.foldl (findReference cfg masterList) used).hosts = hostKeys cfg used.hosts ∪
        {k | ∃ x ∈ l, Carries cfg masterList (cfg.hostKey x) k} := by
  induction l generalizing used with
  | nil => simp
  | cons x l ih =>
      obtain ⟨hgroups, hhosts⟩ := ih (findReference cfg masterList used x)
      obtain ⟨hgroups', hhosts'⟩ := @keys_findReference cfg masterList used x hM
      rw [List.foldl_cons, hgroups, hhosts, hgroups', hhosts', Set.union_assoc, Set.union_assoc]
      simp only [List.exists_mem_cons_iff]
      exact ⟨rfl, rfl⟩

end References

section Closures
variable {cfg} {masterList : List HGroup} {l : List String} {fuel : ℕ}

theorem refs_mem_flatMap {a b : List Char} (h : Refs cfg masterList a b) :
    b ∈ ((masterList.flatMap fun hgroup => hgroup.hostList.elems).map cfg.hostKey) := by
  obtain ⟨g, hg, -, href, hhref, -, rfl⟩ := h
  exact List.mem_map_of_mem (List.mem_flatMap.mpr ⟨g, hg, hhref⟩)

theorem refs_mem_names {a b : List Char} (h : Refs cfg masterList a b) :
    a ∈ masterList.map fun hgroup => cfg.hostKey hgroup.name := by
  obtain ⟨g, hg, rfl, -⟩ := h
  exact List.mem_map_of_mem (f := fun hgroup : HGroup => cfg.hostKey hgroup.name) hg

theorem ncard_le_length {s : Set (List Char)} {ks : List (List Char)} (h : ∀ k ∈ s, k ∈ ks) :
    s.Finite ∧ s.ncard ≤ ks.length := by
  have hsub : s ⊆ (ks.toFinset : Set (List Char)) := by
    intro k hk
    simpa using h k hk
  refine ⟨(Finset.finite_toSet _).subset hsub, ?_⟩
  calc s.ncard ≤ (ks.toFinset : Set (List Char)).ncard :=
        Set.ncard_le_ncard hsub (Finset.finite_toSet _)
    _ ≤ ks.length := by
        rw [Set.ncard_coe_finset]
        exact List.toFinset_card_le ks

theorem finite_targets : (targets (Refs cfg masterList)).Finite ∧
    (targets (Refs cfg masterList)).ncard < refBound masterList := by
  obtain ⟨hfin, hle⟩ := @ncard_le_length (targets (Refs cfg masterList)) _
    (fun k ⟨_, h⟩ => refs_mem_flatMap h)
  rw [List.length_map] at hle
  exact ⟨hfin, by rw [refBound]; omega⟩

theorem finite_sources : (targets (Function.swap (Refs cfg masterList))).Finite ∧
    (targets (Function.swap (Refs cfg masterList))).ncard < refBound masterList := by
  obtain ⟨hfin, hle⟩ := @ncard_le_length (targets (Function.swap (Refs cfg masterList))) _
    (fun k ⟨_, h⟩ => refs_mem_names h)
  rw [List.length_map] at hle
  exact ⟨hfin, by rw [refBound]; omega⟩

/-- The hosts and host groups that are reached from a list. -/
structure Reaches (masterList : List HGroup) (l : List String) (hosts : Set (List Char))
    (out : UsedRefs) : Prop where
  groups : hostKeys cfg out.groups =
    {k | ∃ x ∈ l, TransGen (Refs cfg masterList) (cfg.hostKey x) k}
  hosts : hostKeys cfg out.hosts = hosts ∪
    {k | ∃ x ∈ l, ∃ c, ReflTransGen (Refs cfg masterList) (cfg.hostKey x) c ∧
      Carries cfg masterList c k}

/-- The induction follows the levels; the height of every name on a level is below the fuel. -/
theorem findAllReferences_level (hM : MasterOk cfg masterList)
    (hac : Acyclic (Refs cfg masterList)) (used : UsedRefs) (hused : used.groups = [])
    (hpos : 0 < fuel) (hfuel : ∀ x ∈ l, height (Refs cfg masterList) (cfg.hostKey x) < fuel) :
    ∃ out, hrefListFindAllReferences cfg fuel l (some masterList) used = some out ∧
      @Reaches cfg masterList l (hostKeys cfg used.hosts) out := by
  induction fuel generalizing l used with
  | zero => exact absurd hpos (lt_irrefl 0)
  | succ fuel ih =>
      rw [hrefListFindAllReferences]
      by_cases hl : l = []
      · rw [if_pos hl]
        subst hl
        exact ⟨used, rfl, by simp [hused], by simp⟩
      rw [if_neg hl]
      obtain ⟨hgroups, hhosts⟩ := keys_foldl_findReference hM l used
      rw [hused, hostKeys_nil, Set.empty_union] at hgroups
      set direct := l.foldl (findReference cfg masterList) used
      have hnext : ∀ b, (∃ x ∈ direct.groups, cfg.hostKey x = b) ↔
          ∃ x ∈ l, Refs cfg masterList (cfg.hostKey x) b := fun b => Set.ext_iff.mp hgroups b
      by_cases hnone : direct.groups = []
      · refine ⟨direct, if_pos hnone, ?_, ?_⟩
        · ext k
          rw [Set.mem_ofPred_eq, reached_iff hnext, hnone]
          simp
        · rw [hhosts]
          congr 1
          ext k
          rw [Set.mem_ofPred_eq, Set.mem_ofPred_eq, carried_iff hnext, hnone]
          simp
      · have hlower : ∀ y ∈ direct.groups,
            height (Refs cfg masterList) (cfg.hostKey y) < fuel := by
          intro y hy
          obtain ⟨x, hx, hxy⟩ := (hnext (cfg.hostKey y)).mp ⟨y, hy, rfl⟩
          have hlt := height_lt hac finite_targets.1 hxy
          have := hfuel x hx
          omega
        obtain ⟨y, hy⟩ := List.exists_mem_of_ne_nil _ hnone
        obtain ⟨sub, hsub, hreach⟩ := ih ⟨[], []⟩ rfl (by have := hlower y hy; omega) hlower
        refine ⟨_, by rw [if_neg hnone, hsub]; rfl, ?_, ?_⟩
        · ext k
          rw [hostKeys_append, hreach.groups, Set.mem_ofPred_eq, reached_iff hnext]
          rfl
        · rw [hostKeys_append, hhosts, hreach.hosts, hostKeys_nil, Set.empty_union,
            Set.union_assoc]
          congr 1
          ext k
          rw [Set.mem_ofPred_eq, carried_iff hnext]
          rfl

/-- On a master list without cycles the references of any list are found. -/
theorem findAllReferences_spec (hM : MasterOk cfg masterList)
    (hac : Acyclic (Refs cfg masterList)) (l : List String) (hosts : List String)
    (hfuel : refBound masterList ≤ fuel) :
    ∃ out, hrefListFindAllReferences cfg fuel l (some masterList) ⟨hosts, []⟩ = some out ∧
      @Reaches cfg masterList l (hostKeys cfg hosts) out := by
  have hbound := (@finite_targets cfg masterList).2
  apply findAllReferences_level hM hac _ rfl (by omega)
  intro x _
  have hle := height_le (@finite_targets cfg masterList).1 (cfg.hostKey x)
  omega

theorem keys_findReferencees (hhash : ∀ g ∈ masterList, g.hostList.Hashed cfg)
    (occupants : List String) (name : String) :
    hostKeys cfg (findReferencees cfg (some masterList) occupants name) =
      hostKeys cfg occupants ∪ {k | Refs cfg masterList k (cfg.hostKey name)} := by
  rw [findReferencees]
  by_cases hgroup : isHgroupName name = true
  · rw [if_pos hgroup, Option.getD_some]
    induction masterList generalizing occupants with
    | nil => simp [Refs]
    | cons g masterList ih =>
        have hmem : g.hostList.hasMember cfg name = true ↔
            ∃ x ∈ g.hostList.elems, isHgroupName x = true ∧ cfg.hostKey x = cfg.hostKey name := by
          rw [HrefList.hasMember, decide_eq_true_eq, hhash g (by simp)]
          constructor
          · rintro ⟨x, hx, hkey⟩
            exact ⟨x, hx, (isHgroupName_congr hkey).trans hgroup, hkey⟩
          · rintro ⟨x, hx, -, hkey⟩
            exact ⟨x, hx, hkey⟩
        have hsplit : {k | Refs cfg (g :: masterList) k (cfg.hostKey name)} =
            {k | g.hostList.hasMember cfg name = true ∧ cfg.hostKey g.name = k} ∪
              {k | Refs cfg masterList k (cfg.hostKey name)} := by
          ext k
          simp only [Refs, List.exists_mem_cons_iff, Set.mem_ofPred_eq, Set.mem_union, hmem,
            and_comm]
        rw [List.foldl_cons, ih (fun g hg => hhash g (by simp [hg])), hsplit, ← Set.union_assoc]
        congr 1
        split_ifs with h
        · rw [hostKeys_hrefListAdd, Set.union_comm, ← Set.singleton_union]
          congr 1
          ext k
          simp [h, eq_comm]
        · simp [h]
  · rw [if_neg hgroup]
    have hnone : {k | Refs cfg masterList k (cfg.hostKey name)} = ∅ := by
      rw [Set.eq_empty_iff_forall_notMem]
      exact fun k hk => hgroup (head_hostKey.mp hk.target_head)
    rw [hnone, Set.union_empty]

theorem keys_foldl_findReferencees (hhash : ∀ g ∈ masterList, g.hostList.Hashed cfg)
    (l occupants : List String) :
    hostKeys cfg (l.foldl (findReferencees cfg (some masterList)) occupants) =
      hostKeys cfg occupants ∪ {k | ∃ x ∈ l, Refs cfg masterList k (cfg.hostKey x)} := by
  induction l generalizing occupants with
  | nil => simp
  | cons x l ih =>
      rw [List.foldl_cons, ih, keys_findReferencees hhash, Set.union_assoc]
      simp only [List.exists_mem_cons_iff]
      rfl

theorem findAllReferencees_level (hhash : ∀ g ∈ masterList, g.hostList.Hashed cfg)
    (hac : Acyclic (Refs cfg masterList)) (hpos : 0 < fuel)
    (hfuel : ∀ x ∈ l, height (Function.swap (Refs cfg masterList)) (cfg.hostKey x) < fuel) :
    ∃ out, hrefListFindAllReferencees cfg fuel l (some masterList) = some out ∧
      hostKeys cfg out =
        {k | ∃ x ∈ l, TransGen (Function.swap (Refs cfg masterList)) (cfg.hostKey x) k} := by
  induction fuel generalizing l with
  | zero => exact absurd hpos (lt_irrefl 0)
  | succ fuel ih =>
      have hdirect := keys_foldl_findReferencees hhash l []
      rw [hostKeys_nil, Set.empty_union] at hdirect
      rw [hrefListFindAllReferencees]
      set direct := l.foldl (findReferencees cfg (some masterList)) []
      have hnext : ∀ b, (∃ x ∈ direct, cfg.hostKey x = b) ↔
          ∃ x ∈ l, Function.swap (Refs cfg masterList) (cfg.hostKey x) b :=
        fun b => Set.ext_iff.mp hdirect b
      split_ifs with hnone
      · refine ⟨[], rfl, ?_⟩
        ext k
        rw [Set.mem_ofPred_eq, reached_iff hnext, hnone]
        simp
      · have hlower : ∀ y ∈ direct,
            height (Function.swap (Refs cfg masterList)) (cfg.hostKey y) < fuel := by
          intro y hy
          obtain ⟨x, hx, hxy⟩ := (hnext (cfg.hostKey y)).mp ⟨y, hy, rfl⟩
          have hlt := height_lt hac.swap finite_sources.1 hxy
          have := hfuel x hx
          omega
        obtain ⟨y, hy⟩ := List.exists_mem_of_ne_nil _ hnone
        obtain ⟨sub, hsub, hreach⟩ := ih (by have := hlower y hy; omega) hlower
        refine ⟨_, by rw [hsub]; rfl, ?_⟩
        ext k
        rw [hostKeys_append, hreach, Set.mem_ofPred_eq, reached_iff hnext]
        rfl

/-- On a master list without cycles the host groups that lead to any list are found. -/
theorem findAllReferencees_spec (hhash : ∀ g ∈ masterList, g.hostList.Hashed cfg)
    (hac : Acyclic (Refs cfg masterList)) (l : List String) (hfuel : refBound masterList ≤ fuel) :
    ∃ out, hrefListFindAllReferencees cfg fuel l (some masterList) = some out ∧
      hostKeys cfg out = {k | ∃ x ∈ l, TransGen (Refs cfg masterList) k (cfg.hostKey x)} := by
  have hbound := (@finite_sources cfg masterList).2
  obtain ⟨out, hout, hkeys⟩ := @findAllReferencees_level cfg masterList l fuel hhash hac (by omega)
    (fun x _ => by
      have hle := height_le (@finite_sources cfg masterList).1 (cfg.hostKey x)
      omega)
  refine ⟨out, hout, hkeys.trans ?_⟩
  simp only [transGen_swap]

end Closures

end GridEngine
