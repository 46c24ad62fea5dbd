import GridEngine.HostGroupRuns

/-!
# Runs of host group requests

The checks of a request are read off its result: the groups it adds exist, and none of them is an
occupant group. So a careful request keeps the graph without cycles and without dangling
references, and the closures of the next request end again.
-/

namespace GridEngine
open ReferenceGraph Relation Machine

section Checks
variable {cfg : HostConfig} {getuniquehostname : String → Option String}
variable {verifyStrKey : String → Bool} {fuel : ℕ}
variable {masterList : Option (List HGroup)} {l oldElems : List String} {s : HostObjects}
variable {name : String} {hrefList : HrefList}

theorem keys_compare_groups (l : List String) (missing : String → Bool) :
    hostKeys cfg (hrefListCompare cfg l missing).groups =
      {k | ∃ x ∈ l, missing x = true ∧ isHgroupName x = true ∧ cfg.hostKey x = k} := by
  rw [hrefListCompare, ← List.foldl_filter, (keys_foldl_addRef _ _).1, hostKeys_nil,
    Set.empty_union]
  simp only [List.mem_filter, and_assoc]

theorem refsExist_of_exists (hold : RefsExist cfg (masterList.getD []) oldElems)
    (hlook : masterList = none → ∀ x ∈ l, x ∈ oldElems ∨ isHgroupName x = false)
    (h : hgroupListExists cfg masterList (hrefListCompare cfg l fun name =>
      !hrefListHasMember cfg oldElems name).groups = true) :
    RefsExist cfg (masterList.getD []) l := by
  intro x hx hgroup
  by_cases hmem : cfg.hostKey x ∈ hostKeys cfg oldElems
  · obtain ⟨y, hy, hkey⟩ := hmem
    rw [← hkey]
    exact hold y hy ((isHgroupName_congr hkey).trans hgroup)
  cases masterList with
  | none =>
      rcases hlook rfl x hx with hin | hhost
      · exact absurd (mem_hostKeys hin) hmem
      · rw [hgroup] at hhost
        cases hhost
  | some masterList =>
      have hkeys : cfg.hostKey x ∈ hostKeys cfg (hrefListCompare cfg l fun name =>
          !hrefListHasMember cfg oldElems name).groups := by
        rw [keys_compare_groups]
        refine ⟨x, hx, ?_, hgroup, rfl⟩
        rw [Bool.not_eq_true', ← Bool.not_eq_true, hrefListHasMember_iff]
        exact hmem
      obtain ⟨z, hz, hkey⟩ := hkeys
      have hall := List.all_eq_true.mp h z hz
      rw [isHgroupName_congr hkey, hgroup, Bool.not_true, Bool.false_or,
        Option.isSome_iff_exists] at hall
      obtain ⟨g, hg⟩ := hall
      obtain ⟨hmem, hgkey⟩ := locate_eq_some hg
      exact ⟨g, hmem, hgkey.trans hkey⟩

theorem findReferencees_getD (masterList : Option (List HGroup)) :
    findReferencees cfg masterList = findReferencees cfg (some (masterList.getD [])) := rfl

theorem findAllReferencees_getD (fuel : ℕ) (l : List String) (masterList : Option (List HGroup)) :
    hrefListFindAllReferencees cfg fuel l masterList =
      hrefListFindAllReferencees cfg fuel l (some (masterList.getD [])) := by
  induction fuel generalizing l with
  | zero => rfl
  | succ fuel ih =>
      rw [hrefListFindAllReferencees, hrefListFindAllReferencees, findReferencees_getD]
      simp only [ih]

theorem findAllReferencees_mono {out : List String} {fuel' : ℕ} (hle : fuel ≤ fuel')
    (h : hrefListFindAllReferencees cfg fuel l masterList = some out) :
    hrefListFindAllReferencees cfg fuel' l masterList = some out := by
  induction fuel generalizing l out fuel' with
  | zero => cases h
  | succ fuel ih =>
      obtain ⟨fuel', rfl⟩ : ∃ n, fuel' = n + 1 := ⟨fuel' - 1, by omega⟩
      rw [hrefListFindAllReferencees] at h ⊢
      split_ifs at h ⊢ with hnone
      · exact h
      · obtain ⟨sub, hsub, rfl⟩ := Option.map_eq_some_iff.mp h
        rw [ih (by omega) hsub]
        rfl

/-- The closure of `href_list_find_all_referencees` whenever it ends. -/
theorem HostObjects.Ok.referencees (h : s.Ok cfg) {out : List String}
    (hout : hrefListFindAllReferencees cfg fuel l s.hgroups = some out) :
    hostKeys cfg out =
      {k | ∃ x ∈ l, TransGen (Refs cfg (s.hgroups.getD [])) k (cfg.hostKey x)} := by
  obtain ⟨out', hout', hkeys⟩ := findAllReferencees_spec h.hashed h.acyclic l
    (le_max_left (refBound (s.hgroups.getD [])) fuel)
  have hmono := findAllReferencees_mono (le_max_right (refBound (s.hgroups.getD [])) fuel) hout
  rw [findAllReferencees_getD, hout'] at hmono
  cases hmono
  exact hkeys

theorem hostlistDiff_eq_some {diff : HostDiff}
    (h : hostlistDiff cfg getuniquehostname fuel masterList oldElems hrefList =
      some (some diff)) :
    hgroupListExists cfg masterList (hrefListCompare cfg hrefList.elems fun name =>
        !hrefListHasMember cfg oldElems name).groups = true ∧
      diff.addGroups = (hrefListCompare cfg hrefList.elems fun name =>
        !hrefListHasMember cfg oldElems name).groups := by
  rw [hostlistDiff] at h
  split_ifs at h with hexists
  · refine ⟨hexists, ?_⟩
    obtain ⟨diff', hdiff', hresolve⟩ := Option.map_eq_some_iff.mp h
    obtain ⟨addHosts, -, rfl⟩ := Option.map_eq_some_iff.mp hresolve
    rw [hrefListFindEffectiveDiff] at hdiff'
    obtain ⟨addUsed, -, hdiff'⟩ := Option.bind_eq_some_iff.mp hdiff'
    obtain ⟨remUsed, -, hdiff'⟩ := Option.bind_eq_some_iff.mp hdiff'
    split_ifs at hdiff'
    · cases hdiff'
      rfl
    · cases hdiff'
      rfl
  · cases h

theorem cqueueModHostlist_eq_some {settled : SettledDiff}
    (h : cqueueModHostlist cfg getuniquehostname fuel masterList oldElems hrefList =
      some (some settled)) :
    hgroupListExists cfg masterList (hrefListCompare cfg hrefList.elems fun name =>
        !hrefListHasMember cfg oldElems name).groups = true := by
  rw [cqueueModHostlist] at h
  obtain ⟨diff, hdiff, h⟩ := Option.bind_eq_some_iff.mp h
  cases diff with
  | none => cases h
  | some diff => exact (hostlistDiff_eq_some hdiff).1

theorem hgroupModHostlist_eq_some {settled : SettledDiff} {occupantGroups : List String}
    (h : hgroupModHostlist cfg getuniquehostname fuel masterList name oldElems hrefList =
      some (some (settled, occupantGroups))) :
    hgroupListExists cfg masterList (hrefListCompare cfg hrefList.elems fun name =>
        !hrefListHasMember cfg oldElems name).groups = true ∧
      ∃ referencees, hrefListFindAllReferencees cfg fuel [name] masterList = some referencees ∧
        (hrefListCompare cfg hrefList.elems fun name =>
          !hrefListHasMember cfg oldElems name).groups.any
            (hrefListHasMember cfg (hrefListAdd cfg referencees name)) = false := by
  rw [hgroupModHostlist] at h
  obtain ⟨diff, hdiff, h⟩ := Option.bind_eq_some_iff.mp h
  cases diff with
  | none => cases h
  | some diff =>
      obtain ⟨hexists, hadd⟩ := hostlistDiff_eq_some hdiff
      obtain ⟨referencees, hreferencees, h⟩ := Option.bind_eq_some_iff.mp h
      refine ⟨hexists, referencees, hreferencees, ?_⟩
      rw [← hadd]
      simp only at h
      split_ifs at h with hany
      · cases h
      · exact Bool.not_eq_true _ ▸ hany

/-- The host groups an accepted host list adds do not lead back to the group. -/
theorem HostObjects.Ok.no_way_back (h : s.Ok cfg) {referencees : List String}
    (hreferencees : hrefListFindAllReferencees cfg fuel [name] s.hgroups = some referencees)
    (hany : (hrefListCompare cfg l fun name => !hrefListHasMember cfg oldElems name).groups.any
      (hrefListHasMember cfg (hrefListAdd cfg referencees name)) = false)
    {x : String} (hx : x ∈ l) (hgroup : isHgroupName x = true) :
    cfg.hostKey x ∈ hostKeys cfg oldElems ∨
      (cfg.hostKey x ≠ cfg.hostKey name ∧
        ¬ TransGen (Refs cfg (s.hgroups.getD [])) (cfg.hostKey x) (cfg.hostKey name)) := by
  by_cases hmem : cfg.hostKey x ∈ hostKeys cfg oldElems
  · exact Or.inl hmem
  right
  have hkeys : cfg.hostKey x ∈ hostKeys cfg (hrefListCompare cfg l fun name =>
      !hrefListHasMember cfg oldElems name).groups := by
    rw [keys_compare_groups]
    refine ⟨x, hx, ?_, hgroup, rfl⟩
    rw [Bool.not_eq_true', ← Bool.not_eq_true, hrefListHasMember_iff]
    exact hmem
  obtain ⟨z, hz, hkey⟩ := hkeys
  have hnot := List.any_eq_false.mp hany z hz
  rw [hrefListHasMember_iff, hostKeys_hrefListAdd, Set.mem_insert_iff, hkey,
    h.referencees hreferencees, not_or] at hnot
  refine ⟨hnot.1, fun hpath => hnot.2 ?_⟩
  exact ⟨name, List.mem_singleton_self name, hpath⟩

theorem locateOld_mem {old : HGroup}
    (h : (s.hgroups.bind fun masterList => hgroupListLocate cfg masterList name) = some old) :
    old ∈ s.hgroups.getD [] ∧ cfg.hostKey old.name = cfg.hostKey name := by
  obtain ⟨masterList, hmaster, hloc⟩ := Option.bind_eq_some_iff.mp h
  rw [hmaster]
  exact locate_eq_some hloc

/-- The element a host group request stores is one that may be stored. -/
theorem HostObjects.Ok.hgroupMod {s' : HostObjects} {add later : Bool}
    {change : Option HostlistChange} (h : s.Ok cfg)
    (hcareful : (HostRequest.hgroupMod add name change later).Careful cfg getuniquehostname s)
    (hstep : GridEngine.hgroupMod cfg getuniquehostname verifyStrKey fuel s add name change later =
      some s') : s'.Ok cfg := by
  unfold GridEngine.hgroupMod at hstep
  extract_lets old name' elems at hstep
  have hname' : name' = old.elim name HGroup.name := rfl
  have helems : elems = GridEngine.oldElems (old.map HGroup.hostList) := rfl
  by_cases hrefused : old.isSome = add ∨
      (add = true ∧ hgroupCheckName verifyStrKey name' = false)
  · rw [if_pos hrefused] at hstep
    cases hstep
    exact h
  rw [if_neg hrefused] at hstep
  obtain ⟨hadd, hcheck⟩ := not_or.mp hrefused
  have hgroupName : isHgroupName name' = true := by
    cases hcase : old with
    | none =>
        rw [hname', hcase, Option.elim_none]
        rw [hcase] at hadd
        cases add with
        | false => exact absurd rfl hadd
        | true =>
            have hpass := Bool.eq_true_of_not_eq_false fun hno => hcheck ⟨rfl, hno⟩
            rw [hname', hcase] at hpass
            exact (Bool.and_eq_true_iff.mp hpass).1
    | some g =>
        rw [hname', hcase, Option.elim_some]
        exact h.master.groupNames g (locateOld_mem hcase).1
  have hexist : RefsExist cfg (s.hgroups.getD []) elems := by
    cases hcase : old with
    | none =>
        rw [helems, hcase]
        exact fun x hx => absurd hx List.not_mem_nil
    | some g =>
        rw [helems, hcase]
        exact h.exist g (locateOld_mem hcase).1
  have hrefs : ∀ x, cfg.hostKey x ∈ hostKeys cfg elems → isHgroupName x = true →
      Refs cfg (s.hgroups.getD []) (cfg.hostKey name') (cfg.hostKey x) := by
    intro x hx hgroup
    cases hcase : old with
    | none =>
        rw [helems, hcase] at hx
        exact absurd hx (by simp [GridEngine.oldElems])
    | some g =>
        rw [helems, hcase] at hx
        obtain ⟨y, hy, hkey⟩ := hx
        rw [hname', hcase]
        exact ⟨g, (locateOld_mem hcase).1, rfl, y, hy, (isHgroupName_congr hkey).trans hgroup,
          hkey⟩
  cases change with
  | none =>
      cases hstep
      split_ifs
      · exact h.storeHgroup hgroupName hashed_copyList hexist
          (fun x hx hgroup => Or.inl (hrefs x (mem_hostKeys hx) hgroup))
      · exact h
  | some change =>
      obtain ⟨hout, hlook⟩ := hcareful
      obtain ⟨hhash, hsources⟩ := attrModSubList_spec hout
      obtain ⟨result, hresult, rfl⟩ := Option.map_eq_some_iff.mp hstep
      cases result with
      | none => exact h
      | some result =>
          obtain ⟨settled, occupantGroups⟩ := result
          obtain ⟨hexists, referencees, hreferencees, hany⟩ := hgroupModHostlist_eq_some hresult
          simp only
          split_ifs
          · refine h.storeHgroup hgroupName hhash
              (refsExist_of_exists hexist (fun hnone x hx => ?_) hexists) ?_
            · exact (hsources x hx).imp id (fun hin => hlook hnone hin.1 x hin.2)
            · intro x hx hgroup
              exact (h.no_way_back hreferencees hany hx hgroup).imp
                (fun hmem => hrefs x hmem hgroup) id
          · exact h.restoreHgroup (fun g hg => (locateOld_mem hg).1)

theorem HostObjects.Ok.cqueueMod {s' : HostObjects} {add later : Bool}
    {change : Option HostlistChange} (h : s.Ok cfg)
    (hcareful : (HostRequest.cqueueMod add name change later).Careful cfg getuniquehostname s)
    (hstep : GridEngine.cqueueMod cfg getuniquehostname verifyStrKey fuel s add name change later =
      some s') : s'.Ok cfg := by
  unfold GridEngine.cqueueMod at hstep
  extract_lets old elems at hstep
  have helems : elems = GridEngine.oldElems (old.map CqueueHosts.hostlist) := rfl
  by_cases hrefused : old.isSome = add ∨ (add = true ∧ verifyStrKey name = false)
  · rw [if_pos hrefused] at hstep
    cases hstep
    exact h
  rw [if_neg hrefused] at hstep
  have hexist : RefsExist cfg (s.hgroups.getD []) elems := by
    cases hcase : old with
    | none =>
        rw [helems, hcase]
        exact fun x hx => absurd hx List.not_mem_nil
    | some cq =>
        rw [helems, hcase]
        exact h.cqExist cq (List.mem_of_find?_eq_some hcase)
  cases change with
  | none =>
      cases hstep
      split_ifs
      · exact h.storeCqueue hashed_copyList hexist
      · exact h
  | some change =>
      obtain ⟨hout, hlook⟩ := hcareful
      have hout : TakesOutAll cfg getuniquehostname elems change := hout
      obtain ⟨hhash, hsources⟩ := attrModSubList_spec hout
      rcases hresult : attrModSubList cfg change.subCommand (.copyList cfg elems)
        (resolveReduced getuniquehostname change.reduced) with ⟨ok, hostlist⟩
      rw [hresult] at hhash hsources
      simp only [hresult] at hstep
      cases ok with
      | false =>
          cases hstep
          exact h
      | true =>
          obtain ⟨settled, hsettled, rfl⟩ := Option.map_eq_some_iff.mp hstep
          cases settled with
          | none => exact h
          | some settled =>
              simp only
              split_ifs
              · have hlist := cqueueModHostlist_eq_some hsettled
                refine h.storeCqueue hhash
                  (refsExist_of_exists hexist (fun hnone x hx => ?_) hlist)
                exact (hsources x hx).imp id (fun hin => hlook hnone hin.1 x hin.2)
              · exact h

/-- A host group goes only when no host group and no cluster queue refers to it. -/
theorem HostObjects.Ok.hgroupDel (h : s.Ok cfg) (name : String) (elsewhere spooled : Bool) :
    (GridEngine.hgroupDel cfg s name elsewhere spooled).Ok cfg := by
  rw [GridEngine.hgroupDel]
  cases hold : s.hgroups.bind fun masterList => hgroupListLocate cfg masterList name with
  | none => exact h
  | some hgroup =>
      obtain ⟨masterList, hmaster, hloc⟩ := Option.bind_eq_some_iff.mp hold
      simp only
      split_ifs with hused
      · exact h
      obtain ⟨hfree, hused⟩ := not_or.mp hused
      obtain ⟨hcqFree, -⟩ := not_or.mp hused
      have hgetD : s.hgroups.getD [] = masterList := by rw [hmaster, Option.getD_some]
      have hM := hgetD ▸ h.master
      have hhash := hgetD ▸ h.hashed
      have hexist := hgetD ▸ h.exist
      have hcqExist := hgetD ▸ h.cqExist
      have hacyclic := hgetD ▸ h.acyclic
      have hnoRef : ∀ k, ¬ Refs cfg masterList k (cfg.hostKey hgroup.name) := by
        intro k hk
        have hkeys := @keys_findReferencees cfg masterList hhash [] hgroup.name
        rw [hmaster] at hfree
        rw [not_not.mp hfree, hostKeys_nil, Set.empty_union] at hkeys
        exact (Set.ext_iff.mp hkeys k).mpr hk
      have hmem : ∀ g, g ∈ masterList.eraseP (fun g => cfg.sgeHostcmp g.name hgroup.name) ↔
          g ∈ masterList ∧ cfg.hostKey g.name ≠ cfg.hostKey hgroup.name := fun g => hM.mem_store
      rw [hmaster, Option.map_some]
      refine ⟨⟨?_, fun g hg => ?_⟩, fun g hg => ?_, h.cqHashed, fun g hg x hx hgroup' => ?_,
        fun cq hcq x hx hgroup' => ?_, ?_⟩
      · exact hM.distinct.sublist List.eraseP_sublist
      · exact hM.groupNames g ((hmem g).mp hg).1
      · exact hhash g ((hmem g).mp hg).1
      · obtain ⟨hg, -⟩ := (hmem g).mp hg
        obtain ⟨g', hg', hkey⟩ := hexist g hg x hx hgroup'
        refine ⟨g', (hmem g').mpr ⟨hg', fun hgone => ?_⟩, hkey⟩
        exact hnoRef _ ⟨g, hg, rfl, x, hx, hgroup', hkey.symm.trans hgone⟩
      · obtain ⟨g', hg', hkey⟩ := hcqExist cq hcq x hx hgroup'
        refine ⟨g', (hmem g').mpr ⟨hg', fun hgone => hcqFree ?_⟩, hkey⟩
        rw [List.any_eq_true]
        refine ⟨cq, hcq, ?_⟩
        rw [HrefList.hasMember, decide_eq_true_eq, h.cqHashed cq hcq, ← hgone, hkey]
        exact mem_hostKeys hx
      · apply hacyclic.mono
        rintro a b ⟨g, hg, hrefs⟩
        exact ⟨g, ((hmem g).mp hg).1, hrefs⟩

theorem HostObjects.Ok.step {s' : HostObjects} {e : HostRequest} (h : s.Ok cfg)
    (hcareful : e.Careful cfg getuniquehostname s)
    (hstep : HostStep cfg getuniquehostname verifyStrKey s e s') : s'.Ok cfg := by
  obtain ⟨fuel, hstep⟩ := hstep
  cases e with
  | hgroupMod add name change later => exact h.hgroupMod hcareful hstep
  | hgroupDel name elsewhere spooled =>
      cases hstep
      exact h.hgroupDel name elsewhere spooled
  | cqueueMod add name change later => exact h.cqueueMod hcareful hstep
  | cqueueDel name later =>
      cases hstep
      exact h.cqueueDel name later

end Checks

section Terminate
variable {cfg : HostConfig} {getuniquehostname : String → Option String}
variable {verifyStrKey : String → Bool} {fuel : ℕ} {s : HostObjects}

/-- The closure of `href_list_find_all_references`. Without a master list it adds nothing. -/
theorem HostObjects.Ok.references (h : s.Ok cfg) (hfuel : refBound (s.hgroups.getD []) ≤ fuel)
    (l hosts : List String) :
    ∃ out, hrefListFindAllReferences cfg fuel l s.hgroups ⟨hosts, []⟩ = some out ∧
      (s.hgroups = none → out = ⟨hosts, []⟩) ∧
      (s.hgroups ≠ none → @Reaches cfg (s.hgroups.getD []) l (hostKeys cfg hosts) out) := by
  cases hmaster : s.hgroups with
  | none =>
      obtain ⟨n, rfl⟩ : ∃ n, fuel = n + 1 := ⟨fuel - 1, by rw [refBound] at hfuel; omega⟩
      exact ⟨⟨hosts, []⟩, rfl, fun _ => rfl, fun hsome => absurd rfl hsome⟩
  | some masterList =>
      rw [hmaster] at hfuel
      have hgetD : s.hgroups.getD [] = masterList := by rw [hmaster, Option.getD_some]
      obtain ⟨out, hout, hreach⟩ := findAllReferences_spec (hgetD ▸ h.master)
        (hgetD ▸ h.acyclic) l hosts hfuel
      exact ⟨out, hout, fun hnone => absurd hnone (Option.some_ne_none masterList), fun _ => hreach⟩

theorem HostObjects.Ok.exists_hostlistDiff (h : s.Ok cfg)
    (hfuel : refBound (s.hgroups.getD []) ≤ fuel) (old : List String) (hrefList : HrefList) :
    ∃ diff, hostlistDiff cfg getuniquehostname fuel s.hgroups old hrefList = some diff := by
  rw [hostlistDiff]
  set add := hrefListCompare cfg hrefList.elems fun name => !hrefListHasMember cfg old name
  set rem := hrefListCompare cfg old fun name => !hrefList.hasMember cfg name
  split_ifs
  · obtain ⟨addUsed, hadd, -⟩ := h.references hfuel add.groups add.hosts
    obtain ⟨remUsed, hrem, -⟩ := h.references hfuel rem.groups rem.hosts
    rw [hrefListFindEffectiveDiff, hadd, hrem]
    simp only [Option.bind_eq_bind, Option.bind_some]
    split_ifs
    · exact ⟨_, rfl⟩
    · exact ⟨_, rfl⟩
  · exact ⟨none, rfl⟩

theorem HostObjects.Ok.exists_settleDiff (h : s.Ok cfg)
    (hfuel : refBound (s.hgroups.getD []) ≤ fuel) (old new : List String) (diff : HostDiff) :
    ∃ settled, settleDiff cfg fuel s.hgroups old new diff = some settled := by
  obtain ⟨oldUsed, hold, -⟩ := h.references hfuel old []
  obtain ⟨newUsed, hnew, -⟩ := h.references hfuel new []
  rw [settleDiff, hold, hnew]
  exact ⟨_, rfl⟩

theorem HostObjects.Ok.exists_hgroupModHostlist (h : s.Ok cfg)
    (hfuel : refBound (s.hgroups.getD []) ≤ fuel) (name : String) (old : List String)
    (hrefList : HrefList) :
    ∃ result, hgroupModHostlist cfg getuniquehostname fuel s.hgroups name old hrefList =
      some result := by
  obtain ⟨diff, hdiff⟩ :=
    @HostObjects.Ok.exists_hostlistDiff cfg getuniquehostname fuel s h hfuel old hrefList
  rw [hgroupModHostlist, hdiff]
  cases diff with
  | none => exact ⟨none, rfl⟩
  | some diff =>
      obtain ⟨referencees, hreferencees, -⟩ :=
        findAllReferencees_spec h.hashed h.acyclic [name] hfuel
      obtain ⟨settled, hsettled⟩ := h.exists_settleDiff hfuel old hrefList.elems diff
      rw [findAllReferencees_getD, hreferencees]
      simp only [Option.bind_eq_bind, Option.bind_some, hsettled]
      split_ifs
      · exact ⟨_, rfl⟩
      · exact ⟨_, rfl⟩

theorem HostObjects.Ok.exists_cqueueModHostlist (h : s.Ok cfg)
    (hfuel : refBound (s.hgroups.getD []) ≤ fuel) (old : List String) (hrefList : HrefList) :
    ∃ result, cqueueModHostlist cfg getuniquehostname fuel s.hgroups old hrefList =
      some result := by
  obtain ⟨diff, hdiff⟩ :=
    @HostObjects.Ok.exists_hostlistDiff cfg getuniquehostname fuel s h hfuel old hrefList
  rw [cqueueModHostlist, hdiff]
  cases diff with
  | none => exact ⟨none, rfl⟩
  | some diff =>
      obtain ⟨settled, hsettled⟩ := h.exists_settleDiff hfuel old hrefList.elems diff
      exact ⟨some settled, by simp only [Option.bind_eq_bind, Option.bind_some, hsettled,
        Option.map_some]⟩

theorem HostObjects.Ok.answers (h : s.Ok cfg) (e : HostRequest) :
    ∃ s', HostStep cfg getuniquehostname verifyStrKey s e s' := by
  have hfuel := le_refl (refBound (s.hgroups.getD []))
  suffices hsome : ∃ s', hostRequest cfg getuniquehostname verifyStrKey
      (refBound (s.hgroups.getD [])) s e = some s' from
    hsome.imp fun s' hs' => ⟨_, hs'⟩
  cases e with
  | hgroupMod add name change later =>
      rw [hostRequest]
      unfold GridEngine.hgroupMod
      extract_lets old name' elems
      split_ifs
      · exact ⟨s, rfl⟩
      all_goals
        cases change with
        | none => exact ⟨_, rfl⟩
        | some change =>
            obtain ⟨result, hresult⟩ := @HostObjects.Ok.exists_hgroupModHostlist cfg
              getuniquehostname _ s h hfuel name' elems
              (attrModSubList cfg change.subCommand (.copyList cfg elems)
                (resolveReduced getuniquehostname change.reduced)).2
            simp only [hresult, Option.map_some]
            exact ⟨_, rfl⟩
  | hgroupDel name elsewhere spooled => exact ⟨_, rfl⟩
  | cqueueMod add name change later =>
      rw [hostRequest]
      unfold GridEngine.cqueueMod
      extract_lets old elems
      split_ifs
      · exact ⟨s, rfl⟩
      all_goals
        cases change with
        | none => exact ⟨_, rfl⟩
        | some change =>
            rcases hmod : attrModSubList cfg change.subCommand (.copyList cfg elems)
              (resolveReduced getuniquehostname change.reduced) with ⟨ok, hostlist⟩
            obtain ⟨result, hresult⟩ := @HostObjects.Ok.exists_cqueueModHostlist cfg
              getuniquehostname _ s h hfuel elems hostlist
            simp only [hmod]
            cases ok with
            | false => exact ⟨s, rfl⟩
            | true => exact ⟨_, by rw [if_pos rfl, hresult, Option.map_some]⟩
  | cqueueDel name later => exact ⟨_, rfl⟩

end Terminate

variable (cfg : HostConfig) (getuniquehostname : String → Option String)
variable (verifyStrKey : String → Bool)

/-- No host groups, and no cluster queue that refers to one. -/
structure HostObjects.Start (s : HostObjects) : Prop where
  empty : s.hgroups.getD [] = []
  hashed : ∀ cq ∈ s.cqueues, cq.hostlist.Hashed cfg
  noGroups : ∀ cq ∈ s.cqueues, ∀ x ∈ cq.hostlist.elems, isHgroupName x = false

variable {cfg getuniquehostname verifyStrKey}

theorem HostObjects.Start.ok {s : HostObjects} (h : s.Start cfg) : s.Ok cfg := by
  have hnoRef : ∀ a b, ¬ Refs cfg (s.hgroups.getD []) a b := by
    rintro a b ⟨g, hg, -⟩
    rw [h.empty] at hg
    exact absurd hg List.not_mem_nil
  refine ⟨?_, ?_, h.hashed, ?_, fun cq hcq x hx hgroup => ?_, fun a ha => ?_⟩
  · rw [h.empty]
    exact ⟨List.Pairwise.nil, fun g hg => absurd hg List.not_mem_nil⟩
  · rw [h.empty]
    exact fun g hg => absurd hg List.not_mem_nil
  · rw [h.empty]
    exact fun g hg => absurd hg List.not_mem_nil
  · rw [h.noGroups cq hcq x hx] at hgroup
    cases hgroup
  · obtain ⟨b, hab, -⟩ := TransGen.head'_iff.mp ha
    exact hnoRef a b hab

/-- In every run of careful requests the graph of the host groups has no cycles, every host group
that is referred to exists, and the closures are found. Only hosts of a start list are not
delivered as long as there is no master list. -/
theorem hostGroups_sound {start s : HostObjects} {hist : List HostRequest}
    (hstart : start.Start cfg)
    (hrun : Run (fun s e s' => e.Careful cfg getuniquehostname s ∧
      HostStep cfg getuniquehostname verifyStrKey s e s') start hist s) :
    Acyclic (Refs cfg (s.hgroups.getD [])) ∧
      (∀ g ∈ s.hgroups.getD [], RefsExist cfg (s.hgroups.getD []) g.hostList.elems) ∧
      (∀ cq ∈ s.cqueues, RefsExist cfg (s.hgroups.getD []) cq.hostlist.elems) ∧
      (∀ e, ∃ s', HostStep cfg getuniquehostname verifyStrKey s e s') ∧
      ∀ l : List String, ∀ fuel, refBound (s.hgroups.getD []) ≤ fuel → ∃ used occupants,
        hrefListFindAllReferences cfg fuel l s.hgroups ⟨[], []⟩ = some used ∧
        hrefListFindAllReferencees cfg fuel l s.hgroups = some occupants ∧
        hostKeys cfg used.groups =
          {k | ∃ x ∈ l, TransGen (Refs cfg (s.hgroups.getD [])) (cfg.hostKey x) k} ∧
        (hostKeys cfg used.hosts = {k | ∃ x ∈ l, ∃ c,
            ReflTransGen (Refs cfg (s.hgroups.getD [])) (cfg.hostKey x) c ∧
              Carries cfg (s.hgroups.getD []) c k} ↔
          (s.hgroups ≠ none ∨ ∀ x ∈ l, isHgroupName x = true)) ∧
        hostKeys cfg occupants =
          {k | ∃ x ∈ l, TransGen (Refs cfg (s.hgroups.getD [])) k (cfg.hostKey x)} := by
  have hok : s.Ok cfg := hrun.invariant (P := fun _ s => s.Ok cfg) hstart.ok
    fun _ _ _ _ h hs => h.step hs.1 hs.2
  refine ⟨hok.acyclic, hok.exist, hok.cqExist, hok.answers, fun l fuel hfuel => ?_⟩
  obtain ⟨used, hused, hnone, hsome⟩ := hok.references hfuel l []
  obtain ⟨occupants, hocc, hkeys⟩ := findAllReferencees_spec hok.hashed hok.acyclic l hfuel
  refine ⟨used, occupants, hused, by rw [findAllReferencees_getD, hocc], ?_, ?_, hkeys⟩
  · by_cases hmaster : s.hgroups = none
    · rw [hnone hmaster, hmaster, hostKeys_nil]
      symm
      rw [Set.eq_empty_iff_forall_notMem]
      rintro k ⟨x, -, hpath⟩
      obtain ⟨b, ⟨g, hg, -⟩, -⟩ := TransGen.head'_iff.mp hpath
      exact absurd hg List.not_mem_nil
    · exact (hsome hmaster).groups
  · by_cases hmaster : s.hgroups = none
    · rw [hnone hmaster, hostKeys_nil, eq_comm, Set.eq_empty_iff_forall_notMem]
      constructor
      · intro hempty
        refine Or.inr fun x hx => ?_
        by_contra hgroup
        refine hempty (cfg.hostKey x) ⟨x, hx, cfg.hostKey x, .refl, Or.inl ⟨?_, rfl⟩⟩
        rw [Ne, head_hostKey]
        exact hgroup
      · rintro (hnot | hgroups) k ⟨x, hx, c, hpath, hcarries⟩
        · exact hnot hmaster
        rw [hmaster] at hpath hcarries
        have heq : cfg.hostKey x = c := by
          rcases ReflTransGen.cases_head hpath with heq | ⟨d, ⟨g, hg, -⟩, -⟩
          · exact heq
          · exact absurd hg List.not_mem_nil
        rcases hcarries with ⟨hhead, -⟩ | ⟨g, hg, -⟩
        · exact hhead (heq ▸ head_hostKey.mpr (hgroups x hx))
        · exact absurd hg List.not_mem_nil
    · have hhosts := (hsome hmaster).hosts
      rw [hostKeys_nil, Set.empty_union] at hhosts
      exact iff_of_true hhosts (Or.inl hmaster)

/-- A configuration that compares names as they are. -/
def plainHosts : HostConfig := ⟨false, none⟩

/-- A cluster with one host group, and a second one that refers to it. -/
theorem twoHostGroups_sound : Acyclic (Refs plainHosts
    [⟨"@a", .copyList plainHosts ["h1"]⟩, ⟨"@b", .copyList plainHosts ["h2", "@a"]⟩]) := by
  let step := fun s e s' => HostRequest.Careful plainHosts some s e ∧
    HostStep plainHosts some (fun _ => true) s e s'
  have hfirst : step ⟨none, []⟩ (.hgroupMod true "@a" (some ⟨.set, ["h1"]⟩) true)
      ⟨some [⟨"@a", .copyList plainHosts ["h1"]⟩], []⟩ :=
    ⟨⟨nofun, fun _ _ => by decide +kernel⟩, 1, by decide +kernel⟩
  have hsecond : step ⟨some [⟨"@a", .copyList plainHosts ["h1"]⟩], []⟩
      (.hgroupMod true "@b" (some ⟨.set, ["h2", "@a"]⟩) true)
      ⟨some [⟨"@a", .copyList plainHosts ["h1"]⟩, ⟨"@b", .copyList plainHosts ["h2", "@a"]⟩],
        []⟩ :=
    ⟨⟨nofun, nofun⟩, 3, by decide +kernel⟩
  have hnone : ∀ cq : CqueueHosts, cq ∉ ([] : List CqueueHosts) := fun _ => List.not_mem_nil
  exact (hostGroups_sound ⟨rfl, fun cq hcq => absurd hcq (hnone cq),
    fun cq hcq => absurd hcq (hnone cq)⟩ ((Run.nil.snoc hfirst).snoc hsecond)).1

/-- Without a master list the first host group may refer to one that does not exist. With one,
a host group can be deleted when one of two references to it was taken out before. -/
theorem missingHostGroup_referred :
    (∃ hist s, Run (HostStep plainHosts some fun _ => true) ⟨none, []⟩ hist s ∧
      ¬ ∀ g ∈ s.hgroups.getD [], RefsExist plainHosts (s.hgroups.getD []) g.hostList.elems) ∧
    ∃ hist s, Run (HostStep plainHosts some fun _ => true) ⟨some [], []⟩ hist s ∧
      ¬ ∀ g ∈ s.hgroups.getD [], RefsExist plainHosts (s.hgroups.getD []) g.hostList.elems := by
  let step := HostStep plainHosts some fun _ => true
  have hmissing : ∀ l : HrefList, l.elems = ["@b"] → ¬ ∀ g ∈ [HGroup.mk "@a" l],
      RefsExist plainHosts [HGroup.mk "@a" l] g.hostList.elems := by
    intro l hl h
    obtain ⟨g, hg, hkey⟩ := h _ (List.mem_singleton_self _) "@b" (by simp [hl]) (by decide +kernel)
    rw [List.mem_singleton.mp hg] at hkey
    have hne : plainHosts.hostKey "@a" ≠ plainHosts.hostKey "@b" := by decide +kernel
    exact hne hkey
  have hunchecked : step ⟨none, []⟩ (.hgroupMod true "@a" (some ⟨.set, ["@b"]⟩) true)
      ⟨some [⟨"@a", .copyList plainHosts ["@b"]⟩], []⟩ := ⟨1, by decide +kernel⟩
  have hfirst : step ⟨some [], []⟩ (.hgroupMod true "@b" none true)
      ⟨some [⟨"@b", ⟨[], []⟩⟩], []⟩ := ⟨1, by decide +kernel⟩
  have htwice : step ⟨some [⟨"@b", ⟨[], []⟩⟩], []⟩
      (.hgroupMod true "@a" (some ⟨.set, ["@b", "@b"]⟩) true)
      ⟨some [⟨"@b", ⟨[], []⟩⟩, ⟨"@a", .copyList plainHosts ["@b", "@b"]⟩], []⟩ :=
    ⟨2, by decide +kernel⟩
  have hremove : step ⟨some [⟨"@b", ⟨[], []⟩⟩, ⟨"@a", .copyList plainHosts ["@b", "@b"]⟩], []⟩
      (.hgroupMod false "@a" (some ⟨.remove, ["@b"]⟩) true)
      ⟨some [⟨"@b", ⟨[], []⟩⟩, ⟨"@a", ⟨["@b"], []⟩⟩], []⟩ := ⟨3, by decide +kernel⟩
  have hdel : step ⟨some [⟨"@b", ⟨[], []⟩⟩, ⟨"@a", ⟨["@b"], []⟩⟩], []⟩
      (.hgroupDel "@b" false true) ⟨some [⟨"@a", ⟨["@b"], []⟩⟩], []⟩ := ⟨0, by decide +kernel⟩
  exact ⟨⟨_, _, Run.nil.snoc hunchecked, hmissing _ rfl⟩, _, _,
    (((Run.nil.snoc hfirst).snoc htwice).snoc hremove).snoc hdel, hmissing _ rfl⟩

end GridEngine
