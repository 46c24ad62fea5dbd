import GridEngine.HostRefClosure
import GridEngine.Machine

/-!
# Host groups stay acyclic and complete

Only the edges out of the host group of a request change. They lead to host groups that exist and
from which it is not reached, because the differences of the old and the new list are checked
against the master list and the occupant groups. Two kinds of requests get around the checks:
without a master list nothing is looked up, and taking one of several equal names out of a list
also hides the others from later look-ups.
-/

namespace GridEngine
open ReferenceGraph Relation Machine

variable (cfg : HostConfig) (getuniquehostname : String → Option String)
variable (verifyStrKey : String → Bool)

/-- Every name of a host group in the list is the name of an element of the master list. -/
def RefsExist (masterList : List HGroup) (l : List String) : Prop :=
  ∀ x ∈ l, isHgroupName x = true → ∃ g ∈ masterList, cfg.hostKey g.name = cfg.hostKey x

/-- The host groups form a graph without cycles, and every referenced one exists. -/
structure HostObjects.Ok (s : HostObjects) : Prop where
  master : MasterOk cfg (s.hgroups.getD [])
  hashed : ∀ g ∈ s.hgroups.getD [], g.hostList.Hashed cfg
  cqHashed : ∀ cq ∈ s.cqueues, cq.hostlist.Hashed cfg
  exist : ∀ g ∈ s.hgroups.getD [], RefsExist cfg (s.hgroups.getD []) g.hostList.elems
  cqExist : ∀ cq ∈ s.cqueues, RefsExist cfg (s.hgroups.getD []) cq.hostlist.elems
  acyclic : Acyclic (Refs cfg (s.hgroups.getD []))

/-- Occurrences of a name, in any spelling. -/
def nameCount (l : List String) (name : String) : ℕ := l.countP fun x => cfg.sgeHostcmp x name

/-- A name that is taken out does not remain in the list. -/
def TakesOutAll (old : List String) (change : HostlistChange) : Prop :=
  change.subCommand = .remove → ∀ name ∈ resolveReduced getuniquehostname change.reduced,
    nameCount cfg old name ≤ nameCount cfg (resolveReduced getuniquehostname change.reduced) name

/-- Host groups are only referred to when there is a master list. -/
def LooksUp (masterList : Option (List HGroup)) (change : HostlistChange) : Prop :=
  masterList = none → change.subCommand ≠ .remove →
    ∀ name ∈ resolveReduced getuniquehostname change.reduced, isHgroupName name = false

/-- The old host list of a request. -/
def HostRequest.oldElems (s : HostObjects) : HostRequest → List String
  | .hgroupMod _ name _ _ =>
      GridEngine.oldElems ((s.hgroups.bind fun masterList =>
        hgroupListLocate cfg masterList name).map HGroup.hostList)
  | .cqueueMod _ name _ _ =>
      GridEngine.oldElems ((s.cqueues.find? fun cq => cq.name = name).map CqueueHosts.hostlist)
  | _ => []

/-- The request is none of the two kinds. -/
def HostRequest.Careful (s : HostObjects) (e : HostRequest) : Prop :=
  match e with
  | .hgroupMod _ _ (some change) _ | .cqueueMod _ _ (some change) _ =>
      TakesOutAll cfg getuniquehostname (e.oldElems cfg s) change ∧
        LooksUp getuniquehostname s.hgroups change
  | _ => True

section Hash
variable {cfg} {l : HrefList} {elems : List String} {name : String} {k : List Char}

theorem hashed_copyList : (HrefList.copyList cfg elems).Hashed cfg := by
  intro k
  rw [HrefList.copyList, List.mem_map]
  exact Iff.rfl

theorem HrefList.Hashed.appendElem (h : l.Hashed cfg) (name : String) :
    (l.appendElem cfg name).Hashed cfg := by
  intro k
  rw [HrefList.appendElem, List.mem_cons, h k, hostKeys_append, hostKeys_cons, hostKeys_nil]
  simp [or_comm]

theorem HrefList.Hashed.foldl_appendElem (h : l.Hashed cfg) (names : List String) :
    (names.foldl (HrefList.appendElem cfg) l).Hashed cfg := by
  induction names generalizing l with
  | nil => exact h
  | cons name names ih => exact ih (h.appendElem name)

theorem foldl_appendElem_elems (names : List String) (l : HrefList) :
    (names.foldl (HrefList.appendElem cfg) l).elems = l.elems ++ names := by
  induction names generalizing l with
  | nil => simp
  | cons name names ih =>
      rw [List.foldl_cons, ih, HrefList.appendElem, List.append_assoc]
      rfl

theorem nameCount_pos : 0 < nameCount cfg elems name ↔ cfg.hostKey name ∈ hostKeys cfg elems := by
  rw [nameCount, List.countP_pos_iff]
  simp only [sgeHostcmp_iff]
  rfl

theorem nameCount_congr {name' : String} (h : cfg.hostKey name = cfg.hostKey name') :
    nameCount cfg elems name = nameCount cfg elems name' := by
  simp only [nameCount, HostConfig.sgeHostcmp, h]

theorem nameCount_cons (x : String) :
    nameCount cfg (x :: elems) name =
      nameCount cfg elems name + if cfg.hostKey x = cfg.hostKey name then 1 else 0 := by
  rw [nameCount, List.countP_cons, nameCount]
  simp only [sgeHostcmp_iff]

theorem nameCount_erase (hmem : cfg.hostKey name ∈ hostKeys cfg elems) (name' : String) :
    nameCount cfg (elems.eraseP fun x => cfg.sgeHostcmp x name) name' +
      (if cfg.hostKey name = cfg.hostKey name' then 1 else 0) = nameCount cfg elems name' := by
  induction elems with
  | nil => simp at hmem
  | cons x elems ih =>
      rw [List.eraseP_cons]
      by_cases hx : cfg.hostKey x = cfg.hostKey name
      · rw [nameCount_cons, sgeHostcmp_iff.mpr hx, hx]
        rfl
      · have hrest : cfg.hostKey name ∈ hostKeys cfg elems := by
          rw [hostKeys_cons] at hmem
          exact hmem.resolve_left (Ne.symm hx)
        have hcmp : cfg.sgeHostcmp x name = false := by
          rw [← Bool.not_eq_true, sgeHostcmp_iff]
          exact hx
        rw [hcmp, Bool.cond_false, nameCount_cons, nameCount_cons, ← ih hrest]
        omega

/-- What keeps a list hashed while names are taken out: a name that still has to be taken out
occurs often enough among the names to come. -/
structure TakingOut (l : HrefList) (names : List String) : Prop where
  often : ∀ name, cfg.hostKey name ∈ hostKeys cfg names →
    nameCount cfg l.elems name ≤ nameCount cfg names name
  known : ∀ k ∈ hostKeys cfg l.elems, k ∉ hostKeys cfg names → k ∈ l.hashed
  sound : ∀ k ∈ l.hashed, k ∈ hostKeys cfg l.elems

theorem TakingOut.dechainElem {names : List String} (h : @TakingOut cfg l (name :: names))
    (hmem : cfg.hostKey name ∈ hostKeys cfg l.elems) :
    @TakingOut cfg (l.dechainElem cfg name) names := by
  have hcount := @nameCount_erase cfg l.elems name hmem
  have hkeys : ∀ name', cfg.hostKey name ≠ cfg.hostKey name' →
      (cfg.hostKey name' ∈ hostKeys cfg (l.dechainElem cfg name).elems ↔
        cfg.hostKey name' ∈ hostKeys cfg l.elems) := by
    intro name' hne
    have heq := hcount name'
    rw [if_neg hne, Nat.add_zero] at heq
    rw [← nameCount_pos, ← nameCount_pos, HrefList.dechainElem, heq]
  refine ⟨fun name' hname' => ?_, fun k hk hnot => ?_, fun k hk => ?_⟩
  · have hoften := h.often name' (by rw [hostKeys_cons]; exact Or.inr hname')
    rw [nameCount_cons] at hoften
    have heq := hcount name'
    change nameCount cfg (l.elems.eraseP fun x => cfg.sgeHostcmp x name) name' ≤ _
    omega
  · obtain ⟨x, hx, rfl⟩ := hk
    have hpos := nameCount_pos.mpr (@mem_hostKeys cfg _ _ hx)
    by_cases hne : cfg.hostKey name = cfg.hostKey x
    · have hoften := h.often name (by rw [hostKeys_cons]; exact Set.mem_insert _ _)
      have heq := hcount name
      rw [nameCount_cons, if_pos rfl] at hoften
      rw [if_pos rfl] at heq
      have hzero : ¬ 0 < nameCount cfg names name := by
        rw [nameCount_pos, hne]
        exact hnot
      rw [← nameCount_congr hne] at hpos
      change 0 < nameCount cfg (l.elems.eraseP fun x => cfg.sgeHostcmp x name) name at hpos
      omega
    · rw [HrefList.dechainElem, List.mem_filter]
      refine ⟨h.known _ ((hkeys x hne).mp (mem_hostKeys hx)) ?_, by simpa using Ne.symm hne⟩
      rw [hostKeys_cons]
      exact fun hin => hin.elim (fun heq => hne heq.symm) hnot
  · rw [HrefList.dechainElem, List.mem_filter] at hk
    have hne : k ≠ cfg.hostKey name := by simpa using hk.2
    obtain ⟨x, hx, rfl⟩ := h.sound k hk.1
    exact (hkeys x (Ne.symm hne)).mpr (mem_hostKeys hx)

theorem TakingOut.hashed (names : List String) (h : @TakingOut cfg l names) :
    (matchReduced cfg .remove l names).2.Hashed cfg := by
  induction names generalizing l with
  | nil =>
      intro k
      exact ⟨h.sound k, fun hk => h.known k hk (by simp)⟩
  | cons name names ih =>
      rw [matchReduced]
      by_cases hmem : cfg.hostKey name ∈ hostKeys cfg l.elems
      · rw [if_pos (hrefListHasMember_iff.mpr hmem), if_pos rfl]
        exact ih (h.dechainElem hmem)
      · rw [if_neg (fun hin => hmem (hrefListHasMember_iff.mp hin))]
        refine ih ⟨fun name' hname' => ?_, fun k hk hnot => ?_, h.sound⟩
        · have hoften := h.often name' (by rw [hostKeys_cons]; exact Or.inr hname')
          rw [nameCount_cons] at hoften
          split_ifs at hoften with heq
          · have hzero : ¬ 0 < nameCount cfg l.elems name' := by
              rw [nameCount_pos, ← heq]
              exact hmem
            omega
          · exact hoften
        · apply h.known k hk
          rw [hostKeys_cons]
          exact fun hin => hin.elim (fun heq => hmem (heq ▸ hk)) hnot

theorem matchReduced_change (names : List String) :
    (matchReduced cfg .change l names).2 = l ∧
      ∀ x ∈ (matchReduced cfg .change l names).1, x ∈ names := by
  induction names with
  | nil => simp [matchReduced]
  | cons name names ih =>
      rw [matchReduced]
      by_cases hmem : hrefListHasMember cfg l.elems name = true
      · rw [if_pos hmem, if_neg (by simp)]
        exact ⟨ih.1, fun x hx => List.mem_cons_of_mem _ (ih.2 x hx)⟩
      · rw [if_neg hmem]
        refine ⟨ih.1, fun x hx => ?_⟩
        rcases List.mem_cons.mp hx with rfl | hx
        · exact List.mem_cons_self
        · exact List.mem_cons_of_mem _ (ih.2 x hx)

theorem matchReduced_remove_subset (names : List String) (l : HrefList) :
    ∀ x ∈ (matchReduced cfg .remove l names).2.elems, x ∈ l.elems := by
  induction names generalizing l with
  | nil => exact fun x hx => hx
  | cons name names ih =>
      rw [matchReduced]
      by_cases hmem : hrefListHasMember cfg l.elems name = true
      · rw [if_pos hmem, if_pos rfl]
        exact fun x hx => List.mem_of_mem_eraseP (ih _ x hx)
      · rw [if_neg hmem]
        exact ih l

/-- The new host list of a careful request is hashed, and its elements are old ones or, unless
names are taken out, come with the request. -/
theorem attrModSubList_spec {old : List String} {change : HostlistChange}
    {getuniquehostname : String → Option String}
    (hout : TakesOutAll cfg getuniquehostname old change) :
    (attrModSubList cfg change.subCommand (.copyList cfg old)
        (resolveReduced getuniquehostname change.reduced)).2.Hashed cfg ∧
      ∀ x ∈ (attrModSubList cfg change.subCommand (.copyList cfg old)
          (resolveReduced getuniquehostname change.reduced)).2.elems,
        x ∈ old ∨ (change.subCommand ≠ .remove ∧
          x ∈ resolveReduced getuniquehostname change.reduced) := by
  set names := resolveReduced getuniquehostname change.reduced with hnames
  unfold attrModSubList
  cases hsub : change.subCommand with
  | set => exact ⟨hashed_copyList, fun x hx => Or.inr ⟨by simp, hx⟩⟩
  | change =>
      obtain ⟨-, hsubset⟩ := @matchReduced_change cfg (.copyList cfg old) names
      refine ⟨hashed_copyList.foldl_appendElem _, fun x hx => ?_⟩
      rw [foldl_appendElem_elems, List.mem_append] at hx
      exact hx.imp id (fun hx => ⟨by simp, hsubset x hx⟩)
  | append =>
      simp only
      split_ifs
      · exact ⟨hashed_copyList, fun x hx => Or.inl hx⟩
      · refine ⟨hashed_copyList.foldl_appendElem _, fun x hx => ?_⟩
        rw [foldl_appendElem_elems, List.mem_append] at hx
        exact hx.imp id (fun hx => ⟨by simp, hx⟩)
  | remove =>
      refine ⟨TakingOut.hashed names ⟨fun name hname => ?_, fun k hk _ => ?_, fun k hk => ?_⟩,
        fun x hx => Or.inl (matchReduced_remove_subset names _ x hx)⟩
      · obtain ⟨x, hx, hkey⟩ := hname
        rw [nameCount_congr hkey.symm, nameCount_congr hkey.symm]
        exact hout hsub x hx
      · exact (hashed_copyList k).mpr hk
      · exact (hashed_copyList k).mp hk

end Hash

section Store
variable {cfg} {masterList : List HGroup} {hgroup g : HGroup} {s : HostObjects} {l : List String}

/-- The master list after the element of the same name was exchanged. -/
theorem MasterOk.mem_store (h : MasterOk cfg masterList) :
    g ∈ masterList.eraseP (fun g => cfg.sgeHostcmp g.name hgroup.name) ↔
      g ∈ masterList ∧ cfg.hostKey g.name ≠ cfg.hostKey hgroup.name := by
  obtain ⟨hdistinct, -⟩ := h
  induction masterList with
  | nil => simp
  | cons x masterList ih =>
      obtain ⟨hx, hrest⟩ := List.pairwise_cons.mp hdistinct
      by_cases hkey : cfg.hostKey x.name = cfg.hostKey hgroup.name
      · rw [List.eraseP_cons, sgeHostcmp_iff.mpr hkey, cond_true, List.mem_cons]
        constructor
        · intro hg
          exact ⟨Or.inr hg, hkey ▸ (hx g hg).symm⟩
        · rintro ⟨rfl | hg, hne⟩
          · exact absurd hkey hne
          · exact hg
      · have hcmp : cfg.sgeHostcmp x.name hgroup.name = false := by
          rw [← Bool.not_eq_true, sgeHostcmp_iff]
          exact hkey
        rw [List.eraseP_cons, hcmp, cond_false, List.mem_cons, ih hrest, List.mem_cons]
        constructor
        · rintro (rfl | ⟨hg, hne⟩)
          · exact ⟨Or.inl rfl, hkey⟩
          · exact ⟨Or.inr hg, hne⟩
        · rintro ⟨rfl | hg, hne⟩
          · exact Or.inl rfl
          · exact Or.inr ⟨hg, hne⟩

theorem RefsExist.mono {masterList' : List HGroup} (h : RefsExist cfg masterList l)
    (hnames : ∀ g ∈ masterList, ∃ g' ∈ masterList', cfg.hostKey g'.name = cfg.hostKey g.name) :
    RefsExist cfg masterList' l := by
  intro x hx hgroup
  obtain ⟨g, hg, hkey⟩ := h x hx hgroup
  obtain ⟨g', hg', hkey'⟩ := hnames g hg
  exact ⟨g', hg', hkey'.trans hkey⟩

/-- The element may be stored when its references exist and each of them is an old one or does
not lead back to it. -/
theorem HostObjects.Ok.storeHgroup (h : s.Ok cfg) (hname : isHgroupName hgroup.name = true)
    (hhash : hgroup.hostList.Hashed cfg)
    (hexist : RefsExist cfg (s.hgroups.getD []) hgroup.hostList.elems)
    (hnew : ∀ x ∈ hgroup.hostList.elems, isHgroupName x = true →
      Refs cfg (s.hgroups.getD []) (cfg.hostKey hgroup.name) (cfg.hostKey x) ∨
        (cfg.hostKey x ≠ cfg.hostKey hgroup.name ∧
          ¬ TransGen (Refs cfg (s.hgroups.getD [])) (cfg.hostKey x) (cfg.hostKey hgroup.name))) :
    (GridEngine.storeHgroup cfg s hgroup).Ok cfg := by
  set masterList := s.hgroups.getD [] with hmaster
  have hmem : ∀ g, g ∈ (GridEngine.storeHgroup cfg s hgroup).hgroups.getD [] ↔
      (g ∈ masterList ∧ cfg.hostKey g.name ≠ cfg.hostKey hgroup.name) ∨ g = hgroup := by
    intro g
    rw [GridEngine.storeHgroup, Option.getD_some, List.mem_append, h.master.mem_store,
      List.mem_singleton]
  have hnames : ∀ g ∈ masterList,
      ∃ g' ∈ (GridEngine.storeHgroup cfg s hgroup).hgroups.getD [],
        cfg.hostKey g'.name = cfg.hostKey g.name := by
    intro g hg
    by_cases hkey : cfg.hostKey g.name = cfg.hostKey hgroup.name
    · exact ⟨hgroup, (hmem _).mpr (Or.inr rfl), hkey.symm⟩
    · exact ⟨g, (hmem _).mpr (Or.inl ⟨hg, hkey⟩), rfl⟩
  refine ⟨⟨?_, fun g hg => ?_⟩, fun g hg => ?_, h.cqHashed, fun g hg => ?_,
    fun cq hcq => (h.cqExist cq hcq).mono hnames, ?_⟩
  · rw [GridEngine.storeHgroup, Option.getD_some, List.pairwise_append]
    refine ⟨h.master.distinct.sublist List.eraseP_sublist, List.pairwise_singleton _ _, ?_⟩
    intro a ha b hb
    rw [List.mem_singleton.mp hb]
    exact (h.master.mem_store.mp ha).2
  · rcases (hmem g).mp hg with ⟨hg, -⟩ | rfl
    · exact h.master.groupNames g hg
    · exact hname
  · rcases (hmem g).mp hg with ⟨hg, -⟩ | rfl
    · exact h.hashed g hg
    · exact hhash
  · rcases (hmem g).mp hg with ⟨hg, -⟩ | rfl
    · exact (h.exist g hg).mono hnames
    · exact hexist.mono hnames
  · apply h.acyclic.redirect (v := cfg.hostKey hgroup.name)
    · rintro a b hne ⟨g, hg, rfl, href⟩
      rcases (hmem g).mp hg with ⟨hg, -⟩ | rfl
      · exact ⟨g, hg, rfl, href⟩
      · exact absurd rfl hne
    · rintro b ⟨g, hg, hkey, x, hx, hgroup', rfl⟩
      rcases (hmem g).mp hg with ⟨-, hne⟩ | rfl
      · exact absurd hkey hne
      · exact hnew x hx hgroup'

theorem HostObjects.Ok.storeOld (h : s.Ok cfg) (hg : g ∈ s.hgroups.getD []) :
    (GridEngine.storeHgroup cfg s g).Ok cfg :=
  h.storeHgroup (h.master.groupNames g hg) (h.hashed g hg) (h.exist g hg)
    (fun x hx hgroup => Or.inl ⟨g, hg, rfl, x, hx, hgroup, rfl⟩)

theorem HostObjects.Ok.restoreHgroup {old : Option HGroup} {occupantGroups : List String}
    (h : s.Ok cfg) (hold : ∀ g ∈ old, g ∈ s.hgroups.getD []) :
    (GridEngine.restoreHgroup cfg s old occupantGroups).Ok cfg := by
  cases old with
  | none => exact h
  | some old =>
      rw [GridEngine.restoreHgroup]
      split_ifs
      · exact h.storeOld (hold old rfl)
      · exact h

theorem HostObjects.Ok.storeCqueue {cqueue : CqueueHosts} (h : s.Ok cfg)
    (hhash : cqueue.hostlist.Hashed cfg)
    (hexist : RefsExist cfg (s.hgroups.getD []) cqueue.hostlist.elems) :
    (GridEngine.storeCqueue s cqueue).Ok cfg := by
  have hmem : ∀ cq ∈ (GridEngine.storeCqueue s cqueue).cqueues, cq ∈ s.cqueues ∨ cq = cqueue := by
    intro cq hcq
    rw [GridEngine.storeCqueue, List.mem_append, List.mem_singleton] at hcq
    exact hcq.imp List.mem_of_mem_eraseP id
  refine ⟨h.master, h.hashed, fun cq hcq => ?_, h.exist, fun cq hcq => ?_, h.acyclic⟩
  · rcases hmem cq hcq with hcq | rfl
    · exact h.cqHashed cq hcq
    · exact hhash
  · rcases hmem cq hcq with hcq | rfl
    · exact h.cqExist cq hcq
    · exact hexist

theorem HostObjects.Ok.cqueueDel (h : s.Ok cfg) (name : String) (later : Bool) :
    (GridEngine.cqueueDel s name later).Ok cfg := by
  rw [GridEngine.cqueueDel]
  split_ifs
  · exact ⟨h.master, h.hashed, fun cq hcq => h.cqHashed cq (List.mem_of_mem_eraseP hcq), h.exist,
      fun cq hcq => h.cqExist cq (List.mem_of_mem_eraseP hcq), h.acyclic⟩
  · exact h

end Store

end GridEngine
