import GridEngine.SlotwiseTreeSearch

/-!
# Runs of requests for cluster queues

A request replaces the edges out of one cluster queue. A new edge closes a cycle when it leads to a
superordinate. The check sees the superordinates below the top of one chain, and only for
subordinates whose names are new in the list.
-/

namespace GridEngine
open ReferenceGraph Relation ExceptLoops Machine KeyedLists

namespace Slotwise

section Handling
variable {master : List Cqueue} {request : Request} {fuel : ℕ} {host : String} {ret : Bool}
  {qinstances added mods : List Qinstance} {q q' node : Qinstance} {cq cqueue : Cqueue}

/-- What becomes of the subordinate list of a queue instance: it stays, or the check lets the new
one pass, or the check does not. -/
structure Modified (master : List Cqueue) (request : Request) (fuel : ℕ) (node : Qinstance)
    (ret : Bool) (q : Qinstance) : Prop where
  qname : q.qname = node.qname
  qhostname : q.qhostname = node.qhostname
  same : node.subordinateList = request.newValue node.qhostname →
    ret = true ∧ q.subordinateList = node.subordinateList
  changed : node.subordinateList ≠ request.newValue node.qhostname →
    checkNewSlotwiseSubordinateTree master fuel node
      (lDiffListStr node.subordinateList (request.newValue node.qhostname)) = .ok ret ∧
    q.subordinateList =
      if ret then request.newValue node.qhostname else node.subordinateList

theorem qinstanceModifyAttribute_spec
    (h : qinstanceModifyAttribute master fuel request node = .ok (ret, q)) :
    Modified master request fuel node ret q := by
  rw [qinstanceModifyAttribute] at h
  split_ifs at h with hsame
  · cases h
    exact ⟨rfl, rfl, fun _ => ⟨rfl, rfl⟩, fun hne => absurd hsame hne⟩
  · obtain ⟨valid, hcheck, h⟩ := bind_ok_iff.mp h
    cases valid with
    | false =>
        cases h
        exact ⟨rfl, rfl, fun heq => absurd heq hsame, fun _ => ⟨hcheck, rfl⟩⟩
    | true =>
        cases h
        exact ⟨rfl, rfl, fun heq => absurd heq hsame, fun _ => ⟨hcheck, rfl⟩⟩

theorem cqueueModQinstances_spec (h : cqueueModQinstances master fuel request qinstances = .ok mods) :
    List.Forall₂ (fun q q' => q'.qname = q.qname ∧ q'.qhostname = q.qhostname ∧
      (request.deleted q.qhostname = false → Modified master request fuel q true q'))
      qinstances mods := by
  apply (forall₂_of_mapM h).imp
  intro q q' hq'
  by_cases hdeleted : request.deleted q.qhostname = true
  · rw [if_pos hdeleted] at hq'
    cases hq'
    exact ⟨rfl, rfl, fun hstays => absurd hdeleted (by simp [hstays])⟩
  · rw [if_neg hdeleted] at hq'
    obtain ⟨⟨ret, q₁⟩, hmodify, hq'⟩ := bind_ok_iff.mp hq'
    cases ret with
    | false => exact nomatch hq'
    | true =>
        cases hq'
        have hmodified := qinstanceModifyAttribute_spec hmodify
        exact ⟨hmodified.qname, hmodified.qhostname, fun _ => hmodified⟩

theorem qinstanceCreate_spec (h : qinstanceCreate master fuel request host = .ok q) :
    ∃ ret, Modified master request fuel ⟨request.name, host, []⟩ ret q := by
  obtain ⟨⟨ret, q'⟩, hmodify, h⟩ := bind_ok_iff.mp h
  cases h
  exact ⟨ret, qinstanceModifyAttribute_spec hmodify⟩

/-- The queue instances that are added, one for each of the hosts. -/
structure Added (master : List Cqueue) (request : Request) (fuel : ℕ) (mods : List Qinstance)
    (hosts : List String) (added : List Qinstance) : Prop where
  created : ∀ q ∈ added, q.qhostname ∈ hosts ∧ (∀ q' ∈ mods, q'.qhostname ≠ q.qhostname) ∧
    ∃ ret, Modified master request fuel ⟨request.name, q.qhostname, []⟩ ret q
  complete : ∀ host ∈ hosts, (∀ q' ∈ mods, q'.qhostname ≠ host) →
    ∃ q ∈ added, q.qhostname = host
  distinct : (added.map Qinstance.qhostname).Nodup

theorem cqueueAddQinstances_spec (h : cqueueAddQinstances master fuel request mods = .ok added) :
    Added master request fuel mods request.addHosts added := by
  rw [cqueueAddQinstances] at h
  generalize request.addHosts = hosts at h
  induction hosts using List.reverseRecOn generalizing added with
  | nil =>
      cases foldlM_nil_ok_iff.mp h
      exact ⟨by simp, by simp, List.nodup_nil⟩
  | append_singleton hosts host ih =>
      rw [List.foldlM_append] at h
      obtain ⟨added₁, hbefore, h⟩ := bind_ok_iff.mp h
      obtain ⟨added₂, hround, h⟩ := foldlM_cons_ok_iff.mp h
      cases foldlM_nil_ok_iff.mp h
      have hprev := ih hbefore
      have hkeep : ∀ q ∈ added₁, q.qhostname ∈ hosts ++ [host] ∧
          (∀ q' ∈ mods, q'.qhostname ≠ q.qhostname) ∧
          ∃ ret, Modified master request fuel ⟨request.name, q.qhostname, []⟩ ret q := by
        intro q hq
        obtain ⟨hmem, hrest⟩ := hprev.created q hq
        exact ⟨List.mem_append_left _ hmem, hrest⟩
      by_cases hexists : ((mods ++ added₁).any fun q => q.qhostname = host) = true
      · rw [if_pos hexists] at hround
        cases hround
        refine ⟨hkeep, ?_, hprev.distinct⟩
        intro host' hhost' hnone
        rcases List.mem_append.mp hhost' with hold | hlast
        · exact hprev.complete host' hold hnone
        · rw [List.mem_singleton.mp hlast] at hnone ⊢
          obtain ⟨q, hq, hqhost⟩ := List.any_eq_true.mp hexists
          rw [decide_eq_true_iff] at hqhost
          rcases List.mem_append.mp hq with hmod | hadded
          · exact absurd hqhost (hnone q hmod)
          · exact ⟨q, hadded, hqhost⟩
      · rw [if_neg hexists] at hround
        obtain ⟨q, hcreate, hround⟩ := bind_ok_iff.mp hround
        cases hround
        obtain ⟨ret, hmodified⟩ := qinstanceCreate_spec hcreate
        have hqhost : q.qhostname = host := hmodified.qhostname
        have hfresh : ∀ q' ∈ mods ++ added₁, q'.qhostname ≠ host := by
          intro q' hq' heq
          exact hexists (List.any_eq_true.mpr ⟨q', hq', by simpa using heq⟩)
        refine ⟨?_, ?_, ?_⟩
        · intro q' hq'
          rcases List.mem_append.mp hq' with hold | hlast
          · exact hkeep q' hold
          · rw [List.mem_singleton.mp hlast, hqhost]
            exact ⟨by simp, fun q' hq' => hfresh q' (List.mem_append_left _ hq'), ret, hmodified⟩
        · intro host' hhost' hnone
          rcases List.mem_append.mp hhost' with hold | hlast
          · obtain ⟨q', hq', heq⟩ := hprev.complete host' hold hnone
            exact ⟨q', List.mem_append_left _ hq', heq⟩
          · exact ⟨q, by simp, hqhost.trans (List.mem_singleton.mp hlast).symm⟩
        · rw [List.map_append, List.map_singleton, List.nodup_append]
          refine ⟨hprev.distinct, List.nodup_singleton _, ?_⟩
          intro host' hhost' host'' hlast
          obtain ⟨q', hq', rfl⟩ := List.mem_map.mp hhost'
          rw [List.mem_singleton.mp hlast, hqhost]
          exact hfresh q' (List.mem_append_right _ hq')

end Handling

section Step
variable {master master' : List Cqueue} {request : Request} {fuel : ℕ} {host name a b : String}
  {q q' node : Qinstance} {cq cqueue : Cqueue}

/-- The queue instances whose subordinate list a request looks at: those that stay, and new ones
without subordinates. -/
def Handled (master : List Cqueue) (request : Request) (node : Qinstance) : Prop :=
  node.qname = request.name ∧
    (located master node.qhostname request.name = some node ∧
        request.deleted node.qhostname = false ∨
      located master node.qhostname request.name = none ∧ node.subordinateList = [] ∧
        node.qhostname ∈ request.addHosts)

/-- What a request makes of its cluster queue. -/
structure Changed (master : List Cqueue) (request : Request) (fuel : ℕ) (cqueue : Cqueue) :
    Prop where
  name : cqueue.name = request.name
  plain : '@' ∉ request.name.toList
  hosts : (cqueue.qinstances.map Qinstance.qhostname).Nodup
  of_mem : ∀ q ∈ cqueue.qinstances, ∃ node ret, Handled master request node ∧
    Modified master request fuel node ret q
  exists_mem : ∀ node, Handled master request node → ∃ q ∈ cqueue.qinstances, ∃ ret,
    Modified master request fuel node ret q

theorem plain_of_verifyStrKey {str : String} (h : verifyStrKey str = true) : '@' ∉ str.toList := by
  intro hat
  simp only [verifyStrKey, Bool.and_eq_true, List.all_eq_true] at h
  have hchar := h.1.2 '@' hat
  simp [midCharacters] at hchar

theorem Ok.mem_old (h : Ok master) :
    q ∈ ((cqueueListLocate master name).getD ⟨name, []⟩).qinstances ↔
      located master q.qhostname name = some q := by
  rw [h.located_iff]
  cases hcq : cqueueListLocate master name with
  | none =>
      constructor
      · intro hq
        exact absurd hq List.not_mem_nil
      · rintro ⟨cq, hcq', hname, -⟩
        have hsome := (find?_key_iff h.distinct).mpr ⟨hcq', hname⟩
        rw [cqueueListLocate] at hcq
        rw [hcq] at hsome
        exact nomatch hsome
  | some cq =>
      obtain ⟨hmem, hname⟩ := (find?_key_iff h.distinct).mp hcq
      constructor
      · intro hq
        exact ⟨cq, hmem, hname, hq, rfl⟩
      · rintro ⟨cq', hcq', hname', hq, -⟩
        have hsame := (find?_key_iff h.distinct).mpr ⟨hcq', hname'⟩
        rw [cqueueListLocate] at hcq
        rw [hcq] at hsame
        cases hsame
        exact hq

theorem Ok.hosts_old (h : Ok master) :
    (((cqueueListLocate master name).getD ⟨name, []⟩).qinstances.map Qinstance.qhostname).Nodup := by
  cases hcq : cqueueListLocate master name with
  | none => exact List.nodup_nil
  | some cq => exact h.hosts cq (List.mem_of_find?_eq_some hcq)

/-- The queue instances of a handled cluster queue come from the old ones and the new hosts. -/
theorem Ok.changed_of_handle (h : Ok master) (hplain : '@' ∉ request.name.toList)
    (hhandle : cqueueHandleQinstances master fuel request
      ((cqueueListLocate master request.name).getD ⟨request.name, []⟩) = .ok cqueue) :
    Changed master request fuel cqueue := by
  obtain ⟨mods, hmods, hhandle⟩ := bind_ok_iff.mp hhandle
  obtain ⟨added, hadded, hhandle⟩ := bind_ok_iff.mp hhandle
  cases hhandle
  have hmods := cqueueModQinstances_spec hmods
  have hadded := cqueueAddQinstances_spec hadded
  have hmodHosts : mods.map Qinstance.qhostname =
      ((cqueueListLocate master request.name).getD ⟨request.name, []⟩).qinstances.map
        Qinstance.qhostname := by
    rw [← List.forall₂_eq_eq_eq, List.forall₂_map_left_iff, List.forall₂_map_right_iff]
    exact (hmods.imp fun q q' hq' => hq'.2.1).flip
  have hnew : ∀ host, (∀ q' ∈ mods, q'.qhostname ≠ host) ↔
      located master host request.name = none := by
    intro host
    rw [Option.eq_none_iff_forall_not_mem]
    constructor
    · intro hnone q hq
      obtain ⟨-, rfl⟩ := h.located_names hq
      obtain ⟨q', hq', -, hhost, -⟩ := exists_of_mem_left hmods (h.mem_old.mpr hq)
      exact hnone q' hq' hhost
    · rintro hnone q' hq' rfl
      obtain ⟨q, hq, -, hhost, -⟩ := exists_of_mem_right hmods hq'
      rw [hhost] at hnone
      exact hnone q (h.mem_old.mp hq)
  refine ⟨rfl, hplain, ?_, ?_, ?_⟩
  · rw [List.map_append, List.nodup_append]
    refine ⟨((List.filter_sublist).map _).nodup (hmodHosts ▸ h.hosts_old), hadded.distinct, ?_⟩
    intro host hhost host' hhost'
    obtain ⟨q, hq, rfl⟩ := List.mem_map.mp hhost
    obtain ⟨q', hq', rfl⟩ := List.mem_map.mp hhost'
    exact (hadded.created q' hq').2.1 q (List.mem_of_mem_filter hq)
  · intro q' hq'
    rcases List.mem_append.mp hq' with hold | hadd
    · obtain ⟨hmem, hstays⟩ := List.mem_filter.mp hold
      obtain ⟨q, hq, -, hhost, hmodified⟩ := exists_of_mem_right hmods hmem
      rw [hhost, Bool.not_eq_true'] at hstays
      have hlocated := h.mem_old.mp hq
      exact ⟨q, true, ⟨(h.located_names hlocated).1, Or.inl ⟨hlocated, hstays⟩⟩,
        hmodified hstays⟩
    · obtain ⟨hhost, hfresh, ret, hmodified⟩ := hadded.created q' hadd
      exact ⟨⟨request.name, q'.qhostname, []⟩, ret,
        ⟨rfl, Or.inr ⟨(hnew _).mp hfresh, rfl, hhost⟩⟩, hmodified⟩
  · rintro node ⟨hname, ⟨hlocated, hstays⟩ | ⟨hnone, hempty, hhost⟩⟩
    · obtain ⟨q', hq', -, hhost, hmodified⟩ := exists_of_mem_left hmods (h.mem_old.mpr hlocated)
      have hmem : q' ∈ mods.filter fun q => !request.deleted q.qhostname :=
        List.mem_filter.mpr ⟨hq', by rw [hhost, hstays]; rfl⟩
      exact ⟨q', List.mem_append_left _ hmem, true, hmodified hstays⟩
    · obtain ⟨q', hq', heq⟩ := hadded.complete _ hhost ((hnew _).mpr hnone)
      obtain ⟨-, -, ret, hmodified⟩ := hadded.created q' hq'
      have hnode : node = ⟨request.name, q'.qhostname, []⟩ := by
        cases node
        simp_all
      exact ⟨q', List.mem_append_right _ hq', ret, hnode ▸ hmodified⟩

theorem Ok.cqueueMod_spec (h : Ok master) (hmod : cqueueMod master fuel request = .ok master') :
    ∃ cqueue, Changed master request fuel cqueue ∧
      master' = master.eraseP (fun cq => cq.name = request.name) ++ [cqueue] := by
  rw [cqueueMod] at hmod
  split_ifs at hmod with hrefused
  · obtain ⟨cqueue, hhandle, hmod⟩ := bind_ok_iff.mp hmod
    cases hmod
    rw [Bool.or_eq_true, not_or] at hrefused
    have hplain : '@' ∉ request.name.toList := by
      cases hadd : request.add with
      | true =>
          apply plain_of_verifyStrKey
          simpa [hadd] using hrefused.2
      | false =>
          have hold : (cqueueListLocate master request.name).isSome := by
            rw [Option.isSome_iff_ne_none]
            simpa [hadd] using hrefused.1
          obtain ⟨cq, hcq⟩ := Option.isSome_iff_exists.mp hold
          obtain ⟨hmem, hname⟩ := (find?_key_iff h.distinct).mp hcq
          rw [← hname]
          exact h.plain cq hmem
    exact ⟨cqueue, h.changed_of_handle hplain hhandle, rfl⟩

theorem mem_replaced {l : List Cqueue} (hdistinct : (l.map Cqueue.name).Nodup) :
    cq ∈ l.eraseP (fun cq => cq.name = name) ↔ cq ∈ l ∧ cq.name ≠ name := by
  induction l with
  | nil => simp
  | cons cq' l ih =>
      obtain ⟨hfresh, hdistinct⟩ := List.nodup_cons.mp hdistinct
      by_cases hname : cq'.name = name
      · rw [List.eraseP_cons_of_pos (by simpa using hname), List.mem_cons]
        constructor
        · intro hcq
          refine ⟨Or.inr hcq, fun heq => hfresh ?_⟩
          rw [hname, ← heq]
          exact List.mem_map_of_mem hcq
        · rintro ⟨rfl | hcq, hne⟩
          · exact absurd hname hne
          · exact hcq
      · rw [List.eraseP_cons_of_neg (by simpa using hname), List.mem_cons, List.mem_cons,
          ih hdistinct]
        constructor
        · rintro (rfl | ⟨hcq, hne⟩)
          · exact ⟨Or.inl rfl, hname⟩
          · exact ⟨Or.inr hcq, hne⟩
        · rintro ⟨rfl | hcq, hne⟩
          · exact Or.inl rfl
          · exact Or.inr ⟨hcq, hne⟩

theorem Ok.mem_replaced (h : Ok master) :
    cq ∈ master.eraseP (fun cq => cq.name = request.name) ++ [cqueue] ↔
      cq ∈ master ∧ cq.name ≠ request.name ∨ cq = cqueue := by
  rw [List.mem_append, Slotwise.mem_replaced h.distinct, List.mem_singleton]

/-- The values of a request name other cluster queues that exist. -/
def Verified (master : List Cqueue) (request : Request) : Prop :=
  ∀ host, ∀ so ∈ request.newValue host, so.name ≠ request.name ∧
    ∃ cq ∈ master, cq.name = so.name

theorem verified_of_verify (h : ∀ host,
    cqueueVerifySubordinateList master request (request.newValue host) = true) :
    Verified master request := by
  intro host so hso
  have hverify := List.all_eq_true.mp (h host) so hso
  rw [Bool.and_eq_true, decide_eq_true_iff, Option.isSome_iff_exists] at hverify
  obtain ⟨hne, cq, hcq⟩ := hverify
  exact ⟨hne, cq, List.mem_of_find?_eq_some hcq, by simpa using List.find?_some hcq⟩

/-- The subordinates of a changed queue instance were there before or are new ones. -/
theorem Modified.mem {ret : Bool} {so : Subordinate}
    (h : Modified master request fuel node ret q) (hso : so ∈ q.subordinateList) :
    so ∈ node.subordinateList ∨ so ∈ request.newValue node.qhostname := by
  by_cases hsame : node.subordinateList = request.newValue node.qhostname
  · rw [(h.same hsame).2] at hso
    exact Or.inl hso
  · rw [(h.changed hsame).2] at hso
    split_ifs at hso
    · exact Or.inr hso
    · exact Or.inl hso

theorem Handled.mem {so : Subordinate} (h : Ok master) (hnode : Handled master request node)
    (hso : so ∈ node.subordinateList) : ∃ cq ∈ master, cq.name = so.name := by
  rcases hnode.2 with ⟨hlocated, -⟩ | ⟨-, hempty, -⟩
  · obtain ⟨cq, hcq, -, hmem, -⟩ := h.located_iff.mp hlocated
    exact h.named cq hcq node hmem so hso
  · rw [hempty] at hso
    exact absurd hso List.not_mem_nil

theorem Ok.replace (h : Ok master) (hverified : Verified master request)
    (hchanged : Changed master request fuel cqueue) :
    Ok (master.eraseP (fun cq => cq.name = request.name) ++ [cqueue]) := by
  have hmem := fun cq => @Ok.mem_replaced master request cq cqueue h
  have hexists : ∀ name, (∃ cq ∈ master, cq.name = name) →
      ∃ cq ∈ master.eraseP (fun cq => cq.name = request.name) ++ [cqueue], cq.name = name := by
    rintro name ⟨cq, hcq, rfl⟩
    by_cases hname : cq.name = request.name
    · exact ⟨cqueue, (hmem _).mpr (Or.inr rfl), hchanged.name.trans hname.symm⟩
    · exact ⟨cq, (hmem _).mpr (Or.inl ⟨hcq, hname⟩), rfl⟩
  constructor
  · rw [List.map_append, List.map_singleton, List.nodup_append]
    refine ⟨(List.eraseP_sublist.map _).nodup h.distinct, List.nodup_singleton _, ?_⟩
    intro name hname name' hlast
    obtain ⟨cq, hcq, rfl⟩ := List.mem_map.mp hname
    rw [List.mem_singleton.mp hlast, hchanged.name]
    exact ((Slotwise.mem_replaced h.distinct).mp hcq).2
  · intro cq hcq
    rcases (hmem cq).mp hcq with ⟨hcq, -⟩ | rfl
    · exact h.plain cq hcq
    · rw [hchanged.name]
      exact hchanged.plain
  · intro cq hcq
    rcases (hmem cq).mp hcq with ⟨hcq, -⟩ | rfl
    · exact h.hosts cq hcq
    · exact hchanged.hosts
  · intro cq hcq q hq
    rcases (hmem cq).mp hcq with ⟨hcq, -⟩ | rfl
    · exact h.qname cq hcq q hq
    · obtain ⟨node, ret, hnode, hmodified⟩ := hchanged.of_mem q hq
      rw [hmodified.qname, hnode.1, hchanged.name]
  · intro cq hcq q hq so hso
    apply hexists
    rcases (hmem cq).mp hcq with ⟨hcq, -⟩ | rfl
    · exact h.named cq hcq q hq so hso
    · obtain ⟨node, ret, hnode, hmodified⟩ := hchanged.of_mem q hq
      rcases hmodified.mem hso with hold | hnew
      · exact hnode.mem h hold
      · exact (hverified _ so hnew).2

/-- Only the queue instances of the cluster queue of a request change. -/
theorem Ok.located_replace (h : Ok master) (hverified : Verified master request)
    (hchanged : Changed master request fuel cqueue) :
    located (master.eraseP (fun cq => cq.name = request.name) ++ [cqueue]) host name = some q ↔
      name ≠ request.name ∧ located master host name = some q ∨
        name = request.name ∧ q ∈ cqueue.qinstances ∧ q.qhostname = host := by
  rw [(h.replace hverified hchanged).located_iff, h.located_iff]
  constructor
  · rintro ⟨cq, hcq, rfl, hq⟩
    rcases h.mem_replaced.mp hcq with ⟨hcq, hne⟩ | rfl
    · exact Or.inl ⟨hne, cq, hcq, rfl, hq⟩
    · exact Or.inr ⟨hchanged.name, hq⟩
  · rintro (⟨hne, cq, hcq, rfl, hq⟩ | ⟨rfl, hq⟩)
    · exact ⟨cq, h.mem_replaced.mpr (Or.inl ⟨hcq, hne⟩), rfl, hq⟩
    · exact ⟨cqueue, h.mem_replaced.mpr (Or.inr rfl), hchanged.name, hq⟩

end Step

section Cycles
variable {master master' : List Cqueue} {request : Request} {fuel : ℕ} {host a b : String}
  {node : Qinstance} {cqueue : Cqueue}

/-- Whenever a superordinate becomes a slotwise subordinate, one of the subordinates with a new name
is in the tree that the check looks at. -/
def Seen (master : List Cqueue) (request : Request) : Prop :=
  ∀ node, Handled master request node →
    node.subordinateList ≠ request.newValue node.qhostname →
    (∃ so ∈ request.newValue node.qhostname, 0 < so.slotsSum ∧
      TransGen (Super master node.qhostname) so.name node.qname) →
    Caught master node (lDiffListStr node.subordinateList (request.newValue node.qhostname))

/-- On no host a queue instance is below itself. -/
def NoCycles (master : List Cqueue) : Prop := ∀ host, Acyclic (Super master host)

theorem Handled.located_or (hnode : Handled master request node) :
    located master node.qhostname node.qname = some node ∨ node.subordinateList = [] := by
  rw [hnode.1]
  rcases hnode.2 with ⟨hlocated, -⟩ | ⟨-, hempty, -⟩
  · exact Or.inl hlocated
  · exact Or.inr hempty

theorem Ok.super_replace (h : Ok master) (hverified : Verified master request)
    (hchanged : Changed master request fuel cqueue) (ha : a ≠ request.name) :
    Super (master.eraseP (fun cq => cq.name = request.name) ++ [cqueue]) host a b ↔
      Super master host a b := by
  simp only [Super, h.located_replace hverified hchanged, ha, ne_eq, not_false_eq_true, true_and,
    false_and, or_false]

/-- Where the graph stays free of cycles, the check has seen what it has to see. -/
theorem Ok.seen_of_noCycles (h : Ok master) (hverified : Verified master request)
    (hchanged : Changed master request fuel cqueue)
    (hno : NoCycles (master.eraseP (fun cq => cq.name = request.name) ++ [cqueue])) :
    Seen master request := by
  rintro node hnode hne ⟨so, hso, hslots, hpath⟩
  obtain ⟨q, hq, ret, hmodified⟩ := hchanged.exists_mem node hnode
  obtain ⟨hcheck, hlist⟩ := hmodified.changed hne
  cases ret with
  | false => exact (h.check_spec hnode.located_or hcheck).mp rfl
  | true =>
      rw [hnode.1] at hpath
      rw [if_pos rfl] at hlist
      have hlocated : located _ node.qhostname request.name = some q :=
        (h.located_replace hverified hchanged).mpr (Or.inr ⟨rfl, hq, hmodified.qhostname⟩)
      have hback := path_into
        (fun a b ha hab => (h.super_replace hverified hchanged ha).mpr hab) hpath.to_reflTransGen
      exact absurd (TransGen.head' ⟨q, hlocated, so, hlist ▸ hso, rfl, hslots⟩ hback)
        (hno node.qhostname request.name)

/-- Where the check sees what it has to see, no new edge closes a cycle. -/
theorem Ok.noCycles_of_seen (h : Ok master) (hacyclic : NoCycles master)
    (hverified : Verified master request) (hchanged : Changed master request fuel cqueue)
    (hseen : Seen master request) :
    NoCycles (master.eraseP (fun cq => cq.name = request.name) ++ [cqueue]) := by
  intro host
  apply (hacyclic host).redirect
    (fun a b ha hab => (h.super_replace hverified hchanged ha).mp hab)
  rintro b ⟨q, hlocated, so, hso, rfl, hslots⟩
  obtain ⟨hne, -⟩ | ⟨-, hq, rfl⟩ := (h.located_replace hverified hchanged).mp hlocated
  · exact absurd rfl hne
  obtain ⟨node, ret, hnode, hmodified⟩ := hchanged.of_mem q hq
  rw [hmodified.qhostname]
  have hold : so ∈ node.subordinateList → Super master node.qhostname request.name so.name := by
    intro hmem
    rcases hnode.2 with ⟨hlocated, -⟩ | ⟨-, hempty, -⟩
    · exact ⟨node, hlocated, so, hmem, rfl, hslots⟩
    · rw [hempty] at hmem
      exact absurd hmem List.not_mem_nil
  by_cases hsame : node.subordinateList = request.newValue node.qhostname
  · rw [(hmodified.same hsame).2] at hso
    exact Or.inl (hold hso)
  obtain ⟨hcheck, hlist⟩ := hmodified.changed hsame
  rw [hlist] at hso
  cases ret with
  | false => exact Or.inl (hold hso)
  | true =>
      refine Or.inr ⟨(hverified _ so hso).1, fun hpath => ?_⟩
      rw [← hnode.1] at hpath
      have hcaught := hseen node hnode hsame ⟨so, hso, hslots, hpath⟩
      exact absurd ((h.check_spec hnode.located_or hcheck).mpr hcaught) (by decide)

/-- An accepted request keeps the graph free of cycles when the check sees what it has to see. -/
theorem Ok.noCycles_iff (h : Ok master) (hacyclic : NoCycles master)
    (haccepted : Accepted master request master') :
    Ok master' ∧ (NoCycles master' ↔ Seen master request) := by
  obtain ⟨hverify, fuel, hmod⟩ := haccepted
  have hverified := verified_of_verify hverify
  obtain ⟨cqueue, hchanged, rfl⟩ := h.cqueueMod_spec hmod
  exact ⟨h.replace hverified hchanged, h.seen_of_noCycles hverified hchanged,
    h.noCycles_of_seen hacyclic hverified hchanged⟩

end Cycles

section Runs
variable {start master : List Cqueue} {requests : List Request}

/-- No queue instance has subordinates. -/
def NoSubordination (master : List Cqueue) : Prop :=
  ∀ cq ∈ master, ∀ q ∈ cq.qinstances, q.subordinateList = []

/-- The climb to the root of the tree of a queue instance and the descent from one come to their
ends. -/
def SearchEnds (master : List Cqueue) (q : Qinstance) : Prop :=
  ∃ N, ∀ fuel ≥ N, (∃ root, getSlotwiseSosTreeRoot master fuel q = .ok root) ∧
    ∃ tree, getSlotwiseSosSubTreeQinstances master fuel q = .ok tree

/-- The graph has no cycles, and searches come to their ends. -/
structure Searchable (master : List Cqueue) : Prop where
  noCycles : NoCycles master
  ends : ∀ cq ∈ master, ∀ q ∈ cq.qinstances, SearchEnds master q

theorem Ok.searchable_iff (h : Ok master) : Searchable master ↔ NoCycles master := by
  refine ⟨Searchable.noCycles, fun hacyclic => ⟨hacyclic, fun cq hcq q hq => ?_⟩⟩
  have hlocated := h.located_iff.mpr ⟨cq, hcq, rfl, hq, rfl⟩
  use max (height (Function.swap (Super master q.qhostname)) q.qname + 1)
    (height (Super master q.qhostname) cq.name + 1)
  intro fuel hfuel
  rw [ge_iff_le, max_le_iff] at hfuel
  exact ⟨h.climb_ends (hacyclic _) rfl hfuel.1, h.descent_ends (hacyclic _) hlocated hfuel.2 _ _⟩

theorem NoSubordination.not_path (h : Ok master) (hnone : NoSubordination master)
    (host a b : String) : ¬ TransGen (Super master host) a b := by
  intro hab
  obtain ⟨c, ⟨q, hq, so, hso, -⟩, -⟩ := TransGen.head'_iff.mp hab
  obtain ⟨cq, hcq, -, hmem, -⟩ := h.located_iff.mp hq
  rw [hnone cq hcq q hmem] at hso
  exact List.not_mem_nil hso

theorem NoSubordination.noCycles (h : Ok master) (hnone : NoSubordination master) :
    NoCycles master := fun host a => hnone.not_path h host a a

/-- A request that gives a cluster queue one slotwise subordinate on all hosts. -/
def subordinateTo (name sub : String) : Request where
  add := false
  name := name
  addHosts := []
  deleted := fun _ => false
  newValue := fun _ => [⟨sub, 0, 1, 0, 0⟩]

/-- Three cluster queues on one host. -/
def threeQueues : List Cqueue :=
  [⟨"a", [⟨"a", "host", []⟩]⟩, ⟨"b", [⟨"b", "host", []⟩]⟩, ⟨"c", [⟨"c", "host", []⟩]⟩]

theorem threeQueues_ok : Ok threeQueues where
  distinct := by decide
  plain := by simp [threeQueues]
  hosts := by simp [threeQueues]
  qname := by simp [threeQueues]
  named := by simp [threeQueues]

theorem threeQueues_noSubordination : NoSubordination threeQueues := by
  simp [NoSubordination, threeQueues]

end Runs

end Slotwise

end GridEngine
