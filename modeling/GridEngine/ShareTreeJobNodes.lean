import GridEngine.TicketAssignments
import Mathlib.Data.List.Perm.Subperm

/-!
# The job nodes of the share tree

A task gets one job node, for its node of the share tree. Pruning and sorting lose job nodes but
add none, so that the share tree policy assigns tickets to every task at most once.
-/

namespace GridEngine.TicketPolicies
open Comparators CullSort

section Trees
variable {K : Type}

mutual

/-- The tasks of the job nodes. -/
def ShareNode.refs : ShareNode K → List ℕ
  | .job jobNode => [jobNode.ref]
  | .node _ _ _ children => refsBelow children

def refsBelow : List (ShareNode K) → List ℕ
  | [] => []
  | child :: children => child.refs ++ refsBelow children

end

mutual

/-- The ids of the nodes. -/
def ShareNode.ids : ShareNode K → List ℕ
  | .job _ => []
  | .node id _ _ children => id :: idsBelow children

def idsBelow : List (ShareNode K) → List ℕ
  | [] => []
  | child :: children => child.ids ++ idsBelow children

end

mutual

/-- The entitlements of the nodes and the job nodes. -/
def ShareNode.entitlements : ShareNode K → List K
  | .job jobNode => [jobNode.shr]
  | .node _ _ stt children => stt :: entitlementsBelow children

def entitlementsBelow : List (ShareNode K) → List K
  | [] => []
  | child :: children => child.entitlements ++ entitlementsBelow children

end

theorem refsBelow_append (children children' : List (ShareNode K)) :
    refsBelow (children ++ children') = refsBelow children ++ refsBelow children' := by
  induction children with
  | nil => rfl
  | cons child children ih =>
      rw [List.cons_append, refsBelow, ih, refsBelow, List.append_assoc]

theorem idsBelow_append (children children' : List (ShareNode K)) :
    idsBelow (children ++ children') = idsBelow children ++ idsBelow children' := by
  induction children with
  | nil => rfl
  | cons child children ih =>
      rw [List.cons_append, idsBelow, ih, idsBelow, List.append_assoc]

theorem entitlementsBelow_append (children children' : List (ShareNode K)) :
    entitlementsBelow (children ++ children') =
      entitlementsBelow children ++ entitlementsBelow children' := by
  induction children with
  | nil => rfl
  | cons child children ih =>
      rw [List.cons_append, entitlementsBelow, ih, entitlementsBelow, List.append_assoc]

end Trees

section Adding
variable {K : Type} (id : ℕ) (jobNode : JobNode K)

mutual

theorem refs_addJobNode : ∀ tree : ShareNode K,
    (addJobNode id jobNode tree).refs.Perm
      (List.replicate (tree.ids.count id) jobNode.ref ++ tree.refs)
  | .job _ => List.Perm.refl _
  | .node id' jobRefCount stt children => by
      have h := refs_addJobNodes children
      rw [addJobNode, ShareNode.refs, refsBelow_append, ShareNode.ids, ShareNode.refs]
      by_cases hid : id' = id
      · rw [if_pos hid, hid, List.count_cons_self, List.replicate_succ, List.cons_append]
        exact (List.perm_append_comm.trans (h.cons jobNode.ref))
      · rw [if_neg hid, List.count_cons_of_ne hid, refsBelow, List.append_nil]
        exact h

theorem refs_addJobNodes : ∀ children : List (ShareNode K),
    (refsBelow (addJobNodes id jobNode children)).Perm
      (List.replicate ((idsBelow children).count id) jobNode.ref ++ refsBelow children)
  | [] => List.Perm.refl _
  | child :: children => by
      rw [addJobNodes, refsBelow, idsBelow, refsBelow, List.count_append, List.replicate_add]
      have h := (refs_addJobNode child).append (refs_addJobNodes children)
      refine h.trans ?_
      rw [List.append_assoc, List.append_assoc]
      apply List.Perm.append_left
      rw [← List.append_assoc, ← List.append_assoc]
      exact List.perm_append_comm.append_right _

end

mutual

theorem ids_addJobNode : ∀ tree : ShareNode K, (addJobNode id jobNode tree).ids = tree.ids
  | .job _ => rfl
  | .node id' jobRefCount stt children => by
      rw [addJobNode, ShareNode.ids, idsBelow_append, ids_addJobNodes children, ShareNode.ids]
      split_ifs <;> simp [idsBelow, ShareNode.ids]

theorem ids_addJobNodes : ∀ children : List (ShareNode K),
    idsBelow (addJobNodes id jobNode children) = idsBelow children
  | [] => rfl
  | child :: children => by
      rw [addJobNodes, idsBelow, ids_addJobNode child, ids_addJobNodes children, idsBelow]

end

mutual

theorem entitlements_addJobNode : ∀ tree : ShareNode K,
    ∀ v ∈ (addJobNode id jobNode tree).entitlements, v = jobNode.shr ∨ v ∈ tree.entitlements
  | .job _ => fun _ hv => Or.inr hv
  | .node id' jobRefCount stt children => by
      intro v hv
      rw [addJobNode, ShareNode.entitlements, entitlementsBelow_append, List.mem_cons,
        List.mem_append] at hv
      rw [ShareNode.entitlements, List.mem_cons]
      rcases hv with hv | hv | hv
      · exact Or.inr (Or.inl hv)
      · rcases entitlements_addJobNodes children v hv with h | h
        · exact Or.inl h
        · exact Or.inr (Or.inr h)
      · left
        split_ifs at hv
        · simpa [entitlementsBelow, ShareNode.entitlements] using hv
        · exact absurd hv List.not_mem_nil

theorem entitlements_addJobNodes : ∀ children : List (ShareNode K),
    ∀ v ∈ entitlementsBelow (addJobNodes id jobNode children),
      v = jobNode.shr ∨ v ∈ entitlementsBelow children
  | [] => fun _ hv => Or.inr hv
  | child :: children => by
      intro v hv
      rw [addJobNodes, entitlementsBelow, List.mem_append] at hv
      rw [entitlementsBelow, List.mem_append]
      rcases hv with hv | hv
      · rcases entitlements_addJobNode child v hv with h | h
        · exact Or.inl h
        · exact Or.inr (Or.inl h)
      · rcases entitlements_addJobNodes children v hv with h | h
        · exact Or.inl h
        · exact Or.inr (Or.inr h)

end

end Adding

section Pruning
variable {K : Type}

/-- The tree is a part of what is below the children. -/
structure PartOf (tree : ShareNode K) (refs : List ℕ) (entitlements : List K) : Prop where
  refs : tree.refs.Sublist refs
  entitlements : tree.entitlements ⊆ entitlements

theorem PartOf.mono {tree : ShareNode K} {refs refs' : List ℕ} {entitlements entitlements' : List K}
    (h : PartOf tree refs entitlements) (hrefs : refs.Sublist refs')
    (hentitlements : entitlements ⊆ entitlements') : PartOf tree refs' entitlements' :=
  ⟨h.refs.trans hrefs, List.Subset.trans h.entitlements hentitlements⟩

mutual

theorem pruneRoot_part : ∀ tree : ShareNode K,
    PartOf (pruneRoot tree) tree.refs tree.entitlements
  | .job _ => ⟨List.Sublist.refl _, List.Subset.refl _⟩
  | .node id jobRefCount stt children => by
      rw [pruneRoot]
      split
      · rename_i tempRoot heq
        rcases pruneChildren_part children 0 none tempRoot (congrArg Prod.snd heq) with h | h
        · exact absurd h (by simp)
        · rw [ShareNode.refs, ShareNode.entitlements]
          exact h.mono (List.Sublist.refl _) (List.subset_cons_self _ _)
      · exact ⟨List.Sublist.refl _, List.Subset.refl _⟩

theorem pruneChildren_part : ∀ (children : List (ShareNode K)) (activeNodes : ℕ)
    (tempRoot : Option (ShareNode K)) (tree : ShareNode K),
    (pruneChildren activeNodes tempRoot children).2 = some tree →
      tempRoot = some tree ∨ PartOf tree (refsBelow children) (entitlementsBelow children)
  | [], _, _, _, h => Or.inl h
  | .job _ :: _, _, _, _, h => by
      rw [pruneChildren] at h
      exact Or.inl h
  | .node id jobRefCount stt children :: rest, activeNodes, tempRoot, tree, h => by
      have hpart := pruneRoot_part (.node id jobRefCount stt children)
      have hhead : PartOf (pruneRoot (.node id jobRefCount stt children))
          (refsBelow (.node id jobRefCount stt children :: rest))
          (entitlementsBelow (.node id jobRefCount stt children :: rest)) := by
        rw [refsBelow, entitlementsBelow]
        exact hpart.mono (List.sublist_append_left _ _) (List.subset_append_left _ _)
      have htail : ∀ activeNodes tempRoot, (pruneChildren activeNodes tempRoot rest).2 = some tree →
          tempRoot = some tree ∨
            PartOf tree (refsBelow (.node id jobRefCount stt children :: rest))
              (entitlementsBelow (.node id jobRefCount stt children :: rest)) := by
        intro activeNodes tempRoot h
        rw [refsBelow, entitlementsBelow]
        exact (pruneChildren_part rest activeNodes tempRoot tree h).imp_right fun h =>
          h.mono (List.sublist_append_right _ _) (List.subset_append_right _ _)
      rw [pruneChildren] at h
      split_ifs at h
      · right
        rw [← Option.some.inj h]
        exact hhead
      · rcases htail _ _ h with h | h
        · right
          rw [← Option.some.inj h]
          exact hhead
        · exact Or.inr h
      · exact Or.inl h
      · exact htail _ _ h

end

end Pruning

section Sorting
variable {K : Type} [LinearOrder K] [Field K]

theorem refs_diluteJobNodes (cfg : Config K) (nodeStt diluteFactor : K)
    (jobNodes : List (JobNode K)) :
    (diluteJobNodes cfg nodeStt diluteFactor jobNodes).map JobNode.ref =
      jobNodes.map JobNode.ref := by
  induction jobNodes generalizing diluteFactor with
  | nil => rfl
  | cons jobNode jobNodes ih =>
      rw [diluteJobNodes, List.map_cons, ih, List.map_cons]

variable {cfg : Config K}

theorem shr_diluteJobNodes [IsStrictOrderedRing K] {nodeStt : K} (hstt : 0 ≤ nodeStt)
    {diluteFactor : K} (hfactor : 0 ≤ diluteFactor) (jobNodes : List (JobNode K)) :
    ∀ jobNode ∈ diluteJobNodes cfg nodeStt diluteFactor jobNodes, 0 ≤ jobNode.shr := by
  induction jobNodes generalizing diluteFactor with
  | nil => exact fun jobNode h => absurd h List.not_mem_nil
  | cons jobNode jobNodes ih =>
      intro diluted hdiluted
      rw [diluteJobNodes] at hdiluted
      rcases List.mem_cons.mp hdiluted with rfl | hmem
      · exact div_nonneg hstt hfactor
      · refine ih (add_nonneg hfactor ?_) diluted hmem
        cases (cfg.ref jobNode.ref).peMin with
        | none => exact zero_le_one
        | some min => exact zero_le_one.trans (le_max_left _ _)

/-- The job nodes of a list are among those of the tree. -/
structure Sorted (jobNodes : List (JobNode K)) (refs : List ℕ) : Prop where
  refs : (jobNodes.map JobNode.ref).Subperm refs
  shr_nonneg : ∀ jobNode ∈ jobNodes, 0 ≤ jobNode.shr

mutual

theorem sortJobNodes_sorted [IsStrictOrderedRing K] (cfg : Config K)
    (qsort : Qsort (JobNode K)) (isRoot : Bool) :
    ∀ tree : ShareNode K, (∀ v ∈ tree.entitlements, 0 ≤ v) →
      Sorted (sortJobNodes cfg qsort isRoot tree) tree.refs
  | .job _, _ => ⟨List.nil_subperm, fun _ h => absurd h List.not_mem_nil⟩
  | .node id jobRefCount stt children, hnonneg => by
      rw [ShareNode.entitlements] at hnonneg
      have hstt := hnonneg stt List.mem_cons_self
      have h := collectJobNodes_sorted cfg qsort children fun v hv =>
        hnonneg v (List.mem_cons_of_mem _ hv)
      rw [sortJobNodes, ShareNode.refs]
      generalize collectJobNodes cfg qsort children = jobNodeList at h ⊢
      dsimp only
      split_ifs with hroot hlength
      · constructor
        · rw [refs_diluteJobNodes]
          exact ((lPSortList_perm qsort _ _ _ jobNodeList).map _).subperm.trans h.refs
        · exact shr_diluteJobNodes hstt zero_le_one _
      · constructor
        · rw [refs_diluteJobNodes]
          exact h.refs
        · exact shr_diluteJobNodes hstt zero_le_one _
      · exact h

theorem collectJobNodes_sorted [IsStrictOrderedRing K] (cfg : Config K)
    (qsort : Qsort (JobNode K)) :
    ∀ children : List (ShareNode K), (∀ v ∈ entitlementsBelow children, 0 ≤ v) →
      Sorted (collectJobNodes cfg qsort children) (refsBelow children)
  | [], _ => ⟨List.nil_subperm, fun _ h => absurd h List.not_mem_nil⟩
  | .job jobNode :: rest, hnonneg => by
      rw [entitlementsBelow, ShareNode.entitlements, List.singleton_append] at hnonneg
      have h := collectJobNodes_sorted cfg qsort rest fun v hv =>
        hnonneg v (List.mem_cons_of_mem _ hv)
      rw [collectJobNodes, refsBelow, ShareNode.refs, List.singleton_append]
      constructor
      · rw [List.map_cons]
        exact List.subperm_cons _ |>.mpr h.refs
      · intro jobNode' hmem
        rcases List.mem_cons.mp hmem with rfl | hmem
        · exact hnonneg _ List.mem_cons_self
        · exact h.shr_nonneg jobNode' hmem
  | .node id jobRefCount stt children :: rest, hnonneg => by
      rw [entitlementsBelow] at hnonneg
      have hchild := sortJobNodes_sorted cfg qsort false (.node id jobRefCount stt children)
        fun v hv => hnonneg v (List.mem_append_left _ hv)
      have hrest := collectJobNodes_sorted cfg qsort rest fun v hv =>
        hnonneg v (List.mem_append_right _ hv)
      rw [collectJobNodes, refsBelow]
      split_ifs
      · constructor
        · rw [List.map_append]
          exact hchild.refs.append hrest.refs
        · intro jobNode hmem
          rcases List.mem_append.mp hmem with hmem | hmem
          · exact hchild.shr_nonneg jobNode hmem
          · exact hrest.shr_nonneg jobNode hmem
      · exact ⟨hrest.refs.trans (List.sublist_append_right _ _).subperm, hrest.shr_nonneg⟩

end

end Sorting

section Policy
variable {K : Type} [LinearOrder K] [Field K]

/-- A share tree before the tasks are added: the ids are unique, and nothing is negative. -/
structure ShareNode.Sound (root : ShareNode K) : Prop where
  ids_nodup : root.ids.Nodup
  refs_nil : root.refs = []
  entitlements_nonneg : ∀ v ∈ root.entitlements, 0 ≤ v

theorem addTaskNode_spec (cfg : Config K) (dependent : Bool) (s : State K) {root : ShareNode K}
    (hids : root.ids.Nodup) (jref : ℕ) :
    (addTaskNode cfg dependent s root jref).ids = root.ids ∧
      (addTaskNode cfg dependent s root jref).refs.Subperm (jref :: root.refs) ∧
      ((∀ v ∈ root.entitlements, 0 ≤ v) →
        ∀ v ∈ (addTaskNode cfg dependent s root jref).entitlements, 0 ≤ v) := by
  unfold addTaskNode
  dsimp only
  cases (cfg.ref jref).node with
  | none => exact ⟨rfl, (List.sublist_cons_self _ _).subperm, fun h => h⟩
  | some id =>
      refine ⟨ids_addJobNode id _ root, ?_, ?_⟩
      · refine (refs_addJobNode id _ root).subperm.trans ?_
        have hcount := List.nodup_iff_count_le_one.mp hids id
        have hreplicate : (List.replicate (root.ids.count id) jref).Sublist [jref] :=
          List.replicate_sublist_replicate jref |>.mpr hcount
        exact (hreplicate.append (List.Sublist.refl root.refs)).subperm
      · intro hnonneg v hv
        rcases entitlements_addJobNode id _ root v hv with h | h
        · exact h.ge
        · exact hnonneg v h

theorem foldl_addTaskNode (cfg : Config K) (dependent : Bool) (s : State K) (jrefs : List ℕ)
    {root : ShareNode K} (hids : root.ids.Nodup) (hnonneg : ∀ v ∈ root.entitlements, 0 ≤ v) :
    (jrefs.foldl (addTaskNode cfg dependent s) root).refs.Subperm (jrefs ++ root.refs) ∧
      ∀ v ∈ (jrefs.foldl (addTaskNode cfg dependent s) root).entitlements, 0 ≤ v := by
  induction jrefs generalizing root with
  | nil => exact ⟨List.Subperm.refl _, hnonneg⟩
  | cons jref jrefs ih =>
      obtain ⟨hids', hrefs, hentitlements⟩ := addTaskNode_spec cfg dependent s hids jref
      obtain ⟨hrefs', hnonneg'⟩ := ih (hids' ▸ hids) (hentitlements hnonneg)
      refine ⟨hrefs'.trans ?_, hnonneg'⟩
      refine (List.subperm_append_left jrefs |>.mpr hrefs).trans ?_
      exact List.perm_middle.subperm

variable [IsStrictOrderedRing K] {cfg : Config K}

theorem setSticket_assigns (cfg : Config K) (dependent : Bool) (s : State K) {jobNode : JobNode K}
    (hshr : 0 ≤ jobNode.shr) :
    Assigns .shareTree dependent (if (cfg.ref jobNode.ref).queued then [jobNode.ref] else []) s
      (setSticket cfg dependent s jobNode) := by
  unfold setSticket
  by_cases hqueued : (cfg.ref jobNode.ref).queued = true
  · rw [if_pos hqueued, if_pos hqueued]
    apply Assigns.single (mul_nonneg hshr (Nat.cast_nonneg cfg.totalShareTreeTickets))
    · cases dependent <;> exact Function.update_self ..
    · intro j hj
      cases dependent <;> exact Function.update_of_ne hj ..
    · intro other hother j
      cases other with
      | shareTree => exact absurd rfl hother
      | functional => cases dependent <;> rfl
      | override => cases dependent <;> rfl
    · cases dependent <;> rfl
  · rw [if_neg hqueued, if_neg hqueued]
    exact Assigns.nil .shareTree dependent s

theorem shareTreePolicy_spec (qsort : Qsort (JobNode K)) (dependent : Bool) (s : State K)
    (hroot : ∀ root, cfg.root = some root → root.Sound) :
    ∃ tasks, Assigns .shareTree dependent tasks s (shareTreePolicy cfg qsort dependent s) := by
  unfold shareTreePolicy
  cases hsome : cfg.root with
  | none => exact ⟨[], Assigns.nil .shareTree dependent s⟩
  | some root =>
      have hsound := hroot root hsome
      dsimp only
      split_ifs
      · obtain ⟨hrefs, hnonneg⟩ := foldl_addTaskNode cfg dependent s (List.range cfg.numJobs)
          hsound.ids_nodup hsound.entitlements_nonneg
        rw [hsound.refs_nil, List.append_nil] at hrefs
        generalize (List.range cfg.numJobs).foldl (addTaskNode cfg dependent s) root = tree at *
        have hpart := pruneRoot_part tree
        have hsorted := sortJobNodes_sorted cfg qsort true (pruneRoot tree) fun v hv =>
          hnonneg v (hpart.entitlements hv)
        have hsubperm := hsorted.refs.trans (hpart.refs.subperm.trans hrefs)
        have hnodup : ((sgeSortJobNodes cfg qsort tree).map JobNode.ref).Nodup := by
          obtain ⟨sorted, hperm, hsublist⟩ := hsubperm
          exact hperm.nodup_iff.mp (List.nodup_range.sublist hsublist)
        refine ⟨_, Assigns.foldl JobNode.ref (fun jobNode => (cfg.ref jobNode.ref).queued) ?_
          hnodup s⟩
        exact fun s jobNode hmem =>
          setSticket_assigns cfg dependent s (hsorted.shr_nonneg jobNode hmem)
      · exact ⟨[], Assigns.nil .shareTree dependent s⟩

end Policy

end GridEngine.TicketPolicies
