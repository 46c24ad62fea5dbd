import GridEngine.ShareTreeTargets

/-!
# The division of the entitlement over the whole share tree

After `update_job_ref_count` a node is active if and only if a leaf below it is. Level by level
the active children divide up what their parent is entitled to, so at the end the active leaves
have divided up the entitlement of the root.
-/

namespace GridEngine.ShareTree

section Nodes
variable {K : Type}

theorem Stn.induction {P : Stn K → Prop}
    (step : ∀ node targets children, (∀ child ∈ children, P child) → P (.mk node targets children)) :
    ∀ tree, P tree
  | .mk node targets children =>
      step node targets children fun child _ => Stn.induction step child
termination_by tree => sizeOf tree

theorem nodesBelow_eq (children : List (Stn K)) : nodesBelow children = children.flatMap Stn.nodes := by
  induction children with
  | nil => rfl
  | cons child children ih => rw [nodesBelow, ih, List.flatMap_cons]

theorem nodes_mk (node : StnNode K) (targets : Targets K) (children : List (Stn K)) :
    (Stn.mk node targets children).nodes =
      .mk node targets children :: children.flatMap Stn.nodes := by
  rw [Stn.nodes, nodesBelow_eq]

theorem mem_nodes_self (tree : Stn K) : tree ∈ tree.nodes := by
  cases tree with
  | mk node targets children =>
      rw [nodes_mk]
      exact List.mem_cons_self

theorem mem_nodes_of_child {node : StnNode K} {targets : Targets K} {children : List (Stn K)}
    {child s : Stn K} (hchild : child ∈ children) (hs : s ∈ child.nodes) :
    s ∈ (Stn.mk node targets children).nodes := by
  rw [nodes_mk]
  exact List.mem_cons_of_mem _ (List.mem_flatMap.mpr ⟨child, hchild, hs⟩)

theorem leaves_leaf (node : StnNode K) (targets : Targets K) :
    (Stn.mk node targets []).leaves = [.mk node targets []] := by
  rw [Stn.leaves, nodes_mk]
  rfl

theorem leaves_inner (node : StnNode K) (targets : Targets K) (children : List (Stn K))
    (h : children ≠ []) :
    (Stn.mk node targets children).leaves = children.flatMap Stn.leaves := by
  rw [Stn.leaves, nodes_mk, List.filter_cons_of_neg, List.filter_flatMap]
  · rfl
  · rw [List.isEmpty_iff]
    exact h

theorem forEachBelow_eq (f : StnNode K × Targets K → StnNode K × Targets K)
    (children : List (Stn K)) :
    forEachBelow f children = children.map (forEachShareTreeNode f) := by
  induction children with
  | nil => rfl
  | cons child children ih => rw [forEachBelow, ih, List.map_cons]

theorem nodes_forEachShareTreeNode (f : StnNode K × Targets K → StnNode K × Targets K)
    (tree : Stn K) :
    (forEachShareTreeNode f tree).nodes = tree.nodes.map (forEachShareTreeNode f) := by
  induction tree using Stn.induction with
  | step node targets children ih =>
      rw [forEachShareTreeNode, nodes_mk, nodes_mk, List.map_cons, forEachShareTreeNode,
        forEachBelow_eq, List.flatMap_map, List.map_flatMap]
      congr 1
      exact List.flatMap_congr ih

theorem updateChildren_eq (children : List (Stn K)) :
    updateChildren children = children.map updateJobRefCount := by
  induction children with
  | nil => rfl
  | cons child children ih => rw [updateChildren, ih, List.map_cons]

theorem updateJobRefCount_inner (node : StnNode K) (targets : Targets K) (children : List (Stn K))
    (h : children ≠ []) :
    updateJobRefCount (.mk node targets children) =
      .mk { node with jobRefCount :=
          ((children.map updateJobRefCount).map fun child => child.node.jobRefCount).sum }
        targets (children.map updateJobRefCount) := by
  cases children with
  | nil => exact absurd rfl h
  | cons child children => rw [updateJobRefCount, updateChildren_eq]

theorem nodes_updateJobRefCount (tree : Stn K) :
    (updateJobRefCount tree).nodes = tree.nodes.map updateJobRefCount := by
  induction tree using Stn.induction with
  | step node targets children ih =>
      by_cases h : children = []
      · subst h
        rfl
      · rw [nodes_mk, List.map_cons, updateJobRefCount_inner node targets children h, nodes_mk,
          List.flatMap_map, List.map_flatMap]
        congr 1
        exact List.flatMap_congr ih

theorem isEmpty_children_updateJobRefCount (tree : Stn K) :
    (updateJobRefCount tree).children.isEmpty = tree.children.isEmpty := by
  cases tree with
  | mk node targets children =>
      by_cases h : children = []
      · subst h
        rfl
      · rw [updateJobRefCount_inner node targets children h]
        exact List.isEmpty_map

theorem leaves_updateJobRefCount (tree : Stn K) : (updateJobRefCount tree).leaves = tree.leaves := by
  have hleaf : ∀ leaf ∈ tree.leaves, updateJobRefCount leaf = leaf := by
    intro leaf hleaf
    have hempty := (List.mem_filter.mp hleaf).2
    cases leaf with
    | mk node targets children =>
        obtain rfl : children = [] := List.isEmpty_iff.mp hempty
        rfl
  calc (updateJobRefCount tree).leaves
      = tree.leaves.map updateJobRefCount := by
        rw [Stn.leaves, nodes_updateJobRefCount, List.filter_map, Stn.leaves]
        congr 1
        apply List.filter_congr
        intro node _
        exact isEmpty_children_updateJobRefCount node
    _ = tree.leaves := by
        rw [List.map_congr_left hleaf, List.map_id']

theorem shares_updateJobRefCount (tree : Stn K) :
    (updateJobRefCount tree).node.shares = tree.node.shares := by
  cases tree with
  | mk node targets children =>
      by_cases h : children = []
      · subst h
        rfl
      · rw [updateJobRefCount_inner node targets children h]
        rfl

theorem id_updateJobRefCount (tree : Stn K) :
    (updateJobRefCount tree).node.id = tree.node.id := by
  cases tree with
  | mk node targets children =>
      by_cases h : children = []
      · subst h
        rfl
      · rw [updateJobRefCount_inner node targets children h]
        rfl

theorem targets_updateJobRefCount (tree : Stn K) :
    (updateJobRefCount tree).targets = tree.targets := by
  cases tree with
  | mk node targets children =>
      by_cases h : children = []
      · subst h
        rfl
      · rw [updateJobRefCount_inner node targets children h]
        rfl

theorem active_inner_iff (node : StnNode K) (targets : Targets K) (children : List (Stn K))
    (h : children ≠ []) :
    (updateJobRefCount (.mk node targets children)).node.active ↔
      ∃ child ∈ children, (updateJobRefCount child).node.active := by
  rw [updateJobRefCount_inner node targets children h]
  simp only [Stn.node, StnNode.active, decide_eq_true_eq, List.map_map]
  rw [Nat.pos_iff_ne_zero, Ne, List.sum_eq_zero_iff]
  simp [Nat.pos_iff_ne_zero]

theorem active_updateJobRefCount (tree : Stn K) :
    (updateJobRefCount tree).node.active ↔ ∃ leaf ∈ tree.leaves, leaf.node.active := by
  induction tree using Stn.induction with
  | step node targets children ih =>
      by_cases h : children = []
      · subst h
        rw [leaves_leaf]
        simp [updateJobRefCount, Stn.node]
      · rw [active_inner_iff node targets children h, leaves_inner node targets children h]
        constructor
        · rintro ⟨child, hchild, hactive⟩
          obtain ⟨leaf, hleaf, hactive⟩ := (ih child hchild).mp hactive
          exact ⟨leaf, List.mem_flatMap.mpr ⟨child, hchild, hleaf⟩, hactive⟩
        · rintro ⟨leaf, hleaf, hactive⟩
          obtain ⟨child, hchild, hleaf⟩ := List.mem_flatMap.mp hleaf
          exact ⟨child, hchild, (ih child hchild).mpr ⟨leaf, hleaf, hactive⟩⟩

theorem inactive_nodes (tree : Stn K) (h : (updateJobRefCount tree).node.active = false) :
    ∀ s ∈ (updateJobRefCount tree).nodes, s.node.active = false := by
  induction tree using Stn.induction with
  | step node targets children ih =>
      by_cases hempty : children = []
      · subst hempty
        intro s hs
        rw [updateJobRefCount, nodes_mk] at hs
        obtain rfl := List.mem_singleton.mp hs
        exact h
      · have hchildren : ∀ child ∈ children, (updateJobRefCount child).node.active = false := by
          intro child hchild
          by_contra hactive
          have := (active_inner_iff node targets children hempty).mpr
            ⟨child, hchild, eq_true_of_ne_false hactive⟩
          rw [h] at this
          exact Bool.false_ne_true this
        intro s hs
        rw [nodes_updateJobRefCount, nodes_mk, List.map_cons] at hs
        rcases List.mem_cons.mp hs with rfl | hs
        · exact h
        · obtain ⟨below, hbelow, rfl⟩ := List.mem_map.mp hs
          obtain ⟨child, hchild, hbelow⟩ := List.mem_flatMap.mp hbelow
          apply ih child hchild (hchildren child hchild)
          rw [nodes_updateJobRefCount]
          exact List.mem_map_of_mem hbelow

end Nodes

section Division
variable {K : Type} [Field K] [LinearOrder K] {compensationFactor : K}

/-- The short term targets of the active children are proportions. -/
def SplitsUp (tree : Stn K) : Prop :=
  (∀ child ∈ tree.children, child.node.active → 0 ≤ child.targets.stt) ∧
    activeSum (fun child => child.2.stt) (tree.children.map Stn.element) = 1

/-- The targets that a node gets before its children. -/
structure Admissible (t : Targets K) : Prop where
  oltt_pos : 0 < t.oltt
  ostt_nonneg : 0 ≤ t.ostt
  adjusted_nonneg : 0 ≤ t.adjustedCurrentProportion
  adjusted_le : t.adjustedCurrentProportion ≤ t.ostt

/-- The trees, which were `trees` before, have divided up the entitlements `entries`. -/
structure DividedUp (entries : List (StnNode K × Targets K)) (trees trees' : List (Stn K)) :
    Prop where
  element_eq : trees'.map Stn.element = entries
  nodes_eq : (trees'.flatMap Stn.nodes).map Stn.node = (trees.flatMap Stn.nodes).map Stn.node
  leaves_eq : (trees'.flatMap Stn.leaves).map Stn.node = (trees.flatMap Stn.leaves).map Stn.node
  splitsUp : ∀ s ∈ trees'.flatMap Stn.nodes, s.node.active → s.children ≠ [] → SplitsUp s
  sum_ostt : activeSum (fun leaf => leaf.2.ostt) ((trees'.flatMap Stn.leaves).map Stn.element) =
    activeSum (fun entry => entry.2.ostt) entries
  adjusted : ∀ leaf ∈ trees'.flatMap Stn.leaves, leaf.node.active →
    0 ≤ leaf.targets.adjustedCurrentProportion ∧
      leaf.targets.adjustedCurrentProportion ≤ leaf.targets.ostt

namespace DividedUp

theorem nil : DividedUp ([] : List (StnNode K × Targets K)) [] [] where
  element_eq := rfl
  nodes_eq := rfl
  leaves_eq := rfl
  splitsUp := by simp
  sum_ostt := rfl
  adjusted := by simp

theorem cons {entry : StnNode K × Targets K} {entries : List (StnNode K × Targets K)}
    {tree tree' : Stn K} {trees trees' : List (Stn K)} (h : DividedUp [entry] [tree] [tree'])
    (hs : DividedUp entries trees trees') :
    DividedUp (entry :: entries) (tree :: trees) (tree' :: trees') where
  element_eq := by
    rw [List.map_cons, hs.element_eq]
    congr 1
    exact List.singleton_inj.mp h.element_eq
  nodes_eq := by
    have hnodes := h.nodes_eq
    rw [List.flatMap_singleton, List.flatMap_singleton] at hnodes
    rw [List.flatMap_cons, List.flatMap_cons, List.map_append, List.map_append, hnodes,
      hs.nodes_eq]
  leaves_eq := by
    have hleaves := h.leaves_eq
    rw [List.flatMap_singleton, List.flatMap_singleton] at hleaves
    rw [List.flatMap_cons, List.flatMap_cons, List.map_append, List.map_append, hleaves,
      hs.leaves_eq]
  splitsUp := by
    intro s hmem
    rw [List.flatMap_cons, List.mem_append] at hmem
    rcases hmem with hmem | hmem
    · exact h.splitsUp s (by rwa [List.flatMap_singleton])
    · exact hs.splitsUp s hmem
  sum_ostt := by
    have hsum := h.sum_ostt
    rw [List.flatMap_singleton] at hsum
    rw [List.flatMap_cons, List.map_append, activeSum_append, hsum, hs.sum_ostt,
      ← activeSum_append, List.singleton_append]
  adjusted := by
    intro leaf hmem
    rw [List.flatMap_cons, List.mem_append] at hmem
    rcases hmem with hmem | hmem
    · exact h.adjusted leaf (by rwa [List.flatMap_singleton])
    · exact hs.adjusted leaf hmem

theorem leaf (node : StnNode K) (targets : Targets K) {t : Targets K}
    (ht : node.active → Admissible t) :
    DividedUp [(node, t)] [.mk node targets []] [.mk node t []] where
  element_eq := rfl
  nodes_eq := by
    rw [List.flatMap_singleton, List.flatMap_singleton, nodes_mk, nodes_mk]
    rfl
  leaves_eq := by
    rw [List.flatMap_singleton, List.flatMap_singleton, leaves_leaf, leaves_leaf]
    rfl
  splitsUp := by
    intro s hs _ hne
    rw [List.flatMap_singleton, nodes_mk] at hs
    obtain rfl := List.mem_singleton.mp hs
    exact absurd rfl hne
  sum_ostt := by
    rw [List.flatMap_singleton, leaves_leaf]
    rfl
  adjusted := by
    intro leaf hleaf hactive
    rw [List.flatMap_singleton, leaves_leaf] at hleaf
    obtain rfl := List.mem_singleton.mp hleaf
    exact ⟨(ht hactive).adjusted_nonneg, (ht hactive).adjusted_le⟩

/-- Where there are no jobs nothing is divided up. -/
theorem inactive (tree : Stn K) (t : Targets K)
    (h : ∀ s ∈ tree.nodes, s.node.active = false) :
    DividedUp [(tree.node, t)] [tree] [.mk tree.node t tree.children] := by
  cases tree with
  | mk node targets children =>
      have hnode : node.active = false := h _ (mem_nodes_self _)
      by_cases hempty : children = []
      · subst hempty
        apply leaf
        intro hactive
        simp only [Stn.node, hnode] at hactive
        exact absurd hactive Bool.false_ne_true
      · have hbelow : ∀ child ∈ children, ∀ s ∈ child.nodes, s.node.active = false := by
          intro child hchild s hs
          exact h s (mem_nodes_of_child hchild hs)
        have hleaves : ∀ leaf ∈ children.flatMap Stn.leaves, leaf.node.active = false := by
          intro leaf hleaf
          obtain ⟨child, hchild, hleaf⟩ := List.mem_flatMap.mp hleaf
          exact hbelow child hchild leaf (List.mem_of_mem_filter hleaf)
        constructor
        · rfl
        · rw [List.flatMap_singleton, List.flatMap_singleton, nodes_mk]
          rw [Stn.node, Stn.children, nodes_mk]
          rfl
        · rw [List.flatMap_singleton, List.flatMap_singleton, leaves_inner _ _ _ hempty]
          rw [Stn.node, Stn.children, leaves_inner _ _ _ hempty]
        · intro s hs hactive
          rw [List.flatMap_singleton, Stn.node, Stn.children, nodes_mk] at hs
          rcases List.mem_cons.mp hs with rfl | hs
          · rw [Stn.node, hnode] at hactive
            exact absurd hactive Bool.false_ne_true
          · obtain ⟨child, hchild, hs⟩ := List.mem_flatMap.mp hs
            rw [hbelow child hchild s hs] at hactive
            exact absurd hactive Bool.false_ne_true
        · rw [List.flatMap_singleton, Stn.node, Stn.children, leaves_inner _ _ _ hempty,
            activeSum_of_inactive, activeSum_of_inactive]
          · intro entry hentry
            obtain rfl := List.mem_singleton.mp hentry
            exact hnode
          · intro entry hentry
            obtain ⟨leaf, hleaf, rfl⟩ := List.mem_map.mp hentry
            exact hleaves leaf hleaf
        · intro leaf hleaf hactive
          rw [List.flatMap_singleton, Stn.node, Stn.children, leaves_inner _ _ _ hempty] at hleaf
          rw [hleaves leaf hleaf] at hactive
          exact absurd hactive Bool.false_ne_true

theorem inner {node : StnNode K} {t : Targets K} {entries : List (StnNode K × Targets K)}
    {children children' : List (Stn K)} (targets : Targets K) (hempty : children ≠ [])
    (hfst : entries.map Prod.fst = children.map Stn.node)
    (hactive : node.active ↔ ∃ entry ∈ entries, entry.1.active) (hentitled : Entitled t entries)
    (h : DividedUp entries children children') :
    DividedUp [(node, t)] [.mk node targets children] [.mk node t children'] := by
  have hempty' : children' ≠ [] := by
    rintro rfl
    rw [← h.element_eq] at hfst
    exact hempty (List.map_eq_nil_iff.mp hfst.symm)
  constructor
  · rfl
  · rw [List.flatMap_singleton, List.flatMap_singleton, nodes_mk, nodes_mk, List.map_cons,
      List.map_cons, h.nodes_eq]
    rfl
  · rw [List.flatMap_singleton, List.flatMap_singleton, leaves_inner _ _ _ hempty,
      leaves_inner _ _ _ hempty', h.leaves_eq]
  · intro s hs hs_active hs_children
    rw [List.flatMap_singleton, nodes_mk] at hs
    rcases List.mem_cons.mp hs with rfl | hs
    · constructor
      · intro child hchild hchild_active
        have hentry : child.element ∈ entries := by
          rw [← h.element_eq]
          exact List.mem_map_of_mem hchild
        exact hentitled.stt_nonneg child.element hentry hchild_active
      · rw [Stn.children, h.element_eq]
        exact hentitled.sum_stt (hactive.mp hs_active)
    · exact h.splitsUp s hs hs_active hs_children
  · rw [List.flatMap_singleton, leaves_inner _ _ _ hempty', h.sum_ostt]
    by_cases hsome : ∃ entry ∈ entries, entry.1.active
    · calc activeSum (fun entry => entry.2.ostt) entries
          = activeSum (fun entry => t.ostt * entry.2.stt) entries :=
            activeSum_congr hentitled.ostt_eq
        _ = t.ostt * activeSum (fun entry => entry.2.stt) entries := activeSum_mul_left _ _
        _ = activeSum (fun entry => entry.2.ostt) [(node, t)] := by
            rw [hentitled.sum_stt hsome, mul_one, activeSum_cons, if_pos (hactive.mpr hsome)]
            exact (add_zero _).symm
    · rw [activeSum_of_inactive, activeSum_of_inactive]
      · intro entry hentry
        obtain rfl := List.mem_singleton.mp hentry
        exact eq_false_of_ne_true (mt hactive.mp hsome)
      · intro entry hentry
        by_contra hentry_active
        exact hsome ⟨entry, hentry, eq_true_of_ne_false hentry_active⟩
  · intro leaf hleaf hleaf_active
    rw [List.flatMap_singleton, leaves_inner _ _ _ hempty'] at hleaf
    exact h.adjusted leaf hleaf hleaf_active

end DividedUp

theorem childTargets_nil (t : Targets K) : childTargets compensationFactor t [] = some [] := by
  simp [childTargets, activeSum]

/-- The recursive calls for the children, given what each of them does. -/
theorem calcChildren_spec (compensationFactor : K) {children : List (Stn K)} {entries : List (StnNode K × Targets K)}
    (hfst : entries.map Prod.fst = children.map Stn.node)
    (hadmissible : ∀ entry ∈ entries, entry.1.active → Admissible entry.2)
    (hcall : ∀ child ∈ children, child.node.active → ∀ t, Admissible t →
      ∃ child', calcNodeTargets compensationFactor t child = some child' ∧
        DividedUp [(child.node, t)] [child] [child'])
    (hinactive : ∀ child ∈ children, child.node.active = false →
      ∀ s ∈ child.nodes, s.node.active = false) :
    ∃ children', calcChildren compensationFactor (entries.map Prod.snd) children = some children' ∧
      DividedUp entries children children' := by
  induction children generalizing entries with
  | nil =>
      obtain rfl := List.map_eq_nil_iff.mp hfst
      exact ⟨[], by rw [calcChildren]; simp, DividedUp.nil⟩
  | cons child children ih =>
      obtain ⟨⟨node, t⟩, entries, rfl⟩ : ∃ entry rest, entries = entry :: rest := by
        cases entries with
        | nil => exact absurd hfst (by simp)
        | cons entry rest => exact ⟨entry, rest, rfl⟩
      rw [List.map_cons, List.map_cons] at hfst
      obtain ⟨hnode, hrest⟩ := List.cons.inj hfst
      dsimp only at hnode
      subst hnode
      obtain ⟨children', hchildren, hdivided⟩ := ih hrest
        (fun entry hentry => hadmissible entry (List.mem_cons_of_mem _ hentry))
        (fun c hc => hcall c (List.mem_cons_of_mem _ hc))
        (fun c hc => hinactive c (List.mem_cons_of_mem _ hc))
      rw [List.map_cons]
      cases hactive : child.node.active with
      | true =>
          obtain ⟨child', hchild, hone⟩ := hcall child List.mem_cons_self hactive t
            (hadmissible _ List.mem_cons_self hactive)
          refine ⟨child' :: children', ?_, hone.cons hdivided⟩
          rw [calcChildren, if_pos hactive]
          simp only [hchild, hchildren, Option.bind_eq_bind, Option.bind_some]
      | false =>
          refine ⟨_ :: children', ?_, (DividedUp.inactive child t
            (hinactive child List.mem_cons_self hactive)).cons hdivided⟩
          rw [calcChildren, if_neg (by rw [hactive]; exact Bool.false_ne_true)]
          simp only [hchildren, Option.bind_eq_bind, Option.bind_some]

/-- A node divides up what it is entitled to among the active leaves below it. -/
theorem calcNodeTargets_spec [IsStrictOrderedRing K] (hfactor : 0 ≤ compensationFactor)
    (tree : Stn K)
    (hshares : ∀ s ∈ tree.nodes, (∃ leaf ∈ s.leaves, leaf.node.active) → 0 < s.node.shares)
    (t : Targets K) (ht : Admissible t) :
    ∃ tree', calcNodeTargets compensationFactor t (updateJobRefCount tree) = some tree' ∧
      DividedUp [((updateJobRefCount tree).node, t)] [updateJobRefCount tree] [tree'] := by
  induction tree using Stn.induction generalizing t with
  | step node targets children ih =>
      by_cases hempty : children = []
      · subst hempty
        refine ⟨.mk node t [], ?_, DividedUp.leaf node targets fun _ => ht⟩
        rw [updateJobRefCount, calcNodeTargets, List.map_nil, childTargets_nil, Option.bind_eq_bind,
          Option.bind_some, calcChildren]
        · rfl
        · simp
      · have hactive := active_inner_iff node targets children hempty
        rw [updateJobRefCount_inner node targets children hempty] at hactive ⊢
        -- the loops over the children
        obtain ⟨entries, hloops, hfst, hweighted, hentitled⟩ :=
          childTargets_spec ((children.map updateJobRefCount).map Stn.element)
            ht.oltt_pos hfactor (by
              intro entry hentry hentry_active
              rw [List.map_map] at hentry
              obtain ⟨child, hchild, rfl⟩ := List.mem_map.mp hentry
              have := (active_updateJobRefCount child).mp hentry_active
              have hpos := hshares child (mem_nodes_of_child hchild (mem_nodes_self child)) this
              rwa [← shares_updateJobRefCount] at hpos)
        have hfst' : entries.map Prod.fst = (children.map updateJobRefCount).map Stn.node := by
          rw [hfst, List.map_map]
          rfl
        have hstt : ∀ entry ∈ entries, entry.1.active → Admissible entry.2 := by
          intro entry hentry hentry_active
          have hostt : 0 ≤ entry.2.ostt := by
            rw [hentitled.ostt_eq entry hentry hentry_active]
            exact mul_nonneg ht.ostt_nonneg (hentitled.stt_nonneg entry hentry hentry_active)
          have hadjusted := hentitled.adjusted_eq entry hentry hentry_active
          exact ⟨(hweighted entry hentry hentry_active).2.1, hostt, hadjusted.ge.trans' hostt,
            hadjusted.le⟩
        -- the recursive calls
        obtain ⟨children', hcalls, hdivided⟩ :=
          calcChildren_spec compensationFactor hfst' hstt
            (by
              intro child hchild _ t ht
              obtain ⟨below, hbelow, rfl⟩ := List.mem_map.mp hchild
              exact ih below hbelow
                (fun s hs => hshares s (mem_nodes_of_child hbelow hs)) t ht)
            (by
              intro child hchild hchild_inactive
              obtain ⟨below, hbelow, rfl⟩ := List.mem_map.mp hchild
              exact inactive_nodes below hchild_inactive)
        refine ⟨.mk _ t children', ?_, DividedUp.inner targets ?_ hfst' ?_ hentitled hdivided⟩
        · rw [calcNodeTargets, hloops, Option.bind_eq_bind, Option.bind_some, hcalls]
          rfl
        · exact mt List.map_eq_nil_iff.mp hempty
        · have hsome : (∃ entry ∈ entries, entry.1.active) ↔
              ∃ n ∈ entries.map Prod.fst, StnNode.active n := by simp
          have hsome' : (∃ child ∈ children, (updateJobRefCount child).node.active) ↔
              ∃ n ∈ (children.map updateJobRefCount).map Stn.node, StnNode.active n := by simp
          rw [hsome, hfst', ← hsome']
          exact hactive

end Division

end GridEngine.ShareTree
