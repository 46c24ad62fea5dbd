import GridEngine.KeyedLists
import GridEngine.ShareTreeDivision
import Mathlib.Algebra.BigOperators.Ring.Finset
import Mathlib.Data.Rat.Floor

/-!
# The share tree tickets

The running tasks of a leaf divide up the tickets that its entitlement is worth, in proportion to
their job shares or, where these are all zero, by the number of references to the leaf.
-/

namespace GridEngine
open KeyedLists

namespace ShareTree

section References
variable {K : Type}

/-- Counts one reference. -/
def countJobRef (root : Stn K) (ref : Ref) : Stn K :=
  match ref.node with
  | none => root
  | some id => forEachShareTreeNode (addJobRef id) root

theorem nodes_countJobRef (root : Stn K) (ref : Ref) :
    (countJobRef root ref).nodes = root.nodes.map (countJobRef · ref) := by
  unfold countJobRef
  cases ref.node with
  | none => exact (List.map_id' _).symm
  | some id => exact nodes_forEachShareTreeNode _ _

theorem nodes_foldl_countJobRef (refs : List Ref) (root : Stn K) :
    (refs.foldl countJobRef root).nodes = root.nodes.map (refs.foldl countJobRef ·) := by
  induction refs generalizing root with
  | nil => exact (List.map_id' _).symm
  | cons ref refs ih => rw [List.foldl_cons, ih, nodes_countJobRef, List.map_map]; rfl

theorem isEmpty_children_forEachShareTreeNode
    (f : StnNode K × Targets K → StnNode K × Targets K) (tree : Stn K) :
    (forEachShareTreeNode f tree).children.isEmpty = tree.children.isEmpty := by
  cases tree with
  | mk node targets children =>
      rw [forEachShareTreeNode, forEachBelow_eq]
      exact List.isEmpty_map

/-- The number of references to a node. -/
def jobRefs (refs : List Ref) (id : ℕ) : ℕ := deposited Ref.node (fun _ => 1) refs id

theorem element_foldl_countJobRef (refs : List Ref) (tree : Stn K) :
    (refs.foldl countJobRef tree).element =
      ({ tree.node with jobRefCount := tree.node.jobRefCount + jobRefs refs tree.node.id },
        tree.targets) := by
  induction refs generalizing tree with
  | nil => rfl
  | cons ref refs ih =>
      rw [List.foldl_cons, ih, jobRefs, jobRefs, deposited_cons]
      cases tree with
      | mk node targets children =>
          unfold countJobRef
          cases hnode : ref.node with
          | none => simp [Stn.node, Stn.targets]
          | some id =>
              by_cases hid : node.id = id
              · simp [forEachShareTreeNode, addJobRef, Stn.node, Stn.targets, hid, add_assoc]
              · simp [forEachShareTreeNode, addJobRef, Stn.node, Stn.targets, hid, Ne.symm hid]

variable [Field K]

theorem countJobRefs_eq (refs : List Ref) (root : Stn K) :
    countJobRefs refs root =
      refs.foldl countJobRef (forEachShareTreeNode sgeInitShareTreeNodeFields root) := rfl

theorem nodes_countJobRefs (refs : List Ref) (root : Stn K) :
    (countJobRefs refs root).nodes = root.nodes.map (countJobRefs refs) := by
  rw [countJobRefs_eq, nodes_foldl_countJobRef, nodes_forEachShareTreeNode, List.map_map]
  rfl

theorem isEmpty_children_countJobRefs (refs : List Ref) (tree : Stn K) :
    (countJobRefs refs tree).children.isEmpty = tree.children.isEmpty := by
  have hfold : ∀ (refs : List Ref) (tree : Stn K),
      (refs.foldl countJobRef tree).children.isEmpty = tree.children.isEmpty := by
    intro refs
    induction refs with
    | nil => intro tree; rfl
    | cons ref refs ih =>
        intro tree
        rw [List.foldl_cons, ih, countJobRef]
        cases ref.node with
        | none => rfl
        | some id => exact isEmpty_children_forEachShareTreeNode _ _
  rw [countJobRefs_eq, hfold, isEmpty_children_forEachShareTreeNode]

theorem leaves_countJobRefs (refs : List Ref) (root : Stn K) :
    (countJobRefs refs root).leaves = root.leaves.map (countJobRefs refs) := by
  rw [Stn.leaves, nodes_countJobRefs, List.filter_map, Stn.leaves]
  congr 1
  apply List.filter_congr
  intro node _
  exact isEmpty_children_countJobRefs refs node

theorem node_countJobRefs (refs : List Ref) (tree : Stn K) :
    (countJobRefs refs tree).node =
      { tree.node with jobRefCount := jobRefs refs tree.node.id } := by
  have helement := congrArg Prod.fst (element_foldl_countJobRef refs
    (forEachShareTreeNode sgeInitShareTreeNodeFields tree))
  cases tree with
  | mk node targets children =>
      rw [countJobRefs_eq]
      have hnode : (refs.foldl countJobRef
          (forEachShareTreeNode sgeInitShareTreeNodeFields (.mk node targets children))).node =
          { node with jobRefCount := 0 + jobRefs refs node.id } := helement
      rw [hnode, zero_add]
      rfl

theorem targets_countJobRefs (refs : List Ref) (tree : Stn K) :
    (countJobRefs refs tree).targets.adjustedCurrentProportion = 0 := by
  have helement := congrArg Prod.snd (element_foldl_countJobRef refs
    (forEachShareTreeNode sgeInitShareTreeNodeFields tree))
  cases tree with
  | mk node targets children =>
      rw [countJobRefs_eq]
      have htargets : (refs.foldl countJobRef
          (forEachShareTreeNode sgeInitShareTreeNodeFields (.mk node targets children))).targets =
          (sgeInitShareTreeNodeFields (node, targets)).2 := helement
      rw [htargets]
      rfl

end References

section Passes
variable {K : Type} [Field K] [LinearOrder K] {root : Stn K} {sumPriority : ℕ → ℕ} {total : ℕ}

/-- The active leaves have divided up at most 1, and only they have references. -/
structure Settled (root : Stn K) (running : List Ref) : Prop where
  ids : (root.nodes.map fun s => s.node.id).Nodup
  adjusted : ∀ leaf ∈ root.leaves, leaf.node.active →
    0 ≤ leaf.targets.adjustedCurrentProportion ∧
      leaf.targets.adjustedCurrentProportion ≤ leaf.targets.ostt
  sum_le : activeSum (fun leaf => leaf.2.ostt) (root.leaves.map Stn.element) ≤ 1
  on_leaf : ∀ ref ∈ running, ∀ id ∈ ref.node, ∃ leaf ∈ root.leaves, leaf.node.id = id
  count_le : ∀ leaf ∈ root.leaves,
    (running.filter fun ref => ref.node = some leaf.node.id).length ≤ leaf.node.jobRefCount

namespace Settled

theorem active {running : List Ref} (h : Settled root running) {leaf : Stn K}
    (hleaf : leaf ∈ root.leaves) {ref : Ref} (href : ref ∈ running)
    (hnode : ref.node = some leaf.node.id) : leaf.node.active := by
  have hmem : ref ∈ running.filter fun ref => ref.node = some leaf.node.id :=
    List.mem_filter.mpr ⟨href, decide_eq_true hnode⟩
  exact decide_eq_true ((List.length_pos_of_mem hmem).trans_le (h.count_le leaf hleaf))

theorem leafIds {running : List Ref} (h : Settled root running) :
    (root.leaves.map fun leaf => leaf.node.id).Nodup :=
  h.ids.sublist (List.filter_sublist.map _)

end Settled

variable [IsStrictOrderedRing K] [FloorSemiring K]

theorem calcJobShareTreeTicketsPass1_eq :
    calcJobShareTreeTicketsPass1 = deposit Ref.node Ref.jobshare := by
  funext sumPriority ref
  unfold calcJobShareTreeTicketsPass1 deposit
  cases ref.node with
  | none => rfl
  | some node => rfl

/-- The tickets that a reference to a leaf gets from what the leaf is entitled to. -/
def leafTickets (total : ℕ) (sumPriority : ℕ → ℕ) (leaf : Stn K) (ref : Ref) : K :=
  let shareTreeTickets := leaf.targets.adjustedCurrentProportion * (total : K)
  if sumPriority leaf.node.id ≠ 0 then
    (⌊(ref.jobshare : K) * shareTreeTickets / sumPriority leaf.node.id⌋₊ : K)
  else shareTreeTickets / leaf.node.jobRefCount

theorem pass2_leaf (hids : (root.nodes.map fun s => s.node.id).Nodup) {leaf : Stn K}
    (hleaf : leaf ∈ root.nodes) (hactive : leaf.node.active) {ref : Ref}
    (href : ref.node = some leaf.node.id) :
    calcJobShareTreeTicketsPass2 (total : K) root sumPriority ref =
      some (some (leafTickets total sumPriority leaf ref)) := by
  have hfind : root.nodes.find? (fun s => s.node.id = leaf.node.id) = some leaf :=
    (find?_key_iff hids).mpr ⟨hleaf, rfl⟩
  have hcount : (0 : K) < leaf.node.jobRefCount := Nat.cast_pos.mpr (of_decide_eq_true hactive)
  simp only [calcJobShareTreeTicketsPass2, href, hfind, Option.bind_eq_bind, Option.bind_some,
    leafTickets]
  split_ifs with hsum
  · have hpos : (0 : K) < sumPriority leaf.node.id := Nat.cast_pos.mpr (Nat.pos_of_ne_zero hsum)
    rw [divide_eq hpos, Option.bind_some]
  · rw [divide_eq hcount, Option.bind_some]

theorem leafTickets_nonneg {leaf : Stn K} (h : 0 ≤ leaf.targets.adjustedCurrentProportion)
    (ref : Ref) : 0 ≤ leafTickets total sumPriority leaf ref := by
  unfold leafTickets
  split_ifs
  · exact Nat.cast_nonneg _
  · positivity

theorem sum_leafTickets_le {leaf : Stn K} (h : 0 ≤ leaf.targets.adjustedCurrentProportion)
    (refs : List Ref) (hsum : sumPriority leaf.node.id = (refs.map Ref.jobshare).sum)
    (hcount : refs.length ≤ leaf.node.jobRefCount) :
    (refs.map (leafTickets total sumPriority leaf)).sum ≤
      leaf.targets.adjustedCurrentProportion * total := by
  obtain ⟨tickets, htickets⟩ :
    ∃ tickets, leaf.targets.adjustedCurrentProportion * (total : K) = tickets := ⟨_, rfl⟩
  have hnonneg : 0 ≤ tickets := by
    rw [← htickets]
    positivity
  by_cases hzero : sumPriority leaf.node.id = 0
  · have hconst : ∀ ref ∈ refs, leafTickets total sumPriority leaf ref =
        tickets / leaf.node.jobRefCount := by
      intro ref _
      simp only [leafTickets, hzero, htickets, ne_eq, not_true, if_false]
    rw [List.map_congr_left hconst, List.map_const', List.sum_replicate, nsmul_eq_mul, htickets]
    calc (refs.length : K) * (tickets / leaf.node.jobRefCount)
        ≤ leaf.node.jobRefCount * (tickets / leaf.node.jobRefCount) := by
          gcongr
      _ ≤ tickets := by
          by_cases hnone : (leaf.node.jobRefCount : K) = 0
          · rw [hnone, zero_mul]
            exact hnonneg
          · rw [mul_div_cancel₀ _ hnone]
  · have hpos : (0 : K) < sumPriority leaf.node.id :=
      Nat.cast_pos.mpr (Nat.pos_of_ne_zero hzero)
    have hfloor : ∀ ref ∈ refs, leafTickets total sumPriority leaf ref ≤
        (ref.jobshare : K) * (tickets / sumPriority leaf.node.id) := by
      intro ref _
      simp only [leafTickets, hzero, htickets, ne_eq, not_false_eq_true, if_true]
      rw [← mul_div_assoc]
      exact Nat.floor_le (by positivity)
    calc (refs.map (leafTickets total sumPriority leaf)).sum
        ≤ (refs.map fun ref => (ref.jobshare : K) * (tickets / sumPriority leaf.node.id)).sum :=
          List.sum_le_sum hfloor
      _ = (refs.map fun ref => (ref.jobshare : K)).sum * (tickets / sumPriority leaf.node.id) :=
          List.sum_map_mul_right _ _ _
      _ = (sumPriority leaf.node.id : K) * (tickets / sumPriority leaf.node.id) := by
          rw [hsum, Nat.cast_list_sum, List.map_map]
          rfl
      _ = leaf.targets.adjustedCurrentProportion * total := by
          rw [mul_div_cancel₀ _ hpos.ne', htickets]

namespace Settled

theorem pass2 (total : ℕ) (sumPriority : ℕ → ℕ) {running : List Ref} (h : Settled root running)
    {ref : Ref} (href : ref ∈ running) :
    (ref.node = none ∧ calcJobShareTreeTicketsPass2 (total : K) root sumPriority ref = some none) ∨
    ∃ leaf ∈ root.leaves, leaf.node.active ∧ ref.node = some leaf.node.id ∧
      calcJobShareTreeTicketsPass2 (total : K) root sumPriority ref =
        some (some (leafTickets total sumPriority leaf ref)) := by
  cases hnode : ref.node with
  | none =>
      left
      simp only [calcJobShareTreeTicketsPass2, hnode, and_self]
  | some id =>
      right
      obtain ⟨leaf, hleaf, rfl⟩ := h.on_leaf ref href id hnode
      have hactive := h.active hleaf href hnode
      exact ⟨leaf, hleaf, hactive, rfl,
        pass2_leaf h.ids (List.mem_of_mem_filter hleaf) hactive hnode⟩

theorem deposited_le {running : List Ref} (h : Settled root running)
    (hsum : ∀ id, sumPriority id = deposited Ref.node Ref.jobshare running id) {amount : Ref → K}
    {leaf : Stn K} (hleaf : leaf ∈ root.leaves)
    (hamount : ∀ ref ∈ running, ref.node = some leaf.node.id →
      amount ref = leafTickets total sumPriority leaf ref) :
    deposited Ref.node amount running leaf.node.id ≤
      if leaf.node.active then (total : K) * leaf.targets.ostt else 0 := by
  have hrefs : deposited Ref.node amount running leaf.node.id =
      ((running.filter fun ref => ref.node = some leaf.node.id).map
        (leafTickets total sumPriority leaf)).sum := by
    unfold deposited
    congr 1
    apply List.map_congr_left
    intro ref href
    obtain ⟨hmem, hnode⟩ := List.mem_filter.mp href
    exact hamount ref hmem (of_decide_eq_true hnode)
  rw [hrefs]
  cases hactive : leaf.node.active with
  | true =>
      obtain ⟨hnonneg, hle⟩ := h.adjusted leaf hleaf hactive
      calc _ ≤ leaf.targets.adjustedCurrentProportion * total :=
            sum_leafTickets_le hnonneg _ (hsum _) (h.count_le leaf hleaf)
        _ ≤ total * leaf.targets.ostt := by
            rw [mul_comm]
            gcongr
  | false =>
      have hnone : (running.filter fun ref => ref.node = some leaf.node.id) = [] := by
        apply List.filter_eq_nil_iff.mpr
        intro ref href hnode
        have := h.active hleaf href (of_decide_eq_true hnode)
        rw [hactive] at this
        exact Bool.false_ne_true this
      rw [hnone]
      rfl

end Settled

/-- The tickets of the running tasks. -/
theorem shareTreeTickets_spec {running : List Ref} (h : Settled root running) :
    ∃ tickets, shareTreeTickets total root running = some tickets ∧
      (∀ assigned ∈ tickets, ∀ x ∈ assigned, 0 ≤ x) ∧
      (tickets.map fun assigned => assigned.getD 0).sum ≤ (total : K) := by
  unfold shareTreeTickets
  split_ifs with htotal
  · obtain ⟨sumPriority, hsumPriority⟩ : ∃ sumPriority,
      running.foldl calcJobShareTreeTicketsPass1 (fun _ => 0) = sumPriority := ⟨_, rfl⟩
    have hsum : ∀ id, sumPriority id = deposited Ref.node Ref.jobshare running id := by
      intro id
      rw [← hsumPriority, calcJobShareTreeTicketsPass1_eq, foldl_deposit, zero_add]
    have hassigned : ∀ ref ∈ running,
        calcJobShareTreeTicketsPass2 (total : K) root sumPriority ref =
          some ((calcJobShareTreeTicketsPass2 (total : K) root sumPriority ref).getD none) := by
      intro ref href
      rcases h.pass2 total sumPriority href with ⟨-, heq⟩ | ⟨leaf, -, -, -, heq⟩
      · rw [heq, Option.getD_some]
      · rw [heq, Option.getD_some]
    rw [hsumPriority]
    refine ⟨_, mapM_eq_some_map hassigned, ?_, ?_⟩
    · intro assigned hmem x hx
      obtain ⟨ref, href, rfl⟩ := List.mem_map.mp hmem
      rcases h.pass2 total sumPriority href with ⟨-, heq⟩ | ⟨leaf, hleaf, hactive, -, heq⟩
      · rw [heq, Option.getD_some] at hx
        exact absurd hx (Option.not_mem_none x)
      · rw [heq, Option.getD_some, Option.mem_some_iff] at hx
        rw [← hx]
        exact leafTickets_nonneg (h.adjusted leaf hleaf hactive).1 ref
    · obtain ⟨amount, hamount⟩ : ∃ amount : Ref → K, amount = fun ref =>
          ((calcJobShareTreeTicketsPass2 (total : K) root sumPriority ref).getD none).getD 0 :=
        ⟨_, rfl⟩
      calc _ = (running.map amount).sum := by
            rw [List.map_map, hamount]
            rfl
        _ = ((root.leaves.map fun leaf => leaf.node.id).map
              (deposited Ref.node amount running)).sum := by
            rw [sum_deposited _ h.leafIds]
            · intro ref href hnode
              rcases h.pass2 total sumPriority href with ⟨-, heq⟩ | ⟨leaf, -, -, hsome, -⟩
              · rw [hamount]
                simp only [heq, Option.getD_some, Option.getD_none]
              · rw [hnode] at hsome
                exact absurd hsome (by simp)
            · intro ref href id hid
              obtain ⟨leaf, hleaf, rfl⟩ := h.on_leaf ref href id hid
              exact List.mem_map_of_mem hleaf
        _ ≤ (root.leaves.map fun leaf =>
              if leaf.node.active then (total : K) * leaf.targets.ostt else 0).sum := by
            rw [List.map_map]
            apply List.sum_le_sum
            intro leaf hleaf
            apply h.deposited_le hsum hleaf
            intro ref href hnode
            rw [hamount]
            simp only [pass2_leaf h.ids (List.mem_of_mem_filter hleaf)
              (h.active hleaf href hnode) hnode, Option.getD_some]
        _ = total * activeSum (fun leaf => leaf.2.ostt) (root.leaves.map Stn.element) := by
            rw [← activeSum_mul_left, ← sum_map_active]
            rfl
        _ ≤ total * 1 := by
            gcongr
            exact h.sum_le
        _ = total := mul_one _
  · refine ⟨_, rfl, ?_, ?_⟩
    · intro assigned hassigned x hx
      obtain ⟨ref, -, rfl⟩ := List.mem_map.mp hassigned
      exact absurd hx (Option.not_mem_none x)
    · rw [List.map_map, List.sum_eq_zero]
      · exact Nat.cast_nonneg _
      · intro x hx
        obtain ⟨ref, -, rfl⟩ := List.mem_map.mp hx
        rfl

end Passes

section Entitlements
variable {K : Type} [Field K]

/-- The tasks refer to leaves, and what is above a task has shares. The ids are those of the
elements in memory. -/
structure JobsOnLeaves (root : Stn K) (refs : List Ref) : Prop where
  ids : (root.nodes.map fun s => s.node.id).Nodup
  on_leaf : ∀ ref ∈ refs, ∀ id ∈ ref.node, ∃ leaf ∈ root.leaves, leaf.node.id = id
  shares_pos : ∀ s ∈ root.nodes,
    (∃ leaf ∈ s.leaves, ∃ ref ∈ refs, ref.node = some leaf.node.id) → 0 < s.node.shares

theorem jobRefs_eq (refs : List Ref) (id : ℕ) :
    jobRefs refs id = (refs.filter fun ref => ref.node = some id).length := by
  simp [jobRefs, deposited]

theorem active_countJobRefs (refs : List Ref) (tree : Stn K) :
    (countJobRefs refs tree).node.active ↔ ∃ ref ∈ refs, ref.node = some tree.node.id := by
  rw [node_countJobRefs, StnNode.active, decide_eq_true_eq, jobRefs_eq, List.length_pos_iff_exists_mem]
  simp

namespace JobsOnLeaves

variable {root : Stn K} {refs : List Ref}

theorem shares_countJobRefs (h : JobsOnLeaves root refs) :
    ∀ s ∈ (countJobRefs refs root).nodes, (∃ leaf ∈ s.leaves, leaf.node.active) →
      0 < s.node.shares := by
  intro s hs hactive
  rw [nodes_countJobRefs] at hs
  obtain ⟨tree, htree, rfl⟩ := List.mem_map.mp hs
  obtain ⟨leaf, hleaf, hactive⟩ := hactive
  rw [leaves_countJobRefs] at hleaf
  obtain ⟨below, hbelow, rfl⟩ := List.mem_map.mp hleaf
  have hpos := h.shares_pos tree htree ⟨below, hbelow, (active_countJobRefs refs below).mp hactive⟩
  rw [node_countJobRefs]
  exact hpos

end JobsOnLeaves

theorem nodeIds_counted (refs : List Ref) (root : Stn K) :
    (updateJobRefCount (countJobRefs refs root)).nodes.map (fun s => s.node.id) =
      root.nodes.map fun s => s.node.id := by
  rw [nodes_updateJobRefCount, nodes_countJobRefs, List.map_map, List.map_map]
  apply List.map_congr_left
  intro s _
  rw [Function.comp_apply, Function.comp_apply, id_updateJobRefCount, node_countJobRefs]

theorem leaves_counted (refs : List Ref) (root : Stn K) :
    (updateJobRefCount (countJobRefs refs root)).leaves.map Stn.node =
      root.leaves.map fun leaf => { leaf.node with jobRefCount := jobRefs refs leaf.node.id } := by
  rw [leaves_updateJobRefCount, leaves_countJobRefs, List.map_map]
  apply List.map_congr_left
  intro leaf _
  exact node_countJobRefs refs leaf

variable [LinearOrder K] [IsStrictOrderedRing K] [FloorSemiring K]

/-- Two users below the root, with one share and with three. -/
def twoUsers : Stn ℚ :=
  let unset : Targets ℚ := ⟨0, 0, 0, 0, 0, 0⟩
  .mk ⟨0, 1, 0, 0⟩ unset [.mk ⟨1, 1, 5, 0⟩ unset [], .mk ⟨2, 3, 0, 0⟩ unset []]

theorem twoUsers_jobsOnLeaves (refs : List Ref) (h : ∀ ref ∈ refs, ∀ id ∈ ref.node, id = 1 ∨ id = 2) :
    JobsOnLeaves twoUsers refs where
  ids := by decide
  on_leaf := by
    intro ref href id hid
    rcases h ref href id hid with rfl | rfl
    · exact ⟨.mk ⟨1, 1, 5, 0⟩ ⟨0, 0, 0, 0, 0, 0⟩ [], List.mem_cons_self, rfl⟩
    · exact ⟨.mk ⟨2, 3, 0, 0⟩ ⟨0, 0, 0, 0, 0, 0⟩ [],
        List.mem_cons_of_mem _ List.mem_cons_self, rfl⟩
  shares_pos := by
    intro s hs _
    simp only [twoUsers, Stn.nodes, nodesBelow, List.append_nil, List.cons_append, List.nil_append,
      List.mem_cons, List.not_mem_nil, or_false] at hs
    rcases hs with rfl | rfl | rfl
    · exact Nat.zero_lt_one
    · exact Nat.zero_lt_one
    · exact Nat.zero_lt_succ 2

end Entitlements

end ShareTree

end GridEngine
