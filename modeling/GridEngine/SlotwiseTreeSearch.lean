import GridEngine.ExceptLoops
import GridEngine.KeyedLists
import GridEngine.ReferenceGraph
import GridEngine.SlotwiseTree

/-!
# The search of the slotwise tree

On a host the queue instances form a graph. The climb follows one superordinate of each node, so it
ends at one of several tops. The descent collects what is below the top. Both come to an end when
the graph has no cycles.
-/

namespace GridEngine
open ReferenceGraph Relation ExceptLoops KeyedLists

namespace Slotwise

section Graph
variable (master : List Cqueue) (host : String)

/-- The queue instance of a cluster queue on a host. -/
def located (name : String) : Option Qinstance :=
  (cqueueListLocate master name).bind fun cqueue => cqueue.locateQinstance host

/-- The queue instance of `a` has `b` as a slotwise subordinate. -/
def Super (a b : String) : Prop :=
  ∃ q, located master host a = some q ∧ ∃ so ∈ q.subordinateList, so.name = b ∧ 0 < so.slotsSum

/-- The queue instances that mention a node as slotwise subordinate. -/
def supers (node : Qinstance) : List Qinstance :=
  master.filterMap fun cqueue =>
    (cqueue.locateQinstance node.qhostname).filter fun q => q.mentions node.qname

/-- The end of the chain that goes from a node to its last superordinate, and so on. -/
inductive TopOf : Qinstance → Qinstance → Prop
  | here {node : Qinstance} (h : (supers master node).getLast? = none) : TopOf node node
  | up {node q top : Qinstance} (h : (supers master node).getLast? = some q) (hq : TopOf q top) :
      TopOf node top

/-- Each cluster queue has a name of its own and one queue instance for each of its hosts, and its
subordinates are cluster queues. -/
structure Ok : Prop where
  distinct : (master.map Cqueue.name).Nodup
  plain : ∀ cq ∈ master, '@' ∉ cq.name.toList
  hosts : ∀ cq ∈ master, (cq.qinstances.map Qinstance.qhostname).Nodup
  qname : ∀ cq ∈ master, ∀ q ∈ cq.qinstances, q.qname = cq.name
  named : ∀ cq ∈ master, ∀ q ∈ cq.qinstances, ∀ so ∈ q.subordinateList,
    ∃ cq' ∈ master, cq'.name = so.name

end Graph

section Locate
variable {master : List Cqueue} {host name a b : String} {q node : Qinstance} {cq : Cqueue}

theorem locateQinstance_some (h : cq.locateQinstance host = some q) :
    q ∈ cq.qinstances ∧ q.qhostname = host :=
  ⟨List.mem_of_find?_eq_some h, by simpa using List.find?_some h⟩

theorem Ok.located_iff (h : Ok master) : located master host name = some q ↔
    ∃ cq ∈ master, cq.name = name ∧ q ∈ cq.qinstances ∧ q.qhostname = host := by
  rw [located, Option.bind_eq_some_iff]
  constructor
  · rintro ⟨cq, hcq, hq⟩
    obtain ⟨hmem, hname⟩ := (find?_key_iff h.distinct).mp hcq
    exact ⟨cq, hmem, hname, locateQinstance_some hq⟩
  · rintro ⟨cq, hcq, hname, hq⟩
    exact ⟨cq, (find?_key_iff h.distinct).mpr ⟨hcq, hname⟩,
      (find?_key_iff (h.hosts cq hcq)).mpr hq⟩

theorem Ok.located_names (h : Ok master) (hq : located master host name = some q) :
    q.qname = name ∧ q.qhostname = host := by
  obtain ⟨cq, hcq, rfl, hmem, hhost⟩ := h.located_iff.mp hq
  exact ⟨h.qname cq hcq q hmem, hhost⟩

theorem Ok.located_self (h : Ok master) (hq : located master host name = some q) :
    located master q.qhostname q.qname = some q := by
  obtain ⟨rfl, rfl⟩ := h.located_names hq
  exact hq

theorem Ok.plain_of_located (h : Ok master) (hq : located master host name = some q) :
    ∀ so ∈ q.subordinateList, '@' ∉ so.name.toList := by
  intro so hso
  obtain ⟨cq, hcq, -, hmem, -⟩ := h.located_iff.mp hq
  obtain ⟨cq', hcq', hname⟩ := h.named cq hcq q hmem so hso
  rw [← hname]
  exact h.plain cq' hcq'

theorem cqueueListLocateQinstance_soFullName {so : Subordinate} (hplain : '@' ∉ so.name.toList) :
    cqueueListLocateQinstance master (soFullName so host) = located master host so.name := by
  have hsplit : cqueueNameSplit (so.name ++ "@" ++ host) = (so.name, host) := by
    have hall : ∀ c ∈ so.name.toList, decide (c ≠ '@') = true := by
      intro c hc
      rw [decide_eq_true_iff]
      rintro rfl
      exact hplain hc
    have hat : "@".toList = ['@'] := rfl
    rw [cqueueNameSplit, String.toList_append, String.toList_append, List.append_assoc, hat,
      List.takeWhile_append_of_pos hall, List.dropWhile_append_of_pos hall]
    simp
  rw [soFullName, if_neg hplain, cqueueListLocateQinstance, hsplit, located]

theorem isSome_located_of_super (h : Super master host a b) : (located master host a).isSome := by
  obtain ⟨q, hq, -⟩ := h
  rw [hq]
  rfl

theorem Ok.mem_supers (h : Ok master) (hq : q ∈ supers master node) :
    located master node.qhostname q.qname = some q ∧
      Super master node.qhostname q.qname node.qname := by
  obtain ⟨cq, hcq, hfilter⟩ := List.mem_filterMap.mp hq
  obtain ⟨hlocate, hmentions⟩ := Option.filter_eq_some_iff.mp hfilter
  obtain ⟨hmem, hhost⟩ := locateQinstance_some hlocate
  have hlocated := h.located_iff.mpr ⟨cq, hcq, (h.qname cq hcq q hmem).symm, hmem, hhost⟩
  refine ⟨hlocated, q, hlocated, ?_⟩
  rw [Qinstance.mentions, decide_eq_true_iff] at hmentions
  cases hfind : q.subordinateList.find? fun so => so.name = node.qname with
  | none => simp [hfind] at hmentions
  | some so =>
      rw [hfind] at hmentions
      exact ⟨so, List.mem_of_find?_eq_some hfind, by simpa using List.find?_some hfind,
        Nat.pos_of_ne_zero (by simpa using hmentions)⟩

end Locate

section Climb
variable {master : List Cqueue} {node q top : Qinstance} {root root' : Option Qinstance}
  {climb : Qinstance → Except Stop (Option Qinstance)} {fuel : ℕ}

/-- A round either passes a cluster queue by or climbs to a superordinate. -/
theorem climbStep_cases (cq : Cqueue) :
    ((∀ l, supers (cq :: l) node = supers l node) ∧ climbStep climb node root cq = .ok root) ∨
      ∃ q, (∀ l, supers (cq :: l) node = q :: supers l node) ∧
        climbStep climb node root cq = climb q := by
  cases hlocate : cq.locateQinstance node.qhostname with
  | none =>
      left
      constructor
      · intro l
        exact List.filterMap_cons_none (by rw [hlocate, Option.filter_none])
      · rw [climbStep, hlocate]
  | some q =>
      by_cases hmentions : q.mentions node.qname = true
      · right
        use q
        constructor
        · intro l
          exact List.filterMap_cons_some (by rw [hlocate, Option.filter_some, if_pos hmentions])
        · simp only [climbStep, hlocate, if_pos hmentions]
      · left
        constructor
        · intro l
          exact List.filterMap_cons_none (by rw [hlocate, Option.filter_some, if_neg hmentions])
        · simp only [climbStep, hlocate, if_neg hmentions]

theorem climbStep_foldlM (l : List Cqueue)
    (h : l.foldlM (climbStep climb node) root = .ok root') :
    (supers l node).getLast?.elim (root' = root) fun q => climb q = .ok root' := by
  induction l generalizing root with
  | nil => exact (foldlM_nil_ok_iff.mp h).symm
  | cons cq l ih =>
      obtain ⟨root₁, hfirst, hrest⟩ := foldlM_cons_ok_iff.mp h
      have hlast := ih hrest
      rcases climbStep_cases cq with ⟨hsupers, hstep⟩ | ⟨q, hsupers, hstep⟩
      · rw [hstep] at hfirst
        cases hfirst
        rw [hsupers l]
        exact hlast
      · rw [hstep] at hfirst
        rw [hsupers l, List.getLast?_cons]
        cases hlater : (supers l node).getLast? with
        | none =>
            rw [hlater] at hlast
            cases hlast
            exact hfirst
        | some q' =>
            rw [hlater] at hlast
            exact hlast

/-- The climb ends at the top of the chain, and gives it when its subordinates are slotwise. -/
theorem getSlotwiseSosTreeRoot_spec
    (h : getSlotwiseSosTreeRoot master fuel node = .ok root) :
    ∃ top, TopOf master node top ∧
      root = if 0 < top.slotwiseSosThreshold then some top else none := by
  induction fuel generalizing node root with
  | zero => exact nomatch h
  | succ fuel ih =>
      have hlast := climbStep_foldlM master h
      cases hsupers : (supers master node).getLast? with
      | none =>
          rw [hsupers] at hlast
          exact ⟨node, .here hsupers, hlast⟩
      | some q =>
          rw [hsupers] at hlast
          obtain ⟨top, htop, hroot⟩ := ih hlast
          exact ⟨top, .up hsupers htop, hroot⟩

theorem TopOf.unique {top' : Qinstance} (h : TopOf master node top)
    (h' : TopOf master node top') : top = top' := by
  induction h with
  | here hnone =>
      cases h' with
      | here _ => rfl
      | up hsome _ =>
          rw [hnone] at hsome
          exact nomatch hsome
  | up hsome _ ih =>
      cases h' with
      | here hnone =>
          rw [hnone] at hsome
          exact nomatch hsome
      | up hsome' htop' =>
          rw [hsome] at hsome'
          cases hsome'
          exact ih htop'

/-- The top of a chain is its only node or a queue instance of the host. -/
theorem Ok.located_top (h : Ok master) (htop : TopOf master node top) :
    top.qhostname = node.qhostname ∧
      (top = node ∨ located master node.qhostname top.qname = some top) := by
  induction htop with
  | here _ => exact ⟨rfl, Or.inl rfl⟩
  | @up node q top hsome _ ih =>
      have hlocated := (h.mem_supers (List.mem_of_getLast? hsome)).1
      have hhost := (h.located_names hlocated).2
      refine ⟨ih.1.trans hhost, Or.inr ?_⟩
      rw [← hhost]
      rcases ih.2 with heq | htop
      · rw [heq]
        exact h.located_self hlocated
      · exact htop

/-- The rounds of the climb that go on are those for the superordinates. -/
theorem exists_climb (hclimb : ∀ q ∈ supers master node, ∃ root, climb q = .ok root)
    (root : Option Qinstance) : ∃ root', master.foldlM (climbStep climb node) root = .ok root' := by
  apply exists_foldlM_ok
  intro cq hcq root
  rcases climbStep_cases cq with ⟨-, hstep⟩ | ⟨q, hsupers, hstep⟩
  · exact ⟨root, hstep⟩
  · rw [hstep]
    apply hclimb q
    obtain ⟨l, l', rfl⟩ := List.append_of_mem hcq
    rw [supers, List.filterMap_append]
    apply List.mem_append_right
    change q ∈ supers (cq :: l') node
    rw [hsupers l']
    exact List.mem_cons_self

end Climb

section Descent
variable {master : List Cqueue} {host name : String} {node q top : Qinstance} {fuel depth : ℕ}
  {tree tree' : List SsosQinstance} {so : Subordinate}

/-- The queue instances below those of a list of subordinates. -/
def Below (master : List Cqueue) (host : String) (l : List Subordinate) (name : String) : Prop :=
  ∃ so ∈ l, 0 < so.slotsSum ∧ ReflTransGen (Super master host) so.name name

/-- The queue names of a tree. -/
def treeNames (tree : List SsosQinstance) : List String :=
  tree.map fun ssos => ssos.qinstance.qname

theorem below_cons {l : List Subordinate} : Below master host (so :: l) name ↔
    0 < so.slotsSum ∧ ReflTransGen (Super master host) so.name name ∨ Below master host l name := by
  simp [Below]

theorem reflTransGen_iff_below (hq : located master host name = some q) {b : String} :
    ReflTransGen (Super master host) name b ↔ b = name ∨ Below master host q.subordinateList b := by
  constructor
  · intro h
    rcases ReflTransGen.cases_head h with heq | ⟨c, ⟨q', hq', so, hso, hname, hslots⟩, hcb⟩
    · exact Or.inl heq.symm
    · rw [hq] at hq'
      cases hq'
      exact Or.inr ⟨so, hso, hslots, hname ▸ hcb⟩
  · rintro (rfl | ⟨so, hso, hslots, hpath⟩)
    · exact .refl
    · exact .head ⟨q, hq, so, hso, rfl, hslots⟩ hpath

/-- Nothing is below a subordinate that has no queue instance on the host. -/
theorem not_located_of_none (hnone : located master host so.name = none)
    (h : ReflTransGen (Super master host) so.name name) :
    ¬ (located master host name).isSome := by
  rcases ReflTransGen.cases_head h with rfl | ⟨c, hsuper, -⟩
  · simp [hnone]
  · have hsome := isSome_located_of_super hsuper
    rw [hnone] at hsome
    exact nomatch hsome

theorem mem_descend (h : Ok master) (hplain : ∀ so ∈ q.subordinateList, '@' ∉ so.name.toList)
    (hdescend : descend master fuel q tree depth = .ok tree') :
    name ∈ treeNames tree' ↔ name ∈ treeNames tree ∨
      (located master q.qhostname name).isSome ∧
        Below master q.qhostname q.subordinateList name := by
  induction fuel generalizing q tree depth tree' with
  | zero => exact nomatch hdescend
  | succ fuel ih =>
      rw [descend] at hdescend
      generalize hl : q.subordinateList = l at hdescend hplain
      clear hl
      induction l generalizing tree with
      | nil =>
          rw [foldlM_nil_ok_iff.mp hdescend]
          simp [Below]
      | cons so l ihl =>
          obtain ⟨tree₁, hfirst, hrest⟩ := foldlM_cons_ok_iff.mp hdescend
          obtain ⟨hso, hplain⟩ := List.forall_mem_cons.mp hplain
          rw [ihl hrest hplain, below_cons]
          rw [descendStep] at hfirst
          split_ifs at hfirst with hslots
          · rw [cqueueListLocateQinstance_soFullName hso] at hfirst
            cases hsub : located master q.qhostname so.name with
            | none =>
                rw [hsub] at hfirst
                cases hfirst
                have hnot := @not_located_of_none master q.qhostname name so hsub
                tauto
            | some sub =>
                rw [hsub] at hfirst
                obtain ⟨hname, hhost⟩ := h.located_names hsub
                have hfirstNames : name ∈ treeNames (⟨depth, so.seqNo, so.action, sub, some q⟩ :: tree)
                    ↔ name = so.name ∨ name ∈ treeNames tree := by
                  rw [treeNames, List.map_cons, List.mem_cons, hname, treeNames]
                rw [ih (h.plain_of_located hsub) hfirst, hhost, reflTransGen_iff_below hsub,
                  hfirstNames]
                have hlocated : name = so.name → (located master q.qhostname name).isSome := by
                  rintro rfl
                  rw [hsub]
                  rfl
                tauto
          · cases hfirst
            tauto

theorem mem_getSlotwiseSosSubTreeQinstances (h : Ok master)
    (htop : located master host top.qname = some top)
    (htree : getSlotwiseSosSubTreeQinstances master fuel top = .ok tree) :
    name ∈ treeNames tree ↔
      (located master host name).isSome ∧ ReflTransGen (Super master host) top.qname name := by
  obtain ⟨-, hhost⟩ := h.located_names htop
  rw [mem_descend h (h.plain_of_located htop) htree, hhost, reflTransGen_iff_below htop, treeNames,
    List.map_singleton, List.mem_singleton]
  have hlocated : name = top.qname → (located master host name).isSome := by
    rintro rfl
    rw [htop]
    rfl
  tauto

/-- The rounds of the descent that go on are those for the located subordinates. -/
theorem exists_descend (hplain : ∀ so ∈ q.subordinateList, '@' ∉ so.name.toList)
    (hsub : ∀ so ∈ q.subordinateList, 0 < so.slotsSum → ∀ sub,
      located master q.qhostname so.name = some sub → ∀ tree depth,
        ∃ tree', descend master fuel sub tree depth = .ok tree')
    (tree : List SsosQinstance) (depth : ℕ) :
    ∃ tree', descend master (fuel + 1) q tree depth = .ok tree' := by
  apply exists_foldlM_ok
  intro so hso tree
  rw [descendStep, cqueueListLocateQinstance_soFullName (hplain so hso)]
  split_ifs with hslots
  · cases hlocated : located master q.qhostname so.name with
    | none => exact ⟨tree, rfl⟩
    | some sub => exact hsub so hso hslots sub hlocated _ _
  · exact ⟨tree, rfl⟩

end Descent

section Termination
variable {master : List Cqueue} {host name : String} {node q top : Qinstance} {fuel depth : ℕ}

theorem Ok.targets_finite (h : Ok master) (host : String) :
    (targets (Super master host)).Finite := by
  apply (master.map Cqueue.name).finite_toSet.subset
  rintro b ⟨a, q, hq, so, hso, rfl, -⟩
  obtain ⟨cq, hcq, -, hmem, -⟩ := h.located_iff.mp hq
  obtain ⟨cq', hcq', hname⟩ := h.named cq hcq q hmem so hso
  exact List.mem_map.mpr ⟨cq', hcq', hname⟩

theorem Ok.sources_finite (h : Ok master) (host : String) :
    (targets (Function.swap (Super master host))).Finite := by
  apply (master.map Cqueue.name).finite_toSet.subset
  rintro a ⟨b, q, hq, -⟩
  obtain ⟨cq, hcq, hname, -⟩ := h.located_iff.mp hq
  exact List.mem_map.mpr ⟨cq, hcq, hname⟩

theorem Ok.climb_ends (h : Ok master) (hacyclic : Acyclic (Super master host))
    (hhost : node.qhostname = host)
    (hfuel : height (Function.swap (Super master host)) node.qname < fuel) :
    ∃ root, getSlotwiseSosTreeRoot master fuel node = .ok root := by
  induction fuel generalizing node with
  | zero => exact absurd hfuel (Nat.not_lt_zero _)
  | succ fuel ih =>
      apply exists_climb
      intro q hq
      obtain ⟨hlocated, hsuper⟩ := h.mem_supers hq
      rw [hhost] at hlocated hsuper
      have hlt := height_lt hacyclic.swap (h.sources_finite host) hsuper
      exact ih (h.located_names hlocated).2 (by omega)

theorem Ok.descent_ends (h : Ok master) (hacyclic : Acyclic (Super master host))
    (hq : located master host name = some q) (hfuel : height (Super master host) name < fuel)
    (tree : List SsosQinstance) (depth : ℕ) :
    ∃ tree', descend master fuel q tree depth = .ok tree' := by
  induction fuel generalizing name q tree depth with
  | zero => exact absurd hfuel (Nat.not_lt_zero _)
  | succ fuel ih =>
      obtain ⟨-, hhost⟩ := h.located_names hq
      apply exists_descend (h.plain_of_located hq)
      intro so hso hslots sub hsub
      rw [hhost] at hsub
      have hsuper : Super master host name so.name := ⟨q, hq, so, hso, rfl, hslots⟩
      have hlt := height_lt hacyclic (h.targets_finite host) hsuper
      exact ih hsub (by omega)

end Termination

section Check
variable {master : List Cqueue} {node top : Qinstance} {fuel : ℕ} {new : List Subordinate}
  {valid : Bool}

/-- One of the subordinates is in the tree under the top of the chain. -/
def Caught (master : List Cqueue) (node : Qinstance) (new : List Subordinate) : Prop :=
  ∃ top, TopOf master node top ∧ 0 < top.slotwiseSosThreshold ∧ ∃ so ∈ new,
    (located master node.qhostname so.name).isSome ∧
      ReflTransGen (Super master node.qhostname) top.qname so.name

/-- The check refuses a list when one of its elements is in the tree that it looks at. -/
theorem Ok.check_spec (h : Ok master)
    (hnode : located master node.qhostname node.qname = some node ∨ node.subordinateList = [])
    (hcheck : checkNewSlotwiseSubordinateTree master fuel node new = .ok valid) :
    valid = false ↔ Caught master node new := by
  obtain ⟨root, hroot, hcheck⟩ := bind_ok_iff.mp hcheck
  obtain ⟨top, htop, hthreshold⟩ := getSlotwiseSosTreeRoot_spec hroot
  have hcaught : Caught master node new ↔ 0 < top.slotwiseSosThreshold ∧ ∃ so ∈ new,
      (located master node.qhostname so.name).isSome ∧
        ReflTransGen (Super master node.qhostname) top.qname so.name := by
    constructor
    · rintro ⟨top', htop', hso⟩
      rw [htop.unique htop']
      exact hso
    · exact fun hso => ⟨top, htop, hso⟩
  rw [hcaught]
  by_cases hpos : 0 < top.slotwiseSosThreshold
  · rw [if_pos hpos] at hthreshold
    rw [hthreshold] at hcheck
    simp only [if_pos hpos] at hcheck
    obtain ⟨tree, htree, hcheck⟩ := bind_ok_iff.mp hcheck
    cases hcheck
    have hlocated : located master node.qhostname top.qname = some top := by
      rcases (h.located_top htop).2 with heq | hlocated
      · rw [heq] at hpos ⊢
        apply hnode.resolve_right
        intro hempty
        simp [Qinstance.slotwiseSosThreshold, hempty] at hpos
      · exact hlocated
    have hmem := fun name => @mem_getSlotwiseSosSubTreeQinstances master node.qhostname name top fuel
      tree h hlocated htree
    simp only [← hmem, treeNames]
    simp [hpos]
  · rw [if_neg hpos] at hthreshold
    rw [hthreshold] at hcheck
    cases hcheck
    simp [hpos]

end Check

end Slotwise

end GridEngine
