import GridEngine.ShareTree
import Mathlib.Algebra.BigOperators.Ring.List
import Mathlib.Tactic.Positivity
import Mathlib.Tactic.FieldSimp

/-!
# The targets of the share tree

The `shr` values of the active children of a node are positive, so the short term targets, which
are their proportions, are not negative and sum up to 1. The compensation replaces some of the
values by other positive ones. On every level the entitlement of the parent is divided up, and at
the end it has reached the active leaves.
-/

namespace GridEngine.ShareTree

section ActiveSums
variable {K : Type} {children : List (StnNode K × Targets K)} {F G : StnNode K × Targets K → K}

/-- The targets of the active children replaced by a function of what they had. -/
def replaceActive (g : StnNode K → Targets K → Targets K) (child : StnNode K × Targets K) :
    StnNode K × Targets K :=
  (child.1, if child.1.active then g child.1 child.2 else child.2)

theorem map_fst_replaceActive (g : StnNode K → Targets K → Targets K) :
    (children.map (replaceActive g)).map Prod.fst = children.map Prod.fst := by
  rw [List.map_map]
  rfl

theorem mapM_eq_some_map {α β : Type} {f : α → Option β} {g : α → β} {l : List α}
    (h : ∀ a ∈ l, f a = some (g a)) : l.mapM f = some (l.map g) := by
  induction l with
  | nil => rfl
  | cons a l ih =>
      rw [List.mapM_cons, h a List.mem_cons_self, ih fun b hb => h b (List.mem_cons_of_mem _ hb)]
      rfl

theorem mapM_onActive {f : StnNode K → Targets K → Option (Targets K)}
    {g : StnNode K → Targets K → Targets K}
    (h : ∀ child ∈ children, child.1.active → f child.1 child.2 = some (g child.1 child.2)) :
    children.mapM (onActive f) = some (children.map (replaceActive g)) := by
  apply mapM_eq_some_map
  intro child hchild
  unfold onActive replaceActive
  cases hactive : child.1.active with
  | true => rw [if_pos rfl, if_pos rfl, h child hchild hactive, Option.map_some]
  | false => simp

variable [Field K]

theorem activeSum_cons (F : StnNode K × Targets K → K) (child : StnNode K × Targets K) :
    activeSum F (child :: children) =
      (if child.1.active then F child else 0) + activeSum F children := by
  unfold activeSum
  cases hactive : child.1.active with
  | true => simp [hactive]
  | false => simp [hactive]

theorem sum_map_active (F : StnNode K × Targets K → K) (trees : List (Stn K)) :
    (trees.map fun tree => if tree.node.active then F tree.element else 0).sum =
      activeSum F (trees.map Stn.element) := by
  induction trees with
  | nil => rfl
  | cons tree trees ih =>
      rw [List.map_cons, List.sum_cons, ih, List.map_cons, activeSum_cons]
      rfl

theorem activeSum_congr (h : ∀ child ∈ children, child.1.active → F child = G child) :
    activeSum F children = activeSum G children := by
  unfold activeSum
  congr 1
  apply List.map_congr_left
  intro child hchild
  obtain ⟨hmem, hactive⟩ := List.mem_filter.mp hchild
  exact h child hmem hactive

theorem activeSum_div (F : StnNode K × Targets K → K) (b : K) :
    activeSum (fun child => F child / b) children = activeSum F children / b := by
  induction children with
  | nil => simp [activeSum]
  | cons child children ih =>
      rw [activeSum_cons, activeSum_cons, ih, add_div]
      congr 1
      split_ifs
      · rfl
      · rw [zero_div]

theorem activeSum_mul_left (F : StnNode K × Targets K → K) (b : K) :
    activeSum (fun child => b * F child) children = b * activeSum F children := by
  unfold activeSum
  rw [List.sum_map_mul_left]

theorem activeSum_append (F : StnNode K × Targets K → K)
    (children children' : List (StnNode K × Targets K)) :
    activeSum F (children ++ children') = activeSum F children + activeSum F children' := by
  simp [activeSum]

theorem activeSum_of_inactive (F : StnNode K × Targets K → K)
    {children : List (StnNode K × Targets K)} (h : ∀ child ∈ children, child.1.active = false) :
    activeSum F children = 0 := by
  rw [activeSum, List.filter_eq_nil_iff.mpr]
  · rfl
  · intro child hchild
    rw [h child hchild]
    exact Bool.false_ne_true

theorem activeSum_map_replaceActive (g : StnNode K → Targets K → Targets K) :
    activeSum F (children.map (replaceActive g)) =
      activeSum (fun child => F (child.1, g child.1 child.2)) children := by
  induction children with
  | nil => rfl
  | cons child children ih =>
      rw [List.map_cons, activeSum_cons, activeSum_cons, ih]
      congr 1
      cases hactive : child.1.active with
      | true => simp [replaceActive, hactive]
      | false => simp [replaceActive, hactive]

variable [LinearOrder K] [IsStrictOrderedRing K]

theorem activeSum_pos (h : ∀ child ∈ children, child.1.active → 0 < F child)
    (hsome : ∃ child ∈ children, child.1.active) : 0 < activeSum F children := by
  obtain ⟨child, hmem, hactive⟩ := hsome
  apply List.sum_pos
  · intro x hx
    obtain ⟨child, hchild, rfl⟩ := List.mem_map.mp hx
    obtain ⟨hmem, hactive⟩ := List.mem_filter.mp hchild
    exact h child hmem hactive
  · exact List.ne_nil_of_mem (List.mem_map_of_mem (List.mem_filter.mpr ⟨hmem, hactive⟩))

end ActiveSums

section Level
variable {K : Type} [Field K] [LinearOrder K] {children : List (StnNode K × Targets K)}
  {parent : Targets K} {sum compensationFactor : K}

theorem divide_eq {a b : K} (h : 0 < b) : divide a b = some (a / b) := if_neg h.ne'

/-- The children have positive long term targets and `shr` values. -/
def Weighted (children : List (StnNode K × Targets K)) : Prop :=
  ∀ child ∈ children, child.1.active → 0 < child.1.shares ∧ 0 < child.2.oltt ∧ 0 < child.2.shr

/-- The children divide up the entitlement of their parent. -/
structure Entitled (parent : Targets K) (children : List (StnNode K × Targets K)) : Prop where
  stt_nonneg : ∀ child ∈ children, child.1.active → 0 ≤ child.2.stt
  ostt_eq : ∀ child ∈ children, child.1.active → child.2.ostt = parent.ostt * child.2.stt
  adjusted_eq : ∀ child ∈ children, child.1.active →
    child.2.adjustedCurrentProportion = child.2.ostt
  sum_stt : (∃ child ∈ children, child.1.active) → activeSum (fun child => child.2.stt) children = 1

theorem shortTerm_eq (parent : Targets K) (node : StnNode K) (t : Targets K) (h : 0 < sum) :
    shortTerm parent sum node t = some (setStt parent t (t.shr / sum)) := by
  simp only [shortTerm, h, if_true, divide_eq, Option.bind_eq_bind, Option.bind_some]

theorem shortTermAgain_eq (parent : Targets K) (node : StnNode K) (t : Targets K) (h : 0 < sum) :
    shortTermAgain parent sum node t = some (setStt parent t (t.shr / sum)) := by
  simp only [shortTermAgain, h, divide_eq, Option.bind_eq_bind, Option.bind_some]

variable [IsStrictOrderedRing K]

theorem longTerm_spec (hparent : 0 < parent.oltt)
    (hshares : ∀ child ∈ children, child.1.active → 0 < child.1.shares) :
    ∃ children', children.mapM (onActive (longTerm parent
        (activeSum (fun child => (child.1.shares : K)) children))) = some children' ∧
      children'.map Prod.fst = children.map Prod.fst ∧ Weighted children' := by
  obtain ⟨sumShares, hsum⟩ :
    ∃ sumShares, activeSum (fun child => (child.1.shares : K)) children = sumShares := ⟨_, rfl⟩
  rw [hsum]
  have hpos : ∀ child ∈ children, child.1.active → 0 < sumShares := by
    intro child hchild hactive
    rw [← hsum]
    exact activeSum_pos (fun c hc ha => Nat.cast_pos.mpr (hshares c hc ha)) ⟨child, hchild, hactive⟩
  have holtt : ∀ child ∈ children, child.1.active →
      0 < parent.oltt * ((child.1.shares : K) / sumShares) := by
    intro child hchild hactive
    have := hpos child hchild hactive
    have hcast : (0 : K) < child.1.shares := Nat.cast_pos.mpr (hshares child hchild hactive)
    positivity
  have hmax : ∀ child ∈ children, child.1.active → 0 < max child.1.combinedUsage
      (SGE_MIN_USAGE * (parent.oltt * ((child.1.shares : K) / sumShares))) := by
    intro child hchild hactive
    apply lt_max_of_lt_right
    rw [SGE_MIN_USAGE, one_mul]
    exact holtt child hchild hactive
  refine ⟨_, mapM_onActive (g := fun node t => { t with
      ltt := (node.shares : K) / sumShares
      oltt := parent.oltt * ((node.shares : K) / sumShares)
      shr := (node.shares : K) * node.shares / max node.combinedUsage
        (SGE_MIN_USAGE * (parent.oltt * ((node.shares : K) / sumShares))) }) ?_,
    map_fst_replaceActive _, ?_⟩
  · intro child hchild hactive
    simp only [longTerm, hpos child hchild hactive, if_true, divide_eq, Option.bind_eq_bind,
      Option.bind_some, holtt child hchild hactive, hmax child hchild hactive]
  · intro child' hchild' hactive
    obtain ⟨child, hchild, rfl⟩ := List.mem_map.mp hchild'
    have hactive' : child.1.active = true := hactive
    have hcast : (0 : K) < child.1.shares := Nat.cast_pos.mpr (hshares child hchild hactive)
    simp only [replaceActive, hactive', if_true]
    exact ⟨hshares child hchild hactive, holtt child hchild hactive,
      div_pos (mul_pos hcast hcast) (hmax child hchild hactive)⟩

theorem proportions_spec (parent : Targets K) {f : StnNode K → Targets K → Option (Targets K)}
    (hweighted : Weighted children)
    (hsum : activeSum (fun child => child.2.shr) children = sum)
    (hf : ∀ (node : StnNode K) (t : Targets K), 0 < sum →
      f node t = some (setStt parent t (t.shr / sum))) :
    ∃ children', children.mapM (onActive f) = some children' ∧
      children'.map Prod.fst = children.map Prod.fst ∧ Weighted children' ∧
      Entitled parent children' := by
  have hpos : (∃ child ∈ children, child.1.active) → 0 < sum := by
    intro hsome
    rw [← hsum]
    exact activeSum_pos (fun c hc ha => (hweighted c hc ha).2.2) hsome
  refine ⟨_, mapM_onActive (g := fun _ t => setStt parent t (t.shr / sum))
    (fun child hchild hactive => hf _ _ (hpos ⟨child, hchild, hactive⟩)),
    map_fst_replaceActive _, ?_, ?_⟩
  · intro child' hchild' hactive
    obtain ⟨child, hchild, rfl⟩ := List.mem_map.mp hchild'
    have hactive' : child.1.active = true := hactive
    simp only [replaceActive, hactive', if_true]
    exact hweighted child hchild hactive
  · have hchild : ∀ child' ∈ children.map (replaceActive fun _ t => setStt parent t (t.shr / sum)),
        child'.1.active → ∃ t : Targets K, child'.2 = setStt parent t (t.shr / sum) ∧
          0 < t.shr ∧ 0 < sum := by
      intro child' hchild' hactive
      obtain ⟨child, hchild, rfl⟩ := List.mem_map.mp hchild'
      have hactive' : child.1.active = true := hactive
      refine ⟨child.2, ?_, (hweighted child hchild hactive).2.2, hpos ⟨child, hchild, hactive⟩⟩
      simp only [replaceActive, hactive', if_true]
    constructor
    · intro child' hchild' hactive
      obtain ⟨t, ht, hshr, hsum⟩ := hchild child' hchild' hactive
      rw [ht]
      exact (div_pos hshr hsum).le
    · intro child' hchild' hactive
      obtain ⟨t, ht, -⟩ := hchild child' hchild' hactive
      rw [ht]
      rfl
    · intro child' hchild' hactive
      obtain ⟨t, ht, -⟩ := hchild child' hchild' hactive
      rw [ht]
      rfl
    · rintro ⟨child', hchild', hactive⟩
      obtain ⟨t, -, -, hsumpos⟩ := hchild child' hchild' hactive
      rw [activeSum_map_replaceActive]
      simp only [setStt]
      rw [activeSum_div, hsum, div_self hsumpos.ne']

/-- The compensation changes positive `shr` values to positive ones and nothing else. -/
theorem compensate_spec (hfactor : 0 < compensationFactor) (hweighted : Weighted children)
    (hentitled : Entitled parent children) :
    ∃ children', children.mapM (onActive (compensate compensationFactor)) = some children' ∧
      children'.map Prod.fst = children.map Prod.fst ∧ Weighted children' ∧
      Entitled parent children' := by
  have hone : ∀ child ∈ children, child.1.active → ∃ shr : K,
      compensate compensationFactor child.1 child.2 = some { child.2 with shr := shr } ∧ 0 < shr := by
    intro child hchild hactive
    obtain ⟨hshares, holtt, hshr⟩ := hweighted child hchild hactive
    have hcast : (0 : K) < child.1.shares := Nat.cast_pos.mpr hshares
    unfold compensate
    split_ifs with hexceeds
    · have hbound : 0 < compensationFactor * child.2.oltt := mul_pos hfactor holtt
      have hostt : 0 < child.2.ostt := hbound.trans (of_decide_eq_true hexceeds)
      have hratio := div_pos hostt hbound
      have hmax : 0 < max child.1.combinedUsage (SGE_MIN_USAGE * child.2.oltt) := by
        apply lt_max_of_lt_right
        rwa [SGE_MIN_USAGE, one_mul]
      have hdenominator := mul_pos hmax hratio
      simp only [divide_eq hbound, divide_eq hdenominator, Option.bind_eq_bind, Option.bind_some]
      exact ⟨_, rfl, div_pos (mul_pos hcast hcast) hdenominator⟩
    · exact ⟨child.2.shr, rfl, hshr⟩
  obtain ⟨g, hg⟩ : ∃ g : StnNode K → Targets K → K, ∀ child ∈ children, child.1.active →
      compensate compensationFactor child.1 child.2 =
        some { child.2 with shr := g child.1 child.2 } ∧ 0 < g child.1 child.2 := by
    refine ⟨fun node t => ((compensate compensationFactor node t).getD t).shr, ?_⟩
    intro child hchild hactive
    obtain ⟨shr, heq, hpos⟩ := hone child hchild hactive
    simp only [heq, Option.getD_some, true_and]
    exact hpos
  refine ⟨_, mapM_onActive (g := fun node t => { t with shr := g node t })
    (fun child hchild hactive => (hg child hchild hactive).1), map_fst_replaceActive _, ?_, ?_⟩
  · intro child' hchild' hactive
    obtain ⟨child, hchild, rfl⟩ := List.mem_map.mp hchild'
    have hactive' : child.1.active = true := hactive
    obtain ⟨hshares, holtt, -⟩ := hweighted child hchild hactive
    simp only [replaceActive, hactive', if_true]
    exact ⟨hshares, holtt, (hg child hchild hactive).2⟩
  · constructor
    · intro child' hchild' hactive
      obtain ⟨child, hchild, rfl⟩ := List.mem_map.mp hchild'
      have hactive' : child.1.active = true := hactive
      simp only [replaceActive, hactive', if_true]
      exact hentitled.stt_nonneg child hchild hactive
    · intro child' hchild' hactive
      obtain ⟨child, hchild, rfl⟩ := List.mem_map.mp hchild'
      have hactive' : child.1.active = true := hactive
      simp only [replaceActive, hactive', if_true]
      exact hentitled.ostt_eq child hchild hactive
    · intro child' hchild' hactive
      obtain ⟨child, hchild, rfl⟩ := List.mem_map.mp hchild'
      have hactive' : child.1.active = true := hactive
      simp only [replaceActive, hactive', if_true]
      exact hentitled.adjusted_eq child hchild hactive
    · rintro ⟨child', hchild', hactive⟩
      obtain ⟨child, hchild, rfl⟩ := List.mem_map.mp hchild'
      rw [activeSum_map_replaceActive]
      exact hentitled.sum_stt ⟨child, hchild, hactive⟩

theorem childTargets_spec (children : List (StnNode K × Targets K)) (hparent : 0 < parent.oltt) (hfactor : 0 ≤ compensationFactor)
    (hshares : ∀ child ∈ children, child.1.active → 0 < child.1.shares) :
    ∃ children', childTargets compensationFactor parent children = some children' ∧
      children'.map Prod.fst = children.map Prod.fst ∧ Weighted children' ∧
      Entitled parent children' := by
  obtain ⟨children₁, hlong, hfst₁, hweighted₁⟩ := longTerm_spec hparent hshares
  obtain ⟨children₂, hshort, hfst₂, hweighted₂, hentitled₂⟩ :=
    proportions_spec parent hweighted₁ rfl (shortTerm_eq parent)
  simp only [childTargets, hlong, hshort, Option.bind_eq_bind, Option.bind_some]
  split_ifs with hzero hcompensation
  · exact ⟨children₂, rfl, hfst₂.trans hfst₁, hweighted₂, hentitled₂⟩
  · obtain ⟨children₃, hcomp, hfst₃, hweighted₃, -⟩ :=
      compensate_spec (lt_of_le_of_ne hfactor (Ne.symm hzero)) hweighted₂ hentitled₂
    obtain ⟨children₄, hagain, hfst₄, hweighted₄, hentitled₄⟩ :=
      proportions_spec parent hweighted₃ rfl (shortTermAgain_eq parent)
    rw [hcomp, Option.bind_some, hagain]
    exact ⟨children₄, rfl, hfst₄.trans (hfst₃.trans (hfst₂.trans hfst₁)), hweighted₄, hentitled₄⟩
  · obtain ⟨children₃, hcomp, hfst₃, hweighted₃, hentitled₃⟩ :=
      compensate_spec (lt_of_le_of_ne hfactor (Ne.symm hzero)) hweighted₂ hentitled₂
    rw [hcomp, Option.bind_some]
    exact ⟨children₃, rfl, hfst₃.trans (hfst₂.trans hfst₁), hweighted₃, hentitled₃⟩

end Level

end GridEngine.ShareTree
