import Mathlib.Data.Set.Card

/-!
# Finite acyclic relations

A closure is often collected level by level: the successors of a list of nodes, then the
successors of those. On a relation without cycles whose targets are finitely many, every step to a
successor lowers the height of a node, so the levels end. Redirecting the edges out of one node
keeps a relation acyclic as long as none of the new targets leads back to it.
-/

namespace ReferenceGraph
open Relation

variable {κ ν : Type*} {r r' : κ → κ → Prop} {a b v : κ}

def Acyclic (r : κ → κ → Prop) : Prop := ∀ a, ¬ TransGen r a a

/-- The nodes with an edge into them. -/
def targets (r : κ → κ → Prop) : Set κ := {b | ∃ a, r a b}

/-- The number of nodes that can be reached. -/
noncomputable def height (r : κ → κ → Prop) (a : κ) : ℕ := {b | TransGen r a b}.ncard

theorem reached_subset_targets (r : κ → κ → Prop) (a : κ) : {b | TransGen r a b} ⊆ targets r := by
  intro b hb
  obtain ⟨c, -, hcb⟩ := TransGen.tail'_iff.mp hb
  exact ⟨c, hcb⟩

theorem height_le (hfin : (targets r).Finite) (a : κ) : height r a ≤ (targets r).ncard :=
  Set.ncard_le_ncard (reached_subset_targets r a) hfin

theorem height_lt (h : Acyclic r) (hfin : (targets r).Finite) (hab : r a b) :
    height r b < height r a := by
  apply Set.ncard_lt_ncard _ (hfin.subset (reached_subset_targets r a))
  refine ⟨fun c hc => TransGen.head hab hc, fun hsub => ?_⟩
  exact h b (hsub (TransGen.single hab))

theorem Acyclic.swap (h : Acyclic r) : Acyclic (Function.swap r) :=
  fun a ha => h a (transGen_swap.mp ha)

theorem Acyclic.mono (h : Acyclic r) (hsub : ∀ a b, r' a b → r a b) : Acyclic r' :=
  fun a ha => h a (TransGen.mono hsub _ _ ha)

/-- A path either avoids the edges out of `v` or can be cut at `v`. -/
theorem path_through (hother : ∀ a b, a ≠ v → r' a b → r a b) (h : TransGen r' a b) :
    TransGen r a b ∨ (ReflTransGen r' a v ∧ TransGen r' v b) := by
  induction h using TransGen.head_induction_on with
  | @single a hab =>
      by_cases ha : a = v
      · exact Or.inr ⟨ha ▸ .refl, ha ▸ .single hab⟩
      · exact Or.inl (.single (hother _ _ ha hab))
  | @head a c hac hcb ih =>
      by_cases ha : a = v
      · exact Or.inr ⟨ha ▸ .refl, ha ▸ .head hac hcb⟩
      · rcases ih with hpath | ⟨hin, hout⟩
        · exact Or.inl (.head (hother _ _ ha hac) hpath)
        · exact Or.inr ⟨.head hac hin, hout⟩

/-- A path into `v` needs no edge out of `v`. -/
theorem path_into (hother : ∀ a b, a ≠ v → r' a b → r a b) (h : ReflTransGen r' a v) :
    ReflTransGen r a v := by
  induction h using ReflTransGen.head_induction_on with
  | refl => exact .refl
  | @head a c hac _ ih =>
      by_cases ha : a = v
      · exact ha ▸ .refl
      · exact .head (hother _ _ ha hac) ih

theorem Acyclic.redirect (h : Acyclic r) (hother : ∀ a b, a ≠ v → r' a b → r a b)
    (hnew : ∀ b, r' v b → r v b ∨ (b ≠ v ∧ ¬ TransGen r b v)) : Acyclic r' := by
  intro a ha
  rcases path_through hother ha with hpath | ⟨hin, hout⟩
  · exact h a hpath
  obtain ⟨b, hvb, hba⟩ := TransGen.head'_iff.mp (hout.trans_left hin)
  have hbv := path_into hother hba
  rcases hnew b hvb with hold | ⟨hne, hnot⟩
  · exact h v (TransGen.head' hold hbv)
  · rcases reflTransGen_iff_eq_or_transGen.mp hbv with heq | hpath
    · exact hne heq.symm
    · exact hnot hpath

section Levels
variable {key : ν → κ} {l next : List ν}

/-- The nodes reached from a level are the next level and the ones reached from that. -/
theorem reached_iff (hnext : ∀ b, (∃ x ∈ next, key x = b) ↔ ∃ x ∈ l, r (key x) b) :
    (∃ x ∈ l, TransGen r (key x) b) ↔
      (∃ x ∈ next, key x = b) ∨ ∃ x ∈ next, TransGen r (key x) b := by
  constructor
  · rintro ⟨x, hx, hxb⟩
    obtain ⟨c, hxc, hcb⟩ := TransGen.head'_iff.mp hxb
    obtain ⟨y, hy, rfl⟩ := (hnext c).mpr ⟨x, hx, hxc⟩
    rcases reflTransGen_iff_eq_or_transGen.mp hcb with heq | hpath
    · exact Or.inl ⟨y, hy, heq.symm⟩
    · exact Or.inr ⟨y, hy, hpath⟩
  · rintro (hb | ⟨y, hy, hyb⟩)
    · obtain ⟨x, hx, hxb⟩ := (hnext b).mp hb
      exact ⟨x, hx, .single hxb⟩
    · obtain ⟨x, hx, hxy⟩ := (hnext (key y)).mp ⟨y, hy, rfl⟩
      exact ⟨x, hx, .head hxy hyb⟩

/-- What the nodes at or below a level carry is carried by the level or below the next one. -/
theorem carried_iff {Q : κ → Prop}
    (hnext : ∀ b, (∃ x ∈ next, key x = b) ↔ ∃ x ∈ l, r (key x) b) :
    (∃ x ∈ l, ∃ c, ReflTransGen r (key x) c ∧ Q c) ↔
      (∃ x ∈ l, Q (key x)) ∨ ∃ x ∈ next, ∃ c, ReflTransGen r (key x) c ∧ Q c := by
  constructor
  · rintro ⟨x, hx, c, hxc, hc⟩
    rcases ReflTransGen.cases_head hxc with heq | ⟨d, hxd, hdc⟩
    · exact Or.inl ⟨x, hx, heq ▸ hc⟩
    · obtain ⟨y, hy, rfl⟩ := (hnext d).mpr ⟨x, hx, hxd⟩
      exact Or.inr ⟨y, hy, c, hdc, hc⟩
  · rintro (⟨x, hx, hQ⟩ | ⟨y, hy, c, hyc, hc⟩)
    · exact ⟨x, hx, key x, .refl, hQ⟩
    · obtain ⟨x, hx, hxy⟩ := (hnext (key y)).mp ⟨y, hy, rfl⟩
      exact ⟨x, hx, c, .head hxy hyc, hc⟩

end Levels

end ReferenceGraph
