import Mathlib.Order.Bounds.Basic
import Mathlib.Order.MinMax
import Mathlib.Data.List.Basic

/-!
# The first least element of a list

A list is scanned from the left with a bound. An element is taken when its key is less than the key
of the one that was taken before, or than the bound while none was. What a scan ends with is the
first of the elements with the least key. A fold with `min` or `max` ends with the least or greatest
one of its start and the elements.
-/

namespace FirstLeast
variable {α κ : Type*} [LinearOrder κ] {p : α → Prop} {key : α → κ} {bound : κ} {l : List α}
  {r : Option α} {a b : α}

/-- The result of a scan over the elements that satisfy `p`. -/
inductive Scanned (p : α → Prop) (key : α → κ) (bound : κ) : List α → Option α → Prop
  | nothing {l : List α} : (∀ a ∈ l, p a → bound ≤ key a) → Scanned p key bound l none
  | found {pre suf : List α} {b : α} : p b → key b < bound → (∀ a ∈ pre, p a → key b < key a) →
      (∀ a ∈ suf, p a → key b ≤ key a) → Scanned p key bound (pre ++ b :: suf) (some b)

/-- What the next key is compared with. -/
def best (key : α → κ) (bound : κ) : Option α → κ
  | none => bound
  | some b => key b

theorem Scanned.nil : Scanned p key bound [] none :=
  .nothing (fun _ ha => absurd ha List.not_mem_nil)

theorem Scanned.take (h : Scanned p key bound l r) (ha : p a) (hlt : key a < best key bound r) :
    Scanned p key bound (l ++ [a]) (some a) := by
  cases h with
  | nothing hl =>
      exact .found ha hlt (fun b hb hpb => lt_of_lt_of_le hlt (hl b hb hpb))
        (fun b hb => absurd hb List.not_mem_nil)
  | @found pre suf b hb hbound hpre hsuf =>
      refine .found ha (lt_trans hlt hbound) (fun c hc hpc => ?_)
        (fun c hc => absurd hc List.not_mem_nil)
      rcases List.mem_append.mp hc with hc | hc
      · exact lt_trans hlt (hpre c hc hpc)
      · rcases List.mem_cons.mp hc with rfl | hc
        · exact hlt
        · exact lt_of_lt_of_le hlt (hsuf c hc hpc)

theorem Scanned.skip (h : Scanned p key bound l r) (hskip : p a → best key bound r ≤ key a) :
    Scanned p key bound (l ++ [a]) r := by
  cases h with
  | nothing hl =>
      refine .nothing (fun b hb hpb => ?_)
      rcases List.mem_append.mp hb with hb | hb
      · exact hl b hb hpb
      · rw [List.mem_singleton.mp hb] at hpb ⊢
        exact hskip hpb
  | @found pre suf b hb hbound hpre hsuf =>
      rw [List.append_assoc, List.cons_append]
      refine .found hb hbound hpre (fun c hc hpc => ?_)
      rcases List.mem_append.mp hc with hc | hc
      · exact hsuf c hc hpc
      · rw [List.mem_singleton.mp hc] at hpc ⊢
        exact hskip hpc

theorem Scanned.mem (h : Scanned p key bound l (some b)) : b ∈ l ∧ p b ∧ key b < bound := by
  cases h with
  | found hb hbound hpre hsuf => exact ⟨List.mem_append_right _ List.mem_cons_self, hb, hbound⟩

theorem Scanned.le (h : Scanned p key bound l r) (ha : a ∈ l) (hpa : p a) :
    best key bound r ≤ key a := by
  cases h with
  | nothing hl => exact hl a ha hpa
  | found hb hbound hpre hsuf =>
      rcases List.mem_append.mp ha with ha | ha
      · exact le_of_lt (hpre a ha hpa)
      · rcases List.mem_cons.mp ha with rfl | ha
        · exact le_rfl
        · exact hsuf a ha hpa

/-- The scan of a list keeps to its first part when that has an element no key of the rest is below. -/
theorem Scanned.mem_left {rest : List α} (h : Scanned p key bound (l ++ rest) (some b))
    (ha : a ∈ l) (hpa : p a) (hrest : ∀ c ∈ rest, p c → key a ≤ key c) : b ∈ l := by
  generalize heq : l ++ rest = whole at h
  cases h with
  | @found pre suf _ hb hbound hpre hsuf =>
      have hnot : ¬ (b ∈ rest ∧ a ∈ pre) := fun hmem =>
        absurd (hrest b hmem.1 hb) (not_le_of_gt (hpre a hmem.2 hpa))
      rcases List.append_eq_append_iff.mp heq with ⟨mid, hpremid, hmid⟩ | ⟨mid, hl, hmid⟩
      · refine absurd ⟨?_, ?_⟩ hnot
        · rw [hmid]
          exact List.mem_append_right _ List.mem_cons_self
        · rw [hpremid]
          exact List.mem_append_left _ ha
      · cases mid with
        | nil =>
            rw [List.append_nil] at hl
            rw [List.nil_append] at hmid
            exact absurd ⟨hmid ▸ List.mem_cons_self, hl ▸ ha⟩ hnot
        | cons c mid =>
            rw [List.cons_append, List.cons.injEq] at hmid
            rw [hl, hmid.1]
            exact List.mem_append_right _ List.mem_cons_self

section Folds
variable {β : Type*} [LinearOrder β]

theorem isLeast_foldl_min (a : β) (l : List β) : IsLeast {x | x ∈ a :: l} (l.foldl min a) := by
  induction l generalizing a with
  | nil => exact ⟨List.mem_cons_self, fun x hx => (List.mem_singleton.mp hx).ge⟩
  | cons b l ih =>
      obtain ⟨hmem, hle⟩ := ih (min a b)
      have hmin : l.foldl min (min a b) ≤ min a b := hle List.mem_cons_self
      refine ⟨?_, fun x hx => ?_⟩
      · rcases List.mem_cons.mp hmem with heq | hrest
        · rcases min_choice a b with hchoice | hchoice
          · exact List.mem_cons.mpr (.inl (heq.trans hchoice))
          · exact List.mem_cons_of_mem a (List.mem_cons.mpr (.inl (heq.trans hchoice)))
        · exact List.mem_cons_of_mem a (List.mem_cons_of_mem b hrest)
      · rcases List.mem_cons.mp hx with rfl | hx
        · exact hmin.trans (min_le_left x b)
        · rcases List.mem_cons.mp hx with rfl | hx
          · exact hmin.trans (min_le_right a x)
          · exact hle (List.mem_cons_of_mem _ hx)

theorem isGreatest_foldl_max (a : β) (l : List β) :
    IsGreatest {x | x ∈ a :: l} (l.foldl max a) :=
  @isLeast_foldl_min βᵒᵈ _ a l

end Folds

end FirstLeast
