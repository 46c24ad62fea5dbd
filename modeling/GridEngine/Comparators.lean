import Mathlib.Data.List.Sort
import Mathlib.Data.Prod.Lex

/-!
# Compare functions

A compare function returns a number whose sign tells which argument is smaller. It compares by a
key when the sign is the order of the keys. Reversing the sign reverses the order, and asking
a second function where the first sees no difference compares by the pair of the keys. `qsort`
promises an order only up to such a function, so its result is determined where the keys differ.
-/

namespace Comparators
variable {α K L : Type*}

/-- A function whose answers fit together, as `qsort` wants it. -/
structure Consistent (cmp : α → α → ℤ) : Prop where
  swap : ∀ a b, cmp a b < 0 ↔ 0 < cmp b a
  trans : ∀ a b c, cmp a b ≤ 0 → cmp b c ≤ 0 → cmp a c ≤ 0

/-- The sign of the function is the order of the keys. -/
structure ComparesBy [LinearOrder K] (cmp : α → α → ℤ) (key : α → K) : Prop where
  neg_iff : ∀ a b, cmp a b < 0 ↔ key a < key b
  pos_iff : ∀ a b, 0 < cmp a b ↔ key b < key a

/-- Asks `next` where `cmp` sees no difference. -/
def orElse (cmp next : α → α → ℤ) (a b : α) : ℤ := if cmp a b ≠ 0 then cmp a b else next a b

namespace ComparesBy
variable [LinearOrder K] [LinearOrder L] {cmp next : α → α → ℤ} {key : α → K} {key' : α → L}

theorem le_iff (h : ComparesBy cmp key) (a b : α) : cmp a b ≤ 0 ↔ key a ≤ key b := by
  rw [← not_lt, h.pos_iff, not_lt]

theorem eq_iff (h : ComparesBy cmp key) (a b : α) : cmp a b = 0 ↔ key a = key b := by
  have hle := h.le_iff a b
  have hneg := h.neg_iff a b
  constructor
  · intro hzero
    apply le_antisymm (hle.mp hzero.le)
    rw [← not_lt, ← hneg]
    omega
  · intro heq
    have hnot : ¬ cmp a b < 0 := by rw [hneg, heq]; exact lt_irrefl _
    have := hle.mpr heq.le
    omega

theorem consistent (h : ComparesBy cmp key) : Consistent cmp where
  swap a b := by rw [h.neg_iff, h.pos_iff]
  trans a b c hab hbc := by
    rw [h.le_iff] at *
    exact hab.trans hbc

theorem pullback {β : Type*} (h : ComparesBy cmp key) (f : β → α) :
    ComparesBy (fun a b => cmp (f a) (f b)) (fun a => key (f a)) where
  neg_iff a b := h.neg_iff (f a) (f b)
  pos_iff a b := h.pos_iff (f a) (f b)

theorem of_lt_iff {key' : α → L} (h : ComparesBy cmp key)
    (hlt : ∀ a b, key' a < key' b ↔ key a < key b) : ComparesBy cmp key' where
  neg_iff a b := by rw [h.neg_iff, hlt]
  pos_iff a b := by rw [h.pos_iff, hlt]

theorem ascending (h : ComparesBy cmp key) : ComparesBy (fun a b => cmp a b * 1) key where
  neg_iff a b := by rw [Int.mul_one, h.neg_iff]
  pos_iff a b := by rw [Int.mul_one, h.pos_iff]

theorem descending (h : ComparesBy cmp key) :
    ComparesBy (fun a b => cmp a b * -1) (fun a => OrderDual.toDual (key a)) where
  neg_iff a b := by
    rw [OrderDual.toDual_lt_toDual, ← h.pos_iff]
    omega
  pos_iff a b := by
    rw [OrderDual.toDual_lt_toDual, ← h.neg_iff]
    omega

theorem orElse (h : ComparesBy cmp key) (h' : ComparesBy next key') :
    ComparesBy (orElse cmp next) (fun a => toLex (key a, key' a)) where
  neg_iff a b := by
    rw [Prod.Lex.toLex_lt_toLex, ← h.neg_iff, ← h.eq_iff, ← h'.neg_iff, Comparators.orElse]
    split_ifs <;> omega
  pos_iff a b := by
    rw [Prod.Lex.toLex_lt_toLex, ← h.pos_iff, @eq_comm _ (key b), ← h.eq_iff, ← h'.pos_iff,
      Comparators.orElse]
    split_ifs <;> omega

theorem zero : ComparesBy (fun _ _ : α => (0 : ℤ)) (fun _ => ()) where
  neg_iff _ _ := by simp
  pos_iff _ _ := by simp

end ComparesBy

/-- `qsort`, which says nothing about the order of elements that compare equal. -/
structure Qsort (α : Type*) where
  run : (α → α → ℤ) → List α → List α
  perm : ∀ cmp l, (run cmp l).Perm l
  sorted : ∀ cmp l, Consistent cmp → (run cmp l).Pairwise (fun a b => cmp a b ≤ 0)

namespace Qsort

/-- A stable implementation. -/
def stable (α : Type*) : Qsort α where
  run cmp l := l.mergeSort (fun a b => decide (cmp a b ≤ 0))
  perm cmp l := List.mergeSort_perm l _
  sorted cmp l hc := by
    have h := @List.pairwise_mergeSort _ (fun a b => decide (cmp a b ≤ 0))
      (fun a b c hab hbc => by
        rw [decide_eq_true_eq] at *
        exact hc.trans a b c hab hbc)
      (fun a b => by
        rw [Bool.or_eq_true, decide_eq_true_eq, decide_eq_true_eq]
        have := hc.swap b a
        omega) l
    exact h.imp fun hab => of_decide_eq_true hab

variable [LinearOrder K] {cmp : α → α → ℤ} {key : α → K}

theorem sorted_key (q : Qsort α) (h : ComparesBy cmp key) (l : List α) :
    (q.run cmp l).Pairwise (fun a b => key a ≤ key b) :=
  (q.sorted cmp l h.consistent).imp fun hab => (h.le_iff _ _).mp hab

end Qsort

theorem eq_of_perm_of_sorted [LinearOrder K] {key : α → K} {l l' : List α} (hperm : l.Perm l')
    (hle : l.Pairwise (fun a b => key a ≤ key b)) (hlt : l'.Pairwise (fun a b => key a < key b)) :
    l = l' := by
  have hnodup : (l'.map key).Nodup := by
    rw [List.Nodup, List.pairwise_map]
    exact hlt.imp fun hab => hab.ne
  apply List.Perm.eq_of_pairwise _ hle (hlt.imp fun hab => hab.le) hperm
  intro a b ha hb hab hba
  exact List.inj_on_of_nodup_map hnodup (hperm.mem_iff.mp ha) hb (le_antisymm hab hba)

end Comparators
