import Mathlib.Algebra.BigOperators.Group.List.Basic
import Mathlib.Data.List.Nodup

/-!
# Lists with keys

Where each key occurs once, a search by key finds the element. Where the elements deposit amounts
on keys, the deposits of the single keys add up to all that was deposited.
-/

namespace GridEngine.KeyedLists

section Search
variable {α κ : Type*} [DecidableEq κ] {key : α → κ} {l : List α} {k : κ} {x : α}

theorem find?_key_iff (hnodup : (l.map key).Nodup) :
    l.find? (fun y => key y = k) = some x ↔ x ∈ l ∧ key x = k := by
  have hfound : ∀ y, l.find? (fun y => key y = k) = some y → y ∈ l ∧ key y = k := by
    intro y hy
    have hkey := List.find?_some hy
    exact ⟨List.mem_of_find?_eq_some hy, of_decide_eq_true hkey⟩
  refine ⟨hfound x, ?_⟩
  rintro ⟨hx, hkey⟩
  cases hfind : l.find? fun y => key y = k with
  | none => exact absurd (decide_eq_true hkey) (List.find?_eq_none.mp hfind x hx)
  | some y =>
      obtain ⟨hy, hykey⟩ := hfound y hfind
      rw [List.inj_on_of_nodup_map hnodup hy hx (hykey.trans hkey.symm)]

end Search

section Deposits
variable {α κ M : Type*} [DecidableEq κ] [AddCommMonoid M] {key : α → Option κ} {amount : α → M}

/-- An element adds its amount to what its key holds. -/
def deposit (key : α → Option κ) (amount : α → M) (held : κ → M) (a : α) : κ → M :=
  match key a with
  | none => held
  | some k => Function.update held k (held k + amount a)

/-- What the elements of a list deposit on one key. -/
def deposited (key : α → Option κ) (amount : α → M) (l : List α) (k : κ) : M :=
  ((l.filter fun a => key a = some k).map amount).sum

theorem deposited_cons (a : α) (l : List α) (k : κ) :
    deposited key amount (a :: l) k =
      (if key a = some k then amount a else 0) + deposited key amount l k := by
  unfold deposited
  by_cases h : key a = some k
  · simp [h]
  · simp [h]

theorem deposit_apply (held : κ → M) (a : α) (k : κ) :
    deposit key amount held a k = held k + if key a = some k then amount a else 0 := by
  unfold deposit
  cases hkey : key a with
  | none => simp
  | some k' =>
      by_cases h : k' = k
      · subst h
        simp
      · have hne : some k' ≠ some k := fun heq => h (Option.some.inj heq)
        rw [if_neg hne, add_zero]
        exact Function.update_of_ne (Ne.symm h) _ _

theorem foldl_deposit (l : List α) (held : κ → M) (k : κ) :
    l.foldl (deposit key amount) held k = held k + deposited key amount l k := by
  induction l generalizing held with
  | nil => simp [deposited]
  | cons a l ih => rw [List.foldl_cons, ih, deposit_apply, deposited_cons, add_assoc]

theorem sum_map_single (ks : List κ) (hnodup : ks.Nodup) {k : κ} (hk : k ∈ ks) (x : M) :
    (ks.map fun k' => if k = k' then x else 0).sum = x := by
  induction ks with
  | nil => exact absurd hk List.not_mem_nil
  | cons k' ks ih =>
      obtain ⟨hnot, hnodup⟩ := List.nodup_cons.mp hnodup
      rw [List.map_cons, List.sum_cons]
      rcases List.mem_cons.mp hk with rfl | hmem
      · rw [if_pos rfl, List.sum_eq_zero, add_zero]
        intro y hy
        obtain ⟨k', hk', rfl⟩ := List.mem_map.mp hy
        apply if_neg
        rintro rfl
        exact hnot hk'
      · have hne : k ≠ k' := by
          rintro rfl
          exact hnot hmem
        rw [if_neg hne, zero_add, ih hnodup hmem]

theorem sum_deposited (ks : List κ) (hnodup : ks.Nodup) (l : List α)
    (hnone : ∀ a ∈ l, key a = none → amount a = 0) (hkeys : ∀ a ∈ l, ∀ k ∈ key a, k ∈ ks) :
    (ks.map (deposited key amount l)).sum = (l.map amount).sum := by
  induction l with
  | nil => exact List.sum_eq_zero (by simp [deposited])
  | cons a l ih =>
      have hrest := ih (fun b hb => hnone b (List.mem_cons_of_mem _ hb))
        (fun b hb => hkeys b (List.mem_cons_of_mem _ hb))
      have hone : (ks.map fun k => if key a = some k then amount a else 0).sum = amount a := by
        cases hkey : key a with
        | none =>
            rw [hnone a List.mem_cons_self hkey]
            simp
        | some k =>
            simp only [Option.some.injEq]
            exact sum_map_single ks hnodup (hkeys a List.mem_cons_self k hkey) (amount a)
      calc (ks.map (deposited key amount (a :: l))).sum
          = (ks.map fun k => (if key a = some k then amount a else 0) +
              deposited key amount l k).sum := by
            rw [funext (deposited_cons a l)]
        _ = (ks.map fun k => if key a = some k then amount a else 0).sum +
              (ks.map (deposited key amount l)).sum := List.sum_map_add
        _ = ((a :: l).map amount).sum := by
            rw [hone, hrest, List.map_cons, List.sum_cons]

end Deposits

end GridEngine.KeyedLists
