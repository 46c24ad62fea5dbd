import Mathlib.Data.List.Count
import Mathlib.Data.List.Induction
import Mathlib.Data.List.Perm.Basic

/-!
# Groups of references by key

References are collected into groups, one for each key, in the order in which the keys come up.
A reference is taken back by removing its first place, and a group that becomes empty is dropped.
-/

namespace KeyedGroups

open scoped List

/-- The references that came with one key, in order. -/
structure Group (κ α : Type*) where
  key : κ
  members : List α

variable {κ α : Type*} {g : Group κ α} {gs : List (Group κ α)}

/-- The references of a group with their key. -/
def Group.entries (g : Group κ α) : List (κ × α) := g.members.map (Prod.mk g.key)

/-- All references with their keys, group after group. -/
def entries (gs : List (Group κ α)) : List (κ × α) := gs.flatMap Group.entries

@[simp] theorem entries_nil : entries ([] : List (Group κ α)) = [] := rfl

@[simp] theorem entries_cons : entries (g :: gs) = g.entries ++ entries gs := rfl

/-- All references, group after group. -/
def members (gs : List (Group κ α)) : List α := gs.flatMap Group.members

@[simp] theorem members_nil : members ([] : List (Group κ α)) = [] := rfl

@[simp] theorem members_cons : members (g :: gs) = g.members ++ members gs := rfl

theorem mem_members {a : α} : a ∈ members gs ↔ ∃ g ∈ gs, a ∈ g.members := List.mem_flatMap

theorem mem_entries {k : κ} {a : α} :
    (k, a) ∈ entries gs ↔ ∃ g ∈ gs, g.key = k ∧ a ∈ g.members := by
  simp [entries, Group.entries, and_comm, eq_comm]

theorem map_snd_entries : (entries gs).map Prod.snd = members gs := by
  induction gs with
  | nil => rfl
  | cons g gs ih => simp [Group.entries, ih, Function.comp_def]

/-- No group is empty. -/
def Inhabited (gs : List (Group κ α)) : Prop := ∀ g ∈ gs, g.members ≠ []

theorem inhabited_nil : Inhabited ([] : List (Group κ α)) := fun _ h => nomatch h

theorem inhabited_cons : Inhabited (g :: gs) ↔ g.members ≠ [] ∧ Inhabited gs :=
  List.forall_mem_cons

theorem Inhabited.eq_nil_iff (h : Inhabited gs) : gs = [] ↔ members gs = [] := by
  cases gs with
  | nil => simp
  | cons g gs => simp [(inhabited_cons.mp h).1]

section Collect
variable [DecidableEq κ] {k j : κ} {a b : α} {l : List (κ × α)}

/-- The reference is appended to the group of its key, or opens one at the end. -/
def add (k : κ) (a : α) : List (Group κ α) → List (Group κ α)
  | [] => [⟨k, [a]⟩]
  | g :: gs => if g.key = k then ⟨g.key, g.members ++ [a]⟩ :: gs else g :: add k a gs

theorem add_cons_of_eq (h : g.key = k) : add k a (g :: gs) = ⟨g.key, g.members ++ [a]⟩ :: gs :=
  if_pos h

theorem add_cons_of_ne (h : g.key ≠ k) : add k a (g :: gs) = g :: add k a gs := if_neg h

theorem add_ne_nil : add k a gs ≠ [] := by
  cases gs with
  | nil => simp [add]
  | cons g gs =>
      rw [add]
      split_ifs <;> simp

theorem Inhabited.add (h : Inhabited gs) : Inhabited (add k a gs) := by
  induction gs with
  | nil => simp [KeyedGroups.add, Inhabited]
  | cons g gs ih =>
      obtain ⟨hg, hgs⟩ := inhabited_cons.mp h
      by_cases hk : g.key = k
      · rw [add_cons_of_eq hk]
        exact inhabited_cons.mpr ⟨by simp, hgs⟩
      · rw [add_cons_of_ne hk]
        exact inhabited_cons.mpr ⟨hg, ih hgs⟩

theorem entries_add_perm : entries (add k a gs) ~ (k, a) :: entries gs := by
  induction gs with
  | nil => exact List.Perm.refl _
  | cons g gs ih =>
      by_cases hk : g.key = k
      · subst hk
        rw [add_cons_of_eq rfl, entries_cons, entries_cons, Group.entries, List.map_append,
          List.append_assoc]
        exact List.perm_middle
      · rw [add_cons_of_ne hk, entries_cons, entries_cons]
        exact (ih.append_left _).trans List.perm_middle

/-- The groups of a sequence of references with their keys. -/
def collect (l : List (κ × α)) : List (Group κ α) := l.foldl (fun gs p => add p.1 p.2 gs) []

@[simp] theorem collect_nil : collect ([] : List (κ × α)) = [] := rfl

@[simp] theorem collect_concat {p : κ × α} : collect (l ++ [p]) = add p.1 p.2 (collect l) := by
  rw [collect, List.foldl_append]
  rfl

theorem inhabited_collect : Inhabited (collect l) := by
  induction l using List.reverseRecOn with
  | nil => exact inhabited_nil
  | append_singleton l p ih =>
      rw [collect_concat]
      exact ih.add

/-- Collecting keeps every reference with its key as often as it comes up. -/
theorem entries_collect_perm : entries (collect l) ~ l := by
  induction l using List.reverseRecOn with
  | nil => exact List.Perm.refl _
  | append_singleton l p ih =>
      rw [collect_concat]
      calc entries (add p.1 p.2 (collect l))
        _ ~ p :: entries (collect l) := entries_add_perm
        _ ~ p :: l := ih.cons _
        _ ~ l ++ [p] := (List.perm_append_singleton _ _).symm

theorem members_collect_perm : members (collect l) ~ l.map Prod.snd := by
  rw [← map_snd_entries]
  exact entries_collect_perm.map _

end Collect

section Erase
variable [DecidableEq α] {a : α} {r : List α}

/-- The first place of the reference is removed, with its group when that becomes empty. -/
def eraseFirst (a : α) : List (Group κ α) → List (Group κ α)
  | [] => []
  | g :: gs =>
      if a ∈ g.members then
        if g.members.erase a = [] then gs else ⟨g.key, g.members.erase a⟩ :: gs
      else g :: eraseFirst a gs

theorem Inhabited.eraseFirst (h : Inhabited gs) : Inhabited (eraseFirst a gs) := by
  induction gs with
  | nil => exact h
  | cons g gs ih =>
      obtain ⟨hg, hgs⟩ := inhabited_cons.mp h
      rw [KeyedGroups.eraseFirst]
      split_ifs with ha he
      · exact hgs
      · exact inhabited_cons.mpr ⟨he, hgs⟩
      · exact inhabited_cons.mpr ⟨hg, ih hgs⟩

theorem members_eraseFirst : members (eraseFirst a gs) = (members gs).erase a := by
  induction gs with
  | nil => rfl
  | cons g gs ih =>
      rw [eraseFirst]
      split_ifs with ha he
      · rw [members_cons, List.erase_append_left _ ha, he, List.nil_append]
      · rw [members_cons, members_cons, List.erase_append_left _ ha]
      · rw [members_cons, members_cons, List.erase_append_right _ ha, ih]

theorem Group.filter_entries {k : κ} {m : List α} :
    (Group.entries ⟨k, m⟩).filter (·.2 ∉ r) = (m.filter (· ∉ r)).map (Prod.mk k) := by
  rw [Group.entries, List.filter_map]
  rfl

theorem filter_erase (ha : a ∈ r) (m : List α) :
    (m.erase a).filter (· ∉ r) = m.filter (· ∉ r) := by
  rw [← List.erase_filter]
  exact List.erase_of_not_mem fun hmem => by simpa [ha] using (List.mem_filter.mp hmem).2

theorem filter_entries_eraseFirst (ha : a ∈ r) :
    (entries (eraseFirst a gs)).filter (·.2 ∉ r) = (entries gs).filter (·.2 ∉ r) := by
  induction gs with
  | nil => rfl
  | cons g gs ih =>
      have hg := filter_erase ha g.members
      rw [eraseFirst]
      split_ifs with hmem he
      · rw [he, List.filter_nil] at hg
        rw [entries_cons, List.filter_append, Group.filter_entries, ← hg]
        rfl
      · rw [entries_cons, entries_cons, List.filter_append, List.filter_append,
          Group.filter_entries, Group.filter_entries, hg]
      · rw [entries_cons, entries_cons, List.filter_append, List.filter_append, ih]

/-- One place is removed for each reference of the list. -/
def eraseAll (r : List α) (gs : List (Group κ α)) : List (Group κ α) :=
  r.foldl (fun gs a => eraseFirst a gs) gs

@[simp] theorem eraseAll_nil : eraseAll [] gs = gs := rfl

@[simp] theorem eraseAll_cons : eraseAll (a :: r) gs = eraseAll r (eraseFirst a gs) := rfl

theorem eraseAll_empty : eraseAll r ([] : List (Group κ α)) = [] := by
  induction r with
  | nil => rfl
  | cons a r ih => exact ih

theorem Inhabited.eraseAll (h : Inhabited gs) : Inhabited (eraseAll r gs) := by
  induction r generalizing gs with
  | nil => exact h
  | cons a r ih => exact ih h.eraseFirst

theorem members_eraseAll : members (eraseAll r gs) = (members gs).diff r := by
  induction r generalizing gs with
  | nil => rfl
  | cons a r ih => rw [eraseAll_cons, ih, members_eraseFirst, List.diff_cons]

theorem filter_entries_eraseAll {s : List α} (hr : ∀ a ∈ r, a ∈ s) :
    (entries (eraseAll r gs)).filter (·.2 ∉ s) = (entries gs).filter (·.2 ∉ s) := by
  induction r generalizing gs with
  | nil => rfl
  | cons a r ih =>
      obtain ⟨ha, hr⟩ := List.forall_mem_cons.mp hr
      rw [eraseAll_cons, ih hr, filter_entries_eraseFirst ha]

theorem mem_members_eraseAll :
    a ∈ members (eraseAll r gs) ↔ r.count a < (members gs).count a := by
  rw [members_eraseAll, ← List.count_pos_iff, List.count_diff]
  omega

/-- Removing one place for each reference leaves none of them exactly when no reference has more
places than it is listed. -/
theorem forall_notMem_eraseAll_iff :
    (∀ a ∈ members (eraseAll r gs), a ∉ r) ↔
      ∀ a ∈ r, (members gs).count a ≤ r.count a := by
  constructor
  · intro hgone a ha
    by_contra hle
    exact hgone a (mem_members_eraseAll.mpr (Nat.lt_of_not_le hle)) ha
  · intro hle a hmem ha
    exact absurd (mem_members_eraseAll.mp hmem) (Nat.not_lt.mpr (hle a ha))

end Erase

end KeyedGroups
