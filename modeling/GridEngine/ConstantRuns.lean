import Mathlib.Algebra.Order.Group.Defs
import Mathlib.Data.List.Basic
import Mathlib.Data.Set.Basic

/-!
# Runs of constant difference

A sequence is cut from left to right into runs. A run takes every member that continues it with
its difference. The first member that differs from the ones before it sets the difference, so
that a repeated first member leaves it open, written as zero.
-/

namespace ConstantRuns

variable {α : Type*}

section Runs
variable [AddGroup α] [DecidableEq α] {last d x : α} {run xs : List α}

/-- The rest of the run that ends in `last` with difference `d`, and the runs behind it. -/
def runsFrom (last d : α) (run : List α) : List α → List (α × List α)
  | [] => [(d, run)]
  | x :: xs =>
      if x = last + d then runsFrom x d (run ++ [x]) xs
      else if d = 0 then runsFrom x (x - last) (run ++ [x]) xs
      else (d, run) :: runsFrom x 0 [x] xs

/-- Every run with its difference. -/
def runs : List α → List (α × List α)
  | [] => []
  | x :: xs => runsFrom x 0 [x] xs

theorem flatMap_runsFrom : (runsFrom last d run xs).flatMap Prod.snd = run ++ xs := by
  induction xs generalizing last d run with
  | nil => simp [runsFrom]
  | cons x xs ih =>
      rw [runsFrom]
      split_ifs
      · rw [ih, List.append_assoc, List.singleton_append]
      · rw [ih, List.append_assoc, List.singleton_append]
      · rw [List.flatMap_cons, ih, List.singleton_append]

theorem flatMap_runs : (runs xs).flatMap Prod.snd = xs := by
  cases xs with
  | nil => rfl
  | cons x xs => rw [runs, flatMap_runsFrom, List.singleton_append]

end Runs

section Rising
variable [AddGroup α] [LinearOrder α] {last d x : α} {run xs : List α}

/-- The members of the runs that do not descend. -/
def rising (xs : List α) : Set α := {x | ∃ p ∈ runs xs, 0 ≤ p.1 ∧ x ∈ p.2}

theorem rising_subset : rising xs ⊆ {x | x ∈ xs} := by
  rintro x ⟨p, hp, -, hx⟩
  have hmem : x ∈ (runs xs).flatMap Prod.snd := List.mem_flatMap.mpr ⟨p, hp, hx⟩
  rwa [flatMap_runs] at hmem

variable [AddRightMono α]

end Rising

end ConstantRuns
