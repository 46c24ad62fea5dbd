import Mathlib.Data.Option.Basic
import Mathlib.Order.Lattice
import Mathlib.Order.Nat

/-!
# Results that enough fuel gives

A function with a recursion that is not structural takes fuel and may run out of it. Its result is
what it gives with all fuel from some amount on.
-/

namespace Fuel

variable {α β : Type*} {f g : ℕ → Option α} {a b : α}

def Yields (f : ℕ → Option α) (a : α) : Prop := ∃ N, ∀ n ≥ N, f n = some a

theorem yields_some : Yields (fun _ => some a) a := ⟨0, fun _ _ => rfl⟩

theorem Yields.succ (h : Yields (fun n => f (n + 1)) a) : Yields f a := by
  obtain ⟨N, hN⟩ := h
  refine ⟨N + 1, fun n hn => ?_⟩
  obtain ⟨m, rfl⟩ := Nat.exists_eq_add_of_le' (Nat.one_le_of_lt hn)
  exact hN m (by omega)

theorem Yields.bind {k : α → ℕ → Option β} {b : β} (hf : Yields f a) (hk : Yields (k a) b) :
    Yields (fun n => (f n).bind fun x => k x n) b := by
  obtain ⟨N, hN⟩ := hf
  obtain ⟨M, hM⟩ := hk
  refine ⟨max N M, fun n hn => ?_⟩
  have hfn := hN n (le_trans (le_max_left N M) hn)
  have hkn := hM n (le_trans (le_max_right N M) hn)
  simp only [hfn, Option.bind_some, hkn]

theorem Yields.unique (ha : Yields f a) (hb : Yields f b) : a = b := by
  obtain ⟨N, hN⟩ := ha
  obtain ⟨M, hM⟩ := hb
  have han := hN (max N M) (le_max_left N M)
  rw [hM (max N M) (le_max_right N M)] at han
  exact (Option.some.inj han).symm

end Fuel
