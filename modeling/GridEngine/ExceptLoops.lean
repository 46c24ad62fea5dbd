import Mathlib.Data.List.Forall2

/-!
# Loops that may fail

What the result of a loop in `Except` says about its rounds when it does not fail.
-/

namespace ExceptLoops
universe u
variable {ε α : Type*} {β : Type u} {l : List α} {l' : List β} {b b' : β}

theorem bind_ok_iff {α β : Type u} {b : β} {x : Except ε α} {f : α → Except ε β} :
    x >>= f = .ok b ↔ ∃ a, x = .ok a ∧ f a = .ok b := by
  cases x with
  | error e => simp [bind, Except.bind]
  | ok a => simp [bind, Except.bind]

theorem foldlM_nil_ok_iff {f : β → α → Except ε β} : [].foldlM f b = .ok b' ↔ b = b' := by
  rw [List.foldlM_nil]
  exact ⟨fun h => Except.ok.inj h, fun h => congrArg Except.ok h⟩

theorem foldlM_cons_ok_iff {f : β → α → Except ε β} {x : α} :
    (x :: l).foldlM f b = .ok b' ↔ ∃ c, f b x = .ok c ∧ l.foldlM f c = .ok b' := by
  rw [List.foldlM_cons, bind_ok_iff]

theorem exists_foldlM_ok {f : β → α → Except ε β} (hf : ∀ x ∈ l, ∀ b, ∃ c, f b x = .ok c) (b : β) :
    ∃ b', l.foldlM f b = .ok b' := by
  induction l generalizing b with
  | nil => exact ⟨b, rfl⟩
  | cons x l ih =>
      obtain ⟨hx, hl⟩ := List.forall_mem_cons.mp hf
      obtain ⟨c, hc⟩ := hx b
      obtain ⟨b', hb'⟩ := ih hl c
      exact ⟨b', foldlM_cons_ok_iff.mpr ⟨c, hc, hb'⟩⟩

theorem forall₂_of_mapM {f : α → Except ε β} (h : l.mapM f = .ok l') :
    List.Forall₂ (fun x y => f x = .ok y) l l' := by
  induction l generalizing l' with
  | nil =>
      rw [List.mapM_nil] at h
      cases h
      exact .nil
  | cons x l ih =>
      rw [List.mapM_cons, bind_ok_iff] at h
      obtain ⟨y, hy, h⟩ := h
      obtain ⟨ys, hys, h⟩ := bind_ok_iff.mp h
      cases h
      exact .cons hy (ih hys)

theorem exists_of_mem_left {R : α → β → Prop} {x : α} (h : List.Forall₂ R l l') (hx : x ∈ l) :
    ∃ y ∈ l', R x y := by
  induction h with
  | nil => exact absurd hx List.not_mem_nil
  | cons hR _ ih =>
      rcases List.mem_cons.mp hx with rfl | hx
      · exact ⟨_, List.mem_cons_self, hR⟩
      · obtain ⟨y, hy, hxy⟩ := ih hx
        exact ⟨y, List.mem_cons_of_mem _ hy, hxy⟩

theorem exists_of_mem_right {R : α → β → Prop} {y : β} (h : List.Forall₂ R l l') (hy : y ∈ l') :
    ∃ x ∈ l, R x y := by
  obtain ⟨x, hx, hxy⟩ := exists_of_mem_left h.flip hy
  exact ⟨x, hx, hxy⟩

end ExceptLoops
