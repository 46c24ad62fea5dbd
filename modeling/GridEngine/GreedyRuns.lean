import Mathlib.Data.List.MinMax
import Mathlib.Data.List.DropRight

/-!
# Greedy runs

In every step the element with the smallest key is taken, and to take it changes the state that the
keys depend on. A run that picks its elements in another way takes the same ones in the same order
just when it always picks the smallest key. A run on the elements that matter is the run on all
elements without the others. A loop that keeps the best candidate so far finds the smallest key.
-/

namespace GreedyRuns

/-- The keys, the change of the state and the result for an element that is taken. -/
structure Greedy (σ α β κ : Type*) where
  key : σ → α → κ
  take : σ → α → σ
  result : σ → α → β

section Runs
variable {σ α β κ : Type*}

theorem argmin_eq_some [LinearOrder κ] {key : α → κ} {l : List α} {a : α}
    (hinj : ∀ a ∈ l, ∀ b ∈ l, key a = key b → a = b) (ha : a ∈ l)
    (hmin : ∀ b ∈ l, key a ≤ key b) : l.argmin key = some a := by
  cases h : l.argmin key with
  | none =>
      rw [List.argmin_eq_none.mp h] at ha
      exact absurd ha List.not_mem_nil
  | some b =>
      have hb := List.argmin_mem h
      rw [hinj b hb a ha (le_antisymm (List.le_of_mem_argmin ha h) (hmin b hb))]

namespace Greedy

/-- Different elements have different keys. -/
def Strict (g : Greedy σ α β κ) (l : List α) : Prop :=
  ∀ s, ∀ a ∈ l, ∀ b ∈ l, g.key s a = g.key s b → a = b

theorem Strict.mono {g : Greedy σ α β κ} {l l' : List α} (h : g.Strict l) (hsub : l' ⊆ l) :
    g.Strict l' := fun s a ha b hb => h s a (hsub ha) b (hsub hb)

variable [DecidableEq α]

/-- The elements that are picked in some steps, with their results. -/
def runBy (g : Greedy σ α β κ) (pick : σ → List α → Option α) : ℕ → σ → List α → List (α × β)
  | 0, _, _ => []
  | n + 1, s, l =>
      match pick s l with
      | none => []
      | some a => (a, g.result s a) :: g.runBy pick n (g.take s a) (l.erase a)

variable {g : Greedy σ α β κ} {pick : σ → List α → Option α} {l : List α} {s : σ} {a : α}

theorem runBy_of_none (h : pick s l = none) (n : ℕ) : g.runBy pick n s l = [] := by
  cases n with
  | zero => rfl
  | succ n => rw [runBy, h]

theorem runBy_of_some (h : pick s l = some a) (n : ℕ) :
    g.runBy pick (n + 1) s l = (a, g.result s a) :: g.runBy pick n (g.take s a) (l.erase a) := by
  rw [runBy, h]

variable [LinearOrder κ]

/-- In every step the element with the smallest key is picked. -/
def run (g : Greedy σ α β κ) : ℕ → σ → List α → List (α × β) :=
  g.runBy fun s l => l.argmin (g.key s)

/-- `Q` holds before every step of a run. -/
def Always (g : Greedy σ α β κ) (Q : σ → List α → Prop) : ℕ → σ → List α → Prop
  | 0, _, _ => True
  | n + 1, s, l => Q s l ∧ ∀ a ∈ l.argmin (g.key s), g.Always Q n (g.take s a) (l.erase a)

variable {Q Q' : σ → List α → Prop}

theorem run_of_none (h : l.argmin (g.key s) = none) (n : ℕ) : g.run n s l = [] := by
  cases n with
  | zero => rfl
  | succ n =>
      rw [run, runBy, h]

theorem run_of_some (h : l.argmin (g.key s) = some a) (n : ℕ) :
    g.run (n + 1) s l = (a, g.result s a) :: g.run n (g.take s a) (l.erase a) := by
  rw [run, runBy, h]

theorem run_succ (hstrict : g.Strict l) (ha : a ∈ l) (hmin : ∀ b ∈ l, g.key s a ≤ g.key s b)
    (n : ℕ) : g.run (n + 1) s l = (a, g.result s a) :: g.run n (g.take s a) (l.erase a) :=
  run_of_some (argmin_eq_some (hstrict s) ha hmin) n

theorem Always.congr (h : ∀ s, ∀ l' ⊆ l, Q s l' ↔ Q' s l') (n : ℕ) :
    g.Always Q n s l ↔ g.Always Q' n s l := by
  induction n generalizing s l with
  | zero => exact Iff.rfl
  | succ n ih =>
      refine and_congr (h s l (List.Subset.refl l)) ?_
      refine forall_congr' fun a => forall_congr' fun _ => ih ?_
      exact fun s l' hl' => h s l' (List.Subset.trans hl' List.erase_subset)

/-- What follows from an invariant of the state holds before every step. -/
theorem always_of_invariant (Inv : σ → Prop) (htake : ∀ s a, Inv s → Inv (g.take s a))
    (h : ∀ s, ∀ l' ⊆ l, Inv s → Q s l') (n : ℕ) (hs : Inv s) : g.Always Q n s l := by
  induction n generalizing s l with
  | zero => trivial
  | succ n ih =>
      refine ⟨h s l (List.Subset.refl l) hs, fun a _ => ih ?_ (htake s a hs)⟩
      exact fun s l' hl' => h s l' (List.Subset.trans hl' List.erase_subset)

theorem runBy_eq_run {n : ℕ} (h : g.Always (fun s l => pick s l = l.argmin (g.key s)) n s l) :
    g.runBy pick n s l = g.run n s l := by
  induction n generalizing s l with
  | zero => rfl
  | succ n ih =>
      obtain ⟨hpick, hrest⟩ := h
      cases hmin : l.argmin (g.key s) with
      | none => exact (runBy_of_none (hpick.trans hmin) _).trans (run_of_none hmin _).symm
      | some a =>
          rw [runBy_of_some (hpick.trans hmin), run_of_some hmin, ih (hrest a hmin)]

/-- The same elements come in the same order only when each has the smallest key. -/
theorem runBy_order_iff (n : ℕ) : (g.runBy pick n s l).map Prod.fst = (g.run n s l).map Prod.fst ↔
    g.Always (fun s l => pick s l = l.argmin (g.key s)) n s l := by
  refine ⟨fun h => ?_, fun h => by rw [runBy_eq_run h]⟩
  induction n generalizing s l with
  | zero => trivial
  | succ n ih =>
      cases hmin : l.argmin (g.key s) with
      | none =>
          rw [run_of_none hmin, List.map_nil, List.map_eq_nil_iff] at h
          cases hpick : pick s l with
          | none => exact ⟨hpick.trans hmin.symm, fun a ha => by simp [hmin] at ha⟩
          | some a =>
              rw [runBy_of_some hpick] at h
              exact absurd h (List.cons_ne_nil _ _)
      | some a =>
          cases hpick : pick s l with
          | none =>
              rw [runBy_of_none hpick, run_of_some hmin] at h
              exact absurd h.symm (List.cons_ne_nil _ _)
          | some b =>
              rw [runBy_of_some hpick, run_of_some hmin, List.map_cons, List.map_cons,
                List.cons.injEq] at h
              obtain ⟨rfl, h⟩ := h
              refine ⟨hpick.trans hmin.symm, fun c hc => ?_⟩
              obtain rfl := Option.mem_unique hc hmin
              exact ih h

theorem length_run (n : ℕ) (s : σ) (l : List α) : (g.run n s l).length = min n l.length := by
  induction n generalizing s l with
  | zero => rw [Nat.zero_min]; rfl
  | succ n ih =>
      cases hmin : l.argmin (g.key s) with
      | none =>
          rw [run_of_none hmin, List.argmin_eq_none.mp hmin]
          rfl
      | some a =>
          have ha := List.argmin_mem hmin
          have hpos := List.length_pos_of_mem ha
          rw [run_of_some hmin, List.length_cons, ih, List.length_erase_of_mem ha]
          omega

theorem mem_of_mem_run {n : ℕ} {p : α × β} (h : p ∈ g.run n s l) : p.1 ∈ l := by
  induction n generalizing s l with
  | zero => exact absurd h List.not_mem_nil
  | succ n ih =>
      cases hmin : l.argmin (g.key s) with
      | none =>
          rw [run_of_none hmin] at h
          exact absurd h List.not_mem_nil
      | some a =>
          rw [run_of_some hmin] at h
          rcases List.mem_cons.mp h with rfl | h
          · exact List.argmin_mem hmin
          · exact List.mem_of_mem_erase (ih h)

theorem nodup_run (h : l.Nodup) (n : ℕ) (s : σ) : ((g.run n s l).map Prod.fst).Nodup := by
  induction n generalizing s l with
  | zero => exact List.nodup_nil
  | succ n ih =>
      cases hmin : l.argmin (g.key s) with
      | none =>
          rw [run_of_none hmin]
          exact List.nodup_nil
      | some a =>
          rw [run_of_some hmin, List.map_cons, List.nodup_cons]
          refine ⟨fun hmem => ?_, ih (h.erase a) _⟩
          obtain ⟨p, hp, heq⟩ := List.mem_map.mp hmem
          have := mem_of_mem_run hp
          rw [heq] at this
          exact h.not_mem_erase this

theorem take_run_of_le {n m : ℕ} (h : n ≤ m) (s : σ) (l : List α) :
    (g.run m s l).take n = g.run n s l := by
  induction n generalizing m s l with
  | zero => rfl
  | succ n ih =>
      obtain ⟨m, rfl⟩ : ∃ m', m = m' + 1 := ⟨m - 1, by omega⟩
      cases hmin : l.argmin (g.key s) with
      | none => rw [run_of_none hmin, run_of_none hmin, List.take_nil]
      | some a =>
          have hle : n ≤ m := by omega
          rw [run_of_some hmin, run_of_some hmin, List.take_succ_cons, ih hle]

theorem take_run (m : ℕ) (s : σ) (l : List α) :
    (g.run l.length s l).take m = g.run (min m l.length) s l := by
  rw [List.take_eq_take_min, length_run, Nat.min_self, take_run_of_le (Nat.min_le_right _ _)]

/-- Which states are alike for the elements that matter. -/
structure Alike (g : Greedy σ α β κ) (matters : α → Bool) (R : σ → σ → Prop) : Prop where
  key : ∀ {s t a}, R s t → matters a = true → g.key s a = g.key t a
  result : ∀ {s t a}, R s t → matters a = true → g.result s a = g.result t a
  take : ∀ {s t a}, R s t → matters a = true → R (g.take s a) (g.take t a)
  skip : ∀ {s t a}, R s t → matters a = false → R (g.take s a) t

theorem filter_run {matters : α → Bool} {R : σ → σ → Prop} (hR : g.Alike matters R)
    (hstrict : g.Strict l) {s t : σ} (h : R s t) :
    (g.run l.length s l).filter (fun p => matters p.1) =
      g.run (l.filter matters).length t (l.filter matters) := by
  induction hn : l.length generalizing l s t with
  | zero =>
      rw [List.length_eq_zero_iff.mp hn]
      rfl
  | succ n ih =>
      cases hmin : l.argmin (g.key s) with
      | none =>
          rw [List.argmin_eq_none.mp hmin] at hn
          exact absurd hn (Nat.succ_ne_zero n).symm
      | some a =>
          have ha := List.argmin_mem hmin
          have hlength : (l.erase a).length = n := by
            rw [List.length_erase_of_mem ha, hn]
            rfl
          have herase : (l.erase a).filter matters = (l.filter matters).erase a :=
            List.erase_filter.symm
          rw [run_of_some hmin]
          cases hmatters : matters a with
          | true =>
              -- the element is taken in both runs
              have hmem : a ∈ l.filter matters := List.mem_filter.mpr ⟨ha, hmatters⟩
              have hfirst : ∀ b ∈ l.filter matters, g.key t a ≤ g.key t b := by
                intro b hb
                obtain ⟨hb, hbmatters⟩ := List.mem_filter.mp hb
                rw [← hR.key h hmatters, ← hR.key h hbmatters]
                exact List.le_of_mem_argmin hb hmin
              have hpos : (l.filter matters).length = ((l.filter matters).erase a).length + 1 := by
                rw [List.length_erase_of_mem hmem]
                have := List.length_pos_of_mem hmem
                omega
              rw [List.filter_cons, if_pos hmatters,
                ih (hstrict.mono List.erase_subset) (hR.take h hmatters) hlength, herase, hpos,
                run_succ (hstrict.mono (List.filter_subset_self l)) hmem hfirst,
                hR.result h hmatters]
          | false =>
              have hnot : a ∉ l.filter matters := fun hmem => by
                rw [(List.mem_filter.mp hmem).2] at hmatters
                exact absurd hmatters.symm Bool.false_ne_true
              rw [List.filter_cons, if_neg (by rw [hmatters]; exact Bool.false_ne_true),
                ih (hstrict.mono List.erase_subset) (hR.skip h hmatters) hlength, herase,
                List.erase_of_not_mem hnot]

end Greedy

end Runs

section RunningBest
variable {S γ β κ : Type*} [LinearOrder κ] {enters : β → Prop} [DecidablePred enters]
  {key : β → κ}

/-- A step of a loop that keeps the best candidate so far. The first one has to enter. -/
def better (enters : β → Prop) [DecidablePred enters] (key : β → κ) (candidate : β) :
    Option β → Option β
  | none => if enters candidate then some candidate else none
  | some best => some (if key candidate < key best then candidate else best)

/-- The candidate with the smallest key, or none when none of them enters. -/
def IsBest (enters : β → Prop) (key : β → κ) (candidates : List β) : Option β → Prop
  | none => ∀ b ∈ candidates, ¬ enters b
  | some best => best ∈ candidates ∧ enters best ∧ ∀ b ∈ candidates, key best ≤ key b

omit [DecidablePred enters] in
theorem IsBest.mem {candidates : List β} {best : Option β} {b : β}
    (h : IsBest enters key candidates best) (hb : b ∈ best) : b ∈ candidates := by
  rw [Option.mem_def.mp hb] at h
  exact h.1

theorem IsBest.step (hmono : ∀ {b c}, key c ≤ key b → enters b → enters c) {candidates : List β}
    {best : Option β} (h : IsBest enters key candidates best) (candidate : β) :
    IsBest enters key (candidates ++ [candidate]) (better enters key candidate best) := by
  cases best with
  | none =>
      rw [better]
      split_ifs with henters
      · refine ⟨List.mem_append_right _ List.mem_cons_self, henters, fun b hb => ?_⟩
        rcases List.mem_append.mp hb with hb | hb
        · by_contra hlt
          exact h b hb (hmono (not_le.mp hlt).le henters)
        · rw [List.mem_singleton.mp hb]
      · intro b hb
        rcases List.mem_append.mp hb with hb | hb
        · exact h b hb
        · rw [List.mem_singleton.mp hb]
          exact henters
  | some best =>
      obtain ⟨hmem, henters, hmin⟩ := h
      rw [better]
      split_ifs with hlt
      · refine ⟨List.mem_append_right _ List.mem_cons_self, hmono hlt.le henters, fun b hb => ?_⟩
        rcases List.mem_append.mp hb with hb | hb
        · exact hlt.le.trans (hmin b hb)
        · rw [List.mem_singleton.mp hb]
      · refine ⟨List.mem_append_left _ hmem, henters, fun b hb => ?_⟩
        rcases List.mem_append.mp hb with hb | hb
        · exact hmin b hb
        · rw [List.mem_singleton.mp hb]
          exact not_lt.mp hlt

theorem foldl_better (hmono : ∀ {b c}, key c ≤ key b → enters b → enters c) {cand : γ → β}
    {f : S × Option β → γ → S × Option β} {Inv : S → Prop} (l : List γ)
    (hstep : ∀ s best, ∀ c ∈ l, Inv s → (∀ b ∈ best, b ∈ l.map cand) →
      Inv (f (s, best) c).1 ∧ (f (s, best) c).2 = better enters key (cand c) best)
    {s : S} (hs : Inv s) :
    Inv (l.foldl f (s, none)).1 ∧ IsBest enters key (l.map cand) (l.foldl f (s, none)).2 := by
  induction l using List.reverseRecOn with
  | nil => exact ⟨hs, fun b hb => absurd hb List.not_mem_nil⟩
  | append_singleton l c ih =>
      have hsub : ∀ b ∈ l.map cand, b ∈ (l ++ [c]).map cand := fun b hb => by
        rw [List.map_append]
        exact List.mem_append_left _ hb
      obtain ⟨hinv, hbest⟩ := ih fun s best d hd hs hfrom =>
        hstep s best d (List.mem_append_left _ hd) hs fun b hb => hsub b (hfrom b hb)
      obtain ⟨hinv', hstep'⟩ := hstep (l.foldl f (s, none)).1 (l.foldl f (s, none)).2 c
        (List.mem_append_right _ List.mem_cons_self) hinv fun b hb => hsub b (hbest.mem hb)
      rw [List.foldl_append, List.foldl_cons, List.foldl_nil, List.map_append]
      exact ⟨hinv', hstep' ▸ hbest.step hmono (cand c)⟩

end RunningBest

section Loops
variable {σ α β κ γ : Type*} [DecidableEq α]

/-- A loop that ends early when its body does not go on. -/
def iterate (step : γ → Option γ) : ℕ → γ → γ
  | 0, c => c
  | n + 1, c =>
      match step c with
      | none => c
      | some c => iterate step n c

/-- A loop whose body takes what a greedy run picks, with what it has taken so far. -/
theorem exists_iterate {g : Greedy σ α β κ} {pick : σ → List α → Option α}
    {step : γ → Option γ} {Sim : γ → σ → List α → List (α × β) → Prop}
    (hstep : ∀ {c s l taken}, Sim c s l taken → (pick s l = none ∧ step c = none) ∨
      ∃ a c', pick s l = some a ∧ step c = some c' ∧
        Sim c' (g.take s a) (l.erase a) (taken ++ [(a, g.result s a)]))
    (n : ℕ) {c : γ} {s : σ} {l : List α} {taken : List (α × β)} (h : Sim c s l taken) :
    ∃ s' l', Sim (iterate step n c) s' l' (taken ++ g.runBy pick n s l) := by
  induction n generalizing c s l taken with
  | zero => exact ⟨s, l, by rwa [iterate, Greedy.runBy, List.append_nil]⟩
  | succ n ih =>
      rcases hstep h with ⟨hpick, hend⟩ | ⟨a, c', hpick, hgoes, hsim⟩
      · rw [iterate, hend, Greedy.runBy_of_none hpick, List.append_nil]
        exact ⟨s, l, h⟩
      · obtain ⟨s', l', hsim'⟩ := ih hsim
        rw [iterate, hgoes, Greedy.runBy_of_some hpick]
        rw [List.append_assoc, List.singleton_append] at hsim'
        exact ⟨s', l', hsim'⟩

end Loops

section Insertion
variable {α κ : Type*} [LinearOrder κ] {key : α → κ} {a : α} {l : List α}

/-- An element that is inserted behind the last one with a smaller key. -/
theorem pairwise_insert {stop : α → Bool} (hstop : ∀ b ∈ l, stop b = true ↔ key b < key a)
    (hsorted : l.Pairwise fun b c => key b < key c) (hnew : ∀ b ∈ l, key b ≠ key a) :
    ((l.rdropWhile fun b => !stop b) ++ a :: l.rtakeWhile fun b => !stop b).Pairwise
      fun b c => key b < key c := by
  have hsplit := List.rdropWhile_append_rtakeWhile (p := fun b => !stop b) (l := l)
  have hafter : ∀ c ∈ l.rtakeWhile fun b => !stop b, key a < key c := by
    intro c hc
    have hmem : c ∈ l := by
      rw [← hsplit]
      exact List.mem_append_right _ hc
    have hnot := List.mem_rtakeWhile_imp hc
    rw [Bool.not_eq_true', Bool.eq_false_iff, Ne, hstop c hmem, not_lt] at hnot
    exact lt_of_le_of_ne hnot (Ne.symm (hnew c hmem))
  have hlast : ∀ h, key ((l.rdropWhile fun b => !stop b).getLast h) < key a := by
    intro h
    have hmem : (l.rdropWhile fun b => !stop b).getLast h ∈ l :=
      (List.rdropWhile_prefix (p := fun b => !stop b) (l := l)).subset (List.getLast_mem h)
    have hlast := List.rdropWhile_last_not (fun b => !stop b) l h
    rw [Bool.not_eq_true, Bool.not_eq_false'] at hlast
    exact (hstop _ hmem).mp hlast
  generalize (l.rdropWhile fun b => !stop b) = before at hsplit hlast ⊢
  generalize (l.rtakeWhile fun b => !stop b) = after at hsplit hafter ⊢
  rw [← hsplit, List.pairwise_append] at hsorted
  obtain ⟨hbefore, hafter_sorted, hacross⟩ := hsorted
  have hsmaller : ∀ b ∈ before, key b < key a := by
    intro b hb
    have hne := List.ne_nil_of_mem hb
    rw [← List.dropLast_append_getLast hne, List.pairwise_append] at hbefore
    rw [← List.dropLast_append_getLast hne, List.mem_append, List.mem_singleton] at hb
    rcases hb with hb | hb
    · exact (hbefore.2.2 b hb _ (List.mem_singleton_self _)).trans (hlast hne)
    · rw [hb]
      exact hlast hne
  rw [List.pairwise_append, List.pairwise_cons]
  refine ⟨hbefore, ⟨hafter, hafter_sorted⟩, ?_⟩
  intro b hb c hc
  rcases List.mem_cons.mp hc with rfl | hc
  · exact hsmaller b hb
  · exact hacross b hb c hc

end Insertion

end GreedyRuns
