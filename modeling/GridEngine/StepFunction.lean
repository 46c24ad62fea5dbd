import Mathlib.Tactic

/-!
# Step functions as lists of entries

A list of entries denotes a function of time that takes the amount of an entry from its time
on. `eval b l` is that function with the amount `b` before the first entry. Lists in ascending
order whose amounts change at every entry are determined by their function.
-/

namespace StepFunction

/-- One jump of a step function. -/
structure Entry (τ α : Type*) where
  time : τ
  amount : α
deriving DecidableEq, Repr

variable {τ α : Type*} {b : α} {l l₁ l₂ : List (Entry τ α)} {e : Entry τ α} {t : τ}

/-- Every entry changes the amount, starting from `b`. -/
def Reduced (b : α) (l : List (Entry τ α)) : Prop :=
  (b :: l.map Entry.amount).IsChain (· ≠ ·)

/-- The amount in force behind a list. -/
def lastAmount (b : α) : List (Entry τ α) → α
  | [] => b
  | e :: l => lastAmount e.amount l

theorem reduced_cons : Reduced b (e :: l) ↔ b ≠ e.amount ∧ Reduced e.amount l := by
  simp [Reduced]

theorem lastAmount_eq_getLast? :
    lastAmount b l = (l.getLast?.map Entry.amount).getD b := by
  induction l generalizing b with
  | nil => rfl
  | cons e l ih =>
      rw [lastAmount, ih, List.getLast?_cons]
      cases l.getLast? <;> rfl

variable [LinearOrder τ]

def eval (b : α) : List (Entry τ α) → τ → α
  | [], _ => b
  | e :: l, t => if t < e.time then b else eval e.amount l t

/-- Strictly ascending times. -/
def Sorted (l : List (Entry τ α)) : Prop := l.Pairwise (fun a b => a.time < b.time)

@[simp] theorem eval_nil : eval b ([] : List (Entry τ α)) t = b := rfl

theorem eval_cons : eval b (e :: l) t = if t < e.time then b else eval e.amount l t := rfl

theorem sorted_cons : Sorted (e :: l) ↔ (∀ x ∈ l, e.time < x.time) ∧ Sorted l :=
  List.pairwise_cons

theorem eval_of_lt (h : ∀ x ∈ l, t < x.time) : eval b l t = b := by
  cases l with
  | nil => rfl
  | cons e l => rw [eval_cons, if_pos (h e (by simp))]

theorem eval_append_of_le (h : ∀ x ∈ l₁, x.time ≤ t) :
    eval b (l₁ ++ l₂) t = eval (lastAmount b l₁) l₂ t := by
  induction l₁ generalizing b with
  | nil => rfl
  | cons e l₁ ih =>
      rw [List.cons_append, eval_cons, if_neg (not_lt.mpr (h e (by simp))),
        ih (fun x hx => h x (by simp [hx])), lastAmount]

theorem eval_append_of_lt (h : ∀ x ∈ l₂, t < x.time) :
    eval b (l₁ ++ l₂) t = eval b l₁ t := by
  induction l₁ generalizing b with
  | nil => exact eval_of_lt h
  | cons e l₁ ih => rw [List.cons_append, eval_cons, eval_cons, ih]

/-- On an ascending list the function takes the amount of the last entry that is not later. -/
theorem eval_eq_last (h : Sorted l) :
    eval b l t = ((l.filter (fun x => x.time ≤ t)).getLast?.map Entry.amount).getD b := by
  rw [← lastAmount_eq_getLast?]
  induction l generalizing b with
  | nil => rfl
  | cons e l ih =>
      obtain ⟨he, hl⟩ := sorted_cons.mp h
      by_cases ht : t < e.time
      · have hnone : (e :: l).filter (fun x => x.time ≤ t) = [] := by
          rw [List.filter_eq_nil_iff]
          intro x hx
          rcases List.mem_cons.mp hx with rfl | hx
          · simpa using ht
          · simpa using ht.trans (he x hx)
        rw [eval_cons, if_pos ht, hnone, lastAmount]
      · rw [eval_cons, if_neg ht, List.filter_cons_of_pos (by simpa using ht), lastAmount, ih hl]

/-- An ascending list without superfluous entries is determined by its function. -/
theorem eq_of_eval_eq (h₁ : Sorted l₁) (h₂ : Sorted l₂) (hr₁ : Reduced b l₁)
    (hr₂ : Reduced b l₂) (h : ∀ t, eval b l₁ t = eval b l₂ t) : l₁ = l₂ := by
  induction l₁ generalizing b l₂ with
  | nil =>
      cases l₂ with
      | nil => rfl
      | cons e l₂ =>
          have he := h e.time
          rw [eval_nil, eval_cons, if_neg (lt_irrefl _),
            eval_of_lt (sorted_cons.mp h₂).1] at he
          exact absurd he (reduced_cons.mp hr₂).1
  | cons e l₁ ih =>
      obtain ⟨he, hs₁⟩ := sorted_cons.mp h₁
      obtain ⟨hb, hrest₁⟩ := reduced_cons.mp hr₁
      cases l₂ with
      | nil =>
          have heq := h e.time
          rw [eval_nil, eval_cons, if_neg (lt_irrefl _), eval_of_lt he] at heq
          exact absurd heq.symm hb
      | cons e' l₂ =>
          obtain ⟨he', hs₂⟩ := sorted_cons.mp h₂
          obtain ⟨hb', hrest₂⟩ := reduced_cons.mp hr₂
          have htime : e.time = e'.time := by
            rcases lt_trichotomy e.time e'.time with hlt | heq | hgt
            · have heq := h e.time
              rw [eval_cons, if_neg (lt_irrefl _), eval_of_lt he, eval_cons, if_pos hlt] at heq
              exact absurd heq.symm hb
            · exact heq
            · have heq := h e'.time
              rw [eval_cons, if_pos hgt, eval_cons, if_neg (lt_irrefl _), eval_of_lt he'] at heq
              exact absurd heq hb'
          have hamount : e.amount = e'.amount := by
            have heq := h e.time
            rwa [eval_cons, if_neg (lt_irrefl _), eval_of_lt he, eval_cons,
              if_neg (by rw [htime]; exact lt_irrefl _),
              eval_of_lt (by rw [htime]; exact he')] at heq
          have hrest : ∀ t, eval e.amount l₁ t = eval e.amount l₂ t := by
            intro t
            by_cases ht : t < e.time
            · rw [eval_of_lt (fun x hx => ht.trans (he x hx)),
                eval_of_lt (fun x hx => (htime ▸ ht).trans (he' x hx))]
            · have heq := h t
              rwa [eval_cons, if_neg ht, eval_cons, if_neg (htime ▸ ht), ← hamount] at heq
          have hee : e = e' := by
            cases e
            cases e'
            simp_all
          rw [hee, ih hs₁ hs₂ hrest₁ (hamount ▸ hrest₂) hrest]

end StepFunction
