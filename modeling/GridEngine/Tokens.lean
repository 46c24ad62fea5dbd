import Mathlib.Data.List.TakeWhile
import Mathlib.Tactic

/-!
# Tokens between separators

A tokenizer that is called again and again: each call skips separators, and reads up to the next
separator. The separator behind a token is gone when the next call is made, which may have another
separator.
-/

namespace Tokens
variable {α : Type*} [DecidableEq α] {d : α} {s token rest : List α} {n : ℕ}

/-- The next token and what is left behind its separator. -/
def next (d : α) (s : List α) : Option (List α × List α) :=
  match s.dropWhile (· = d) with
  | [] => none
  | a :: rest => some (a :: rest.takeWhile (· ≠ d), (rest.dropWhile (· ≠ d)).drop 1)

/-- The tokens of some calls with one separator. -/
def nexts (d : α) : ℕ → List α → List (List α)
  | 0, _ => []
  | fuel + 1, s =>
      match next d s with
      | none => []
      | some (token, rest) => token :: nexts d fuel rest

/-- All tokens. -/
def tokens (d : α) (s : List α) : List (List α) := nexts d s.length s

theorem dropWhile_replicate_append : (List.replicate n d ++ s).dropWhile (· = d) =
    s.dropWhile (· = d) := by
  induction n with
  | zero => rfl
  | succ n ih =>
      rw [List.replicate_succ, List.cons_append, List.dropWhile_cons_of_pos (by simp), ih]

theorem next_replicate : next d (List.replicate n d) = none := by
  have hdrop := dropWhile_replicate_append (d := d) (s := []) (n := n)
  rw [List.append_nil, List.dropWhile_nil] at hdrop
  rw [next, hdrop]

theorem next_append (n : ℕ) (rest : List α) (hne : token ≠ []) (hsep : d ∉ token) :
    next d (List.replicate n d ++ (token ++ d :: rest)) = some (token, rest) := by
  cases token with
  | nil => exact absurd rfl hne
  | cons a token =>
      rw [List.mem_cons, not_or] at hsep
      have hall : ∀ x ∈ token, decide (x ≠ d) = true := by
        intro x hx
        rw [decide_eq_true_eq]
        rintro rfl
        exact hsep.2 hx
      have hdrop : (a :: token ++ d :: rest).dropWhile (· = d) = a :: (token ++ d :: rest) :=
        List.dropWhile_cons_of_neg (by simpa using Ne.symm hsep.1)
      rw [next, dropWhile_replicate_append, hdrop]
      dsimp only
      rw [List.takeWhile_append_of_pos hall, List.dropWhile_append_of_pos hall,
        List.takeWhile_cons_of_neg (by simp), List.dropWhile_cons_of_neg (by simp), List.append_nil,
        List.drop_one, List.tail_cons]

theorem next_last (hne : token ≠ []) (hsep : d ∉ token) :
    next d (List.replicate n d ++ token) = some (token, []) := by
  cases token with
  | nil => exact absurd rfl hne
  | cons a token =>
      rw [List.mem_cons, not_or] at hsep
      have hall : ∀ x ∈ token, decide (x ≠ d) = true := by
        intro x hx
        rw [decide_eq_true_eq]
        rintro rfl
        exact hsep.2 hx
      have hdrop : (a :: token).dropWhile (· = d) = a :: token :=
        List.dropWhile_cons_of_neg (by simpa using Ne.symm hsep.1)
      rw [next, dropWhile_replicate_append, hdrop]
      dsimp only
      rw [List.takeWhile_eq_self_iff.mpr hall, List.dropWhile_eq_nil_iff.mpr hall, List.drop_nil]

/-- Every text is separators only, or has a last or another token behind them. -/
theorem next_cases (d : α) (s : List α) : (∃ n, s = List.replicate n d) ∨
    ∃ n token, token ≠ [] ∧ d ∉ token ∧ (s = List.replicate n d ++ token ∨
      ∃ rest, s = List.replicate n d ++ (token ++ d :: rest)) := by
  induction s with
  | nil => exact .inl ⟨0, rfl⟩
  | cons a s ih =>
      by_cases ha : a = d
      · subst ha
        rcases ih with ⟨n, rfl⟩ | ⟨n, token, hne, hsep, rfl | ⟨rest, rfl⟩⟩
        · exact .inl ⟨n + 1, rfl⟩
        · exact .inr ⟨n + 1, token, hne, hsep, .inl rfl⟩
        · exact .inr ⟨n + 1, token, hne, hsep, .inr ⟨rest, rfl⟩⟩
      · rcases ih with ⟨n, rfl⟩ | ⟨n, token, hne, hsep, hs⟩
        · cases n with
          | zero => exact .inr ⟨0, [a], by simp, by simpa using Ne.symm ha, .inl rfl⟩
          | succ n =>
              refine .inr ⟨0, [a], by simp, by simpa using Ne.symm ha,
                .inr ⟨List.replicate n d, ?_⟩⟩
              rw [List.replicate_succ]
              rfl
        · cases n with
          | zero =>
              refine .inr ⟨0, a :: token, by simp, by simp [Ne.symm ha, hsep], ?_⟩
              rcases hs with rfl | ⟨rest, rfl⟩
              · exact .inl rfl
              · exact .inr ⟨rest, rfl⟩
          | succ n =>
              refine .inr ⟨0, [a], by simp, by simpa using Ne.symm ha, .inr ?_⟩
              rcases hs with rfl | ⟨rest, rfl⟩
              · exact ⟨List.replicate n d ++ token, by rw [List.replicate_succ]; rfl⟩
              · exact ⟨List.replicate n d ++ (token ++ d :: rest), by
                  rw [List.replicate_succ]; rfl⟩

theorem next_eq_none_iff : next d s = none ↔ ∃ n, s = List.replicate n d := by
  constructor
  · intro h
    rcases next_cases d s with hs | ⟨n, token, hne, hsep, rfl | ⟨rest, rfl⟩⟩
    · exact hs
    · rw [next_last hne hsep] at h
      cases h
    · rw [next_append _ _ hne hsep] at h
      cases h
  · rintro ⟨n, rfl⟩
    exact next_replicate

theorem next_eq_some (h : next d s = some (token, rest)) : token ≠ [] ∧ d ∉ token ∧
    ∃ n, (s = List.replicate n d ++ token ∧ rest = []) ∨
      s = List.replicate n d ++ (token ++ d :: rest) := by
  rcases next_cases d s with ⟨n, rfl⟩ | ⟨n, token', hne, hsep, rfl | ⟨rest', rfl⟩⟩
  · rw [next_replicate] at h
    cases h
  · rw [next_last hne hsep] at h
    cases h
    exact ⟨hne, hsep, n, .inl ⟨rfl, rfl⟩⟩
  · rw [next_append _ _ hne hsep] at h
    cases h
    exact ⟨hne, hsep, n, .inr rfl⟩

theorem length_next {found : List α × List α} (h : next d s = some found) :
    found.2.length < s.length := by
  obtain ⟨token, rest⟩ := found
  obtain ⟨hne, -, n, ⟨rfl, rfl⟩ | rfl⟩ := next_eq_some h
  · have hpos := List.length_pos_of_ne_nil hne
    rw [List.length_append, List.length_nil]
    omega
  · simp only [List.length_append, List.length_cons]
    omega

theorem nexts_succ {fuel : ℕ} (h : s.length ≤ fuel) : nexts d (fuel + 1) s = nexts d fuel s := by
  induction fuel generalizing s with
  | zero =>
      rw [Nat.le_zero, List.length_eq_zero_iff] at h
      subst h
      rfl
  | succ fuel ih =>
      rw [nexts, nexts]
      cases hnext : next d s with
      | none => rfl
      | some found =>
          have hlen := length_next hnext
          dsimp only
          rw [ih (by omega)]

theorem nexts_eq {fuel : ℕ} (h : s.length ≤ fuel) : nexts d fuel s = tokens d s := by
  induction fuel, h using Nat.le_induction with
  | base => rfl
  | succ fuel h ih => rw [nexts_succ h, ih]

theorem tokens_replicate : tokens d (List.replicate n d) = [] := by
  rw [tokens]
  cases n with
  | zero => rfl
  | succ n =>
      rw [List.length_replicate, nexts, next_replicate]

theorem tokens_of_next {found : List α × List α} (h : next d s = some found) :
    tokens d s = found.1 :: tokens d found.2 := by
  rw [← nexts_eq (Nat.le_succ _), nexts, h]
  dsimp only
  rw [nexts_eq (length_next h).le]

theorem tokens_append (n : ℕ) (rest : List α) (hne : token ≠ []) (hsep : d ∉ token) :
    tokens d (List.replicate n d ++ (token ++ d :: rest)) = token :: tokens d rest :=
  tokens_of_next (next_append n rest hne hsep)

theorem tokens_last (hne : token ≠ []) (hsep : d ∉ token) :
    tokens d (List.replicate n d ++ token) = [token] :=
  tokens_of_next (next_last hne hsep)

end Tokens
