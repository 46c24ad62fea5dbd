import Mathlib.Algebra.BigOperators.Pi
import Mathlib.Tactic.Abel

/-!
# Ledgers

An operation posts an amount when it adds that amount to a balance. Postings compose, also in
loops, so that the balance after a sequence of operations is a sum. Balances are read from lists
of named counters, where a counter that does not exist counts as zero, and from tables of such
lists.
-/

namespace Ledger

section Postings
variable {σ ι A : Type*} [AddCommGroup A] {balance : σ → A}

/-- The operation adds the amount to the balance. -/
def Posts (balance : σ → A) (op : σ → σ) (amount : A) : Prop :=
  ∀ s, balance (op s) = balance s + amount

theorem posts_id : Posts balance (fun s => s) 0 := fun _ => (add_zero _).symm

theorem Posts.comp {f g : σ → σ} {a b : A} (hf : Posts balance f a) (hg : Posts balance g b) :
    Posts balance (fun s => g (f s)) (a + b) := by
  intro s
  rw [hg, hf, add_assoc]

theorem Posts.ite {f g : σ → σ} {a b : A} (c : Prop) [Decidable c]
    (hf : c → Posts balance f a) (hg : ¬ c → Posts balance g b) :
    Posts balance (fun s => if c then f s else g s) (if c then a else b) := by
  by_cases hc : c
  · simpa only [if_pos hc] using hf hc
  · simpa only [if_neg hc] using hg hc

theorem Posts.foldl {op : σ → ι → σ} {amount : ι → A} (l : List ι)
    (h : ∀ i ∈ l, Posts balance (fun s => op s i) (amount i)) :
    Posts balance (fun s => l.foldl op s) (l.map amount).sum := by
  induction l with
  | nil => exact posts_id
  | cons i l ih =>
      rw [List.map_cons, List.sum_cons]
      exact (h i List.mem_cons_self).comp (ih fun j hj => h j (List.mem_cons_of_mem i hj))

theorem sum_map_set {l : List ι} {i : ℕ} {x : ι} (h : l[i]? = some x) (y : ι) (f : ι → A) :
    ((l.set i y).map f).sum = (l.map f).sum + (f y - f x) := by
  obtain ⟨hi, rfl⟩ := List.getElem?_eq_some_iff.mp h
  rw [List.map_set, List.sum_set', dif_pos (by rwa [List.length_map]), List.getElem_map,
    neg_add_eq_sub]

theorem sum_map_change {l : List ι} (hl : l.Nodup) {x : ι} (hx : x ∈ l) {f g : ι → A}
    (h : ∀ y ∈ l, y ≠ x → g y = f y) : (l.map g).sum = (l.map f).sum + (g x - f x) := by
  induction l with
  | nil => cases hx
  | cons y l ih =>
      obtain ⟨hy, hl⟩ := List.nodup_cons.mp hl
      rw [List.map_cons, List.map_cons, List.sum_cons, List.sum_cons]
      rcases List.mem_cons.mp hx with rfl | hx
      · have hrest : l.map g = l.map f := List.map_congr_left fun z hz =>
          h z (List.mem_cons_of_mem _ hz) fun e => hy (e ▸ hz)
        rw [hrest]
        abel
      · rw [h y List.mem_cons_self fun e => hy (e ▸ hx),
          ih hl hx fun z hz => h z (List.mem_cons_of_mem _ hz), add_assoc]

theorem sum_map_changes [DecidableEq ι] {l xs : List ι} (hl : l.Nodup) (hxs : xs.Nodup)
    (hsub : xs ⊆ l) {f g : ι → A} (h : ∀ y ∈ l, y ∉ xs → g y = f y) :
    (l.map g).sum = (l.map f).sum + (xs.map fun x => g x - f x).sum := by
  induction xs generalizing g with
  | nil =>
      rw [List.map_congr_left fun y hy => h y hy List.not_mem_nil]
      exact (add_zero _).symm
  | cons x xs ih =>
      obtain ⟨hx, hxs⟩ := List.nodup_cons.mp hxs
      have hg : ∀ y ∈ xs, Function.update g x (f x) y = g y := by
        intro y hy
        have hne : y ≠ x := fun e => hx (e ▸ hy)
        rw [Function.update_of_ne hne]
      have hrest := ih hxs (fun y hy => hsub (List.mem_cons_of_mem x hy))
        (g := Function.update g x (f x)) (by
          intro y hy hyxs
          by_cases hyx : y = x
          · rw [hyx, Function.update_self]
          · rw [Function.update_of_ne hyx]
            exact h y hy fun hmem => (List.mem_cons.mp hmem).elim hyx hyxs)
      have hone := sum_map_change hl (hsub List.mem_cons_self) (f := Function.update g x (f x))
        (g := g) fun y _ hyx => (Function.update_of_ne hyx _ _).symm
      rw [hone, hrest, Function.update_self, List.map_cons, List.sum_cons,
        List.map_congr_left fun y hy => congrArg (· - f y) (hg y hy)]
      abel

theorem sum_map_neg (l : List ι) (f : ι → A) : (l.map fun i => -f i).sum = -(l.map f).sum := by
  rw [List.sum_neg, List.map_map]
  rfl

end Postings

section Tables
variable {α β B : Type*} [DecidableEq α] [AddCommGroup B] {read : β → B}

/-- The balances of a table of accounts. -/
def balances (read : β → B) (table : α → β) : α → B := fun a => read (table a)

theorem Posts.update {f : β → β} {b : B} (h : Posts read f b) (a : α) :
    Posts (balances read) (fun table => Function.update table a (f (table a)))
      (Pi.single a b) := by
  intro table
  funext a'
  by_cases ha : a' = a
  · subst ha
    simp only [balances, Function.update_self, Pi.add_apply, Pi.single_eq_same, h _]
  · simp only [balances, Function.update_of_ne ha, Pi.add_apply, Pi.single_eq_of_ne ha, add_zero]

end Tables

theorem sum_map_apply {ι α B : Type*} [AddCommGroup B] (l : List ι) (f : ι → α → B) (a : α) :
    (l.map f).sum a = (l.map fun i => f i a).sum := by
  rw [Pi.list_sum_apply, List.map_map]
  rfl

theorem sum_map_eq_zero {ι B : Type*} [AddCommGroup B] {l : List ι} {f : ι → B}
    (h : ∀ i ∈ l, f i = 0) : (l.map f).sum = 0 :=
  List.sum_eq_zero (List.forall_mem_map.mpr h)

/-- A counter with its name. -/
structure Counter (κ A : Type*) where
  name : κ
  value : A
deriving DecidableEq

/-- A list of counters in which every name occurs once. -/
structure Counters (κ A : Type*) where
  list : List (Counter κ A)
  nodup : (list.map Counter.name).Nodup
deriving DecidableEq

namespace Counters
variable {κ A : Type*} [DecidableEq κ]

def empty : Counters κ A := ⟨[], List.nodup_nil⟩

def locate (l : Counters κ A) (k : κ) : Option (Counter κ A) :=
  l.list.find? fun c => c.name = k

/-- A counter that does not exist counts as zero. -/
def amount [Zero A] (l : Counters κ A) (k : κ) : A :=
  ((l.locate k).map Counter.value).getD 0

/-- Adds a counter at the end when it is missing. -/
def ensure [Zero A] (l : Counters κ A) (k : κ) : Counters κ A :=
  if h : k ∈ l.list.map Counter.name then l
  else ⟨l.list ++ [⟨k, 0⟩], by
    rw [List.map_append]
    exact l.nodup.append (List.nodup_singleton k) (by simpa using h)⟩

def Counter.add [Add A] (k : κ) (a : A) (c : Counter κ A) : Counter κ A :=
  if c.name = k then { c with value := c.value + a } else c

theorem Counter.add_name [Add A] (k : κ) (a : A) (c : Counter κ A) :
    (Counter.add k a c).name = c.name := by
  unfold Counter.add
  split <;> rfl

/-- Adds to the counter with the name. -/
def add [Add A] (l : Counters κ A) (k : κ) (a : A) : Counters κ A :=
  ⟨l.list.map (Counter.add k a), by
    rw [List.map_map]
    exact (List.map_congr_left fun c _ => Counter.add_name k a c) ▸ l.nodup⟩

/-- Sets the counter with the name. -/
def set (l : Counters κ A) (k : κ) (a : A) : Counters κ A :=
  ⟨l.list.map fun c => if c.name = k then ⟨c.name, a⟩ else c, by
    have hnames : ∀ c ∈ l.list, (if c.name = k then ⟨c.name, a⟩ else c : Counter κ A).name =
        c.name := by
      intro c _
      split <;> rfl
    rw [List.map_map]
    exact (List.map_congr_left hnames) ▸ l.nodup⟩

/-- Removes the counter with the name when it is zero. -/
def dropZero [Zero A] [DecidableEq A] (l : Counters κ A) (k : κ) : Counters κ A :=
  ⟨l.list.filter fun c => ¬ (c.name = k ∧ c.value = 0),
    l.nodup.sublist (List.filter_sublist.map _)⟩

section Amounts
variable [AddCommGroup A] {l : Counters κ A} {k : κ} {a : A} {c : Counter κ A}

theorem amount_of_mem (h : c ∈ l.list) : l.amount c.name = c.value := by
  have hfind : l.locate c.name = some c := by
    cases hl : l.locate c.name with
    | none =>
        have hne := List.find?_eq_none.mp hl c h
        simp at hne
    | some d =>
        have hd : d.name = c.name := by simpa using List.find?_some hl
        rw [List.inj_on_of_nodup_map l.nodup (List.mem_of_find?_eq_some hl) h hd]
  simp only [amount, hfind, Option.map_some, Option.getD_some]

theorem amount_of_notMem (h : k ∉ l.list.map Counter.name) : l.amount k = 0 := by
  have hfind : l.locate k = none := by
    rw [locate, List.find?_eq_none]
    intro c hc hk
    exact h (List.mem_map.mpr ⟨c, hc, by simpa using hk⟩)
  simp only [amount, hfind, Option.map_none, Option.getD_none]

theorem amount_empty : (empty : Counters κ A).amount = 0 := by
  funext k
  exact amount_of_notMem (by simp [empty])

/-- Two lists agree on a name when each counter of the one has the amount of the other. -/
theorem amount_eq {l' : Counters κ A} (hmem : ∀ c ∈ l.list, c.name = k → l'.amount k = c.value)
    (hnot : k ∉ l.list.map Counter.name → l'.amount k = 0) : l'.amount k = l.amount k := by
  by_cases hk : k ∈ l.list.map Counter.name
  · obtain ⟨c, hc, rfl⟩ := List.mem_map.mp hk
    rw [hmem c hc rfl, amount_of_mem hc]
  · rw [hnot hk, amount_of_notMem hk]

theorem mem_ensure : k ∈ (l.ensure k).list.map Counter.name := by
  unfold ensure
  split
  · assumption
  · simp

theorem posts_ensure (k : κ) : Posts amount (fun l : Counters κ A => l.ensure k) 0 := by
  intro l
  rw [add_zero]
  funext k'
  by_cases hk : k ∈ l.list.map Counter.name
  · simp only [ensure, dif_pos hk]
  · simp only [ensure, dif_neg hk]
    apply amount_eq
    · intro c hc hname
      subst hname
      exact amount_of_mem (List.mem_append_left _ hc)
    · intro hk'
      by_cases h : k' = k
      · subst h
        exact amount_of_mem (c := ⟨k', 0⟩) (List.mem_append_right _ List.mem_cons_self)
      · apply amount_of_notMem
        simpa [h] using hk'

theorem amount_add (hk : k ∈ l.list.map Counter.name) (a : A) :
    (l.add k a).amount = l.amount + Pi.single k a := by
  have hmap : ∀ c ∈ l.list, Counter.add k a c ∈ (l.add k a).list := fun c hc =>
    List.mem_map_of_mem hc
  funext k'
  rw [Pi.add_apply]
  by_cases h : k' ∈ l.list.map Counter.name
  · obtain ⟨c, hc, rfl⟩ := List.mem_map.mp h
    have hadd := amount_of_mem (hmap c hc)
    rw [Counter.add_name] at hadd
    rw [hadd, amount_of_mem hc, Counter.add]
    split
    · rename_i hck
      rw [hck, Pi.single_eq_same]
    · rename_i hck
      rw [Pi.single_eq_of_ne hck, add_zero]
  · have hne : k' ≠ k := fun e => h (e ▸ hk)
    have hnames : (l.add k a).list.map Counter.name = l.list.map Counter.name := by
      rw [add, List.map_map]
      exact List.map_congr_left fun c _ => Counter.add_name k a c
    rw [amount_of_notMem (hnames ▸ h), amount_of_notMem h, Pi.single_eq_of_ne hne, add_zero]

theorem posts_add (k : κ) (a : A) :
    Posts amount (fun l : Counters κ A => (l.ensure k).add k a) (Pi.single k a) := by
  intro l
  rw [amount_add mem_ensure, posts_ensure k l, add_zero]

theorem amount_set (hk : k ∈ l.list.map Counter.name) (a : A) (k' : κ) :
    (l.set k a).amount k' = if k' = k then a else l.amount k' := by
  have hmem : ∀ c ∈ l.list, (if c.name = k then ⟨c.name, a⟩ else c : Counter κ A) ∈
      (l.set k a).list := fun c hc => List.mem_map_of_mem hc
  split
  · rename_i hk'
    subst hk'
    obtain ⟨c, hc, rfl⟩ := List.mem_map.mp hk
    have hc' := hmem c hc
    rw [if_pos rfl] at hc'
    exact amount_of_mem hc'
  · rename_i hk'
    apply amount_eq
    · rintro c hc rfl
      have hc' := hmem c hc
      rw [if_neg hk'] at hc'
      exact amount_of_mem hc'
    · intro hnot
      apply amount_of_notMem
      intro hin
      obtain ⟨d, hd, rfl⟩ := List.mem_map.mp hin
      obtain ⟨c, hc, rfl⟩ := List.mem_map.mp hd
      split at hnot
      · exact hnot (List.mem_map.mpr ⟨c, hc, rfl⟩)
      · exact hnot (List.mem_map_of_mem hc)

/-- A loop over the counters of a list in which each round changes the amount of its name. -/
theorem amount_foldl {op : Counters κ A → Counter κ A → Counters κ A} {g : κ → A → A → A}
    {cs : List (Counter κ A)} (hnodup : (cs.map Counter.name).Nodup)
    (hself : ∀ l, ∀ c ∈ cs, (op l c).amount c.name = g c.name (l.amount c.name) c.value)
    (hother : ∀ l, ∀ c ∈ cs, ∀ k, k ≠ c.name → (op l c).amount k = l.amount k)
    (l : Counters κ A) (k : κ) :
    (∀ c ∈ cs, c.name = k → (cs.foldl op l).amount k = g k (l.amount k) c.value) ∧
      (k ∉ cs.map Counter.name → (cs.foldl op l).amount k = l.amount k) := by
  induction cs generalizing l with
  | nil => exact ⟨fun c hc => absurd hc List.not_mem_nil, fun _ => rfl⟩
  | cons c cs ih =>
      rw [List.map_cons, List.nodup_cons] at hnodup
      obtain ⟨hin, hnot⟩ := ih hnodup.2 (fun l d hd => hself l d (List.mem_cons_of_mem _ hd))
        (fun l d hd => hother l d (List.mem_cons_of_mem _ hd)) (op l c)
      rw [List.foldl_cons]
      refine ⟨fun d hd hname => ?_, fun hk => ?_⟩
      · rcases List.mem_cons.mp hd with rfl | hd
        · subst hname
          rw [hnot hnodup.1, hself l d List.mem_cons_self]
        · have hne : k ≠ c.name := fun e =>
            hnodup.1 (List.mem_map.mpr ⟨d, hd, hname.trans e⟩)
          rw [hin d hd hname, hother l c List.mem_cons_self k hne]
      · rw [List.map_cons, List.mem_cons, not_or] at hk
        rw [hnot hk.2, hother l c List.mem_cons_self k hk.1]

/-- The loop, when a counter that counts as zero would change nothing. -/
theorem amount_foldl_list {op : Counters κ A → Counter κ A → Counters κ A} {g : κ → A → A → A}
    {cs : Counters κ A}
    (hself : ∀ l, ∀ c ∈ cs.list, (op l c).amount c.name = g c.name (l.amount c.name) c.value)
    (hother : ∀ l, ∀ c ∈ cs.list, ∀ k, k ≠ c.name → (op l c).amount k = l.amount k)
    (hzero : g k (l.amount k) 0 = l.amount k) :
    (cs.list.foldl op l).amount k = g k (l.amount k) (cs.amount k) := by
  obtain ⟨hin, hnot⟩ := amount_foldl cs.nodup hself hother l k
  by_cases hk : k ∈ cs.list.map Counter.name
  · obtain ⟨c, hc, hname⟩ := List.mem_map.mp hk
    rw [hin c hc hname, ← hname, amount_of_mem hc]
  · rw [hnot hk, amount_of_notMem hk, hzero]

theorem posts_dropZero [DecidableEq A] (k : κ) :
    Posts amount (fun l : Counters κ A => l.dropZero k) 0 := by
  intro l
  rw [add_zero]
  funext k'
  apply amount_eq
  · intro c hc hname
    subst hname
    by_cases h : c.name = k ∧ c.value = 0
    · rw [h.2]
      apply amount_of_notMem
      intro hmem
      obtain ⟨d, hd, hname⟩ := List.mem_map.mp hmem
      have hd' := List.mem_filter.mp hd
      have hdc := List.inj_on_of_nodup_map l.nodup hd'.1 hc hname
      subst hdc
      simp [h] at hd'
    · exact amount_of_mem (List.mem_filter.mpr ⟨hc, decide_eq_true h⟩)
  · intro hk'
    exact amount_of_notMem fun h => hk' ((List.filter_sublist.map _).subset h)

/-- No counter is zero. -/
def Tidy (l : Counters κ A) : Prop := ∀ c ∈ l.list, c.value ≠ 0

theorem Tidy.list_eq_nil (h : l.Tidy) (hzero : l.amount = 0) : l.list = [] := by
  rw [List.eq_nil_iff_forall_not_mem]
  intro c hc
  apply h c hc
  rw [← amount_of_mem hc, hzero, Pi.zero_apply]

/-- No counter is zero, except perhaps the one with the name. -/
def TidyExcept (k : κ) (l : Counters κ A) : Prop := ∀ c ∈ l.list, c.name ≠ k → c.value ≠ 0

theorem Tidy.ensure (h : l.Tidy) (k : κ) : TidyExcept k (l.ensure k) := by
  intro c hc hk
  by_cases hmem : k ∈ l.list.map Counter.name
  · rw [Counters.ensure, dif_pos hmem] at hc
    exact h c hc
  · rw [Counters.ensure, dif_neg hmem] at hc
    rcases List.mem_append.mp hc with hc | hc
    · exact h c hc
    · rw [List.mem_singleton.mp hc] at hk
      exact absurd rfl hk

theorem TidyExcept.add (h : TidyExcept k l) (a : A) : TidyExcept k (l.add k a) := by
  intro c hc hk
  obtain ⟨d, hd, rfl⟩ := List.mem_map.mp hc
  rw [Counter.add_name] at hk
  rw [Counter.add, if_neg hk]
  exact h d hd hk

theorem TidyExcept.dropZero [DecidableEq A] (h : TidyExcept k l) : (l.dropZero k).Tidy := by
  intro c hc hzero
  obtain ⟨hmem, hkeep⟩ := List.mem_filter.mp hc
  by_cases hk : c.name = k
  · exact of_decide_eq_true hkeep ⟨hk, hzero⟩
  · exact h c hmem hk hzero

end Amounts
end Counters

end Ledger
