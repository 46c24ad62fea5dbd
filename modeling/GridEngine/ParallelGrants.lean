import GridEngine.ParallelHarvest
import Mathlib.Algebra.Order.Monoid.Prod

/-!
# Grants and debits of a queue instance

A grant weighs its slots by queue instance. The limits of a queue instance are the entries of the
limit list that it falls under, and a debit takes the same amount from all of them.
-/

namespace GridEngine

section Charges
variable {Q : Type*}

/-- The queue instances in a list of granted queues. -/
abbrev qnames (gdil : List (GrantedQueue Q)) : List Q := gdil.map GrantedQueue.qname

/-- The slots of a grant, weighed by queue instance. -/
def charge (w : Q → ℤ) (gdil : List (GrantedQueue Q)) : ℤ :=
  (gdil.map fun jg => jg.slots * w jg.qname).sum

/-- The slots of queue instances, weighed. -/
def weigh (w tag : Q → ℤ) (qs : List Q) : ℤ := (qs.map fun q => tag q * w q).sum

variable {w tag : Q → ℤ} {gdil : List (GrantedQueue Q)} {q : Q}

theorem charge_cons (jg : GrantedQueue Q) :
    charge w (jg :: gdil) = jg.slots * w jg.qname + charge w gdil := List.sum_cons

theorem charge_append (gdil' : List (GrantedQueue Q)) :
    charge w (gdil ++ gdil') = charge w gdil + charge w gdil' := by
  rw [charge, List.map_append, List.sum_append]
  rfl

theorem charge_eq_zero (h : ∀ q ∈ qnames gdil, w q = 0) : charge w gdil = 0 := by
  apply List.sum_eq_zero
  intro x hx
  obtain ⟨jg, hjg, rfl⟩ := List.mem_map.mp hx
  rw [h jg.qname (List.mem_map_of_mem hjg), mul_zero]

theorem weigh_cons (qs : List Q) : weigh w tag (q :: qs) = tag q * w q + weigh w tag qs :=
  List.sum_cons

theorem weigh_singleton : weigh w tag [q] = tag q * w q := List.sum_singleton

theorem weigh_congr {tag' : Q → ℤ} {qs : List Q} (h : ∀ q ∈ qs, tag q = tag' q) :
    weigh w tag qs = weigh w tag' qs := by
  rw [weigh, List.map_congr_left fun q hq => by rw [h q hq]]
  rfl

theorem weigh_eq_zero {qs : List Q} (h : ∀ q ∈ qs, tag q = 0 ∨ w q = 0) : weigh w tag qs = 0 := by
  apply List.sum_eq_zero
  intro x hx
  obtain ⟨q, hq, rfl⟩ := List.mem_map.mp hx
  rcases h q hq with h | h
  · rw [h, zero_mul]
  · rw [h, mul_zero]

theorem weigh_nonneg {qs : List Q} (htag : ∀ q ∈ qs, 0 ≤ tag q) (hw : ∀ q, 0 ≤ w q) :
    0 ≤ weigh w tag qs := by
  apply List.sum_nonneg
  intro x hx
  obtain ⟨q, hq, rfl⟩ := List.mem_map.mp hx
  exact mul_nonneg (htag q hq) (hw q)

theorem weigh_eq_zero_iff {qs : List Q} (htag : ∀ q ∈ qs, 0 ≤ tag q) (hw : ∀ q, 0 ≤ w q) :
    weigh w tag qs = 0 ↔ ∀ q ∈ qs, tag q = 0 ∨ w q = 0 := by
  constructor
  · intro hzero q hq
    have hle : tag q * w q ≤ weigh w tag qs := by
      apply List.single_le_sum
      · intro x hx
        obtain ⟨q, hq, rfl⟩ := List.mem_map.mp hx
        exact mul_nonneg (htag q hq) (hw q)
      · exact List.mem_map_of_mem hq
    have hge := mul_nonneg (htag q hq) (hw q)
    exact mul_eq_zero.mp (by omega)
  · exact weigh_eq_zero

end Charges

section Grants
variable {Q : Type*} [DecidableEq Q] {w : Q → ℤ} {gdil : List (GrantedQueue Q)} {q q' : Q}
  {slots : ℤ} {master : Bool}

theorem locateJg_eq_none : locateJg gdil q = none ↔ q ∉ qnames gdil := by
  rw [locateJg, List.find?_eq_none]
  simp only [decide_eq_true_eq, List.mem_map, not_exists, not_and]

theorem qnames_addJgSlots : qnames (addJgSlots q slots gdil) = qnames gdil := by
  induction gdil with
  | nil => rfl
  | cons jg gdil ih =>
      rw [addJgSlots]
      split
      · rename_i h
        simp only [List.map_cons, h]
      · simp only [List.map_cons, ih]

theorem charge_addJgSlots (h : q ∈ qnames gdil) :
    charge w (addJgSlots q slots gdil) = charge w gdil + slots * w q := by
  induction gdil with
  | nil => cases h
  | cons jg gdil ih =>
      rw [addJgSlots]
      split
      · rename_i hjg
        rw [charge_cons, charge_cons, hjg]
        ring
      · rename_i hjg
        have htail : q ∈ qnames gdil := by
          rcases List.mem_cons.mp h with rfl | h
          · exact absurd rfl hjg
          · exact h
        rw [charge_cons, charge_cons, ih htail]
        ring

theorem charge_eraseP {jg : GrantedQueue Q} (h : locateJg gdil q = some jg) :
    charge w (gdil.eraseP fun jg => jg.qname = q) = charge w gdil - jg.slots * w q := by
  induction gdil with
  | nil => cases h
  | cons jg' gdil ih =>
      rw [locateJg, List.find?_cons] at h
      by_cases hjg : jg'.qname = q
      · rw [decide_eq_true hjg] at h
        cases h
        rw [List.eraseP_cons_of_pos (by simpa using hjg), charge_cons, hjg]
        ring
      · rw [decide_eq_false hjg] at h
        rw [List.eraseP_cons_of_neg (by simpa using hjg), charge_cons, charge_cons, ih h]
        ring

theorem charge_grantSlots :
    charge w (grantSlots gdil q slots master) = charge w gdil + slots * w q := by
  cases hjg : locateJg gdil q with
  | some jg =>
      have hmem : q ∈ qnames gdil := by
        by_contra hmem
        rw [locateJg_eq_none.mpr hmem] at hjg
        cases hjg
      simp only [grantSlots, hjg, charge_addJgSlots hmem]
  | none =>
      cases master with
      | true => simp only [grantSlots, hjg, if_true, charge_cons, add_comm]
      | false =>
          simp only [grantSlots, hjg, Bool.false_eq_true, if_false, charge_append, charge_cons]
          simp only [charge, List.map_nil, List.sum_nil, add_zero]

theorem mem_grantSlots : q' ∈ qnames (grantSlots gdil q slots master) ↔
    q' = q ∨ q' ∈ qnames gdil := by
  cases hjg : locateJg gdil q with
  | some jg =>
      simp only [grantSlots, hjg, qnames_addJgSlots]
      constructor
      · exact Or.inr
      · rintro (rfl | h)
        · by_contra hmem
          rw [locateJg_eq_none.mpr hmem] at hjg
          cases hjg
        · exact h
  | none =>
      cases master with
      | true => simp only [grantSlots, hjg, if_true, List.map_cons, List.mem_cons]
      | false =>
          simp only [grantSlots, hjg, Bool.false_eq_true, if_false, List.map_append,
            List.mem_append, List.map_cons, List.map_nil, List.mem_singleton, or_comm]

theorem charge_ungrantSlots (h : q ∈ qnames gdil) :
    charge w (ungrantSlots gdil q slots) = charge w gdil - slots * w q := by
  cases hjg : locateJg gdil q with
  | none => exact absurd h (locateJg_eq_none.mp hjg)
  | some jg =>
      simp only [ungrantSlots, hjg]
      split
      · rw [charge_addJgSlots h]
        ring
      · rename_i hslots
        rw [charge_eraseP hjg]
        have heq : jg.slots = slots := by omega
        rw [heq]

theorem ungrantSlots_of_notMem (h : q ∉ qnames gdil) :
    ungrantSlots gdil q slots = gdil := by
  simp only [ungrantSlots, locateJg_eq_none.mpr h]

theorem qnames_ungrantSlots_subset : qnames (ungrantSlots gdil q slots) ⊆ qnames gdil := by
  cases hjg : locateJg gdil q with
  | none => simp only [ungrantSlots, hjg, List.Subset.refl]
  | some jg =>
      simp only [ungrantSlots, hjg]
      split
      · rw [qnames_addJgSlots]
        exact List.Subset.refl _
      · exact List.map_subset _ (List.eraseP_subset ..)

theorem mem_ungrantSlots_of_ne (hq : q' ≠ q) :
    q' ∈ qnames (ungrantSlots gdil q slots) ↔
      q' ∈ qnames gdil := by
  cases hjg : locateJg gdil q with
  | none => simp only [ungrantSlots, hjg]
  | some jg =>
      simp only [ungrantSlots, hjg]
      split
      · rw [qnames_addJgSlots]
      · simp only [List.mem_map]
        constructor
        · rintro ⟨jg, hjg, rfl⟩
          exact ⟨jg, List.mem_of_mem_eraseP hjg, rfl⟩
        · rintro ⟨jg, hjg, rfl⟩
          exact ⟨jg, (List.mem_eraseP_of_neg (by simpa using hq)).mpr hjg, rfl⟩

end Grants

namespace SlotTime
variable {t : SlotTime}

@[simp]
theorem amount_zero : t.amount 0 = 0 := by cases t <;> rfl

theorem amount_add (m n : ℤ) : t.amount (m + n) = t.amount m + t.amount n := by
  cases t <;> simp [amount]

theorem amount_neg (n : ℤ) : t.amount (-n) = -t.amount n := by
  cases t <;> simp [amount]

theorem amount_mono {m n : ℤ} (h : m ≤ n) : t.amount m ≤ t.amount n := by
  cases t with
  | now => exact ⟨h, le_rfl⟩
  | qend => exact ⟨le_rfl, h⟩

theorem amount_nonneg {n : ℤ} (h : 0 ≤ n) : 0 ≤ t.amount n := by
  rw [← amount_zero (t := t)]
  exact amount_mono h

theorem amount_inj {m n : ℤ} (h : t.amount m = t.amount n) : m = n := by
  cases t with
  | now => exact congrArg Prod.fst h
  | qend => exact congrArg Prod.snd h

@[simp]
theorem entry_amount (n : ℤ) : t.entry (t.amount n) = n := by cases t <;> rfl

theorem amount_entry {n : ℤ} {p : ℤ × ℤ} (h₀ : 0 ≤ p) (h : p ≤ t.amount n) :
    ∃ k, p = t.amount k ∧ 0 ≤ k ∧ k ≤ n := by
  obtain ⟨x, y⟩ := p
  cases t with
  | now =>
      obtain rfl : y = 0 := le_antisymm h.2 h₀.2
      exact ⟨x, rfl, h₀.1, h.1⟩
  | qend =>
      obtain rfl : x = 0 := le_antisymm h.1 h₀.1
      exact ⟨y, rfl, h₀.2, h.2⟩

end SlotTime

namespace ParallelAssignment
variable {Q H L R : Type*} {a : ParallelAssignment Q H L R}

theorem checkedRqs_sublist : a.checkedRqs.Sublist a.rqsList := by
  unfold checkedRqs
  split
  · exact List.nil_sublist _
  · exact List.Sublist.refl _

variable {limitList : L → Option (ℤ × ℤ)} {q : Q} {l : L} {slots : ℤ × ℤ}

variable (a) in
/-- The entries of the limit list that a queue instance falls under. -/
def limits (q : Q) : List L := a.checkedRqs.filterMap fun rqs => a.limitName rqs q

/-- No entry is negative. -/
def LimitsLeft (limitList : L → Option (ℤ × ℤ)) : Prop := ∀ l, ∀ rql ∈ limitList l, 0 ≤ rql

theorem limits_nodup (q : Q) : (a.limits q).Nodup := by
  apply List.pairwise_filterMap.mpr
  refine List.Pairwise.imp_of_mem ?_ (a.rqsList_nodup.sublist checkedRqs_sublist)
  intro rqs rqs' hrqs hrqs' hne l hl l' hl' heq
  subst heq
  exact hne (a.limitName_inj rqs (checkedRqs_sublist.subset hrqs) rqs'
    (checkedRqs_sublist.subset hrqs') q l hl hl')

/-- No more is taken than what every limit of the queue instance has left. -/
theorem slotsLeft_spec (hleft : LimitsLeft limitList) (rqsList : List R) (h : 0 ≤ slots) :
    0 ≤ a.slotsLeft q limitList rqsList slots ∧
      a.slotsLeft q limitList rqsList slots ≤ slots ∧
      (a.slotsLeft q limitList rqsList slots ≠ 0 →
        ∀ l ∈ rqsList.filterMap fun rqs => a.limitName rqs q,
          ∃ rql ∈ limitList l, a.slotsLeft q limitList rqsList slots ≤ rql) := by
  induction rqsList generalizing slots with
  | nil => exact ⟨h, le_rfl, fun _ l hl => nomatch hl⟩
  | cons rqs rqsList ih =>
      cases hname : a.limitName rqs q with
      | none =>
          rw [List.filterMap_cons_none (f := fun rqs => a.limitName rqs q) hname]
          simp only [slotsLeft, hname]
          split
          · rename_i hzero
            exact ⟨h, le_rfl, fun hne => absurd hzero hne⟩
          · exact ih h
      | some l =>
          rw [List.filterMap_cons_some (f := fun rqs => a.limitName rqs q) hname]
          simp only [slotsLeft, hname]
          cases hrql : limitList l with
          | none =>
              simp only [if_true]
              exact ⟨le_rfl, h, fun hne => absurd rfl hne⟩
          | some rql =>
              have hmin : (min slots.1 rql.1, min slots.2 rql.2) = slots ⊓ rql := rfl
              simp only [hmin]
              have hpos : 0 ≤ slots ⊓ rql := le_inf h (hleft l rql hrql)
              split
              · rename_i hzero
                exact ⟨hpos, inf_le_left, fun hne => absurd hzero hne⟩
              · obtain ⟨hge, hle, hlimits⟩ := ih hpos
                refine ⟨hge, hle.trans inf_le_left, fun hne l' hl' => ?_⟩
                rcases List.mem_cons.mp hl' with rfl | hl'
                · exact ⟨rql, hrql, hle.trans inf_le_right⟩
                · exact hlimits hne l' hl'

variable [DecidableEq L]

variable (a) in
/-- The weight of the queue instances that fall under a limit. -/
def under (l : L) (q : Q) : ℤ := if l ∈ a.limits q then 1 else 0

theorem under_nonneg (l : L) (q : Q) : 0 ≤ a.under l q := by
  unfold under
  split
  · exact Int.one_nonneg
  · exact le_rfl

theorem under_eq_zero : a.under l q = 0 ↔ l ∉ a.limits q := by
  unfold under
  split
  · rename_i hmem
    simp only [one_ne_zero, hmem, not_true]
  · rename_i hmem
    simp only [hmem, not_false_eq_true]

/-- Each rule set names an entry of its own, so every entry is posted once. -/
theorem foldl_post (rqsList : List R)
    (hnodup : (rqsList.filterMap fun rqs => a.limitName rqs q).Nodup) :
    rqsList.foldl (a.postRqs q slots) limitList l =
      if l ∈ rqsList.filterMap fun rqs => a.limitName rqs q then (limitList l).map (· + slots)
      else limitList l := by
  induction rqsList generalizing limitList with
  | nil => rfl
  | cons rqs rqsList ih =>
      rw [List.foldl_cons]
      cases hname : a.limitName rqs q with
      | none =>
          rw [List.filterMap_cons_none (f := fun rqs => a.limitName rqs q) hname] at hnodup ⊢
          rw [ih hnodup, postRqs, hname]
      | some l' =>
          rw [List.filterMap_cons_some (f := fun rqs => a.limitName rqs q) hname] at hnodup ⊢
          obtain ⟨hnot, hnodup⟩ := List.nodup_cons.mp hnodup
          have hpost : a.postRqs q slots limitList rqs =
              Function.update limitList l' ((limitList l').map (· + slots)) := by
            simp only [postRqs, hname]
          rw [ih hnodup, hpost]
          by_cases heq : l = l'
          · subst heq
            rw [if_neg hnot, if_pos List.mem_cons_self, Function.update_self]
          · simp only [Function.update_of_ne heq, List.mem_cons, heq, false_or]

theorem postSlots_apply (q : Q) (slots : ℤ × ℤ) (limitList : L → Option (ℤ × ℤ)) (l : L) :
    a.postSlots q slots limitList l = (limitList l).map (· + a.under l q • slots) := by
  have hpost : a.postSlots q slots limitList l =
      if l ∈ a.limits q then (limitList l).map (· + slots) else limitList l :=
    foldl_post _ (limits_nodup q)
  rw [hpost]
  by_cases hmem : l ∈ a.limits q
  · rw [if_pos hmem, under, if_pos hmem, one_smul]
  · rw [if_neg hmem, under, if_neg hmem, zero_smul]
    simp only [add_zero, Option.map_id']

theorem checkAndDebit_limitList (q : Q) (slots : ℤ × ℤ) (limitList : L → Option (ℤ × ℤ)) (l : L) :
    (a.checkAndDebit q slots limitList).2 l =
      (limitList l).map (· - a.under l q • (a.checkAndDebit q slots limitList).1) := by
  simp only [checkAndDebit]
  split
  · simp only [postSlots_apply, smul_neg, sub_eq_add_neg]
  · rename_i hzero
    rw [not_not.mp hzero, smul_zero]
    simp only [sub_zero, Option.map_id']

theorem checkAndDebit_zero (hleft : LimitsLeft limitList) :
    a.checkAndDebit q 0 limitList = (0, limitList) := by
  obtain ⟨hge, hle, -⟩ := slotsLeft_spec (q := q) hleft a.checkedRqs le_rfl
  have hzero : a.slotsLeft q limitList a.checkedRqs 0 = 0 := le_antisymm hle hge
  simp only [checkAndDebit, hzero, ne_eq, not_true, if_false]

theorem checkAndDebit_spec {t : SlotTime} {n : ℤ} (hleft : LimitsLeft limitList) (hn : 0 ≤ n) :
    ∃ k, 0 ≤ k ∧ k ≤ n ∧ (a.checkAndDebit q (t.amount n) limitList).1 = t.amount k ∧
      LimitsLeft (a.checkAndDebit q (t.amount n) limitList).2 ∧
      (0 < k → ∀ l ∈ a.limits q, (limitList l).isSome) := by
  obtain ⟨hge, hle, hlimits⟩ :=
    slotsLeft_spec (q := q) hleft a.checkedRqs (SlotTime.amount_nonneg (t := t) hn)
  obtain ⟨k, hk, hk₀, hkn⟩ := SlotTime.amount_entry hge hle
  have hdebited : (a.checkAndDebit q (t.amount n) limitList).1 = t.amount k := hk
  have hcovered : 0 < k → ∀ l ∈ a.limits q, ∃ rql ∈ limitList l, t.amount k ≤ rql := by
    intro hpos l hl
    rw [hk] at hlimits
    refine hlimits (fun hzero => ?_) l hl
    rw [← SlotTime.amount_zero (t := t)] at hzero
    exact absurd (SlotTime.amount_inj hzero) hpos.ne'
  refine ⟨k, hk₀, hkn, hdebited, fun l rql hrql => ?_, fun hpos l hl => ?_⟩
  · rw [checkAndDebit_limitList, hdebited] at hrql
    obtain ⟨rql', hrql', rfl⟩ := Option.map_eq_some_iff.mp hrql
    by_cases hl : l ∈ a.limits q ∧ 0 < k
    · obtain ⟨rql, hrql, hcover⟩ := hcovered hl.2 l hl.1
      obtain rfl : rql' = rql := Option.some.inj (hrql'.symm.trans hrql)
      rw [under, if_pos hl.1, one_smul]
      exact sub_nonneg.mpr hcover
    · have hnone : a.under l q • t.amount k = 0 := by
        rcases not_and_or.mp hl with hnot | hnot
        · rw [under_eq_zero.mpr hnot, zero_smul]
        · obtain rfl : k = 0 := by omega
          rw [SlotTime.amount_zero, smul_zero]
      rw [hnone, sub_zero]
      exact hleft l rql' hrql'
  · obtain ⟨rql, hrql, -⟩ := hcovered hpos l hl
    rw [hrql]
    rfl

end ParallelAssignment

end GridEngine
