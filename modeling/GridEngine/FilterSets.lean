import Mathlib.Data.List.Basic
import Mathlib.Data.Option.Basic

/-!
# Filters as sets

A filter has a list of entries that take a value in and a list of entries that keep it out. It is a
set when neither the order of the entries nor their number decides. A test of the entries in turn
in which some entries end the search without keeping the value out is no set.
-/

namespace FilterSets
variable {α : Type*} {l l' : List α} {x : α}

/-- Lists with the same entries in any order and number. -/
def Rearranged (l l' : List α) : Prop := ∀ x, x ∈ l ↔ x ∈ l'

/-- A list with one more entry somewhere. -/
def Added (l l' : List α) : Prop := ∃ a b x, l = a ++ b ∧ l' = a ++ x :: b

theorem Rearranged.refl (l : List α) : Rearranged l l := fun _ => Iff.rfl

theorem Rearranged.any_eq (h : Rearranged l l') (p : α → Bool) : l'.any p = l.any p := by
  rw [Bool.eq_iff_iff, List.any_eq_true, List.any_eq_true]
  exact exists_congr fun x => and_congr_left fun _ => (h x).symm

theorem Added.mem (h : Added l l') (hx : x ∈ l) : x ∈ l' := by
  obtain ⟨a, b, y, rfl, rfl⟩ := h
  rcases List.mem_append.mp hx with ha | hb
  · exact List.mem_append_left _ ha
  · exact List.mem_append_right _ (List.mem_cons_of_mem y hb)

theorem Added.any (h : Added l l') {p : α → Bool} (hany : l.any p) : l'.any p := by
  obtain ⟨x, hx, hp⟩ := List.any_eq_true.mp hany
  exact List.any_eq_true.mpr ⟨x, h.mem hx, hp⟩

theorem any_or (p q : α → Bool) : (l.any p || l.any q) = l.any fun x => p x || q x := by
  induction l with
  | nil => rfl
  | cons x l ih =>
      rw [List.any_cons, List.any_cons, List.any_cons, ← ih, Bool.or_assoc, Bool.or_assoc,
        Bool.or_left_comm (l.any p)]

section First
variable {verdict : α → Option Bool}

/-- The verdict of the first entry that has one. -/
def first (verdict : α → Option Bool) (l : List α) : Bool := (l.findSome? verdict).getD false

theorem first_cons : first verdict (x :: l) = (verdict x).getD (first verdict l) := by
  rw [first, List.findSome?_cons]
  cases verdict x with
  | none => rfl
  | some b => rfl

theorem first_eq_any (h : ∀ x ∈ l, verdict x ≠ some false) :
    first verdict l = l.any fun x => verdict x = some true := by
  induction l with
  | nil => rfl
  | cons x l ih =>
      have htail := ih fun y hy => h y (List.mem_cons_of_mem x hy)
      have hx := h x List.mem_cons_self
      rw [first_cons, List.any_cons, htail]
      cases hv : verdict x with
      | none => simp
      | some b =>
          cases b with
          | true => simp
          | false => exact absurd hv hx

theorem exists_of_first (h : first verdict l = true) : ∃ x ∈ l, verdict x = some true := by
  cases hfind : l.findSome? verdict with
  | none =>
      rw [first, hfind] at h
      cases h
  | some b =>
      rw [first, hfind] at h
      obtain rfl : b = true := h
      exact List.exists_of_findSome?_eq_some hfind

end First

section Exclusion
variable {verdict : α → Option Bool} {star : α → Bool}

/-- An exclusion list in which some entries keep every value out. -/
def excludes (star : α → Bool) (verdict : α → Option Bool) (l : List α) : Bool :=
  l.any star || first verdict l

/-- Neither the order nor the number of the entries of the exclusion list decides, and further
entries let nothing in. -/
def ExclusionSet (f : List α → Bool) (l : List α) : Prop :=
  (∀ l', Rearranged l l' → f l' = f l) ∧ ∀ l', Added l l' → f l → f l'

theorem exclusionSet_any (p : α → Bool) (l : List α) : ExclusionSet (fun l => l.any p) l :=
  ⟨fun _ h => h.any_eq p, fun _ h => h.any⟩

theorem excludes_of_star (hx : x ∈ l) (hstar : star x = true) : excludes star verdict l = true := by
  rw [excludes, List.any_eq_true.mpr ⟨x, hx, hstar⟩, Bool.true_or]

theorem excludes_eq_first (hstar : ∀ x ∈ l, star x = false) :
    excludes star verdict l = first verdict l := by
  have hnone : l.any star = false := by
    rw [List.any_eq_false]
    intro x hx
    rw [hstar x hx]
    exact Bool.false_ne_true
  rw [excludes, hnone, Bool.false_or]

theorem excludes_eq_any (hends : ∀ x ∈ l, star x = false → verdict x ≠ some false) :
    excludes star verdict l = l.any fun x => star x || verdict x = some true := by
  by_cases hstar : ∀ x ∈ l, star x = false
  · rw [excludes_eq_first hstar, first_eq_any fun x hx => hends x hx (hstar x hx)]
    rw [Bool.eq_iff_iff, List.any_eq_true, List.any_eq_true]
    refine exists_congr fun x => and_congr_right fun hx => ?_
    rw [hstar x hx, Bool.false_or]
  · simp only [not_forall, Bool.not_eq_false] at hstar
    obtain ⟨x, hx, hstar⟩ := hstar
    rw [excludes_of_star hx hstar, eq_comm, List.any_eq_true]
    exact ⟨x, hx, by rw [hstar, Bool.true_or]⟩

/-- An entry that keeps the value out and an entry that ends the search make no set. -/
theorem not_exclusionSet {y : α} (hstar : ∀ x ∈ l, star x = false) (hy : y ∈ l)
    (hout : verdict y = some true) (hx : star x = false) (hends : verdict x = some false) :
    ¬ ExclusionSet (excludes star verdict) l := by
  rintro ⟨hrearranged, hadded⟩
  have hfront : Rearranged l (y :: l) := by
    intro z
    rw [List.mem_cons]
    exact ⟨Or.inr, fun hz => hz.elim (fun heq => heq ▸ hy) id⟩
  have hl : excludes star verdict l = true := by
    rw [← hrearranged _ hfront, excludes, first_cons, hout, Option.getD_some, Bool.or_true]
  have hsearch := hadded (x :: l) ⟨[], l, x, rfl, rfl⟩ hl
  have hnone : ∀ z ∈ x :: l, star z = false := List.forall_mem_cons.mpr ⟨hx, hstar⟩
  rw [excludes_eq_first hnone, first_cons, hends] at hsearch
  cases hsearch

/-- The list is a set unless an entry that keeps the value out meets one that ends the search. -/
theorem exclusionSet_iff : ExclusionSet (excludes star verdict) l ↔
    ¬ ((∀ x ∈ l, star x = false) ∧ (∃ x ∈ l, verdict x = some true) ∧
      ∃ x, star x = false ∧ verdict x = some false) := by
  constructor
  · rintro hset ⟨hstar, ⟨y, hy, hout⟩, x, hx, hends⟩
    exact not_exclusionSet hstar hy hout hx hends hset
  · intro hnot
    by_cases hstar : ∀ x ∈ l, star x = false
    · by_cases hout : ∃ x ∈ l, verdict x = some true
      · have hends : ∀ x, star x = false → verdict x ≠ some false := fun x hx hv =>
          hnot ⟨hstar, hout, x, hx, hv⟩
        have hany : excludes star verdict =
            fun l => l.any fun x => star x || verdict x = some true :=
          funext fun l => excludes_eq_any fun x _ => hends x
        rw [hany]
        exact exclusionSet_any _ l
      · have hfalse : ∀ l', Rearranged l l' → excludes star verdict l' = false := by
          intro l' h
          rw [excludes_eq_first fun x hx => hstar x ((h x).mpr hx), Bool.eq_false_iff]
          intro hfirst
          obtain ⟨x, hx, hv⟩ := exists_of_first hfirst
          exact hout ⟨x, (h x).mpr hx, hv⟩
        refine ⟨fun l' h => ?_, fun l' h hl => ?_⟩
        · rw [hfalse l' h, hfalse l (.refl l)]
        · rw [hfalse l (.refl l)] at hl
          cases hl
    · simp only [not_forall, Bool.not_eq_false] at hstar
      obtain ⟨x, hx, hstar⟩ := hstar
      refine ⟨fun l' h => ?_, fun l' h _ => excludes_of_star (h.mem hx) hstar⟩
      rw [excludes_of_star hx hstar, excludes_of_star ((h x).mp hx) hstar]

end Exclusion

section Filters
variable {out into : List α → Bool} {p : α → Bool} {scope : Option (List α)} {xscope : List α}

/-- A filter whose scope may be missing. -/
def accepts (out into : List α → Bool) (scope : Option (List α)) (xscope : List α) : Bool :=
  !out xscope && scope.all into

/-- A filter does not depend on the order and the number of its entries, an entry to keep out lets
nothing in and an entry to take in keeps nothing out. -/
structure IsSet (accept : Option (List α) → List α → Bool) (scope : Option (List α))
    (xscope : List α) : Prop where
  rearrangedXscope : ∀ l, Rearranged xscope l → accept scope l = accept scope xscope
  rearrangedScope : ∀ s l, scope = some s → Rearranged s l →
    accept (some l) xscope = accept scope xscope
  addedXscope : ∀ l, Added xscope l → accept scope l → accept scope xscope
  addedScope : ∀ s l, scope = some s → s ≠ [] → Added s l → accept scope xscope →
    accept (some l) xscope

/-- Only the exclusion list of a filter that takes the value in matters. -/
theorem isSet_iff (hinto : ∀ l, into l = l.any p) : IsSet (accepts out into) scope xscope ↔
    (scope.all into → ExclusionSet out xscope) := by
  constructor
  · intro h hscope
    have hreduce : ∀ l, accepts out into scope l = !out l := by
      intro l
      rw [accepts, hscope, Bool.and_true]
    refine ⟨fun l hl => ?_, fun l hl hout => ?_⟩
    · have heq := h.rearrangedXscope l hl
      rwa [hreduce, hreduce, Bool.not_inj_iff] at heq
    · have himp := h.addedXscope l hl
      rw [hreduce, hreduce, hout] at himp
      by_contra hnot
      rw [Bool.not_eq_true] at hnot
      rw [hnot] at himp
      exact absurd (himp rfl) Bool.false_ne_true
  · intro hset
    refine ⟨fun l hl => ?_, fun s l hs hl => ?_, fun l hl hacc => ?_, fun s l hs _ hl hacc => ?_⟩
    · by_cases hscope : scope.all into = true
      · rw [accepts, accepts, (hset hscope).1 l hl]
      · rw [Bool.not_eq_true] at hscope
        rw [accepts, accepts, hscope, Bool.and_false, Bool.and_false]
    · subst hs
      rw [accepts, accepts, Option.all_some, Option.all_some, hinto, hinto, hl.any_eq]
    · rw [accepts, Bool.and_eq_true] at hacc ⊢
      refine ⟨?_, hacc.2⟩
      have hmono := (hset hacc.2).2 l hl
      by_contra hnot
      rw [Bool.not_eq_true, Bool.not_eq_false'] at hnot
      rw [hmono hnot] at hacc
      exact Bool.false_ne_true hacc.1
    · subst hs
      rw [accepts, Bool.and_eq_true, Option.all_some, hinto] at hacc ⊢
      exact ⟨hacc.1, hl.any hacc.2⟩

theorem isSet_any {q : α → Bool} (hout : ∀ l, out l = l.any q) (hinto : ∀ l, into l = l.any p) :
    IsSet (accepts out into) scope xscope := by
  rw [isSet_iff hinto, funext hout]
  exact fun _ => exclusionSet_any q xscope

theorem isSet_excludes {star : α → Bool} {verdict : α → Option Bool}
    (hout : ∀ l, out l = excludes star verdict l) (hinto : ∀ l, into l = l.any p) :
    IsSet (accepts out into) scope xscope ↔
      ¬ ((∀ s ∈ scope, ∃ x ∈ s, p x = true) ∧ (∀ x ∈ xscope, star x = false) ∧
        (∃ x ∈ xscope, verdict x = some true) ∧ ∃ x, star x = false ∧ verdict x = some false) := by
  have hscope : scope.all into = true ↔ ∀ s ∈ scope, ∃ x ∈ s, p x = true := by
    cases scope with
    | none => simp
    | some s => simp [hinto]
  rw [isSet_iff hinto, funext hout, hscope, not_and]
  exact imp_congr_right fun _ => exclusionSet_iff

end Filters

end FilterSets
