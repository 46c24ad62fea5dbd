import GridEngine.CullHashChains

/-!
# Tables of a list

The table of a list represents, for each key, the elements with that key in some order, and in the
order of the list after it was built from the list. The loops over the elements with a key visit
just these, with a table or without one.
-/

namespace GridEngine
open LinkedNodes

variable {κ : Type} [DecidableEq κ] {field field' : ElemPtr → Option κ}
variable {elems elems' : List ElemPtr} {ep : ElemPtr} {key : κ}

/-- The elements with a key. -/
def withKey (field : ElemPtr → Option κ) (elems : List ElemPtr) (key : κ) : List ElemPtr :=
  elems.filter fun ep => field ep = some key

/-- No two elements have the same key. -/
def DistinctKeys (field : ElemPtr → Option κ) (elems : List ElemPtr) : Prop :=
  ∀ ep ∈ elems, ∀ ep' ∈ elems, field ep ≠ none → field ep = field ep' → ep = ep'

theorem mem_withKey : ep ∈ withKey field elems key ↔ ep ∈ elems ∧ field ep = some key := by
  rw [withKey, List.mem_filter, decide_eq_true_eq]

theorem length_withKey_le : (withKey field elems key).length ≤ elems.length :=
  List.length_filter_le _ _

theorem withKey_append (l r : List ElemPtr) :
    withKey field (l ++ r) key = withKey field l key ++ withKey field r key :=
  List.filter_append l r

theorem withKey_singleton : withKey field [ep] key = if field ep = some key then [ep] else [] := by
  rw [withKey, List.filter_cons]
  simp

theorem withKey_congr (h : ∀ ep ∈ elems, field' ep = field ep) :
    withKey field' elems key = withKey field elems key := by
  rw [withKey, withKey]
  exact List.filter_congr fun ep hep => by rw [h ep hep]

/-- The entries of the other keys are those of the elements without `ep`. -/
theorem update_entries {entries : κ → List ElemPtr} {l : List ElemPtr}
    (hentries : ∀ k, (entries k).Perm (withKey field elems k)) (hkey : field ep = some key)
    (hl : l.Perm (withKey field elems' key))
    (helems : ∀ k, k ≠ key → withKey field elems' k = withKey field elems k) (k : κ) :
    (Function.update entries key l k).Perm (withKey field elems' k) := by
  by_cases hk : k = key
  · subst hk
    rw [Function.update_self]
    exact hl
  · rw [Function.update_of_ne hk, helems k hk]
    exact hentries k

variable [HashFunc κ] {unique : Bool} {ht ht' : Option (CullHtable κ)}

/-- What a table for unique keys relies on. -/
def UniqueKeys (field : ElemPtr → Option κ) (ht : Option (CullHtable κ)) (elems : List ElemPtr) :
    Prop :=
  ∀ t ∈ ht, t.IsUnique → DistinctKeys field elems

/-- The table holds the elements of the list. -/
structure HashOk (field : ElemPtr → Option κ) (unique : Bool) (ht : Option (CullHtable κ))
    (elems : List ElemPtr) : Prop where
  nodup : elems.Nodup
  kind : ∀ t ∈ ht, (t.IsUnique ↔ unique = true)
  table : ∀ t ∈ ht, ∃ entries, t.Represents entries ∧
    ∀ k, (entries k).Perm (withKey field elems k)

/-- The table holds the elements of each key in the order of the list. -/
def InOrder (field : ElemPtr → Option κ) (ht : Option (CullHtable κ)) (elems : List ElemPtr) :
    Prop :=
  ∀ t ∈ ht, ∃ entries, t.Represents entries ∧ ∀ k, entries k = withKey field elems k

theorem HashOk.perm (h : HashOk field unique ht elems) (hperm : elems'.Perm elems) :
    HashOk field unique ht elems' := by
  refine ⟨hperm.nodup_iff.mpr h.nodup, h.kind, fun t ht => ?_⟩
  obtain ⟨entries, hrep, hentries⟩ := h.table t ht
  exact ⟨entries, hrep, fun k => (hentries k).trans (hperm.filter _).symm⟩

theorem HashOk.congr (h : HashOk field unique ht elems)
    (hfield : ∀ ep ∈ elems, field' ep = field ep) : HashOk field' unique ht elems := by
  refine ⟨h.nodup, h.kind, fun t ht => ?_⟩
  obtain ⟨entries, hrep, hentries⟩ := h.table t ht
  exact ⟨entries, hrep, fun k => by rw [withKey_congr hfield]; exact hentries k⟩

theorem HashOk.of_none (hnodup : elems.Nodup) :
    HashOk field unique (none : Option (CullHtable κ)) elems :=
  ⟨hnodup, nofun, nofun⟩

section Insert

theorem cullHashInsert_none (t : CullHtable κ) : cullHashInsert ep none t = some t := by
  cases t <;> rfl

theorem cullHashRemove_none (t : CullHtable κ) : cullHashRemove ep none t = some t := by
  cases t <;> rfl

theorem cullHashInsert_unique {t : CullHtable κ} (h : t.IsUnique) (ep : ElemPtr)
    (key : Option κ) : ∃ t', cullHashInsert ep key t = some t' ∧ t'.IsUnique := by
  cases t with
  | unique ht => exact ⟨_, rfl, trivial⟩
  | nonUnique t => exact h.elim

/-- A new element is hashed, and last among the elements with its key. -/
theorem HashOk.hashElem (h : HashOk field unique ht elems) (hnew : ep ∉ elems) :
    ∃ ht', cullHashElem field ep ht = some ht' ∧ (∀ t ∈ ht', (t.IsUnique ↔ unique = true)) ∧
      (UniqueKeys field ht' (elems ++ [ep]) → HashOk field unique ht' (elems ++ [ep]) ∧
        (InOrder field ht elems → InOrder field ht' (elems ++ [ep]))) := by
  have hnodup : (elems ++ [ep]).Nodup := by
    rw [List.nodup_append]
    refine ⟨h.nodup, List.nodup_singleton ep, fun e he e' he' heq => ?_⟩
    exact hnew (List.mem_singleton.mp he' ▸ heq ▸ he)
  have hother : ∀ k, field ep ≠ some k →
      withKey field (elems ++ [ep]) k = withKey field elems k := by
    intro k hk
    rw [withKey_append, withKey_singleton, if_neg hk, List.append_nil]
  cases ht with
  | none => exact ⟨none, rfl, nofun, fun _ => ⟨.of_none hnodup, fun _ => nofun⟩⟩
  | some t =>
      obtain ⟨entries, hrep, hentries⟩ := h.table t rfl
      have hkind := h.kind t rfl
      have hnot : ∀ k, ep ∉ entries k := fun k hk =>
        hnew (mem_withKey.mp ((hentries k).mem_iff.mp hk)).1
      rw [cullHashElem]
      cases hkey : field ep with
      | none =>
          rw [cullHashInsert_none, Option.map_some]
          refine ⟨some t, rfl, fun t' ht' => by cases ht'; exact hkind, fun _ =>
            ⟨⟨hnodup, fun t' ht' => by cases ht'; exact hkind, fun t' ht' => ?_⟩,
              fun horder t' ht' => ?_⟩⟩
          · cases ht'
            refine ⟨entries, hrep, fun k => ?_⟩
            rw [hother k (by rw [hkey]; nofun)]
            exact hentries k
          · cases ht'
            obtain ⟨entries', hrep', heq⟩ := horder t rfl
            refine ⟨entries', hrep', fun k => ?_⟩
            rw [heq k, hother k (by rw [hkey]; nofun)]
      | some key =>
          have hself : withKey field (elems ++ [ep]) key = withKey field elems key ++ [ep] := by
            rw [withKey_append, withKey_singleton, if_pos hkey]
          have hnext : ∀ k, k ≠ key → withKey field (elems ++ [ep]) k = withKey field elems k :=
            fun k hk => hother k (by rw [hkey]; exact fun heq => hk (Option.some.inj heq).symm)
          by_cases hfree : t.IsUnique → DistinctKeys field (elems ++ [ep])
          · have hempty : t.IsUnique → withKey field elems key = [] := by
              intro hunique
              rw [List.eq_nil_iff_forall_not_mem]
              intro e he
              obtain ⟨hmem, hekey⟩ := mem_withKey.mp he
              have heq := hfree hunique ep (by simp) e (by simp [hmem]) (by simp [hkey])
                (by rw [hkey, hekey])
              exact hnew (heq ▸ hmem)
            obtain ⟨t', ht', hsame, hrep'⟩ := hrep.insert hnot fun hunique =>
              List.perm_nil.mp (hempty hunique ▸ hentries key)
            refine ⟨some t', by rw [ht', Option.map_some], fun t'' h'' => ?_, fun _ =>
              ⟨⟨hnodup, fun t'' h'' => ?_, fun t'' h'' => ?_⟩, fun horder t'' h'' => ?_⟩⟩
            · cases h''
              exact hsame.trans hkind
            · cases h''
              exact hsame.trans hkind
            · cases h''
              refine ⟨_, hrep', update_entries hentries hkey ?_ hnext⟩
              rw [hself]
              exact (hentries key).append_right [ep]
            · cases h''
              obtain ⟨entries', hrep₁, heq⟩ := horder t rfl
              obtain ⟨t₁, ht₁, -, hrep₂⟩ := @CullHtable.Represents.insert _ _ _ ep key _ _ hrep₁
                (fun k hk => hnew (mem_withKey.mp (heq k ▸ hk)).1)
                (fun hunique => by rw [heq, hempty hunique])
              rw [ht'] at ht₁
              cases ht₁
              refine ⟨_, hrep₂, fun k => ?_⟩
              by_cases hk : k = key
              · subst hk
                rw [Function.update_self, hself, heq]
              · rw [Function.update_of_ne hk, hnext k hk, heq]
          · rw [Classical.not_imp] at hfree
            obtain ⟨t', ht', hunique⟩ := cullHashInsert_unique hfree.1 ep (some key)
            refine ⟨some t', by rw [ht', Option.map_some], fun t'' h'' => ?_, fun hkeys => ?_⟩
            · cases h''
              exact iff_of_true hunique (hkind.mp hfree.1)
            · exact absurd (hkeys t' rfl hunique) hfree.2

theorem HashOk.unhashElem (h : HashOk field unique ht elems) (hin : ep ∈ elems) :
    ∃ ht', cullUnhashElem field ep ht = some ht' ∧ HashOk field unique ht' (elems.erase ep) := by
  have hnodup := h.nodup.erase ep
  have hother : ∀ k, field ep ≠ some k →
      withKey field (elems.erase ep) k = withKey field elems k := by
    intro k hk
    rw [withKey, withKey, h.nodup.erase_eq_filter, List.filter_filter]
    refine List.filter_congr fun e _ => ?_
    by_cases heq : e = ep
    · subst heq
      simp [hk]
    · simp [heq]
  cases ht with
  | none => exact ⟨none, rfl, .of_none hnodup⟩
  | some t =>
      obtain ⟨entries, hrep, hentries⟩ := h.table t rfl
      have hkind := h.kind t rfl
      rw [cullUnhashElem]
      cases hkey : field ep with
      | none =>
          rw [cullHashRemove_none, Option.map_some]
          refine ⟨some t, rfl, hnodup, fun t' ht' => by cases ht'; exact hkind, fun t' ht' => ?_⟩
          cases ht'
          refine ⟨entries, hrep, fun k => ?_⟩
          rw [hother k (by rw [hkey]; nofun)]
          exact hentries k
      | some key =>
          have hmem : ep ∈ entries key :=
            (hentries key).mem_iff.mpr (mem_withKey.mpr ⟨hin, hkey⟩)
          obtain ⟨t', ht', hsame, hrep'⟩ := hrep.remove hmem
          refine ⟨some t', by rw [ht', Option.map_some], hnodup, fun t'' h'' => ?_,
            fun t'' h'' => ?_⟩
          · cases h''
            exact hsame.trans hkind
          · cases h''
            refine ⟨_, hrep', update_entries hentries hkey ?_ fun k hk => hother k ?_⟩
            · refine ((hentries key).erase ep).trans (.of_eq ?_)
              rw [withKey, withKey, h.nodup.erase_eq_filter, (h.nodup.filter _).erase_eq_filter,
                List.filter_filter, List.filter_filter]
              exact List.filter_congr fun e _ => Bool.and_comm _ _
            · rw [hkey]
              exact fun heq => hk (Option.some.inj heq).symm

theorem foldlM_unique (l : List ElemPtr) (hunique : ∀ t ∈ ht, t.IsUnique) :
    ∃ ht', l.foldlM (fun ht ep => cullHashElem field ep ht) ht = some ht' ∧
      (∀ t ∈ ht', t.IsUnique) ∧ ht'.isSome = ht.isSome := by
  induction l generalizing ht with
  | nil => exact ⟨ht, rfl, hunique, rfl⟩
  | cons ep l ih =>
      rw [List.foldlM_cons]
      cases ht with
      | none => exact ih nofun
      | some t =>
          obtain ⟨t', ht', hunique'⟩ := cullHashInsert_unique (hunique t rfl) ep (field ep)
          obtain ⟨ht'', hfold, hunique'', hsome⟩ := @ih (some t')
            (fun t ht => by cases ht; exact hunique')
          refine ⟨ht'', ?_, hunique'', hsome⟩
          rw [cullHashElem, ht']
          exact hfold

theorem foldlM_hashElem (done rest : List ElemPtr) (hnodup : (done ++ rest).Nodup)
    (h : HashOk field unique ht done) (horder : InOrder field ht done) :
    ∃ ht', rest.foldlM (fun ht ep => cullHashElem field ep ht) ht = some ht' ∧
      (∀ t ∈ ht', (t.IsUnique ↔ unique = true)) ∧
      (UniqueKeys field ht' (done ++ rest) →
        HashOk field unique ht' (done ++ rest) ∧ InOrder field ht' (done ++ rest)) := by
  by_cases hfree : unique = true ∧ ¬ DistinctKeys field (done ++ rest)
  · obtain ⟨ht', hfold, hunique, -⟩ := @foldlM_unique _ _ field _ ht rest
      fun t ht => (h.kind t ht).mpr hfree.1
    refine ⟨ht', hfold, fun t ht => iff_of_true (hunique t ht) hfree.1, fun hkeys => ?_⟩
    cases ht' with
    | none => exact ⟨.of_none hnodup, nofun⟩
    | some t => exact absurd (hkeys t rfl (hunique t rfl)) hfree.2
  induction rest generalizing ht done with
  | nil => exact ⟨ht, rfl, h.kind, fun _ => by rw [List.append_nil]; exact ⟨h, horder⟩⟩
  | cons ep rest ih =>
      have hassoc : done ++ ep :: rest = (done ++ [ep]) ++ rest := by simp
      rw [hassoc] at hnodup hfree ⊢
      have hnew : ep ∉ done := by
        have hpre := (List.nodup_append.mp hnodup).1
        rw [List.nodup_append] at hpre
        exact fun hmem => hpre.2.2 ep hmem ep (by simp) rfl
      obtain ⟨ht₁, hhash, hkind, hok⟩ := h.hashElem hnew
      have hkeys : UniqueKeys field ht₁ (done ++ [ep]) := by
        intro t ht hunique
        rw [not_and, not_not] at hfree
        have hdistinct := hfree ((hkind t ht).mp hunique)
        exact fun e he e' he' =>
          hdistinct e (List.mem_append_left _ he) e' (List.mem_append_left _ he')
      obtain ⟨hok₁, horder₁⟩ := hok hkeys
      obtain ⟨ht', hfold, hrest⟩ := ih (done ++ [ep]) hnodup hok₁ (horder₁ horder) hfree
      refine ⟨ht', ?_, hrest⟩
      rw [List.foldlM_cons, hhash]
      exact hfold

/-- Hashing the elements again. -/
theorem foldlM_rehash (l : List ElemPtr) (hl : ∀ ep ∈ l, ep ∈ elems)
    (h : HashOk field unique ht elems) (horder : InOrder field ht elems) :
    ∃ ht', l.foldlM (fun ht ep => cullHashElem field ep ht) ht = some ht' ∧
      HashOk field unique ht' elems ∧ InOrder field ht' elems := by
  induction l generalizing ht with
  | nil => exact ⟨ht, rfl, h, horder⟩
  | cons ep l ih =>
      have hrest := fun e he => hl e (List.mem_cons_of_mem ep he)
      rw [List.foldlM_cons]
      cases ht with
      | none => exact ih hrest h horder
      | some t =>
          obtain ⟨entries, hrep, heq⟩ := horder t rfl
          have hkind := h.kind t rfl
          suffices hinsert : ∃ t', cullHashInsert ep (field ep) t = some t' ∧
              (t'.IsUnique ↔ t.IsUnique) ∧ t'.Represents entries by
            obtain ⟨t', ht', hsame, hrep'⟩ := hinsert
            obtain ⟨ht'', hfold, hok⟩ := @ih (some t') hrest
              ⟨h.nodup, fun t ht => by cases ht; exact hsame.trans hkind,
                fun t ht => by cases ht; exact ⟨entries, hrep', fun k => .of_eq (heq k)⟩⟩
              (fun t ht => by cases ht; exact ⟨entries, hrep', heq⟩)
            exact ⟨ht'', by rw [cullHashElem, ht']; exact hfold, hok⟩
          cases hkey : field ep with
          | none => exact ⟨t, cullHashInsert_none t, Iff.rfl, hrep⟩
          | some key =>
              exact hrep.reinsert (heq key ▸ mem_withKey.mpr ⟨hl ep List.mem_cons_self, hkey⟩)

theorem HashOk.create (unique : Bool) (size : ℕ) :
    HashOk field unique (some (cullHashCreate unique size)) [] ∧
      InOrder field (some (cullHashCreate unique size)) [] := by
  refine ⟨⟨List.nodup_nil, fun t ht => ?_, fun t ht => ?_⟩, fun t ht => ?_⟩
  · cases ht
    exact isUnique_create
  · cases ht
    exact ⟨_, .create unique size, fun k => .refl _⟩
  · cases ht
    exact ⟨_, .create unique size, fun k => rfl⟩

end Insert

section Visit
variable {lp : HashedList κ} {fuel : ℕ}

theorem lGetElemNext_hashed {t : CullHtable κ} (hht : lp.ht = some t) {iterator : HashIterator}
    (h : iterator ≠ .null) : lGetElemNext field lp key iterator = cullHashNext iterator t := by
  unfold lGetElemNext
  rw [if_neg h, hht]

theorem lGetElemNext_linear (hht : lp.ht = none) (ep : ElemPtr) :
    lGetElemNext field lp key (.elem ep) =
      some (seekElem field key (lp.elems.dropWhile (· ≠ ep)).tail) := by
  unfold lGetElemNext
  rw [if_neg nofun, hht]

theorem lGetElemNext_null : lGetElemNext field lp key .null = some (none, .null) := by
  unfold lGetElemNext
  rw [if_pos rfl]

theorem visitedFrom_seekElem (done rest : List ElemPtr) (hht : lp.ht = none)
    (helems : lp.elems = done ++ rest) (hnodup : lp.elems.Nodup) (hfuel : rest.length ≤ fuel) :
    visitedFrom field lp key fuel (seekElem field key rest) = some (withKey field rest key) := by
  induction fuel generalizing done rest with
  | zero =>
      rw [List.length_eq_zero_iff.mp (Nat.le_zero.mp hfuel)]
      rfl
  | succ fuel ih =>
      rw [seekElem]
      cases hfind : rest.find? fun ep => field ep = some key with
      | none =>
          rw [List.find?_eq_none] at hfind
          rw [withKey, List.filter_eq_nil_iff.mpr hfind]
          rfl
      | some ep =>
          obtain ⟨hkey, l, r, rfl, hskip⟩ := List.find?_eq_some_iff_append.mp hfind
          have hfilter : withKey field (l ++ ep :: r) key = ep :: withKey field r key := by
            rw [withKey_append, withKey, List.filter_eq_nil_iff.mpr (by simpa using hskip),
              List.nil_append, withKey, List.filter_cons, if_pos hkey]
            rfl
          have hdone : ∀ e ∈ done ++ l, e ≠ ep := by
            rw [helems, ← List.append_assoc] at hnodup
            rw [List.nodup_append] at hnodup
            exact fun e he => hnodup.2.2 e he ep List.mem_cons_self
          have hdrop : (lp.elems.dropWhile (· ≠ ep)).tail = r := by
            rw [helems, ← List.append_assoc, List.dropWhile_append_of_pos (by simpa using hdone)]
            simp
          have hrest := ih ((done ++ l) ++ [ep]) r (by simp [helems])
            (by simp at hfuel; omega)
          rw [visitedFrom, lGetElemNext_linear hht, hdrop, Option.bind_eq_bind, Option.bind_some,
            hrest, hfilter]
          rfl

/-- The hashed loop visits the chain of the key. -/
theorem visitedFrom_chain {t : NonUniqueHtable κ} {chain : κ → List (Ptr × ElemPtr)}
    (h : t.Chains chain) (hht : lp.ht = some (.nonUnique t)) (l r : List (Ptr × ElemPtr))
    (p : Ptr) (ep : ElemPtr) (hchain : chain key = l ++ (p, ep) :: r)
    (hfuel : r.length < fuel) :
    visitedFrom field lp key fuel (some ep, .node p) = some (ep :: r.map Prod.snd) := by
  induction fuel generalizing l r p ep with
  | zero => exact absurd hfuel (Nat.not_lt_zero _)
  | succ fuel ih =>
      have hne : HashIterator.node p ≠ .null := nofun
      rw [visitedFrom, lGetElemNext_hashed hht hne, h.next hchain, Option.bind_eq_bind,
        Option.bind_some]
      cases r with
      | nil =>
          cases fuel <;> rfl
      | cons e r =>
          obtain ⟨q, b⟩ := e
          simp only
          rw [ih (l ++ [(p, ep)]) r q b (by rw [hchain]; simp) (by simpa using hfuel)]
          rfl

theorem visitedElems_entries {t : CullHtable κ} {entries : κ → List ElemPtr}
    (h : t.Represents entries) (hht : lp.ht = some t) (hfuel : (entries key).length ≤ fuel) :
    visitedElems field lp key fuel = some (entries key) := by
  rw [visitedElems, lGetElemFirst, hht]
  simp only
  cases t with
  | unique ht =>
      rw [h key] at hfuel ⊢
      rw [cullHashFirst, Option.bind_eq_bind, Option.bind_some]
      cases hlookup : ht.sgeHtableLookup key with
      | none => cases fuel <;> rfl
      | some ep =>
          rw [hlookup] at hfuel
          obtain ⟨n, rfl⟩ : ∃ n, fuel = n + 1 := ⟨fuel - 1, by simp at hfuel; omega⟩
          rw [visitedFrom, lGetElemNext_null]
          cases n <;> rfl
  | nonUnique t =>
      obtain ⟨chain, hchains, hentries⟩ := h
      rw [hentries] at hfuel ⊢
      rw [hchains.first, Option.bind_eq_bind, Option.bind_some]
      cases hchain : chain key with
      | nil => cases fuel <;> rfl
      | cons e l =>
          obtain ⟨p, ep⟩ := e
          rw [hchain] at hfuel
          rw [List.length_map, List.length_cons] at hfuel
          exact visitedFrom_chain hchains hht [] l p ep hchain hfuel

theorem visitedElems_linear (hnodup : lp.elems.Nodup) (hfuel : lp.elems.length ≤ fuel) :
    visitedElems field { lp with ht := none } key fuel = some (withKey field lp.elems key) := by
  rw [visitedElems, lGetElemFirst]
  exact visitedFrom_seekElem [] lp.elems rfl rfl hnodup hfuel

theorem HashOk.visitedElems (h : HashOk field unique lp.ht lp.elems)
    (hfuel : lp.elems.length ≤ fuel) :
    ∃ visited, GridEngine.visitedElems field lp key fuel = some visited ∧
      visited.Perm (withKey field lp.elems key) ∧
      (InOrder field lp.ht lp.elems → visited = withKey field lp.elems key) := by
  cases hht : lp.ht with
  | none =>
      refine ⟨withKey field lp.elems key, ?_, .refl _, fun _ => rfl⟩
      have hlinear := @visitedElems_linear _ _ field key _ lp fuel h.nodup hfuel
      rw [← hht] at hlinear
      exact hlinear
  | some t =>
      obtain ⟨entries, hrep, hentries⟩ := h.table t hht
      have hlen : (entries key).length ≤ fuel := by
        rw [(hentries key).length_eq]
        exact length_withKey_le.trans hfuel
      have hvisit := @visitedElems_entries _ _ field key _ lp fuel t entries hrep hht hlen
      refine ⟨entries key, hvisit, hentries key, fun horder => ?_⟩
      obtain ⟨entries', hrep', heq⟩ := horder t rfl
      have hvisit' := @visitedElems_entries _ _ field key _ lp fuel t entries' hrep' hht
        (by rw [heq]; exact length_withKey_le.trans hfuel)
      rw [hvisit] at hvisit'
      exact (Option.some.inj hvisit').trans (heq key)

end Visit

end GridEngine
