import GridEngine.CullHashTables
import GridEngine.Machine

/-!
# Runs of list operations

An element is bound to the list that holds it, and the table of every list holds the elements of
that list; both survive every operation. So after any run a loop over the elements with a key
visits them once each, table or not, as long as the keys of a table for unique keys are distinct.
-/

namespace GridEngine
open Machine

variable {κ : Type} [HashFunc κ] [DecidableEq κ]

namespace CullLists

structure Ok (s : CullLists κ) : Prop where
  list : ∀ {list lp}, s.lists list = some lp → HashOk s.field lp.unique lp.ht lp.elems
  bound : ∀ ep list, s.status ep = .bound list ↔ ∃ lp, s.lists list = some lp ∧ ep ∈ lp.elems

/-- Tables for unique keys hold no key twice. -/
def KeysDistinct (s : CullLists κ) : Prop :=
  ∀ list lp, s.lists list = some lp → UniqueKeys s.field lp.ht lp.elems

/-- The operation is called for lists and elements it is made for. -/
def Allowed (s : CullLists κ) : CullListOp κ → Prop
  | .createList list _ _ _ => s.lists list = none
  | .insertElem list ep new => s.status new = .free ∧ ∃ lp, s.lists list = some lp ∧
      ∀ e ∈ ep, e ∈ lp.elems
  | .appendElem list ep => s.status ep = .free ∧ (s.lists list).isSome
  | .removeElem list ep | .dechainElem list ep | .dechainList list _ ep =>
      s.status ep = .bound list
  | .sortList list pointer => ∃ lp, s.lists list = some lp ∧ pointer.Perm lp.elems
  | .setPos ep _ => s.status ep ≠ .freed

variable {s s' : CullLists κ} {list : ℕ} {lp : HashedList κ} {ep : ElemPtr}

theorem Ok.mem_iff (h : s.Ok) (hlp : s.lists list = some lp) :
    ep ∈ lp.elems ↔ s.status ep = .bound list := by
  rw [h.bound]
  constructor
  · exact fun hmem => ⟨lp, hlp, hmem⟩
  · rintro ⟨lp', hlp', hmem⟩
    rw [hlp] at hlp'
    cases hlp'
    exact hmem

theorem Ok.update (h : s.Ok) (lp : HashedList κ) {field : ElemPtr → Option κ} {status : ElemPtr → ElemStatus}
    (hlist : HashOk field lp.unique lp.ht lp.elems)
    (hin : ∀ ep, status ep = .bound list ↔ ep ∈ lp.elems)
    (hout : ∀ list' ≠ list, ∀ ep, status ep = .bound list' ↔ s.status ep = .bound list')
    (hfield : ∀ ep ∉ lp.elems, field ep = s.field ep) :
    Ok ⟨Function.update s.lists list (some lp), field, status⟩ := by
  refine ⟨fun {list' lp'} hlp' => ?_, fun ep list' => ?_⟩
  · change Function.update s.lists list (some lp) list' = some lp' at hlp'
    by_cases heq : list' = list
    · subst heq
      rw [Function.update_self] at hlp'
      cases hlp'
      exact hlist
    · rw [Function.update_of_ne heq] at hlp'
      refine (h.list hlp').congr fun ep hep => hfield ep fun hmem => ?_
      have hbound := (hout list' heq ep).mpr ((h.mem_iff hlp').mp hep)
      rw [(hin ep).mpr hmem] at hbound
      cases hbound
      exact heq rfl
  · change _ ↔ ∃ lp', Function.update s.lists list (some lp) list' = some lp' ∧ ep ∈ lp'.elems
    by_cases heq : list' = list
    · subst heq
      rw [hin ep, Function.update_self]
      simp
    · rw [hout list' heq ep, h.bound, Function.update_of_ne heq]

theorem Ok.setTable (h : s.Ok) (hlp : s.lists list = some lp) {ht : Option (CullHtable κ)}
    (hlist : HashOk s.field lp.unique ht lp.elems) :
    (s.setList list { lp with ht := ht }).Ok :=
  h.update _ hlist (fun _ => (h.mem_iff hlp).symm) (fun _ _ _ => Iff.rfl) fun _ _ => rfl

theorem Ok.bindElem (h : s.Ok) (hlp : s.lists list = some lp) (hfree : s.status ep = .free)
    {elems : List ElemPtr} (helems : elems.Perm (lp.elems ++ [ep])) :
    ∃ s', s.bindElem list lp elems ep = some s' ∧ (s'.KeysDistinct → s'.Ok) := by
  have hnew : ep ∉ lp.elems := by
    rw [h.mem_iff hlp, hfree]
    nofun
  obtain ⟨ht', hhash, -, hok⟩ := (h.list hlp).hashElem hnew
  refine ⟨_, by rw [CullLists.bindElem, if_pos hfree, hhash]; rfl, fun hkeys => ?_⟩
  have hkeys' := hkeys list _ (Function.update_self _ _ _)
  have hdistinct : UniqueKeys s.field ht' (lp.elems ++ [ep]) := fun t ht hunique e he e' he' =>
    hkeys' t ht hunique e (helems.mem_iff.mpr he) e' (helems.mem_iff.mpr he')
  refine h.update _ ((hok hdistinct).1.perm helems) (fun e => ?_) (fun list' hne e => ?_)
    fun _ _ => rfl
  · rw [helems.mem_iff, List.mem_append, List.mem_singleton, h.mem_iff hlp]
    by_cases he : e = ep
    · rw [he, Function.update_self]
      simp
    · rw [Function.update_of_ne he]
      simp [he]
  · by_cases he : e = ep
    · rw [he, Function.update_self, hfree]
      simp [Ne.symm hne]
    · rw [Function.update_of_ne he]

theorem insertAfter_perm {e : ElemPtr} {l : List ElemPtr} (he : e ∈ l) (new : ElemPtr) :
    ∃ l', insertAfter e new l = some l' ∧ l'.Perm (l ++ [new]) := by
  induction l with
  | nil => exact absurd he List.not_mem_nil
  | cons x l ih =>
      rw [insertAfter]
      by_cases hx : x = e
      · rw [if_pos hx]
        refine ⟨_, rfl, ?_⟩
        exact (List.perm_append_singleton new l).symm.cons x
      · rw [if_neg hx]
        obtain ⟨l', hl', hperm⟩ := ih (List.mem_of_ne_of_mem (Ne.symm hx) he)
        exact ⟨_, by rw [hl']; rfl, hperm.cons x⟩

theorem Ok.unbindElem (h : s.Ok) (hbound : s.status ep = .bound list) (status : ElemStatus)
    (hstatus : ∀ list, status ≠ .bound list) :
    ∃ s', s.unbindElem list ep status = some s' ∧ s'.Ok := by
  obtain ⟨lp, hlp, hmem⟩ := (h.bound ep list).mp hbound
  obtain ⟨ht', hhash, hok⟩ := (h.list hlp).unhashElem hmem
  refine ⟨_, by rw [CullLists.unbindElem, hlp, Option.bind_eq_bind, Option.bind_some,
    if_pos hbound, hhash]; rfl, ?_⟩
  refine h.update _ hok (fun e => ?_) (fun list' hne e => ?_) fun _ _ => rfl
  · rw [(h.list hlp).nodup.mem_erase_iff, h.mem_iff hlp]
    by_cases he : e = ep
    · rw [he, Function.update_self]
      simp [hstatus]
    · rw [Function.update_of_ne he]
      simp [he]
  · by_cases he : e = ep
    · rw [he, Function.update_self, hbound]
      simp [hstatus, Ne.symm hne]
    · rw [Function.update_of_ne he]

theorem Ok.lSetPos (h : s.Ok) (halive : s.status ep ≠ .freed) (value : Option κ) :
    ∃ s', s.lSetPos ep value = some s' ∧ (s'.KeysDistinct → s'.Ok) := by
  rw [CullLists.lSetPos]
  cases hstatus : s.status ep with
  | freed => exact absurd hstatus halive
  | free =>
      refine ⟨_, rfl, fun _ => ⟨fun {list lp} hlp => ?_, h.bound⟩⟩
      refine (h.list hlp).congr fun e he => Function.update_of_ne ?_ _ _
      rintro rfl
      rw [h.mem_iff hlp, hstatus] at he
      cases he
  | bound list =>
      by_cases hsame : value = s.field ep
      · exact ⟨s, if_pos hsame, fun _ => h⟩
      obtain ⟨lp, hlp, hmem⟩ := (h.bound ep list).mp hstatus
      obtain ⟨ht₁, hunhash, hok₁⟩ := (h.list hlp).unhashElem hmem
      have hnot : ep ∉ lp.elems.erase ep := (h.list hlp).nodup.not_mem_erase
      have hok₂ : HashOk (Function.update s.field ep value) lp.unique ht₁ (lp.elems.erase ep) := by
        refine hok₁.congr fun e he => Function.update_of_ne ?_ _ _
        rintro rfl
        exact hnot he
      obtain ⟨ht₂, hhash, -, hok₃⟩ := hok₂.hashElem hnot
      have hperm : lp.elems.Perm (lp.elems.erase ep ++ [ep]) :=
        (List.perm_cons_erase hmem).trans (List.perm_append_singleton ep _).symm
      simp only [if_neg hsame, hlp, hunhash, hhash, Option.bind_eq_bind, Option.bind_some]
      refine ⟨_, rfl, fun hkeys => ?_⟩
      have hkeys' := hkeys list _ (Function.update_self _ _ _)
      have hdistinct : UniqueKeys (Function.update s.field ep value) ht₂
          (lp.elems.erase ep ++ [ep]) := fun t ht hunique e he e' he' =>
        hkeys' t ht hunique e (hperm.mem_iff.mpr he) e' (hperm.mem_iff.mpr he')
      refine h.update _ ((hok₃ hdistinct).1.perm hperm) (fun e => (h.mem_iff hlp).symm)
        (fun _ _ _ => Iff.rfl) fun e he => Function.update_of_ne ?_ _ _
      rintro rfl
      exact he hmem

theorem createHashtables_spec {field : ElemPtr → Option κ} (lp : HashedList κ)
    (hht : lp.ht = none) (hnodup : lp.elems.Nodup) :
    ∃ ht', cullHashCreateHashtables field lp = some { lp with ht := ht' } ∧
      (∀ t ∈ ht', (t.IsUnique ↔ lp.unique = true)) ∧
      (UniqueKeys field ht' lp.elems →
        HashOk field lp.unique ht' lp.elems ∧ InOrder field ht' lp.elems) := by
  rw [cullHashCreateHashtables, hht]
  simp only
  split_ifs
  · obtain ⟨hok, horder⟩ := @HashOk.create κ _ field _ lp.unique
      (hashComputeSize lp.elems.length)
    obtain ⟨ht', hfold, hrest⟩ := foldlM_hashElem [] lp.elems hnodup hok horder
    exact ⟨ht', by rw [hfold]; rfl, hrest⟩
  · obtain ⟨ht', hfold, hrest⟩ := @foldlM_hashElem κ _ field _ lp.unique none [] lp.elems hnodup
      (.of_none List.nodup_nil) nofun
    exact ⟨ht', by rw [hfold]; rfl, hrest⟩

theorem createHashtables_again {field : ElemPtr → Option κ} (lp : HashedList κ)
    {t : CullHtable κ} (hht : lp.ht = some t)
    (hok : UniqueKeys field lp.ht lp.elems →
      HashOk field lp.unique lp.ht lp.elems ∧ InOrder field lp.ht lp.elems) :
    ∃ ht', cullHashCreateHashtables field lp = some { lp with ht := ht' } ∧
      (UniqueKeys field ht' lp.elems →
        HashOk field lp.unique ht' lp.elems ∧ InOrder field ht' lp.elems) := by
  rw [cullHashCreateHashtables, hht]
  simp only
  by_cases hkeys : UniqueKeys field lp.ht lp.elems
  · obtain ⟨hok, horder⟩ := hok hkeys
    rw [hht] at hok horder
    obtain ⟨ht', hfold, hok', horder'⟩ := foldlM_rehash lp.elems (fun _ => id) hok horder
    exact ⟨ht', by rw [hfold]; rfl, fun _ => ⟨hok', horder'⟩⟩
  · have hfree : t.IsUnique ∧ ¬ DistinctKeys field lp.elems := by
      by_contra hno
      refine hkeys fun t' ht' hunique => ?_
      rw [hht] at ht'
      cases ht'
      exact not_not.mp fun hnot => hno ⟨hunique, hnot⟩
    obtain ⟨ht', hfold, hunique, hsome⟩ := @foldlM_unique κ _ field _ (some t) lp.elems
      (fun t' ht' => by cases ht'; exact hfree.1)
    refine ⟨ht', by rw [hfold]; rfl, fun hkeys' => ?_⟩
    cases ht' with
    | none => cases hsome
    | some t' => exact absurd (hkeys' t' rfl (hunique t' rfl)) hfree.2

/-- The tables of both parts of a list are created, also when they are one list. -/
theorem Ok.createBoth (h : s.Ok) {source target : ℕ} {src tgt : HashedList κ}
    (hsrc : s.lists source = some src) (htgt : s.lists target = some tgt)
    (hsrcHt : src.ht = none) (htgtHt : tgt.ht = none) :
    ∃ s' s'', s.createHashtables source = some s' ∧ s'.createHashtables target = some s'' ∧
      (s''.KeysDistinct → s''.Ok) := by
  obtain ⟨ht₁, hcreate, -, hok₁⟩ :=
    @createHashtables_spec κ _ _ s.field src hsrcHt (h.list hsrc).nodup
  have hfirst : s.createHashtables source = some (s.setList source { src with ht := ht₁ }) := by
    rw [CullLists.createHashtables, hsrc, Option.bind_eq_bind, Option.bind_some, hcreate]
    rfl
  by_cases heq : target = source
  · subst heq
    rw [hsrc] at htgt
    cases htgt
    have hagain : ∃ ht₂, cullHashCreateHashtables s.field { src with ht := ht₁ } =
        some { src with ht := ht₂ } ∧
          (UniqueKeys s.field ht₂ src.elems → HashOk s.field src.unique ht₂ src.elems) := by
      cases ht₁ with
      | none =>
          obtain ⟨ht₂, hcreate₂, -, hok₂⟩ := @createHashtables_spec κ _ _ s.field
            { src with ht := none } rfl (h.list hsrc).nodup
          exact ⟨ht₂, hcreate₂, fun hkeys => (hok₂ hkeys).1⟩
      | some t =>
          obtain ⟨ht₂, hcreate₂, hok₂⟩ := @createHashtables_again κ _ _ s.field
            { src with ht := some t } t rfl hok₁
          exact ⟨ht₂, hcreate₂, fun hkeys => (hok₂ hkeys).1⟩
    obtain ⟨ht₂, hcreate₂, hok₂⟩ := hagain
    have hlists : (s.setList target { src with ht := ht₁ }).lists target =
        some { src with ht := ht₁ } := Function.update_self _ _ _
    refine ⟨_, (s.setList target { src with ht := ht₁ }).setList target { src with ht := ht₂ },
      hfirst, ?_, fun hkeys => ?_⟩
    · rw [CullLists.createHashtables, hlists, Option.bind_eq_bind, Option.bind_some]
      exact congrArg (Option.bind · _) hcreate₂
    · have hidem : (s.setList target { src with ht := ht₁ }).setList target
          { src with ht := ht₂ } = s.setList target { src with ht := ht₂ } := by
        simp [setList]
      rw [hidem] at hkeys ⊢
      exact h.setTable hsrc (hok₂ (hkeys target _ (Function.update_self _ _ _)))
  · obtain ⟨ht₂, hcreate₂, -, hok₂⟩ :=
      @createHashtables_spec κ _ _ s.field tgt htgtHt (h.list htgt).nodup
    have hlists : (s.setList source { src with ht := ht₁ }).lists target = some tgt :=
      (Function.update_of_ne heq _ _).trans htgt
    refine ⟨_, (s.setList source { src with ht := ht₁ }).setList target { tgt with ht := ht₂ },
      hfirst, ?_, fun hkeys => ?_⟩
    · rw [CullLists.createHashtables, hlists, Option.bind_eq_bind, Option.bind_some]
      exact congrArg (Option.bind · _) hcreate₂
    · have hkeys₁ := hkeys source { src with ht := ht₁ } <|
        (Function.update_of_ne (Ne.symm heq) _ _).trans (Function.update_self _ _ _)
      have hkeys₂ := hkeys target _ (Function.update_self _ _ _)
      exact (h.setTable hsrc (hok₁ hkeys₁).1).setTable hlists (hok₂ hkeys₂).1

theorem Ok.lDechainList (h : s.Ok) {source target : ℕ} (hbound : s.status ep = .bound source) :
    ∃ s', s.lDechainList source target ep = some s' ∧ (s'.KeysDistinct → s'.Ok) := by
  obtain ⟨lp, hlp, hmem⟩ := (h.bound ep source).mp hbound
  have hnodup := (h.list hlp).nodup
  rw [CullLists.lDechainList, hlp, Option.bind_eq_bind, Option.bind_some, if_pos hbound]
  extract_lets moved rest s₁ tgt s₂ s₃
  have hsplit : rest.elems ++ moved = lp.elems := List.takeWhile_append_dropWhile
  have hdisj : ∀ e ∈ rest.elems, e ∉ moved := by
    rw [← hsplit, List.nodup_append] at hnodup
    exact fun e he hmoved => hnodup.2.2 e he e hmoved rfl
  have hin : ∀ e, e ∈ rest.elems ∨ e ∈ moved ↔ s.status e = .bound source := by
    intro e
    rw [← h.mem_iff hlp, ← hsplit, List.mem_append]
  suffices hok₃ : s₃.Ok ∧ ∃ src, s₃.lists source = some src ∧ src.ht = none by
    obtain ⟨hok₃, src, hsrc, hsrcHt⟩ := hok₃
    have htgt : s₃.lists target = some { tgt with ht := none, elems := tgt.elems ++ moved } :=
      Function.update_self _ _ _
    obtain ⟨s', s'', hfirst, hsecond, hok⟩ := hok₃.createBoth hsrc htgt hsrcHt rfl
    exact ⟨s'', by rw [hfirst]; exact hsecond, hok⟩
  by_cases heq : target = source
  · subst heq
    have htgt : tgt = rest := by
      have hlists : s₁.lists target = some rest := Function.update_self _ _ _
      simp [tgt, hlists]
    have hlists : s₃.lists = Function.update s.lists target
        (some { rest with ht := none, elems := lp.elems }) := by
      simp [s₃, s₂, s₁, setList, htgt, hsplit]
    have hstatus : ∀ e, s₃.status e = .bound target ↔ e ∈ lp.elems := by
      intro e
      change (if e ∈ moved then _ else s.status e) = _ ↔ _
      rw [← hsplit, List.mem_append, hin]
      split_ifs with he
      · exact iff_of_true rfl ((hin e).mp (Or.inr he))
      · rfl
    have hother : ∀ list' ≠ target, ∀ e, s₃.status e = .bound list' ↔ s.status e = .bound list' := by
      intro list' hne e
      change (if e ∈ moved then _ else s.status e) = _ ↔ _
      split_ifs with he
      · rw [(hin e).mp (Or.inr he)]
      · rfl
    have hok := h.update { rest with ht := none, elems := lp.elems } (.of_none hnodup)
      hstatus hother fun _ _ => rfl
    rw [← hlists] at hok
    exact ⟨hok, _, by rw [hlists, Function.update_self], rfl⟩
  · have hnodup' := hnodup
    rw [← hsplit, List.nodup_append] at hnodup'
    obtain ⟨hrest, hmoved, -⟩ := hnodup'
    -- first the elements are taken out of the source list
    have hok₁ : Ok ⟨s₁.lists, s.field, fun e => if e ∈ moved then .free else s.status e⟩ := by
      refine h.update rest (.of_none hrest) (fun e => ?_) (fun list' hne e => ?_)
        fun _ _ => rfl
      · split_ifs with he
        · exact iff_of_false nofun fun hmem => hdisj e hmem he
        · rw [← hin]
          exact or_iff_left he
      · split_ifs with he
        · rw [(hin e).mp (Or.inr he)]
          simp [Ne.symm hne]
        · rfl
    have hlists : s₁.lists target = s.lists target := Function.update_of_ne heq _ _
    have htgt : ∀ e, e ∈ tgt.elems ↔ s.status e = .bound target := by
      intro e
      rw [h.bound]
      cases hcase : s.lists target with
      | none => simp [tgt, hlists, hcase]
      | some lp' => simp [tgt, hlists, hcase]
    have hnot : ∀ e ∈ moved, s.status e ≠ .bound target := by
      intro e he hstatus
      rw [(hin e).mp (Or.inr he)] at hstatus
      cases hstatus
      exact heq rfl
    have htgtNodup : tgt.elems.Nodup := by
      cases hcase : s.lists target with
      | none => simp [tgt, hlists, hcase]
      | some lp' =>
          have hlp' := (h.list hcase).nodup
          simpa [tgt, hlists, hcase] using hlp'
    have hall : (tgt.elems ++ moved).Nodup := by
      rw [List.nodup_append]
      refine ⟨htgtNodup, hmoved, fun e he e' he' hsame => ?_⟩
      exact hnot e' he' ((htgt e').mp (hsame ▸ he))
    refine ⟨hok₁.update { tgt with ht := none, elems := tgt.elems ++ moved }
      (.of_none hall) (fun e => ?_) (fun list' hne e => ?_) fun _ _ => rfl, rest, ?_, rfl⟩
    · change (if e ∈ moved then _ else s.status e) = _ ↔ _
      rw [List.mem_append, htgt]
      split_ifs with he
      · exact iff_of_true rfl (Or.inr he)
      · exact (or_iff_left he).symm
    · change (if e ∈ moved then _ else s.status e) = _ ↔
        (if e ∈ moved then _ else s.status e) = _
      split_ifs with he
      · simp [Ne.symm hne]
      · rfl
    · exact (Function.update_of_ne (Ne.symm heq) _ _).trans (Function.update_self _ _ _)

theorem inOrder_of_length {field : ElemPtr → Option κ} {unique : Bool}
    {ht : Option (CullHtable κ)} {elems : List ElemPtr} (h : HashOk field unique ht elems)
    (hle : unique = true ∨ elems.length < 2) : InOrder field ht elems := by
  intro t ht
  obtain ⟨entries, hrep, hentries⟩ := h.table t ht
  refine ⟨entries, hrep, fun k => ?_⟩
  have hperm := hentries k
  have hlen : (entries k).length ≤ 1 := by
    rcases hle with hunique | hlen
    · exact hrep.length_le ((h.kind t ht).mpr hunique) k
    · have hfilter := @length_withKey_le κ _ field elems k
      rw [hperm.length_eq]
      omega
  cases hcase : entries k with
  | nil => exact (List.nil_perm.mp (hcase ▸ hperm)).symm
  | cons e l =>
      rw [hcase, List.length_cons] at hlen
      have hl : l = [] := List.length_eq_zero_iff.mp (by omega)
      rw [hcase, hl] at hperm
      rw [hl, List.singleton_perm.mp hperm]

/-- After sorting, the elements of each key are found in the order of the list. -/
theorem Ok.lSortList (h : s.Ok) (hlp : s.lists list = some lp) {pointer : List ElemPtr}
    (hperm : pointer.Perm lp.elems) :
    ∃ s', s.lSortList list pointer = some s' ∧ (s'.KeysDistinct → s'.Ok ∧
      ∀ lp', s'.lists list = some lp' → InOrder s'.field lp'.ht lp'.elems) := by
  have hok := h.list hlp
  have hfinish : ∀ ht', HashOk s.field lp.unique ht' pointer → InOrder s.field ht' pointer →
      (s.setList list { lp with ht := ht', elems := pointer }).Ok ∧
        ∀ lp', (s.setList list { lp with ht := ht', elems := pointer }).lists list = some lp' →
          InOrder s.field lp'.ht lp'.elems := by
    intro ht' hok' horder
    refine ⟨h.update { lp with ht := ht', elems := pointer } hok' (fun e => ?_)
      (fun _ _ _ => Iff.rfl) fun _ _ => rfl, fun lp' hlp' => ?_⟩
    · rw [← h.mem_iff hlp]
      exact hperm.mem_iff.symm
    · have hself : (s.setList list { lp with ht := ht', elems := pointer }).lists list = _ :=
        Function.update_self _ _ _
      rw [hself] at hlp'
      cases hlp'
      exact horder
  rw [CullLists.lSortList, hlp, Option.bind_eq_bind, Option.bind_some,
    if_pos (List.isPerm_iff.mpr hperm)]
  by_cases hlen : lp.elems.length < 2
  · rw [if_pos hlen]
    refine ⟨s, rfl, fun _ => ⟨h, fun lp' hlp' => ?_⟩⟩
    rw [hlp] at hlp'
    cases hlp'
    exact inOrder_of_length hok (Or.inr hlen)
  rw [if_neg hlen, cullHashRecreateAfterSort]
  by_cases hnonunique : lp.ht.isSome = true ∧ lp.unique = false
  · rw [if_pos hnonunique]
    obtain ⟨hokNil, horderNil⟩ := @HashOk.create κ _ s.field _ false
      (hashComputeSize pointer.length)
    obtain ⟨ht', hfold, -, hok'⟩ := foldlM_hashElem [] pointer (hperm.nodup_iff.mpr hok.nodup)
      hokNil horderNil
    simp only [hfold, Option.map_some, Option.bind_some]
    refine ⟨_, rfl, fun hkeys => ?_⟩
    obtain ⟨hok'', horder⟩ := hok' (hkeys list _ (Function.update_self _ _ _))
    exact hfinish ht' (hnonunique.2 ▸ hok'') horder
  · rw [if_neg hnonunique, Option.bind_some]
    refine ⟨_, rfl, fun _ => hfinish lp.ht (hok.perm hperm) ?_⟩
    cases hht : lp.ht with
    | none => exact nofun
    | some t =>
        have hunique : lp.unique = true := by
          rw [hht] at hnonunique
          simpa using hnonunique
        rw [← hht]
        exact inOrder_of_length (hok.perm hperm) (Or.inl hunique)

/-- Every allowed operation has a result, and one that keeps the tables. -/
theorem Ok.step (h : s.Ok) {op : CullListOp κ} (hallowed : s.Allowed op) :
    ∃ s', s.step op = some s' ∧ (s'.KeysDistinct → s'.Ok) := by
  cases op with
  | createList list hashing unique hash =>
      have hnone : s.lists list = none := hallowed
      refine ⟨_, by rw [CullLists.step, lCreateListHash, hnone], fun _ => ?_⟩
      refine h.update _ ?_ (fun e => ?_) (fun _ _ _ => Iff.rfl) fun _ _ => rfl
      · simp only
        split_ifs
        · exact (HashOk.create unique 0).1
        · exact .of_none List.nodup_nil
      · rw [h.bound, hnone]
        simp
  | insertElem list ep new =>
      obtain ⟨hfree, lp, hlp, hin⟩ := hallowed
      rw [CullLists.step, lInsertElem, hlp, Option.bind_eq_bind, Option.bind_some]
      cases ep with
      | none => exact h.bindElem hlp hfree (List.perm_append_singleton new lp.elems).symm
      | some ep =>
          obtain ⟨elems, helems, hperm⟩ := insertAfter_perm (hin ep rfl) new
          simp only [helems]
          exact h.bindElem hlp hfree hperm
  | appendElem list ep =>
      obtain ⟨hfree, hsome⟩ := hallowed
      obtain ⟨lp, hlp⟩ := Option.isSome_iff_exists.mp hsome
      rw [CullLists.step, lAppendElem, hlp, Option.bind_eq_bind, Option.bind_some]
      exact h.bindElem hlp hfree (.refl _)
  | removeElem list ep =>
      obtain ⟨s', hs', hok⟩ := h.unbindElem hallowed .freed nofun
      exact ⟨s', hs', fun _ => hok⟩
  | dechainElem list ep =>
      obtain ⟨s', hs', hok⟩ := h.unbindElem hallowed .free nofun
      exact ⟨s', hs', fun _ => hok⟩
  | dechainList source target ep => exact h.lDechainList hallowed
  | sortList list pointer =>
      obtain ⟨lp, hlp, hperm⟩ := hallowed
      obtain ⟨s', hs', hok⟩ := h.lSortList hlp hperm
      exact ⟨s', hs', fun hkeys => (hok hkeys).1⟩
  | setPos ep value => exact h.lSetPos hallowed value

theorem mem_of_insertAfter {e new : ElemPtr} {l l' : List ElemPtr}
    (h : insertAfter e new l = some l') : e ∈ l := by
  induction l generalizing l' with
  | nil => cases h
  | cons x l ih =>
      rw [insertAfter] at h
      split_ifs at h with hx
      · rw [hx]
        exact List.mem_cons_self
      · obtain ⟨l'', hl'', -⟩ := Option.map_eq_some_iff.mp h
        exact List.mem_cons_of_mem _ (ih hl'')

theorem free_of_bindElem {elems : List ElemPtr} (h : s.bindElem list lp elems ep = some s') :
    s.status ep = .free := by
  rw [CullLists.bindElem] at h
  by_contra hno
  rw [if_neg hno] at h
  cases h

theorem bound_of_unbindElem {status : ElemStatus} (h : s.unbindElem list ep status = some s') :
    s.status ep = .bound list := by
  rw [CullLists.unbindElem] at h
  obtain ⟨lp, -, h⟩ := Option.bind_eq_some_iff.mp h
  by_contra hno
  rw [if_neg hno] at h
  cases h

theorem allowed_of_step {op : CullListOp κ} (h : s.step op = some s') : s.Allowed op := by
  cases op with
  | createList list hashing unique hash =>
      rw [CullLists.step, lCreateListHash] at h
      cases hlp : s.lists list with
      | none => exact hlp
      | some lp =>
          rw [hlp] at h
          cases h
  | insertElem list ep new =>
      rw [CullLists.step, lInsertElem] at h
      obtain ⟨lp, hlp, h⟩ := Option.bind_eq_some_iff.mp h
      cases ep with
      | none => exact ⟨free_of_bindElem h, lp, hlp, nofun⟩
      | some ep =>
          obtain ⟨elems, helems, h⟩ := Option.bind_eq_some_iff.mp h
          refine ⟨free_of_bindElem h, lp, hlp, fun e he => ?_⟩
          cases he
          exact mem_of_insertAfter helems
  | appendElem list ep =>
      rw [CullLists.step, lAppendElem] at h
      obtain ⟨lp, hlp, h⟩ := Option.bind_eq_some_iff.mp h
      exact ⟨free_of_bindElem h, by rw [hlp]; rfl⟩
  | removeElem list ep => exact bound_of_unbindElem h
  | dechainElem list ep => exact bound_of_unbindElem h
  | dechainList source target ep =>
      rw [CullLists.step, CullLists.lDechainList] at h
      obtain ⟨lp, -, h⟩ := Option.bind_eq_some_iff.mp h
      by_contra hno
      have hno : ¬ s.status ep = .bound source := hno
      rw [if_neg hno] at h
      cases h
  | sortList list pointer =>
      rw [CullLists.step, CullLists.lSortList] at h
      obtain ⟨lp, hlp, h⟩ := Option.bind_eq_some_iff.mp h
      refine ⟨lp, hlp, ?_⟩
      by_contra hno
      rw [if_neg (fun hperm => hno (List.isPerm_iff.mp hperm))] at h
      cases h
  | setPos ep value =>
      rw [CullLists.step, CullLists.lSetPos] at h
      intro hfreed
      rw [hfreed] at h
      cases h

/-- No list has been made yet. -/
structure Start (s : CullLists κ) : Prop where
  lists : ∀ list, s.lists list = none
  status : ∀ ep list, s.status ep ≠ .bound list

theorem Start.ok (h : s.Start) : s.Ok := by
  refine ⟨fun {list lp} hlp => ?_, fun ep list => ?_⟩
  · rw [h.lists] at hlp
    cases hlp
  · rw [h.lists]
    exact iff_of_false (h.status ep list) nofun

/-- In every run, every allowed operation goes through, and a loop over the elements with a key
visits those of the list once each: as a set what the linear search finds, and in the same order
right after the list was sorted. -/
theorem hashed_eq_linear {start s : CullLists κ} {hist : List (CullListOp κ)}
    (hstart : start.Start)
    (hrun : Run (fun s op s' => s.step op = some s' ∧ s'.KeysDistinct) start hist s) :
    (∀ op, s.Allowed op → ∃ s', s.step op = some s') ∧
      ∀ list lp, s.lists list = some lp → ∀ key fuel, lp.elems.length ≤ fuel →
        ∃ visited linear, visitedElems s.field lp key fuel = some visited ∧
          visitedElems s.field { lp with ht := none } key fuel = some linear ∧
          (∀ ep, ep ∈ visited ↔ s.status ep = .bound list ∧ s.field ep = some key) ∧
          visited.Nodup ∧ visited.Perm linear ∧
          ∀ hist' pointer, hist = hist' ++ [.sortList list pointer] → visited = linear := by
  have hstep : ∀ (s : CullLists κ) op s', s.Ok → s.step op = some s' ∧ s'.KeysDistinct →
      s'.Ok := by
    intro s op s' hok ⟨hs', hkeys⟩
    obtain ⟨s'', hs'', hok'⟩ := hok.step (allowed_of_step hs')
    rw [hs'] at hs''
    cases hs''
    exact hok' hkeys
  have hrunOk : ∀ {hist s}, Run (fun s op s' => s.step op = some s' ∧ s'.KeysDistinct)
      start hist s → s.Ok := fun hrun =>
    hrun.invariant (P := fun _ s => s.Ok) hstart.ok fun _ s op s' h hs => hstep s op s' h hs
  have hok := hrunOk hrun
  refine ⟨fun op hallowed => ?_, fun list lp hlp key fuel hfuel => ?_⟩
  · obtain ⟨s', hs', -⟩ := hok.step hallowed
    exact ⟨s', hs'⟩
  · have hlist := hok.list hlp
    obtain ⟨visited, hvisited, hperm, horder⟩ := @HashOk.visitedElems κ _ s.field key _ lp.unique
      lp fuel hlist hfuel
    refine ⟨visited, withKey s.field lp.elems key, hvisited,
      visitedElems_linear hlist.nodup hfuel, fun ep => ?_, ?_, hperm, fun hist' pointer hist => ?_⟩
    · rw [hperm.mem_iff, mem_withKey, hok.mem_iff hlp]
    · exact hperm.nodup_iff.mpr (hlist.nodup.filter _)
    · apply horder
      cases hrun with
      | nil => simp at hist
      | @snoc hist₀ s₀ op _ hrun₀ hs =>
          obtain ⟨-, hop⟩ := List.append_inj' hist rfl
          cases hop
          obtain ⟨lp₀, hlp₀, hperm₀⟩ := allowed_of_step hs.1
          obtain ⟨s', hs', hsort⟩ := (hrunOk hrun₀).lSortList hlp₀ hperm₀
          rw [show s₀.lSortList list pointer = some s from hs.1] at hs'
          cases hs'
          exact (hsort hs.2).2 lp hlp

section Sorted
variable {κ : Type} [HashFunc κ]

theorem keysDistinct_of_nonUnique [DecidableEq κ] {s : CullLists κ} {lp : HashedList κ}
    {t : NonUniqueHtable κ} (hlp : s.lists 0 = some lp) (hht : lp.ht = some (.nonUnique t))
    (hother : ∀ list ≠ 0, s.lists list = none) : s.KeysDistinct := by
  intro list lp' hlp' t' ht' hunique
  by_cases hlist : list = 0
  · rw [hlist, hlp] at hlp'
    cases hlp'
    rw [hht] at ht'
    cases ht'
    exact hunique.elim
  · rw [hother list hlist] at hlp'
    cases hlp'

theorem update_other {lists : ℕ → Option (HashedList κ)} (h : ∀ list ≠ 0, lists list = none)
    (lp : Option (HashedList κ)) : ∀ list ≠ 0, Function.update lists 0 lp list = none :=
  fun list hlist => (Function.update_of_ne hlist _ _).trans (h list hlist)

/-- Three elements, two of them with one key, after they were sorted. -/
theorem sortedElems_linear : ∃ (s : CullLists UInt32) (lp : HashedList UInt32),
    s.lists 0 = some lp ∧ visitedElems s.field lp 7 3 = some [3, 1] := by
  let start : CullLists UInt32 := ⟨fun _ => none, fun ep => some (if ep = 2 then 5 else 7),
    fun _ => .free⟩
  let step := fun (s : CullLists UInt32) op s' => s.step op = some s' ∧ s'.KeysDistinct
  have hnone : ∀ list ≠ 0, start.lists list = none := fun _ _ => rfl
  have hone := fun a => update_other hnone a
  have htwo := fun a b => update_other (hone a) b
  have hthree := fun a b c => update_other (htwo a b) c
  have hfour := fun a b c d => update_other (hthree a b c) d
  have hfive := fun a b c d e => update_other (hfour a b c d) e
  have hrun := (((((@Run.nil _ _ step start).snoc (e := .createList 0 true false true)
    ⟨rfl, keysDistinct_of_nonUnique rfl rfl (hone _)⟩).snoc (e := .appendElem 0 1)
    ⟨rfl, keysDistinct_of_nonUnique rfl rfl (htwo _ _)⟩).snoc (e := .insertElem 0 (some 1) 2)
    ⟨rfl, keysDistinct_of_nonUnique rfl rfl (hthree _ _ _)⟩).snoc (e := .appendElem 0 3)
    ⟨rfl, keysDistinct_of_nonUnique rfl rfl (hfour _ _ _ _)⟩).snoc
    (e := .sortList 0 [3, 2, 1])
    ⟨rfl, keysDistinct_of_nonUnique rfl rfl (hfive _ _ _ _ _)⟩
  obtain ⟨visited, linear, hvisited, hlinear, -, -, -, horder⟩ :=
    (hashed_eq_linear ⟨fun _ => rfl, fun _ _ h => by cases h⟩ hrun).2 0 _ rfl 7 3 (le_refl 3)
  refine ⟨_, _, rfl, hvisited.trans ?_⟩
  rw [horder _ _ rfl, ← hlinear]
  rfl

end Sorted

end CullLists

end GridEngine
