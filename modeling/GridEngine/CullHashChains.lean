import GridEngine.CullHash

/-!
# The chains behind a hashed field

For every key there is a chain of nodes with the ends that the first table holds, and the second
table leads to the node of an element. Inserting an element puts it at the end of the chain of its
key, and removing it takes its node out; so a table is as good as the entries of its keys in order.
-/

namespace GridEngine
open LinkedNodes

variable {κ : Type} [HashFunc κ] [DecidableEq κ] {ep : ElemPtr} {key k : κ}

/-- `chain` gives the nodes of each key from front to back. -/
structure NonUniqueHtable.Chains (t : NonUniqueHtable κ) (chain : κ → List (Ptr × ElemPtr)) :
    Prop where
  header : ∀ k, t.ht.sgeHtableLookup k =
    if chain k = [] then none else some ⟨firstPtr (chain k), lastPtr (chain k)⟩
  linked : ∀ k, Segment t.heap none none (chain k)
  node : ∀ ep p, t.nuht.sgeHtableLookup ep = some p ↔ ∃ k, (p, ep) ∈ chain k
  distinct : ∀ k, ((chain k).map Prod.fst).Nodup
  disjoint : ∀ {k k' p ep ep'}, (p, ep) ∈ chain k → (p, ep') ∈ chain k' → k = k'
  fresh : ∀ {k p ep}, (p, ep) ∈ chain k → p < t.brk

section Unlink
variable {heap : Heap ElemPtr} {nuh : Ptr} {l r : List (Ptr × ElemPtr)}

/-- Taking a node out of its chain closes the gap and touches no other node. -/
theorem unlinkNode_spec (hl : Segment heap none none (l ++ (nuh, ep) :: r))
    (hnodup : ((l ++ (nuh, ep) :: r).map Prod.fst).Nodup) :
    ∃ heap', NonUniqueHtable.unlinkNode heap
        ⟨firstPtr (l ++ (nuh, ep) :: r), lastPtr (l ++ (nuh, ep) :: r)⟩ nuh =
          some (⟨firstPtr (l ++ r), lastPtr (l ++ r)⟩, heap') ∧
      Segment heap' none none (l ++ r) ∧
      ∀ p ∉ (l ++ r).map Prod.fst, heap' p = heap p := by
  have hnode := hl.lookup
  rw [Option.or_none, Option.or_none] at hnode
  rw [List.map_append, List.map_cons, List.nodup_middle, List.nodup_cons, List.mem_append,
    not_or, ← List.map_append] at hnodup
  obtain ⟨⟨hnotl, hnotr⟩, hlr⟩ := hnodup
  have hsplit := (segment_append heap none none l _).mp hl
  rw [firstPtr_cons, Option.some_or, Option.or_none] at hsplit
  obtain ⟨hsegl, -, hsegr⟩ := hsplit
  have hfirst : firstPtr (l ++ (nuh, ep) :: r) = (firstPtr l).or (some nuh) := by
    rw [firstPtr_append, firstPtr_cons]
  have hlast : lastPtr (l ++ (nuh, ep) :: r) = (lastPtr r).or (some nuh) := by
    rw [lastPtr_append, lastPtr_cons, Option.or_assoc, Option.some_or]
  rw [NonUniqueHtable.unlinkNode, hnode, hfirst, hlast]
  simp only [Option.bind_eq_bind, Option.bind_some]
  rcases List.eq_nil_or_concat l with rfl | ⟨l, ⟨q, b⟩, rfl⟩
  · rw [firstPtr_nil, Option.none_or, if_pos rfl]
    cases r with
    | nil => exact ⟨heap, by simp, trivial, fun p _ => rfl⟩
    | cons e r =>
        obtain ⟨q, b⟩ := e
        have hne : (lastPtr ((q, b) :: r)).or (some nuh) ≠ some nuh := by
          intro heq
          cases hcase : lastPtr ((q, b) :: r) with
          | none => simp [lastPtr_eq_none] at hcase
          | some p =>
              rw [hcase, Option.some_or] at heq
              cases heq
              exact hnotr (mem_of_lastPtr hcase)
        have hq := (List.nodup_cons.mp hlr).1
        obtain ⟨heap', hset, hseg, hframe⟩ := hsegr.setPrev hq none
        refine ⟨heap', ?_, hseg, fun p hp => hframe p ?_⟩
        · rw [if_neg hne, firstPtr_cons, Option.bind_some, hset]
          simp [lastPtr_cons]
        · rintro rfl
          exact hp (by simp)
  · rw [List.concat_eq_append] at *
    have hne : (firstPtr (l ++ [(q, b)])).or (some nuh) ≠ some nuh := by
      intro heq
      cases hcase : firstPtr (l ++ [(q, b)]) with
      | none => simp [firstPtr_eq_none] at hcase
      | some p =>
          rw [hcase, Option.some_or] at heq
          cases heq
          exact hnotl (mem_of_firstPtr hcase)
    rw [if_neg hne, lastPtr_concat]
    have hq : q ∉ l.map Prod.fst := by
      rw [List.map_append, List.map_append, List.append_assoc, List.map_singleton,
        List.singleton_append, List.nodup_middle, List.nodup_cons, List.mem_append, not_or] at hlr
      exact hlr.1.1
    cases r with
    | nil =>
        obtain ⟨heap', hset, hseg, hframe⟩ := hsegl.setNext hq none
        rw [List.append_nil]
        refine ⟨heap', ?_, hseg, fun p hp => hframe p ?_⟩
        · rw [lastPtr_nil, Option.none_or, if_pos rfl, Option.bind_some, hset]
          simp [firstPtr_append]
        · rintro rfl
          exact hp (by simp)
    | cons e r =>
        obtain ⟨q', b'⟩ := e
        have hne' : (lastPtr ((q', b') :: r)).or (some nuh) ≠ some nuh := by
          intro heq
          cases hcase : lastPtr ((q', b') :: r) with
          | none => simp [lastPtr_eq_none] at hcase
          | some p =>
              rw [hcase, Option.some_or] at heq
              cases heq
              exact hnotr (mem_of_lastPtr hcase)
        have hdisj := List.nodup_append.mp (List.map_append ▸ hlr)
        have hqq : ∀ p ∈ (l ++ [(q, b)]).map Prod.fst, p ≠ q' := by
          intro p hp heq
          exact hdisj.2.2 p hp q' (by simp) heq
        have hq' : q' ∉ r.map Prod.fst := (List.nodup_cons.mp hdisj.2.1).1
        obtain ⟨heap₁, hset, hseg, hframe⟩ := hsegl.setNext hq (some q')
        have hsegr₁ : Segment heap₁ (some nuh) none ((q', b') :: r) := by
          refine hsegr.congr fun p a hmem => hframe p ?_
          rintro rfl
          exact hdisj.2.2 p (by simp) p (List.mem_map_of_mem hmem) rfl
        obtain ⟨heap₂, hset', hseg', hframe'⟩ := hsegr₁.setPrev hq' (some q)
        refine ⟨heap₂, ?_, ?_, fun p hp => ?_⟩
        · rw [if_neg hne', firstPtr_cons, Option.bind_some, Option.bind_some, hset,
            Option.bind_some, hset']
          simp [firstPtr_append, lastPtr_append, lastPtr_cons]
        · rw [segment_append, firstPtr_cons, Option.some_or, lastPtr_concat, Option.some_or]
          refine ⟨hseg.congr fun p a hmem => hframe' p ?_, hseg'⟩
          exact hqq p (List.mem_map_of_mem hmem)
        · have hp₁ : p ≠ q := by
            rintro rfl
            exact hp (by simp)
          have hp₂ : p ≠ q' := by
            rintro rfl
            exact hp (by simp)
          rw [hframe' p hp₂, hframe p hp₁]

end Unlink

namespace NonUniqueHtable.Chains
variable {t : NonUniqueHtable κ} {chain : κ → List (Ptr × ElemPtr)}

theorem eq_node (h : t.Chains chain) {k k' : κ} {p p' : Ptr} (hp : (p, ep) ∈ chain k)
    (hp' : (p', ep) ∈ chain k') : p = p' ∧ k = k' := by
  have hnode := (h.node ep p).mpr ⟨k, hp⟩
  rw [(h.node ep p').mpr ⟨k', hp'⟩] at hnode
  cases hnode
  exact ⟨rfl, h.disjoint hp hp'⟩

theorem insert (h : t.Chains chain) (hnew : ∀ k p, (p, ep) ∉ chain k) :
    ∃ t', t.cullHashInsert ep key = some t' ∧
      t'.Chains (Function.update chain key (chain key ++ [(t.brk, ep)])) := by
  have hbrk : ∀ k p a, (p, a) ∈ chain k → p ≠ t.brk := fun k p a hmem => (h.fresh hmem).ne
  have hnode : t.nuht.sgeHtableLookup ep = none := by
    rw [Option.eq_none_iff_forall_ne_some]
    intro p hp
    obtain ⟨k, hk⟩ := (h.node ep p).mp hp
    exact hnew k p hk
  -- what both kinds of insertion have in common
  have hmem : ∀ k p a, (p, a) ∈ Function.update chain key (chain key ++ [(t.brk, ep)]) k ↔
      (p, a) ∈ chain k ∨ (k = key ∧ p = t.brk ∧ a = ep) := by
    intro k p a
    by_cases hk : k = key
    · subst hk
      rw [Function.update_self, List.mem_append, List.mem_singleton, Prod.mk.injEq]
      simp
    · rw [Function.update_of_ne hk]
      simp [hk]
  have hchains : ∀ heap : Heap ElemPtr,
      (∀ k, Segment heap none none (Function.update chain key (chain key ++ [(t.brk, ep)]) k)) →
      (⟨t.ht.sgeHtableStore key ⟨firstPtr (chain key ++ [(t.brk, ep)]), some t.brk⟩,
        t.nuht.sgeHtableStore ep t.brk, heap, t.brk + 1⟩ : NonUniqueHtable κ).Chains
          (Function.update chain key (chain key ++ [(t.brk, ep)])) := by
    intro heap hlinked
    refine ⟨fun k => ?_, hlinked, fun e p => ?_, fun k => ?_, ?_, ?_⟩
    · rw [Htable.lookup_store]
      by_cases hk : k = key
      · subst hk
        rw [if_pos rfl, Function.update_self, if_neg (by simp), lastPtr_concat]
      · rw [if_neg hk, Function.update_of_ne hk, h.header k]
    · simp only [hmem]
      rw [Htable.lookup_store]
      split_ifs with he
      · constructor
        · intro hp
          cases hp
          exact ⟨key, Or.inr ⟨rfl, rfl, he⟩⟩
        · rintro ⟨k, hk | ⟨-, rfl, -⟩⟩
          · exact absurd (he ▸ hk) (hnew k p)
          · rfl
      · rw [h.node e p]
        refine exists_congr fun k => ⟨Or.inl, fun hk => hk.resolve_right ?_⟩
        exact fun heq => he heq.2.2
    · by_cases hk : k = key
      · subst hk
        rw [Function.update_self, List.map_append, List.map_singleton, List.nodup_append]
        refine ⟨h.distinct k, List.nodup_singleton _, fun p hp q hq heq => ?_⟩
        obtain ⟨⟨p', a⟩, hmem', rfl⟩ := List.mem_map.mp hp
        rw [List.mem_singleton.mp hq] at heq
        exact hbrk k p' a hmem' heq
      · rw [Function.update_of_ne hk]
        exact h.distinct k
    · intro k k' p a a' ha ha'
      rcases (hmem k p a).mp ha with hold | ⟨hk, hp, -⟩
      · rcases (hmem k' p a').mp ha' with hold' | ⟨-, hp, -⟩
        · exact h.disjoint hold hold'
        · exact absurd hp (hbrk k p a hold)
      · rcases (hmem k' p a').mp ha' with hold' | ⟨hk', -, -⟩
        · exact absurd hp (hbrk k' p a' hold')
        · rw [hk, hk']
    · intro k p a ha
      rcases (hmem k p a).mp ha with ha | ⟨-, rfl, -⟩
      · exact Nat.lt_succ_of_lt (h.fresh ha)
      · exact Nat.lt_succ_self _
  have hother : ∀ heap : Heap ElemPtr, (∀ k ≠ key, ∀ p a, (p, a) ∈ chain k → heap p = t.heap p) →
      ∀ k ≠ key, Segment heap none none
        (Function.update chain key (chain key ++ [(t.brk, ep)]) k) := by
    intro heap hsame k hk
    rw [Function.update_of_ne hk]
    exact (h.linked k).congr (hsame k hk)
  rw [cullHashInsert, h.header key]
  by_cases hnil : chain key = []
  · rw [if_pos hnil]
    simp only
    refine ⟨_, rfl, ?_⟩
    have hlinked : ∀ k, Segment (Function.update t.heap t.brk (some ⟨none, none, ep⟩)) none none
        (Function.update chain key (chain key ++ [(t.brk, ep)]) k) := by
      intro k
      by_cases hk : k = key
      · subst hk
        rw [Function.update_self, hnil]
        exact ⟨Function.update_self _ _ _, trivial⟩
      · exact hother _ (fun k _ p a ha => Function.update_of_ne (hbrk k p a ha) _ _) k hk
    have hresult := hchains _ hlinked
    rw [hnil] at hresult ⊢
    exact hresult
  · rw [if_neg hnil, hnode]
    simp only
    obtain ⟨l, ⟨q, b⟩, hcat⟩ := (List.eq_nil_or_concat (chain key)).resolve_left hnil
    rw [List.concat_eq_append] at hcat
    have hqmem : (q, b) ∈ chain key := by simp [hcat]
    have hseg : Segment (Function.update t.heap t.brk (some ⟨some q, none, ep⟩)) none none
        (l ++ [(q, b)]) := by
      rw [← hcat]
      exact (h.linked key).congr fun p a ha => Function.update_of_ne (hbrk key p a ha) _ _
    have hq : q ∉ l.map Prod.fst := by
      have hdistinct := h.distinct key
      rw [hcat, List.map_append, List.map_singleton, List.nodup_append] at hdistinct
      exact fun hmem => hdistinct.2.2 q hmem q (by simp) rfl
    obtain ⟨heap', hset, hseg', hframe⟩ := hseg.setNext hq (some t.brk)
    have hlast : lastPtr (chain key) = some q := by rw [hcat, lastPtr_concat]
    rw [hlast, Option.bind_eq_bind, Option.bind_some, hset]
    refine ⟨_, rfl, ?_⟩
    have hlinked : ∀ k, Segment heap' none none
        (Function.update chain key (chain key ++ [(t.brk, ep)]) k) := by
      intro k
      by_cases hk : k = key
      · subst hk
        rw [Function.update_self, segment_append, hlast]
        refine ⟨by rw [hcat]; exact hseg', ?_, trivial⟩
        rw [hframe t.brk (hbrk k q b hqmem).symm, Function.update_self]
        rfl
      · refine hother heap' (fun k hk p a ha => ?_) k hk
        have hpq : p ≠ q := by
          rintro rfl
          exact hk (h.disjoint ha hqmem)
        rw [hframe p hpq, Function.update_of_ne (hbrk k p a ha)]
    have hresult := hchains heap' hlinked
    have hfirst : firstPtr (chain key ++ [(t.brk, ep)]) = firstPtr (chain key) := by
      rw [firstPtr_append]
      cases hcase : firstPtr (chain key) with
      | none => exact absurd (firstPtr_eq_none.mp hcase) hnil
      | some p => rfl
    rw [hfirst] at hresult
    exact hresult

theorem remove (h : t.Chains chain) {p : Ptr} {l r : List (Ptr × ElemPtr)}
    (hchain : chain key = l ++ (p, ep) :: r) :
    ∃ t', t.cullHashRemove ep key = some t' ∧
      t'.Chains (Function.update chain key (l ++ r)) := by
  have hin : (p, ep) ∈ chain key := by simp [hchain]
  have hdistinct := h.distinct key
  have hlinked := h.linked key
  rw [hchain] at hdistinct hlinked
  obtain ⟨heap', hunlink, hseg, hframe⟩ := unlinkNode_spec hlinked hdistinct
  rw [List.map_append, List.map_cons, List.nodup_middle, List.nodup_cons,
    ← List.map_append] at hdistinct
  obtain ⟨hnot, hnodup⟩ := hdistinct
  have hmem : ∀ k p' a, (p', a) ∈ Function.update chain key (l ++ r) k ↔
      (p', a) ∈ chain k ∧ a ≠ ep := by
    intro k p' a
    by_cases hk : k = key
    · subst hk
      rw [Function.update_self]
      constructor
      · intro hmem
        have hold : (p', a) ∈ chain k := by
          rw [hchain, List.perm_middle.mem_iff]
          exact List.mem_cons_of_mem _ hmem
        refine ⟨hold, ?_⟩
        rintro rfl
        obtain ⟨rfl, -⟩ := h.eq_node hold hin
        exact hnot (List.mem_map_of_mem hmem)
      · rintro ⟨hold, hne⟩
        rw [hchain, List.perm_middle.mem_iff, List.mem_cons] at hold
        exact hold.resolve_left fun heq => hne (Prod.mk.inj heq).2
    · rw [Function.update_of_ne hk]
      refine iff_self_and.mpr fun hold => ?_
      rintro rfl
      exact hk (h.eq_node hold hin).2
  have hlookup : t.ht.sgeHtableLookup key = some ⟨firstPtr (l ++ (p, ep) :: r),
      lastPtr (l ++ (p, ep) :: r)⟩ := by
    rw [h.header key, if_neg (List.ne_nil_of_mem hin), hchain]
  have hboth : (firstPtr (l ++ r) = none ∧ lastPtr (l ++ r) = none) ↔ l ++ r = [] := by
    rw [firstPtr_eq_none, lastPtr_eq_none, and_self]
  rw [cullHashRemove, hlookup]
  simp only
  rw [(h.node ep p).mpr ⟨key, hin⟩]
  simp only [hunlink, Option.bind_eq_bind, Option.bind_some]
  refine ⟨_, rfl, fun k => ?_, fun k => ?_, fun e p' => ?_, fun k => ?_, ?_, ?_⟩
  · simp only [hboth]
    by_cases hk : k = key
    · subst hk
      rw [Function.update_self]
      split_ifs
      · rw [Htable.lookup_delete, if_pos rfl]
      · rw [Htable.lookup_store, if_pos rfl]
    · rw [Function.update_of_ne hk, ← h.header k]
      split_ifs
      · rw [Htable.lookup_delete, if_neg hk, Htable.lookup_store, if_neg hk]
      · rw [Htable.lookup_store, if_neg hk]
  · by_cases hk : k = key
    · subst hk
      rw [Function.update_self]
      refine hseg.congr fun p' a ha => Function.update_of_ne ?_ _ _
      exact fun heq => hnot (List.mem_map.mpr ⟨(p', a), ha, heq⟩)
    · rw [Function.update_of_ne hk]
      refine (h.linked k).congr fun p' a ha => ?_
      have hne : p' ≠ p := by
        rintro rfl
        exact hk (h.disjoint ha hin)
      refine (Function.update_of_ne hne _ _).trans (hframe p' fun hp' => ?_)
      obtain ⟨⟨q, b⟩, hq, rfl⟩ := List.mem_map.mp hp'
      refine hk (h.disjoint ha (?_ : (q, b) ∈ chain key))
      rw [hchain, List.perm_middle.mem_iff]
      exact List.mem_cons_of_mem _ hq
  · simp only [hmem]
    rw [Htable.lookup_delete]
    split_ifs with he
    · simp [he]
    · rw [h.node e p']
      simp [he]
  · by_cases hk : k = key
    · subst hk
      rw [Function.update_self]
      exact hnodup
    · rw [Function.update_of_ne hk]
      exact h.distinct k
  · exact fun ha ha' => h.disjoint ((hmem _ _ _).mp ha).1 ((hmem _ _ _).mp ha').1
  · exact fun ha => h.fresh ((hmem _ _ _).mp ha).1

theorem reinsert (h : t.Chains chain) {p : Ptr} (hin : (p, ep) ∈ chain key) :
    t.cullHashInsert ep key = some t := by
  rw [cullHashInsert, h.header key, if_neg (List.ne_nil_of_mem hin)]
  simp only
  rw [(h.node ep p).mpr ⟨key, hin⟩]

theorem chains_create (size : ℕ) : (⟨.sgeHtableCreate size, .sgeHtableCreate size, fun _ => none,
    0⟩ : NonUniqueHtable κ).Chains fun _ => [] := by
  refine ⟨fun k => ?_, fun k => trivial, fun e p => ?_, fun k => List.nodup_nil, ?_, ?_⟩
  · rw [Htable.lookup_create, if_pos rfl]
  · simp
  · exact fun ha => absurd ha List.not_mem_nil
  · exact fun ha => absurd ha List.not_mem_nil

theorem first (h : t.Chains chain) : cullHashFirst key (.nonUnique t) =
    some (match chain key with
      | [] => (none, .null)
      | (p, ep) :: _ => (some ep, .node p)) := by
  rw [cullHashFirst, h.header key]
  cases hchain : chain key with
  | nil => rfl
  | cons e l =>
      obtain ⟨p, ep⟩ := e
      have hlinked := h.linked key
      rw [hchain] at hlinked
      simp [hlinked.1]

theorem next (h : t.Chains chain) {p : Ptr} {l r : List (Ptr × ElemPtr)}
    (hchain : chain key = l ++ (p, ep) :: r) : cullHashNext (.node p) (.nonUnique t) =
    some (match r with
      | [] => (none, .null)
      | (p, ep) :: _ => (some ep, .node p)) := by
  have hlinked := h.linked key
  rw [hchain] at hlinked
  have hnode := hlinked.lookup
  cases r with
  | nil => simp [cullHashNext, hnode]
  | cons e r =>
      obtain ⟨q, b⟩ := e
      have hsplit := (segment_append t.heap none none l _).mp hlinked
      simp [cullHashNext, hnode, hsplit.2.2.1]

end NonUniqueHtable.Chains

/-- The entries of the keys, in the order in which they are found. -/
def CullHtable.Represents (ht : CullHtable κ) (entries : κ → List ElemPtr) : Prop :=
  match ht with
  | .unique ht => ∀ k, entries k = (ht.sgeHtableLookup k).toList
  | .nonUnique t => ∃ chain, t.Chains chain ∧ ∀ k, entries k = (chain k).map Prod.snd

namespace CullHtable.Represents
variable {ht : CullHtable κ} {entries : κ → List ElemPtr}

theorem create (unique : Bool) (size : ℕ) :
    (cullHashCreate unique size : CullHtable κ).Represents fun _ => [] := by
  rw [cullHashCreate]
  cases unique with
  | true =>
      intro k
      rw [Htable.lookup_create]
      rfl
  | false => exact ⟨fun _ => [], NonUniqueHtable.Chains.chains_create _, fun _ => rfl⟩

theorem insert (h : ht.Represents entries) (hnew : ∀ k, ep ∉ entries k)
    (hunique : ht.IsUnique → entries key = []) :
    ∃ ht', cullHashInsert ep (some key) ht = some ht' ∧ (ht'.IsUnique ↔ ht.IsUnique) ∧
      ht'.Represents (Function.update entries key (entries key ++ [ep])) := by
  cases ht with
  | unique ht =>
      refine ⟨_, rfl, Iff.rfl, fun k => ?_⟩
      rw [Option.elim_some, Htable.lookup_store]
      by_cases hk : k = key
      · subst hk
        rw [Function.update_self, if_pos rfl, hunique trivial]
        rfl
      · rw [Function.update_of_ne hk, if_neg hk]
        exact h k
  | nonUnique t =>
      obtain ⟨chain, hchains, hentries⟩ := h
      obtain ⟨t', ht', hchains'⟩ := @NonUniqueHtable.Chains.insert _ _ _ ep key t chain hchains
        fun k p hmem => hnew k (hentries k ▸ List.mem_map.mpr ⟨(p, ep), hmem, rfl⟩)
      refine ⟨.nonUnique t', by rw [cullHashInsert, Option.elim_some, ht', Option.map_some],
        Iff.rfl, _, hchains', fun k => ?_⟩
      by_cases hk : k = key
      · subst hk
        rw [Function.update_self, Function.update_self, hentries, List.map_append]
        rfl
      · rw [Function.update_of_ne hk, Function.update_of_ne hk, hentries]

theorem reinsert (h : ht.Represents entries) (hin : ep ∈ entries key) :
    ∃ ht', cullHashInsert ep (some key) ht = some ht' ∧ (ht'.IsUnique ↔ ht.IsUnique) ∧
      ht'.Represents entries := by
  cases ht with
  | unique ht =>
      refine ⟨_, rfl, Iff.rfl, fun k => ?_⟩
      rw [Option.elim_some, Htable.lookup_store]
      by_cases hk : k = key
      · subst hk
        rw [h k, Option.mem_toList] at hin
        rw [if_pos rfl, h k, hin]
      · rw [if_neg hk]
        exact h k
  | nonUnique t =>
      obtain ⟨chain, hchains, hentries⟩ := h
      rw [hentries key] at hin
      obtain ⟨⟨p, a⟩, hp, rfl⟩ := List.mem_map.mp hin
      refine ⟨.nonUnique t, ?_, Iff.rfl, chain, hchains, hentries⟩
      rw [cullHashInsert, Option.elim_some, hchains.reinsert hp, Option.map_some]

theorem nodup (h : ht.Represents entries) (k : κ) : (entries k).Nodup := by
  cases ht with
  | unique ht =>
      rw [h k]
      cases ht.sgeHtableLookup k <;> simp
  | nonUnique t =>
      obtain ⟨chain, hchains, hentries⟩ := h
      rw [hentries k]
      apply List.Nodup.map_on _ (hchains.distinct k).of_map
      rintro ⟨p, a⟩ hp ⟨q, b⟩ hq (rfl : a = b)
      rw [(hchains.eq_node hp hq).1]

theorem length_le (h : ht.Represents entries) (hunique : ht.IsUnique) (k : κ) :
    (entries k).length ≤ 1 := by
  cases ht with
  | unique ht =>
      rw [h k]
      cases ht.sgeHtableLookup k <;> simp
  | nonUnique t => exact hunique.elim

theorem remove (h : ht.Represents entries) (hin : ep ∈ entries key) :
    ∃ ht', cullHashRemove ep (some key) ht = some ht' ∧ (ht'.IsUnique ↔ ht.IsUnique) ∧
      ht'.Represents (Function.update entries key ((entries key).erase ep)) := by
  cases ht with
  | unique ht =>
      refine ⟨_, rfl, Iff.rfl, fun k => ?_⟩
      rw [Option.elim_some, Htable.lookup_delete]
      by_cases hk : k = key
      · subst hk
        rw [h k, Option.mem_toList] at hin
        rw [Function.update_self, if_pos rfl, h k, hin]
        simp
      · rw [Function.update_of_ne hk, if_neg hk]
        exact h k
  | nonUnique t =>
      have hnodup := nodup h key
      obtain ⟨chain, hchains, hentries⟩ := h
      rw [hentries key] at hin hnodup
      obtain ⟨⟨p, a⟩, hp, rfl⟩ := List.mem_map.mp hin
      obtain ⟨l, r, hsplit⟩ := List.append_of_mem hp
      obtain ⟨t', ht', hchains'⟩ := hchains.remove hsplit
      refine ⟨.nonUnique t', by rw [cullHashRemove, Option.elim_some, ht', Option.map_some],
        Iff.rfl, _, hchains', fun k => ?_⟩
      by_cases hk : k = key
      · subst hk
        rw [Function.update_self, Function.update_self, hentries, hsplit, List.map_append,
          List.map_append, List.map_cons]
        rw [hsplit, List.map_append, List.map_cons, List.nodup_middle, List.nodup_cons,
          List.mem_append, not_or] at hnodup
        rw [List.erase_append_right _ hnodup.1.1, List.erase_cons_head]
      · rw [Function.update_of_ne hk, Function.update_of_ne hk, hentries]

end CullHtable.Represents

end GridEngine
