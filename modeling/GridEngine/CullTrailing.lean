import GridEngine.CullUnpack

/-!
# Missing trailing attributes

`cull_unpack_cont` forgives format errors, which are meant to be those of attributes at the end of
the descriptor that the buffer does not have. The flag for this, `only_at_bufferend`, is not
cleared when an attribute is read behind one that failed.
-/

namespace GridEngine
open ByteReader ByteReader.Reader

variable {D α : Type} {xdr : Xdr D} {unpackSwitch : LType → Unpack (LMultiType D)} {flags : UInt32}

section Outcomes

/-- The outcomes of the attributes that are tried. A format error is not the last one. -/
def attributeOutcomes (unpackSwitch : LType → Unpack (LMultiType D)) (flags : UInt32) :
    List LDescr → Cursor → List (Outcome PackError Unit)
  | [], _ => []
  | field :: dp, c =>
      if isSelected flags field.mt then
        match unpackSwitch (mtGetType field.mt) c with
        | (.success _, c) => .success () :: attributeOutcomes unpackSwitch flags dp c
        | (.failure .format, c) => .failure .format :: attributeOutcomes unpackSwitch flags dp c
        | (.failure e, _) => [.failure e]
        | (.overrun, _) => [.overrun]
        | (.noFuel, _) => [.noFuel]
      else attributeOutcomes unpackSwitch flags dp c

/-- Every attribute was read or failed with `PACK_FORMAT`. -/
def Tolerated (outcomes : List (Outcome PackError Unit)) : Prop :=
  ∀ o ∈ outcomes, o = .success () ∨ o = .failure .format

/-- The attributes that failed are the last ones, and all of them failed with `PACK_FORMAT`. -/
def OnlyTrailing (outcomes : List (Outcome PackError Unit)) : Prop :=
  ∃ k m, outcomes = List.replicate k (.success ()) ++ List.replicate m (.failure .format)

/-- An attribute was read behind one that failed with `PACK_FORMAT`. -/
def Resumes (outcomes : List (Outcome PackError Unit)) : Prop :=
  ∃ before between behind,
    outcomes = before ++ .failure .format :: (between ++ .success () :: behind)

/-- Success is returned only when the failed attributes are missing at the end. It is not returned
when an attribute is read behind a failed one, or there is any other error. -/
def ForgivesTrailing (o : Outcome PackError α) (outcomes : List (Outcome PackError Unit)) : Prop :=
  (∀ a, o = .success a → OnlyTrailing outcomes) ∧
    (Resumes outcomes ∨ (∃ e, e ≠ .format ∧ .failure e ∈ outcomes) → ∀ a, o ≠ .success a)

variable {outcomes : List (Outcome PackError Unit)} {o : Outcome PackError Unit}

theorem resumes_cons : Resumes (o :: outcomes) ↔
    o = .failure .format ∧ .success () ∈ outcomes ∨ Resumes outcomes := by
  constructor
  · rintro ⟨before, between, behind, heq⟩
    cases before with
    | nil =>
        obtain ⟨rfl, rfl⟩ := List.cons.inj heq
        exact Or.inl ⟨rfl, by simp⟩
    | cons b before =>
        obtain ⟨rfl, rfl⟩ := List.cons.inj heq
        exact Or.inr ⟨before, between, behind, rfl⟩
  · rintro (⟨rfl, hmem⟩ | ⟨before, between, behind, rfl⟩)
    · obtain ⟨between, behind, rfl⟩ := List.append_of_mem hmem
      exact ⟨[], between, behind, rfl⟩
    · exact ⟨o :: before, between, behind, rfl⟩

theorem onlyTrailing_iff : OnlyTrailing outcomes ↔ Tolerated outcomes ∧ ¬Resumes outcomes := by
  induction outcomes with
  | nil =>
      refine iff_of_true ⟨0, 0, rfl⟩ ⟨by simp [Tolerated], ?_⟩
      rintro ⟨before, between, behind, heq⟩
      simp at heq
  | cons o outcomes ih =>
      have htolerated : Tolerated (o :: outcomes) ↔
          (o = .success () ∨ o = .failure .format) ∧ Tolerated outcomes := List.forall_mem_cons
      rw [htolerated, resumes_cons]
      constructor
      · rintro ⟨k, m, heq⟩
        cases k with
        | zero =>
            cases m with
            | zero => simp at heq
            | succ m =>
                obtain ⟨rfl, rfl⟩ := List.cons.inj heq
                have hnone : Outcome.success () ∉ List.replicate m (.failure PackError.format) := by
                  intro hmem
                  cases List.eq_of_mem_replicate hmem
                obtain ⟨htol, hres⟩ := ih.mp ⟨0, m, rfl⟩
                exact ⟨⟨Or.inr rfl, htol⟩, by simp [hnone, hres]⟩
        | succ k =>
            obtain ⟨rfl, rfl⟩ := List.cons.inj heq
            obtain ⟨htol, hres⟩ := ih.mp ⟨k, m, rfl⟩
            refine ⟨⟨Or.inl rfl, htol⟩, ?_⟩
            rintro (⟨hformat, -⟩ | h)
            · cases hformat
            · exact hres h
      · rintro ⟨⟨ho, htol⟩, hres⟩
        rw [not_or] at hres
        obtain ⟨k, m, heq⟩ := ih.mpr ⟨htol, hres.2⟩
        rcases ho with rfl | rfl
        · exact ⟨k + 1, m, by rw [heq]; rfl⟩
        · cases k with
          | zero => exact ⟨0, m + 1, by rw [heq]; rfl⟩
          | succ k => exact absurd ⟨rfl, by rw [heq]; simp⟩ hres.1

end Outcomes

section Loop
variable {dp : List LDescr} {state : ContState} {c : Cursor}

/-- What the loop leaves when all its outcomes are tolerated. -/
structure LoopEnd (state st : ContState) (outcomes : List (Outcome PackError Unit)) : Prop where
  onlyAtBufferend : st.onlyAtBufferend = state.onlyAtBufferend
  formatError : st.formatError = true ↔ state.formatError = true ∨ .failure .format ∈ outcomes
  lastError : st.formatError = false → state.lastError = none → st.lastError = none

/-- The result of the loop: the state at its end, or another error. -/
def LoopSpec (state : ContState) (outcomes : List (Outcome PackError Unit))
    (o : Outcome PackError (List (LMultiType D) × ContState)) : Prop :=
  (Tolerated outcomes ∧ ∃ cont st, o = .success (cont, st) ∧ LoopEnd state st outcomes) ∨
    ¬Tolerated outcomes ∧
      ∀ cont st, o = .success (cont, st) → st.onlyAtBufferend = false ∧ st.lastError ≠ none

theorem tolerated_cons_iff {o : Outcome PackError Unit} {outcomes : List (Outcome PackError Unit)}
    (ho : o = .success () ∨ o = .failure .format) :
    Tolerated (o :: outcomes) ↔ Tolerated outcomes :=
  List.forall_mem_cons.trans (and_iff_right ho)

theorem not_tolerated_singleton {o : Outcome PackError Unit} (hsuccess : o ≠ .success ())
    (hformat : o ≠ .failure .format) : ¬Tolerated [o] :=
  fun h => (h o List.mem_cons_self).elim hsuccess hformat

theorem LoopSpec.cons {o : Outcome PackError Unit} {outcomes : List (Outcome PackError Unit)}
    {state' : ContState} {r : Outcome PackError (List (LMultiType D) × ContState)}
    (ho : o = .success () ∨ o = .failure .format)
    (hend : ∀ st, LoopEnd state' st outcomes → LoopEnd state st (o :: outcomes))
    (h : LoopSpec state' outcomes r) : LoopSpec state (o :: outcomes) r := by
  rw [LoopSpec, tolerated_cons_iff ho]
  rcases h with ⟨htol, cont, st, hrun, hst⟩ | h
  · exact Or.inl ⟨htol, cont, st, hrun, hend st hst⟩
  · exact Or.inr h

theorem LoopSpec.map {value : LMultiType D} {outcomes : List (Outcome PackError Unit)}
    {loop : Unpack (List (LMultiType D) × ContState)} (h : LoopSpec state outcomes (loop c).1) :
    LoopSpec state outcomes ((do
      let (cont, state) ← loop
      pure (value :: cont, state)) c : _ × _).1 := by
  rw [bind_eq]
  cases hloop : loop c with
  | mk o c' =>
      rw [hloop] at h
      rcases h with ⟨htol, cont, st, hrun, hst⟩ | ⟨htol, hall⟩
      · cases hrun
        exact Or.inl ⟨htol, _, st, rfl, hst⟩
      · refine Or.inr ⟨htol, ?_⟩
        intro cont st hrun
        cases o with
        | success p =>
            cases hrun
            exact hall p.1 p.2 rfl
        | failure e => cases hrun
        | overrun => cases hrun
        | noFuel => cases hrun

theorem LoopEnd.success {st : ContState} {outcomes : List (Outcome PackError Unit)}
    (h : LoopEnd { state with lastError := none } st outcomes) :
    LoopEnd state st (.success () :: outcomes) := by
  refine ⟨h.onlyAtBufferend, ?_, fun hformat _ => h.lastError hformat rfl⟩
  rw [h.formatError, List.mem_cons]
  simp

theorem LoopEnd.format {st : ContState} {outcomes : List (Outcome PackError Unit)}
    (h : LoopEnd { state with formatError := true, lastError := some .format } st outcomes) :
    LoopEnd state st (.failure .format :: outcomes) := by
  have hformat : st.formatError = true := h.formatError.mpr (Or.inl rfl)
  refine ⟨h.onlyAtBufferend, iff_of_true hformat (Or.inr List.mem_cons_self), fun hfalse _ => ?_⟩
  rw [hformat] at hfalse
  cases hfalse

theorem cullUnpackContLoop_spec (dp : List LDescr) (state : ContState) (c : Cursor) :
    LoopSpec state (attributeOutcomes unpackSwitch flags dp c)
      (cullUnpackContLoop xdr unpackSwitch flags dp state c).1 := by
  induction dp generalizing state c with
  | nil =>
      refine Or.inl ⟨by simp [Tolerated, attributeOutcomes], [], state, rfl, rfl, ?_, fun _ h => h⟩
      simp [attributeOutcomes]
  | cons field dp ih =>
      unfold cullUnpackContLoop attributeOutcomes
      by_cases hsel : isSelected flags field.mt
      · simp only [hsel, if_true]
        rw [bind_eq]
        unfold Reader.attempt
        cases hrun : unpackSwitch (mtGetType field.mt) c with
        | mk o c' =>
            cases o with
            | success value => exact (ih _ c').map.cons (Or.inl rfl) fun _ => LoopEnd.success
            | failure e =>
                by_cases he : e = .format
                · subst he
                  exact (ih _ c').map.cons (Or.inr rfl) fun _ => LoopEnd.format
                · have hother : ¬Tolerated [.failure e] :=
                    not_tolerated_singleton nofun fun h => he (Outcome.failure.inj h)
                  cases e with
                  | format => exact absurd rfl he
                  | enomem | badarg | version =>
                      refine Or.inr ⟨hother, ?_⟩
                      intro cont st hst
                      cases hst
                      exact ⟨rfl, nofun⟩
            | overrun => exact Or.inr ⟨not_tolerated_singleton nofun nofun, nofun⟩
            | noFuel => exact Or.inr ⟨not_tolerated_singleton nofun nofun, nofun⟩
      · simp only [hsel]
        exact (ih state c).map

theorem cullUnpackCont_success_iff (dp : List LDescr) (c : Cursor) :
    (∃ cont, (cullUnpackCont xdr unpackSwitch flags dp c).1 = .success cont) ↔
      Tolerated (attributeOutcomes unpackSwitch flags (lDescrFields dp) c) := by
  have hspec := @cullUnpackContLoop_spec D xdr unpackSwitch flags (lDescrFields dp)
    ⟨true, false, none⟩ c
  unfold cullUnpackCont
  rw [bind_eq]
  cases hloop : cullUnpackContLoop xdr unpackSwitch flags (lDescrFields dp) ⟨true, false, none⟩ c with
  | mk o c' =>
      rw [hloop] at hspec
      rcases hspec with ⟨htol, cont, st, hrun, hst⟩ | ⟨htol, hall⟩
      · cases hrun
        have honly : st.onlyAtBufferend = true := hst.onlyAtBufferend
        refine iff_of_true ⟨cont, ?_⟩ htol
        cases hformat : st.formatError with
        | true =>
            simp only [hformat, honly, Bool.and_self, if_true]
            rfl
        | false =>
            have hlast := hst.lastError hformat rfl
            simp only [hformat, honly, hlast, Bool.false_and, Bool.false_eq_true, if_false, if_true]
            rfl
      · refine iff_of_false ?_ htol
        rintro ⟨cont, hcont⟩
        cases o with
        | success p =>
            obtain ⟨honly, hlast⟩ := hall p.1 p.2 rfl
            obtain ⟨e, he⟩ := Option.ne_none_iff_exists'.mp hlast
            simp only [honly, he, Bool.and_false, Bool.false_eq_true, if_false] at hcont
            cases hcont
        | failure e => cases hcont
        | overrun => cases hcont
        | noFuel => cases hcont

theorem forgivesTrailing_iff (dp : List LDescr) (c : Cursor) :
    ForgivesTrailing (cullUnpackCont xdr unpackSwitch flags dp c).1
        (attributeOutcomes unpackSwitch flags (lDescrFields dp) c) ↔
      ¬(Tolerated (attributeOutcomes unpackSwitch flags (lDescrFields dp) c) ∧
        Resumes (attributeOutcomes unpackSwitch flags (lDescrFields dp) c)) := by
  have hsuccess := @cullUnpackCont_success_iff D xdr unpackSwitch flags dp c
  constructor
  · rintro ⟨-, herror⟩ ⟨htol, hres⟩
    obtain ⟨cont, hcont⟩ := hsuccess.mpr htol
    exact herror (Or.inl hres) cont hcont
  · intro hcond
    refine ⟨fun cont hcont => ?_, fun hbad cont hcont => ?_⟩
    · have htol := hsuccess.mp ⟨cont, hcont⟩
      exact onlyTrailing_iff.mpr ⟨htol, fun hres => hcond ⟨htol, hres⟩⟩
    · have htol := hsuccess.mp ⟨cont, hcont⟩
      rcases hbad with hres | ⟨e, he, hmem⟩
      · exact hcond ⟨htol, hres⟩
      · rcases htol _ hmem with h | h
        · cases h
        · exact he (Outcome.failure.inj h)

end Loop

end GridEngine
