import GridEngine.CullUnpack

/-!
# The round trip of lists

A list that is packed and unpacked comes back with the same names, types, elements and values.
References and empty strings become `NULL`, fields that the mask leaves out are cleared, and
descriptors may get the mark `CULL_IS_REDUCED`. The proof is by induction on the nesting of lists
and objects.
-/

namespace GridEngine
open ByteReader.Reader

variable {D : Type} {xdr : Xdr D} {ns : Option (List LNameSpace)} {flags : UInt32}

section Values

mutual

/-- The nesting of lists and objects. -/
def LMultiType.depth : LMultiType D → ℕ
  | .glp _ _ _ elems => elemsDepth elems + 1
  | .obj _ cont => contDepth cont + 1
  | .nullList => 1
  | .nullObject => 1
  | _ => 0

def contDepth : List (LMultiType D) → ℕ
  | [] => 0
  | value :: cont => max value.depth (contDepth cont)

def elemsDepth : List (List (LMultiType D)) → ℕ
  | [] => 0
  | cont :: elems => max (contDepth cont) (elemsDepth elems)

end

/-- A descriptor that can be unpacked. -/
structure DescrOk (dp : List LDescr) : Prop where
  size : dp.length < MAX_DESCR_SIZE
  types : ∀ field ∈ dp, mtGetType field.mt ≠ .lEndT

mutual

/-- The value belongs to a field of the type; all descriptors in it can be unpacked, and the
numbers of elements are integers. -/
def LMultiType.Fits : LType → LMultiType D → Prop
  | .lBoolT, .b _ => True
  | .lUlongT, .ul _ => True
  | .lDoubleT, .db _ => True
  | .lStringT, .str _ => True
  | .lHostT, .host _ => True
  | .lRefT, .ref _ => True
  | .lListT, .nullList => True
  | .lListT, .glp _ _ descr elems => DescrOk descr ∧ elems.length < 2 ^ 31 ∧ ElemsFit descr elems
  | .lObjectT, .nullObject => True
  | .lObjectT, .obj descr cont => DescrOk descr ∧ ContFits descr cont
  | _, _ => False

def ContFits : List LDescr → List (LMultiType D) → Prop
  | [], [] => True
  | field :: dp, value :: cont => value.Fits (mtGetType field.mt) ∧ ContFits dp cont
  | _, _ => False

def ElemsFit (descr : List LDescr) : List (List (LMultiType D)) → Prop
  | [] => True
  | cont :: elems => ContFits descr cont ∧ ElemsFit descr elems

end

mutual

/-- What arrives for a packed value. -/
def received (xdr : Xdr D) (ns : Option (List LNameSpace)) (flags : UInt32) :
    LMultiType D → LMultiType D
  | .str value => .str (receivedString value)
  | .host value => .host (receivedString value)
  | .glp listname changed descr elems =>
      .glp (receivedString listname) (changed || !elems.isEmpty) (markReduced ns descr)
        (receivedElems xdr ns flags descr elems)
  | .obj descr cont => .obj (markReduced ns descr) (receivedCont xdr ns flags descr cont)
  | .ref _ => .ref 0
  | value => value

def receivedCont (xdr : Xdr D) (ns : Option (List LNameSpace)) (flags : UInt32) :
    List LDescr → List (LMultiType D) → List (LMultiType D)
  | field :: dp, value :: cont =>
      (if isSelected flags field.mt then received xdr ns flags value
        else clearedField xdr (mtGetType field.mt)) :: receivedCont xdr ns flags dp cont
  | _, _ => []

def receivedElems (xdr : Xdr D) (ns : Option (List LNameSpace)) (flags : UInt32)
    (descr : List LDescr) : List (List (LMultiType D)) → List (List (LMultiType D))
  | [] => []
  | cont :: elems => receivedCont xdr ns flags descr cont :: receivedElems xdr ns flags descr elems

end

mutual

/-- As `Fits`, where fields may hold numbers of 64 bits as well. -/
def LMultiType.WideFits : LType → LMultiType D → Prop
  | .lUlong64T, .ul64 _ => True
  | .lListT, .glp _ _ descr elems => DescrOk descr ∧ elems.length < 2 ^ 31 ∧ ElemsWideFit descr elems
  | .lObjectT, .obj descr cont => DescrOk descr ∧ ContWideFits descr cont
  | .lBoolT, .b _ => True
  | .lUlongT, .ul _ => True
  | .lDoubleT, .db _ => True
  | .lStringT, .str _ => True
  | .lHostT, .host _ => True
  | .lRefT, .ref _ => True
  | .lListT, .nullList => True
  | .lObjectT, .nullObject => True
  | _, _ => False

def ContWideFits : List LDescr → List (LMultiType D) → Prop
  | [], [] => True
  | field :: dp, value :: cont => value.WideFits (mtGetType field.mt) ∧ ContWideFits dp cont
  | _, _ => False

def ElemsWideFit (descr : List LDescr) : List (List (LMultiType D)) → Prop
  | [] => True
  | cont :: elems => ContWideFits descr cont ∧ ElemsWideFit descr elems

end

mutual

/-- As `received`, with what the buffer leaves of numbers of 64 bits. -/
def arrived (xdr : Xdr D) (ns : Option (List LNameSpace)) (flags : UInt32) :
    LMultiType D → LMultiType D
  | .ul64 value => .ul64 (lowWord value)
  | .str value => .str (receivedString value)
  | .host value => .host (receivedString value)
  | .glp listname changed descr elems =>
      .glp (receivedString listname) (changed || !elems.isEmpty) (markReduced ns descr)
        (arrivedElems xdr ns flags descr elems)
  | .obj descr cont => .obj (markReduced ns descr) (arrivedCont xdr ns flags descr cont)
  | .ref _ => .ref 0
  | value => value

def arrivedCont (xdr : Xdr D) (ns : Option (List LNameSpace)) (flags : UInt32) :
    List LDescr → List (LMultiType D) → List (LMultiType D)
  | field :: dp, value :: cont =>
      (if isSelected flags field.mt then arrived xdr ns flags value
        else clearedField xdr (mtGetType field.mt)) :: arrivedCont xdr ns flags dp cont
  | _, _ => []

def arrivedElems (xdr : Xdr D) (ns : Option (List LNameSpace)) (flags : UInt32)
    (descr : List LDescr) : List (List (LMultiType D)) → List (List (LMultiType D))
  | [] => []
  | cont :: elems => arrivedCont xdr ns flags descr cont :: arrivedElems xdr ns flags descr elems

end

mutual

/-- The numbers of 64 bits that are packed are below `2 ^ 32`. -/
def LMultiType.Narrow (flags : UInt32) : LMultiType D → Prop
  | .ul64 value => value.toNat < 2 ^ 32
  | .glp _ _ descr elems => ElemsNarrow flags descr elems
  | .obj descr cont => ContNarrow flags descr cont
  | _ => True

def ContNarrow (flags : UInt32) : List LDescr → List (LMultiType D) → Prop
  | field :: dp, value :: cont =>
      (isSelected flags field.mt → value.Narrow flags) ∧ ContNarrow flags dp cont
  | _, _ => True

def ElemsNarrow (flags : UInt32) (descr : List LDescr) : List (List (LMultiType D)) → Prop
  | [] => True
  | cont :: elems => ContNarrow flags descr cont ∧ ElemsNarrow flags descr elems

end

end Values

section Descr
variable {dp : List LDescr}

theorem DescrOk.fields (h : DescrOk dp) : lDescrFields dp = dp := by
  apply List.takeWhile_eq_self_iff.mpr
  intro field hfield
  simpa using h.types field hfield

theorem DescrOk.count (h : DescrOk dp) : lCountDescr dp = dp.length := by
  rw [lCountDescr, h.fields]

theorem DescrOk.markReduced (h : DescrOk dp) : DescrOk (markReduced ns dp) := by
  constructor
  · rw [GridEngine.markReduced, List.length_map]
    exact h.size
  · intro field hfield
    have htypes : mtGetType field.mt ∈ dp.map fun field => mtGetType field.mt := by
      rw [← markReduced_types ns]
      exact List.mem_map_of_mem hfield
    obtain ⟨field', hfield', heq⟩ := List.mem_map.mp htypes
    rw [← heq]
    exact h.types field' hfield'

theorem toNat_ofNat_of_lt {n : ℕ} (h : n < 2 ^ 32) : (UInt32.ofNat n).toNat = n := by
  rw [UInt32.toNat_ofNat', Nat.mod_eq_of_lt h]

theorem cullUnpackField_reads (field : LDescr) :
    cullUnpackField.Reads (packint field.nm ++ packint field.mt) field :=
  (unpackint_reads field.nm).bind (unpackint_reads field.mt).map

theorem cullUnpackDescr_reads (h : DescrOk dp) :
    (cullUnpackDescr ns).Reads (cullPackDescr dp) (markReduced ns dp) := by
  have hsize : dp.length < 200 := h.size
  have hcount : (UInt32.ofNat (lCountDescr dp)).toNat = dp.length := by
    rw [h.count]
    exact toNat_ofNat_of_lt (by omega)
  unfold cullUnpackDescr cullPackDescr
  apply (unpackint_reads _).bind
  rw [hcount, if_neg (by simp only [MAX_DESCR_SIZE]; omega), h.fields]
  have hfields : (many cullUnpackField dp.length).Reads
      (dp.flatMap fun field => packint field.nm ++ packint field.mt) (dp.map fun field => field) :=
    Reads.many fun field _ => cullUnpackField_reads field
  rw [List.map_id'] at hfields
  exact hfields.map

/-- A descriptor with too many fields is refused after its number of fields. -/
theorem cullUnpackDescr_rejects (hsize : MAX_DESCR_SIZE ≤ dp.length) (hlen : dp.length < 2 ^ 32)
    (htypes : ∀ field ∈ dp, mtGetType field.mt ≠ .lEndT) :
    (cullUnpackDescr ns).Rejects (cullPackDescr dp) .enomem := by
  have hfields : lDescrFields dp = dp :=
    List.takeWhile_eq_self_iff.mpr fun field hfield => by simpa using htypes field hfield
  have hcount : (UInt32.ofNat (lCountDescr dp)).toNat = dp.length := by
    rw [lCountDescr, hfields, toNat_ofNat_of_lt hlen]
  unfold cullUnpackDescr cullPackDescr
  apply (unpackint_reads _).rejects
  rw [hcount, if_pos (by simp only [MAX_DESCR_SIZE] at hsize ⊢; omega)]
  exact Rejects.fail _ _

/-- The empty bit field in front of the contents. -/
theorem elemHead_reads (h : DescrOk dp) :
    (unpackbitfield (lCountDescr (GridEngine.markReduced ns dp))).Reads
      (packbitfield (sgeBitfieldInit (lCountDescr dp)))
      (sgeBitfieldInit (lCountDescr dp)).buffer := by
  have hsize : dp.length < 200 := h.size
  apply unpackbitfield_reads
  · show lCountDescr dp < 2 ^ 32
    rw [h.count]
    omega
  · show lCountDescr dp ≤ _
    rw [h.count, h.markReduced.count, GridEngine.markReduced, List.length_map]

end Descr

section Travels
variable {α : Type}

/-- Packing succeeds, and unpacking reads what was packed when it fits into a message. -/
def Travels (pack : Except PackError (List UInt8)) (unpack : Unpack α) (a : α) : Prop :=
  ∃ bytes, pack = .ok bytes ∧ (bytes.length < 2 ^ 32 → unpack.Reads bytes a)

theorem charToUlong_toUInt8 (b : UInt8) : (charToUlong b).toUInt8 = b := by
  apply UInt8.toNat_inj.mp
  have hb : b.toNat < 2 ^ 8 := b.toNat_lt
  unfold charToUlong
  split_ifs
  · simp only [UInt32.toNat_toUInt8, UInt8.toNat_toUInt32]
    omega
  · simp only [UInt32.toNat_toUInt8, UInt32.toNat_add, UInt8.toNat_toUInt32, UInt32.reduceToNat]
    omega

end Travels

section Scalar

/-- The type of the field that a value belongs to. -/
def LMultiType.kind : LMultiType D → LType
  | .b _ => .lBoolT
  | .ul _ => .lUlongT
  | .ul64 _ => .lUlong64T
  | .db _ => .lDoubleT
  | .str _ => .lStringT
  | .host _ => .lHostT
  | .nullList => .lListT
  | .glp _ _ _ _ => .lListT
  | .nullObject => .lObjectT
  | .obj _ _ => .lObjectT
  | .ref _ => .lRefT

theorem LMultiType.WideFits.kind {type : LType} {value : LMultiType D} (h : value.WideFits type) :
    type = value.kind := by
  cases value <;> cases type <;> first | rfl | exact absurd h (by simp [LMultiType.WideFits])

variable {unpackList unpackObject : Unpack (LMultiType D)}

/-- The values that are neither lists nor objects. -/
def LMultiType.IsScalar : LMultiType D → Prop
  | .nullList => False
  | .glp _ _ _ _ => False
  | .nullObject => False
  | .obj _ _ => False
  | _ => True

theorem cullUnpackScalar_travels {type : LType} {value : LMultiType D} (hfits : value.WideFits type)
    (hscalar : value.IsScalar) :
    Travels (cullPackSwitch xdr flags type value)
      (cullUnpackSwitchWith xdr unpackList unpackObject type) (arrived xdr ns flags value) := by
  cases value with
  | b value =>
      cases hfits.kind
      refine ⟨packint (charToUlong value), by simp only [LMultiType.kind, cullPackSwitch], fun _ => ?_⟩
      have h := (unpackint_reads (charToUlong value)).map (g := fun i => LMultiType.b (D := D) i.toUInt8)
      rw [charToUlong_toUInt8] at h
      simpa only [LMultiType.kind, cullUnpackSwitchWith, arrived] using h
  | ul value =>
      cases hfits.kind
      refine ⟨packint value, by simp only [LMultiType.kind, cullPackSwitch], fun _ => ?_⟩
      simp only [arrived]
      exact (unpackint_reads value).map
  | ul64 value =>
      cases hfits.kind
      refine ⟨packint64 value, by simp only [LMultiType.kind, cullPackSwitch], fun _ => ?_⟩
      simp only [arrived]
      exact (unpackint64_reads value).map
  | db value =>
      cases hfits.kind
      refine ⟨packdouble xdr value, by simp only [LMultiType.kind, cullPackSwitch], fun _ => ?_⟩
      simp only [arrived]
      exact (unpackdouble_reads xdr value).map
  | str value =>
      cases hfits.kind
      refine ⟨packstr value, by simp only [LMultiType.kind, cullPackSwitch], fun hlen => ?_⟩
      simp only [arrived]
      exact (unpackstr_reads hlen).map
  | host value =>
      cases hfits.kind
      refine ⟨packstr value, by simp only [LMultiType.kind, cullPackSwitch], fun hlen => ?_⟩
      simp only [arrived]
      exact (unpackstr_reads hlen).map
  | ref value =>
      cases hfits.kind
      refine ⟨[], by simp only [LMultiType.kind, cullPackSwitch], fun _ => ?_⟩
      simp only [arrived]
      exact Reads.pure _
  | nullList => exact hscalar.elim
  | glp => exact hscalar.elim
  | nullObject => exact hscalar.elim
  | obj => exact hscalar.elim

end Scalar

section Cont
variable {dp : List LDescr} {unpackSwitch : LType → Unpack (LMultiType D)} {mark : UInt32}

/-- The fields of an element, over a descriptor with any mark that masks and types ignore. -/
theorem cullUnpackContLoop_travels (htype : ∀ mt, mtGetType (mt ||| mark) = mtGetType mt)
    (hselected : ∀ mt, isSelected flags (mt ||| mark) = isSelected flags mt) (fuel : ℕ)
    (hswitch : ∀ type (value : LMultiType D), value.WideFits type → value.depth ≤ fuel →
      Travels (cullPackSwitch xdr flags type value) (unpackSwitch type)
        (arrived xdr ns flags value))
    (cont : List (LMultiType D)) (hfits : ContWideFits dp cont) (hdepth : contDepth cont ≤ fuel) :
    Travels (cullPackCont xdr flags dp cont)
      (cullUnpackContLoop xdr unpackSwitch flags
        (dp.map fun field => { field with mt := field.mt ||| mark }) ⟨true, false, none⟩)
      (arrivedCont xdr ns flags dp cont, ⟨true, false, none⟩) := by
  induction dp generalizing cont with
  | nil =>
      cases cont with
      | nil =>
          refine ⟨[], by simp only [cullPackCont], fun _ => ?_⟩
          simp only [List.map_nil, cullUnpackContLoop, arrivedCont]
          exact Reads.pure _
      | cons value cont => exact absurd hfits (by simp [ContWideFits])
  | cons field dp ih =>
      cases cont with
      | nil => exact absurd hfits (by simp [ContWideFits])
      | cons value cont =>
          simp only [ContWideFits] at hfits
          simp only [contDepth, Nat.max_le] at hdepth
          obtain ⟨rest, hrest, hrestReads⟩ := ih cont hfits.2 hdepth.2
          simp only [List.map_cons, cullUnpackContLoop, arrivedCont, cullPackCont, hselected, htype]
          by_cases hsel : isSelected flags field.mt
          · obtain ⟨bytes, hbytes, hreads⟩ := hswitch _ value hfits.1 hdepth.1
            simp only [hsel, if_true]
            refine ⟨bytes ++ rest, by rw [hbytes, hrest]; rfl, fun hlen => ?_⟩
            rw [List.length_append] at hlen
            apply (hreads (by omega)).attempt.bind
            exact (hrestReads (by omega)).map
          · simp only [hsel]
            exact ⟨rest, hrest, fun hlen => (hrestReads hlen).map⟩

end Cont

section Elems
variable {descr : List LDescr} {unpackSwitch : LType → Unpack (LMultiType D)} {fuel : ℕ}

/-- The mark of `markReduced` is ignored by types and by masks without it. -/
theorem reducedMark (hflags : CULL_IS_REDUCED &&& flags = 0) (ns : Option (List LNameSpace))
    (dp : List LDescr) : ∃ mark,
      markReduced ns dp = dp.map (fun field => { field with mt := field.mt ||| mark }) ∧
      (∀ mt, mtGetType (mt ||| mark) = mtGetType mt) ∧
      ∀ mt, isSelected flags (mt ||| mark) = isSelected flags mt := by
  refine ⟨if isReduced ns dp then CULL_IS_REDUCED else 0, rfl, ?_⟩
  split_ifs
  · exact ⟨mtGetType_reduced, isSelected_reduced hflags⟩
  · simp only [UInt32.or_zero, implies_true, and_self]

/-- What the functions for lists and objects need of the inner level. -/
def InnerTravels (xdr : Xdr D) (ns : Option (List LNameSpace)) (flags : UInt32) (fuel : ℕ)
    (unpackSwitch : LType → Unpack (LMultiType D)) : Prop :=
  ∀ type (value : LMultiType D), value.WideFits type → value.depth ≤ fuel →
    Travels (cullPackSwitch xdr flags type value) (unpackSwitch type) (arrived xdr ns flags value)

theorem cullUnpackCont_travels (hflags : CULL_IS_REDUCED &&& flags = 0) (hdescr : DescrOk descr)
    (hinner : InnerTravels xdr ns flags fuel unpackSwitch) {cont : List (LMultiType D)}
    (hfits : ContWideFits descr cont) (hdepth : contDepth cont ≤ fuel) :
    Travels (cullPackCont xdr flags descr cont)
      (cullUnpackCont xdr unpackSwitch flags (markReduced ns descr))
      (arrivedCont xdr ns flags descr cont) := by
  obtain ⟨mark, hmark, htype, hselected⟩ := reducedMark hflags ns descr
  obtain ⟨bytes, hbytes, hreads⟩ :=
    cullUnpackContLoop_travels htype hselected fuel hinner cont hfits hdepth
  refine ⟨bytes, hbytes, fun hlen => ?_⟩
  unfold cullUnpackCont
  rw [hdescr.markReduced.fields, hmark]
  exact (hreads hlen).bind_nil (Reads.pure _)

theorem cullUnpackElem_travels (hflags : CULL_IS_REDUCED &&& flags = 0) (hdescr : DescrOk descr)
    (hinner : InnerTravels xdr ns flags fuel unpackSwitch) {cont : List (LMultiType D)}
    (hfits : ContWideFits descr cont) (hdepth : contDepth cont ≤ fuel) {status : UInt32}
    (hstatus : status = BOUND_ELEM ∨ status = OBJECT_ELEM) :
    ∃ bytes, cullPackCont xdr flags (lDescrFields descr) cont = .ok bytes ∧
      (bytes.length < 2 ^ 32 →
        (cullUnpackElemWith xdr ns unpackSwitch flags (some (markReduced ns descr))).Reads
          (cullPackElemHead status descr ++ bytes)
          ⟨TRANS_BOUND_ELEM, markReduced ns descr, arrivedCont xdr ns flags descr cont⟩) := by
  obtain ⟨bytes, hbytes, hreads⟩ := cullUnpackCont_travels hflags hdescr hinner hfits hdepth
  refine ⟨bytes, by rw [hdescr.fields, hbytes], fun hlen => ?_⟩
  have hfree : status ≠ FREE_ELEM := by
    rcases hstatus with rfl | rfl <;> decide
  unfold cullUnpackElemWith cullPackElemHead cullUnpackElemDescr
  rw [List.append_assoc]
  apply (unpackint_reads status).bind
  simp only [hfree, if_false, hstatus, if_true]
  exact (elemHead_reads hdescr).bind (hreads hlen).map

theorem cullUnpackElems_travels (hflags : CULL_IS_REDUCED &&& flags = 0) (hdescr : DescrOk descr)
    (hinner : InnerTravels xdr ns flags fuel unpackSwitch) (elems : List (List (LMultiType D)))
    (hfits : ElemsWideFit descr elems) (hdepth : elemsDepth elems ≤ fuel) :
    Travels (cullPackElems xdr flags descr elems)
      (many (cullUnpackElemWith xdr ns unpackSwitch flags (some (markReduced ns descr)))
        elems.length)
      ((arrivedElems xdr ns flags descr elems).map fun cont =>
        ⟨TRANS_BOUND_ELEM, markReduced ns descr, cont⟩) := by
  induction elems with
  | nil =>
      refine ⟨[], by simp only [cullPackElems], fun _ => ?_⟩
      simp only [arrivedElems]
      exact Reads.pure []
  | cons cont elems ih =>
      simp only [ElemsWideFit] at hfits
      simp only [elemsDepth, Nat.max_le] at hdepth
      obtain ⟨rest, hrest, hrestReads⟩ := ih hfits.2 hdepth.2
      obtain ⟨bytes, hbytes, hreads⟩ :=
        cullUnpackElem_travels hflags hdescr hinner hfits.1 hdepth.1 (Or.inl rfl)
      refine ⟨cullPackElemHead BOUND_ELEM descr ++ bytes ++ rest, ?_, fun hlen => ?_⟩
      · simp only [cullPackElems, hbytes, hrest]
        rfl
      · simp only [List.length_append] at hlen
        simp only [arrivedElems]
        exact (hreads (by omega)).bind (hrestReads (by omega)).map

theorem arrivedElems_isEmpty (descr : List LDescr) (elems : List (List (LMultiType D))) :
    (arrivedElems xdr ns flags descr elems).isEmpty = elems.isEmpty := by
  cases elems <;> simp [arrivedElems]

theorem cullUnpackList_travels (hflags : CULL_IS_REDUCED &&& flags = 0)
    (hinner : InnerTravels xdr ns flags fuel unpackSwitch) {list : LMultiType D}
    (hfits : list.WideFits .lListT) (hdepth : list.depth ≤ fuel + 1) :
    Travels (cullPackSwitch xdr flags .lListT list)
      (cullUnpackListWith xdr ns unpackSwitch flags) (arrived xdr ns flags list) := by
  cases list with
  | nullList =>
      refine ⟨packint 0, by simp only [cullPackSwitch], fun _ => ?_⟩
      simp only [arrived]
      exact (unpackint_reads 0).bind_nil (Reads.pure _)
  | glp listname changed descr elems =>
      simp only [LMultiType.WideFits] at hfits
      simp only [LMultiType.depth, Nat.add_le_add_iff_right] at hdepth
      obtain ⟨hdescr, hcount, helems⟩ := hfits
      obtain ⟨body, hbody, hreads⟩ := cullUnpackElems_travels hflags hdescr hinner elems helems hdepth
      refine ⟨cullPackListHead elems.length listname changed descr ++ body, ?_, fun hlen => ?_⟩
      · simp only [cullPackSwitch, hbody]
        rfl
      · have hn : (UInt32.ofNat elems.length).toNat = elems.length :=
          toNat_ofNat_of_lt (by omega)
        have hchanged : ((if changed then 1 else 0 : UInt32) ≠ 0 : Bool) = changed := by
          cases changed <;> decide
        simp only [cullPackListHead, List.length_append] at hlen
        simp only [arrived, cullPackListHead, List.append_assoc]
        unfold cullUnpackListWith
        apply (unpackint_reads 1).bind
        apply (unpackint_reads _).bind
        apply (unpackstr_reads (by omega)).bind
        apply (unpackint_reads _).bind
        apply (cullUnpackDescr_reads hdescr).bind
        rw [hn]
        have h := (hreads (by omega)).map (g := fun elems : List (LListElem D) =>
          LMultiType.glp (receivedString listname)
            ((if changed then 1 else 0 : UInt32) ≠ 0 || !elems.isEmpty) (markReduced ns descr)
            (elems.map LListElem.cont))
        rw [hchanged, List.isEmpty_map, arrivedElems_isEmpty, List.map_map] at h
        simpa [Function.comp_def] using h
  | _ => exact absurd hfits (by simp [LMultiType.WideFits])

theorem cullUnpackObject_travels (hflags : CULL_IS_REDUCED &&& flags = 0)
    (hinner : InnerTravels xdr ns flags fuel unpackSwitch) {object : LMultiType D}
    (hfits : object.WideFits .lObjectT) (hdepth : object.depth ≤ fuel + 1) :
    Travels (cullPackSwitch xdr flags .lObjectT object)
      (cullUnpackObjectWith xdr ns unpackSwitch flags) (arrived xdr ns flags object) := by
  cases object with
  | nullObject =>
      refine ⟨packint 0, by simp only [cullPackSwitch], fun _ => ?_⟩
      simp only [arrived]
      exact (unpackint_reads 0).bind_nil (Reads.pure _)
  | obj descr cont =>
      simp only [LMultiType.WideFits] at hfits
      simp only [LMultiType.depth, Nat.add_le_add_iff_right] at hdepth
      obtain ⟨hdescr, hcont⟩ := hfits
      obtain ⟨body, hbody, hreads⟩ :=
        cullUnpackElem_travels hflags hdescr hinner hcont hdepth (Or.inr rfl)
      refine ⟨packint 1 ++ (cullPackDescr descr ++ (cullPackElemHead OBJECT_ELEM descr ++ body)),
        ?_, fun hlen => ?_⟩
      · simp only [cullPackSwitch, hbody]
        rfl
      · simp only [List.length_append] at hlen
        simp only [arrived]
        apply (unpackint_reads 1).bind
        apply (cullUnpackDescr_reads hdescr).bind
        exact (hreads (by omega)).map
  | _ => exact absurd hfits (by simp [LMultiType.WideFits])

theorem cullUnpackSwitch_travels (hflags : CULL_IS_REDUCED &&& flags = 0) (fuel : ℕ) :
    InnerTravels xdr ns flags fuel (cullUnpackSwitch xdr ns flags fuel) := by
  induction fuel with
  | zero =>
      intro type value hfits hdepth
      cases value with
      | nullList => exact absurd hdepth (by simp [LMultiType.depth])
      | glp => exact absurd hdepth (by simp [LMultiType.depth])
      | nullObject => exact absurd hdepth (by simp [LMultiType.depth])
      | obj => exact absurd hdepth (by simp [LMultiType.depth])
      | _ => exact cullUnpackScalar_travels hfits trivial
  | succ fuel ih =>
      intro type value hfits hdepth
      cases value with
      | nullList =>
          cases hfits.kind
          exact cullUnpackList_travels hflags ih hfits hdepth
      | glp =>
          cases hfits.kind
          exact cullUnpackList_travels hflags ih hfits hdepth
      | nullObject =>
          cases hfits.kind
          exact cullUnpackObject_travels hflags ih hfits hdepth
      | obj =>
          cases hfits.kind
          exact cullUnpackObject_travels hflags ih hfits hdepth
      | _ => exact cullUnpackScalar_travels hfits trivial

end Elems

section Narrow

/-- What arrives is what was expected exactly when the numbers are small. -/
theorem scalarArrived_iff {value : LMultiType D} (h : value.IsScalar) :
    arrived xdr ns flags value = received xdr ns flags value ↔ value.Narrow flags := by
  cases value with
  | ul64 value => simp only [arrived, received, LMultiType.Narrow, LMultiType.ul64.injEq, lowWord_eq_iff]
  | nullList | glp | nullObject | obj => exact h.elim
  | _ => simp only [arrived, received, LMultiType.Narrow]

mutual

theorem arrived_eq_received_iff : ∀ value : LMultiType D,
    arrived xdr ns flags value = received xdr ns flags value ↔ value.Narrow flags
  | .glp _ _ descr elems => by
      have helems := arrivedElems_eq_iff descr elems
      simp only [arrived, received, LMultiType.Narrow, LMultiType.glp.injEq, true_and, helems]
  | .obj descr cont => by
      have hcont := arrivedCont_eq_iff descr cont
      simp only [arrived, received, LMultiType.Narrow, LMultiType.obj.injEq, true_and, hcont]
  | .nullList | .nullObject => by simp only [arrived, received, LMultiType.Narrow]
  | .b _ | .ul _ | .ul64 _ | .db _ | .str _ | .host _ | .ref _ => scalarArrived_iff trivial

theorem arrivedCont_eq_iff : ∀ (dp : List LDescr) (cont : List (LMultiType D)),
    arrivedCont xdr ns flags dp cont = receivedCont xdr ns flags dp cont ↔ ContNarrow flags dp cont
  | field :: dp, value :: cont => by
      have hvalue := arrived_eq_received_iff value
      have hcont := arrivedCont_eq_iff dp cont
      simp only [arrivedCont, receivedCont, ContNarrow, List.cons.injEq, hcont]
      by_cases hsel : isSelected flags field.mt
      · simp only [hsel, if_true, hvalue, forall_const]
      · simp only [hsel, false_implies, Bool.false_eq_true, if_false]
  | [], [] | [], _ :: _ | _ :: _, [] => by simp only [arrivedCont, receivedCont, ContNarrow]

theorem arrivedElems_eq_iff : ∀ (descr : List LDescr) (elems : List (List (LMultiType D))),
    arrivedElems xdr ns flags descr elems = receivedElems xdr ns flags descr elems ↔
      ElemsNarrow flags descr elems
  | descr, [] => by simp only [arrivedElems, receivedElems, ElemsNarrow]
  | descr, cont :: elems => by
      have hcont := arrivedCont_eq_iff descr cont
      have helems := arrivedElems_eq_iff descr elems
      simp only [arrivedElems, receivedElems, ElemsNarrow, List.cons.injEq, hcont, helems]

end

theorem LMultiType.Fits.kind {type : LType} {value : LMultiType D} (h : value.Fits type) :
    type = value.kind := by
  cases value <;> cases type <;> first | rfl | exact absurd h (by simp [LMultiType.Fits])

mutual

theorem fits_wide : ∀ {type : LType} (value : LMultiType D), value.Fits type →
    value.WideFits type ∧ value.Narrow flags
  | type, .glp _ _ descr elems, h => by
      cases h.kind
      simp only [LMultiType.kind, LMultiType.Fits] at h
      have helems := elemsFit_wide descr elems h.2.2
      simp only [LMultiType.kind, LMultiType.WideFits, LMultiType.Narrow]
      exact ⟨⟨h.1, h.2.1, helems.1⟩, helems.2⟩
  | type, .obj descr cont, h => by
      cases h.kind
      simp only [LMultiType.kind, LMultiType.Fits] at h
      have hcont := contFits_wide descr cont h.2
      simp only [LMultiType.kind, LMultiType.WideFits, LMultiType.Narrow]
      exact ⟨⟨h.1, hcont.1⟩, hcont.2⟩
  | type, .ul64 _, h => absurd h (by cases type <;> simp [LMultiType.Fits])
  | _, .b _, h | _, .ul _, h | _, .db _, h | _, .str _, h | _, .host _, h | _, .ref _, h
  | _, .nullList, h | _, .nullObject, h => by
      cases h.kind
      simp only [LMultiType.kind, LMultiType.WideFits, LMultiType.Narrow, and_self]

theorem contFits_wide : ∀ (dp : List LDescr) (cont : List (LMultiType D)), ContFits dp cont →
    ContWideFits dp cont ∧ ContNarrow flags dp cont
  | [], [], _ => by simp only [ContWideFits, ContNarrow, and_self]
  | field :: dp, value :: cont, h => by
      simp only [ContFits] at h
      have hvalue := fits_wide value h.1
      have hcont := contFits_wide dp cont h.2
      simp only [ContWideFits, ContNarrow]
      exact ⟨⟨hvalue.1, hcont.1⟩, fun _ => hvalue.2, hcont.2⟩
  | [], _ :: _, h | _ :: _, [], h => absurd h (by simp [ContFits])

theorem elemsFit_wide : ∀ (descr : List LDescr) (elems : List (List (LMultiType D))),
    ElemsFit descr elems → ElemsWideFit descr elems ∧ ElemsNarrow flags descr elems
  | _, [], _ => by simp only [ElemsWideFit, ElemsNarrow, and_self]
  | descr, cont :: elems, h => by
      simp only [ElemsFit] at h
      have hcont := contFits_wide descr cont h.1
      have helems := elemsFit_wide descr elems h.2
      simp only [ElemsWideFit, ElemsNarrow]
      exact ⟨⟨hcont.1, helems.1⟩, hcont.2, helems.2⟩

end

end Narrow

section Messages

/-- A list whose descriptor has too many fields is packed, but never unpacked. -/
theorem cullUnpackListPartial_rejects (xdr : Xdr D) (ns : Option (List LNameSpace))
    (flags : UInt32) (fuel : ℕ) {nelem : ℕ} {listname : Option CString} {changed : Bool}
    {dp : List LDescr} (hname : (packstr listname).length < 2 ^ 32)
    (hsize : MAX_DESCR_SIZE ≤ dp.length) (hlen : dp.length < 2 ^ 32)
    (htypes : ∀ field ∈ dp, mtGetType field.mt ≠ .lEndT) :
    (cullUnpackListPartial xdr ns fuel flags).Rejects (cullPackListHead nelem listname changed dp)
      .enomem := by
  unfold cullUnpackListPartial cullUnpackListWith cullPackListHead
  apply (unpackint_reads 1).rejects
  apply (unpackint_reads _).rejects
  apply (unpackstr_reads hname).rejects
  apply (unpackint_reads _).rejects
  exact (cullUnpackDescr_rejects hsize hlen htypes).bind

theorem cullUnpackListPartial_travels (xdr : Xdr D) (ns : Option (List LNameSpace))
    {flags : UInt32} (hflags : CULL_IS_REDUCED &&& flags = 0) {list : LMultiType D}
    (hfits : list.WideFits .lListT) {fuel : ℕ} (hdepth : list.depth ≤ fuel + 1) :
    Travels (cullPackListPartial xdr flags list) (cullUnpackListPartial xdr ns fuel flags)
      (arrived xdr ns flags list) :=
  cullUnpackList_travels hflags (cullUnpackSwitch_travels hflags fuel) hfits hdepth

/-- `cull_unpack_list_partial` takes exactly what `cull_pack_list_partial` writes, and returns the
list with the same names and types. -/
theorem cullUnpackListPartial_roundTrip (xdr : Xdr D) (ns : Option (List LNameSpace))
    {flags : UInt32} (hflags : CULL_IS_REDUCED &&& flags = 0) {list : LMultiType D}
    (hfits : list.Fits .lListT) {fuel : ℕ} (hdepth : list.depth ≤ fuel + 1) :
    (∃ bytes, cullPackListPartial xdr flags list = .ok bytes ∧ (bytes.length < 2 ^ 32 →
      (cullUnpackListPartial xdr ns fuel flags).Reads bytes (received xdr ns flags list))) ∧
    ∀ descr, (markReduced ns descr).map LDescr.nm = descr.map LDescr.nm ∧
      (markReduced ns descr).map (fun field => mtGetType field.mt) =
        descr.map fun field => mtGetType field.mt := by
  have hwide : list.WideFits .lListT ∧ list.Narrow flags := fits_wide list hfits
  obtain ⟨hwide, hnarrow⟩ := hwide
  have htravels := cullUnpackListPartial_travels xdr ns hflags hwide hdepth
  rw [(arrived_eq_received_iff list).mpr hnarrow] at htravels
  exact ⟨htravels, fun descr => ⟨markReduced_names ns descr, markReduced_types ns descr⟩⟩

/-- A list with an element that holds an empty string, a list, a `NULL` object and a reference. -/
def nestedList : LMultiType UInt64 :=
  .glp (some ⟨[74], by decide⟩) false [⟨100, 8⟩, ⟨101, 9⟩, ⟨102, 10⟩, ⟨103, 11⟩, ⟨104, 2⟩]
    [[.str (some ⟨[], by decide⟩), .glp none false [⟨200, 6⟩] [[.b 1], [.b 0]], .nullObject, .ref 5,
      .db 0x3FF0000000000000]]

theorem nestedList_roundTrip :
    (∃ bytes, cullPackListPartial xdrBits 0 nestedList = .ok bytes ∧ (bytes.length < 2 ^ 32 →
      (cullUnpackListPartial xdrBits none 2 0).Reads bytes (received xdrBits none 0 nestedList))) ∧
    ∀ descr, (markReduced none descr).map LDescr.nm = descr.map LDescr.nm ∧
      (markReduced none descr).map (fun field => mtGetType field.mt) =
        descr.map fun field => mtGetType field.mt := by
  apply cullUnpackListPartial_roundTrip xdrBits none (by decide)
  · simp only [nestedList, LMultiType.Fits, ElemsFit, ContFits]
    refine ⟨⟨by decide, by decide⟩, by decide, ⟨trivial, ⟨⟨by decide, by decide⟩, by decide, ?_⟩,
      trivial, trivial, trivial, trivial⟩, trivial⟩
    exact ⟨⟨trivial, trivial⟩, ⟨trivial, trivial⟩, trivial⟩
  · decide

/-- A list without elements whose descriptor has as many fields as `MAX_DESCR_SIZE`. -/
def wideList : LMultiType UInt64 := .glp none false (List.replicate 200 ⟨1, 3⟩) []

def numberList : LMultiType UInt64 := .glp none false [⟨1, 3⟩] [[.ul 7]]

/-- The first packed list is refused, its descriptor is too large. Of the second one more bytes are
taken than were written, its field got the mark that the mask selects. -/
theorem wideList_rejected :
    (∃ bytes, cullPackListPartial xdrBits 0 wideList = .ok bytes ∧
      (cullUnpackListPartial xdrBits none 1 0).Rejects bytes .enomem) ∧
    ∃ bytes, cullPackListPartial xdrBits CULL_IS_REDUCED numberList = .ok bytes ∧
      (cullUnpackListPartial xdrBits none 1 CULL_IS_REDUCED ⟨bytes ++ packint 9, 0, []⟩).2.pos =
        bytes.length + 4 := by
  constructor
  · refine ⟨cullPackListHead 0 none false (List.replicate 200 ⟨1, 3⟩) ++ [], ?_, ?_⟩
    · simp only [cullPackListPartial, wideList, cullPackSwitch, cullPackElems]
      rfl
    · have htypes : ∀ field ∈ List.replicate 200 (⟨1, 3⟩ : LDescr),
          mtGetType field.mt ≠ .lEndT := by
        intro field hfield
        rw [List.eq_of_mem_replicate hfield]
        decide
      rw [List.append_nil]
      apply cullUnpackListPartial_rejects xdrBits none 0 1 (by decide) _ _ htypes
      · rw [List.length_replicate, MAX_DESCR_SIZE]
      · rw [List.length_replicate]
        omega
  · refine ⟨cullPackListHead 1 none false [⟨1, 3⟩] ++ cullPackElemHead BOUND_ELEM [⟨1, 3⟩], ?_, ?_⟩
    · simp only [cullPackListPartial, numberList, cullPackSwitch, cullPackElems]
      rfl
    · decide +kernel

end Messages

/-! ## Numbers of 64 bits

Both directions of the conversion pass the number through the conversion of 32 bits. What is lost
is the upper half of the number, also when it stands deep inside of a list. -/

section Survival

/-- The number is read back where it was written exactly when its upper half is zero. -/
theorem unpackint64_reads_iff {i : UInt64} :
    unpackint64.Reads (packint64 i) i ↔ i.toNat < 2 ^ 32 := by
  constructor
  · intro h
    exact lowWord_eq_iff.mp ((unpackint64_reads i).unique h)
  · intro h
    have hreads := unpackint64_reads i
    rwa [lowWord_eq_iff.mpr h] at hreads

/-- A list with numbers of 64 bits comes back with the values it was packed with exactly when all
these numbers are below `2 ^ 32`. -/
theorem ulong64_survives_iff {D : Type} (xdr : Xdr D) (ns : Option (List LNameSpace))
    {flags : UInt32} (hflags : CULL_IS_REDUCED &&& flags = 0) {list : LMultiType D}
    (hfits : list.WideFits .lListT) {fuel : ℕ} (hdepth : list.depth ≤ fuel + 1) :
    (∀ i : UInt64, unpackint64.Reads (packint64 i) i ↔ i.toNat < 2 ^ 32) ∧
    ∃ bytes, cullPackListPartial xdr flags list = .ok bytes ∧ (bytes.length < 2 ^ 32 →
      ((cullUnpackListPartial xdr ns fuel flags).Reads bytes (received xdr ns flags list) ↔
        list.Narrow flags)) := by
  refine ⟨fun i => unpackint64_reads_iff, ?_⟩
  obtain ⟨bytes, hbytes, hreads⟩ := cullUnpackListPartial_travels xdr ns hflags hfits hdepth
  refine ⟨bytes, hbytes, fun hlen => ?_⟩
  rw [← @arrived_eq_received_iff D xdr ns flags]
  constructor
  · intro hreceived
    exact (hreads hlen).unique hreceived
  · intro heq
    have harrived := hreads hlen
    rwa [heq] at harrived

/-- A list with one element that holds a number of 64 bits. -/
def counterList (value : UInt64) : LMultiType UInt64 :=
  .glp none false [⟨100, 13⟩] [[.ul64 value]]

theorem counterList_fits (value : UInt64) : (counterList value).WideFits .lListT := by
  simp only [counterList, LMultiType.WideFits, ElemsWideFit, ContWideFits]
  exact ⟨⟨by decide, by decide⟩, by simp, ⟨trivial, trivial⟩, trivial⟩

theorem counterList_depth (value : UInt64) : (counterList value).depth ≤ 1 := by
  simp [counterList, LMultiType.depth, elemsDepth, contDepth]

theorem ulong64_survives_seven :
    (∀ i : UInt64, unpackint64.Reads (packint64 i) i ↔ i.toNat < 2 ^ 32) ∧
    ∃ bytes, cullPackListPartial xdrBits 0 (counterList 7) = .ok bytes ∧ (bytes.length < 2 ^ 32 →
      ((cullUnpackListPartial xdrBits none 0 0).Reads bytes (received xdrBits none 0 (counterList 7)) ↔
        (counterList 7).Narrow 0)) :=
  ulong64_survives_iff xdrBits none (by decide) (counterList_fits 7) (counterList_depth 7)

/-- The smallest number that does not fit comes back as zero, and so does the field of a list. -/
theorem ulong64_lost :
    ¬unpackint64.Reads (packint64 (2 ^ 32)) (2 ^ 32) ∧
    ∃ bytes, cullPackListPartial xdrBits 0 (counterList (2 ^ 32)) = .ok bytes ∧
      (cullUnpackListPartial xdrBits none 0 0).Reads bytes
        (.glp none true (markReduced none [⟨100, 13⟩]) [[.ul64 0]]) := by
  constructor
  · rw [unpackint64_reads_iff]
    decide
  · have hflags : CULL_IS_REDUCED &&& 0 = 0 := by decide
    obtain ⟨bytes, hbytes, hreads⟩ := cullUnpackListPartial_travels xdrBits none hflags
      (counterList_fits (2 ^ 32)) (counterList_depth (2 ^ 32))
    have hpack : cullPackListPartial xdrBits 0 (counterList (2 ^ 32)) =
        .ok (cullPackListHead 1 none false [⟨100, 13⟩] ++ (cullPackElemHead BOUND_ELEM [⟨100, 13⟩] ++
          packint64 (2 ^ 32) ++ [])) := by
      simp only [cullPackListPartial, counterList, cullPackSwitch, cullPackElems]
      rfl
    have hlen : bytes.length < 2 ^ 32 := by
      rw [hbytes] at hpack
      rw [Except.ok.inj hpack]
      decide
    have harrived : arrived xdrBits none 0 (counterList (2 ^ 32)) =
        .glp none true (markReduced none [⟨100, 13⟩]) [[.ul64 0]] := by
      have hlow : lowWord (2 ^ 32) = 0 := by decide
      simp [counterList, arrived, arrivedElems, arrivedCont, receivedString, isSelected, hlow]
    have h := hreads hlen
    rw [harrived] at h
    exact ⟨bytes, hbytes, h⟩

end Survival

end GridEngine
