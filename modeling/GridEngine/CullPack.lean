import GridEngine.PackBuffer

/-!
# CULL lists

Lists carry a descriptor, which names and types the fields of all their elements, and fields may
be lists or objects again. A descriptor is modelled without its end mark. The elements of a list
share its descriptor and have the status `BOUND_ELEM`, sub-objects have `OBJECT_ELEM`; both hold by
the way they are built, so only the contents are kept.
-/

namespace GridEngine

/-- The multitypes, with everything that is none of them. -/
inductive LType
  | lEndT | lFloatT | lDoubleT | lUlongT | lLongT | lCharT | lBoolT | lIntT | lStringT | lListT
  | lObjectT | lRefT | lHostT | lUlong64T | unknown
deriving DecidableEq, Repr

/-- `mt_get_type`. -/
def mtGetType (mt : UInt32) : LType :=
  match (mt &&& 0xFF).toNat with
  | 0 => .lEndT
  | 1 => .lFloatT
  | 2 => .lDoubleT
  | 3 => .lUlongT
  | 4 => .lLongT
  | 5 => .lCharT
  | 6 => .lBoolT
  | 7 => .lIntT
  | 8 => .lStringT
  | 9 => .lListT
  | 10 => .lObjectT
  | 11 => .lRefT
  | 12 => .lHostT
  | 13 => .lUlong64T
  | _ => .unknown

def CULL_IS_REDUCED : UInt32 := 0x00200000

/-- The name that ends a descriptor. -/
def NoName : UInt32 := 0xFFFFFFFF

def MAX_DESCR_SIZE : ℕ := 200

def FREE_ELEM : UInt32 := 1
def BOUND_ELEM : UInt32 := 2
def TRANS_BOUND_ELEM : UInt32 := 4
def OBJECT_ELEM : UInt32 := 8

/-- A field of a descriptor: its name and its type with the flags. -/
structure LDescr where
  nm : UInt32
  mt : UInt32
deriving DecidableEq, Repr

/-- The fields before the first one of type `lEndT`. -/
def lDescrFields (dp : List LDescr) : List LDescr :=
  dp.takeWhile fun field => mtGetType field.mt ≠ .lEndT

def lCountDescr (dp : List LDescr) : ℕ := (lDescrFields dp).length

/-- `dp[i].nm`, which is `NoName` behind the fields. -/
def lDescrName (dp : List LDescr) (i : ℕ) : UInt32 := (dp[i]?.map LDescr.nm).getD NoName

/-- A field of an element. A list is `NULL`, or has a name, the flag `changed`, a descriptor and
the contents of its elements; an object is `NULL`, or has a descriptor and its contents. -/
inductive LMultiType (D : Type)
  | b (value : UInt8)
  | ul (value : UInt32)
  | ul64 (value : UInt64)
  | db (value : D)
  | str (value : Option CString)
  | host (value : Option CString)
  | nullList
  | glp (listname : Option CString) (changed : Bool) (descr : List LDescr)
      (elems : List (List (LMultiType D)))
  | nullObject
  | obj (descr : List LDescr) (cont : List (LMultiType D))
  | ref (value : ℕ)

/-- A list element. -/
structure LListElem (D : Type) where
  status : UInt32
  descr : List LDescr
  cont : List (LMultiType D)

/-- `flags == 0 || (mt & flags) != 0`: the field is packed. -/
def isSelected (flags mt : UInt32) : Bool := flags = 0 || mt &&& flags ≠ 0

/-- The range of names of one object type. -/
structure LNameSpace where
  lower : UInt32
  size : ℕ
deriving DecidableEq, Repr

/-- Whether a descriptor lacks fields of its object type. Without a name space it is assumed to. -/
def isReduced (ns : Option (List LNameSpace)) (dp : List LDescr) : Bool :=
  match ns with
  | none => true
  | some entries =>
      match entries.find? (fun entry => lDescrName dp 0 == entry.lower) with
      | none => true
      | some entry =>
          !((List.range entry.size).all fun k => lDescrName dp k == entry.lower + UInt32.ofNat k) ||
            entry.size ≠ dp.length

/-- The end of `cull_unpack_descr`. -/
def markReduced (ns : Option (List LNameSpace)) (dp : List LDescr) : List LDescr :=
  dp.map fun field =>
    { field with mt := field.mt ||| if isReduced ns dp then CULL_IS_REDUCED else 0 }

theorem or_and_mask (mt flag mask : UInt32) (h : flag &&& mask = 0) :
    (mt ||| flag) &&& mask = mt &&& mask := by
  apply UInt32.eq_of_toBitVec_eq
  have hbits := congrArg UInt32.toBitVec h
  simp only [UInt32.toBitVec_and, UInt32.toBitVec_or, UInt32.toBitVec_zero] at hbits ⊢
  rw [BitVec.and_or_distrib_right, hbits, BitVec.or_zero]

theorem mtGetType_reduced (mt : UInt32) : mtGetType (mt ||| CULL_IS_REDUCED) = mtGetType mt := by
  simp only [mtGetType, or_and_mask mt CULL_IS_REDUCED 0xFF (by decide)]

theorem markReduced_names (ns : Option (List LNameSpace)) (dp : List LDescr) :
    (markReduced ns dp).map LDescr.nm = dp.map LDescr.nm := by
  simp [markReduced, Function.comp_def]

theorem markReduced_types (ns : Option (List LNameSpace)) (dp : List LDescr) :
    (markReduced ns dp).map (fun field => mtGetType field.mt) =
      dp.map (fun field => mtGetType field.mt) := by
  simp only [markReduced, List.map_map, Function.comp_def]
  apply List.map_congr_left
  intro field _
  split_ifs
  · exact mtGetType_reduced field.mt
  · rw [UInt32.or_zero]

/-- The mark is invisible to masks without it. -/
theorem isSelected_reduced {flags : UInt32} (h : CULL_IS_REDUCED &&& flags = 0) (mt : UInt32) :
    isSelected flags (mt ||| CULL_IS_REDUCED) = isSelected flags mt := by
  simp only [isSelected, or_and_mask mt CULL_IS_REDUCED flags h]

end GridEngine

/-!
## Packing lists

What `cull_pack_list_partial` writes without an enumeration.
-/

namespace GridEngine

variable {D : Type}

/-- A `char` that is passed as `u_long32`. -/
def charToUlong (b : UInt8) : UInt32 :=
  if b < 128 then b.toUInt32 else b.toUInt32 + 0xFFFFFF00

def cullPackDescr (dp : List LDescr) : List UInt8 :=
  packint (UInt32.ofNat (lCountDescr dp)) ++
    (lDescrFields dp).flatMap fun field => packint field.nm ++ packint field.mt

/-- The part of `cull_pack_elem_partial` in front of the contents, for elements that are not
free. -/
def cullPackElemHead (status : UInt32) (dp : List LDescr) : List UInt8 :=
  packint status ++ packbitfield (sgeBitfieldInit (lCountDescr dp))

/-- The part of `cull_pack_list_partial` in front of the elements. -/
def cullPackListHead (nelem : ℕ) (listname : Option CString) (changed : Bool) (dp : List LDescr) :
    List UInt8 :=
  packint 1 ++ (packint (UInt32.ofNat nelem) ++
    (packstr listname ++ (packint (if changed then 1 else 0) ++ cullPackDescr dp)))

mutual

/-- `cull_pack_switch`. The type selects the member of the union; where the field holds another
one the result is `PACK_BADARG`, which the source has not. -/
def cullPackSwitch (xdr : Xdr D) (flags : UInt32) :
    LType → LMultiType D → Except PackError (List UInt8)
  | .lBoolT, .b value => .ok (packint (charToUlong value))
  | .lUlongT, .ul value => .ok (packint value)
  | .lUlong64T, .ul64 value => .ok (packint64 value)
  | .lStringT, .str value => .ok (packstr value)
  | .lHostT, .host value => .ok (packstr value)
  | .lListT, .nullList => .ok (packint 0)
  | .lListT, .glp listname changed descr elems => do
      let body ← cullPackElems xdr flags descr elems
      .ok (cullPackListHead elems.length listname changed descr ++ body)
  | .lObjectT, .nullObject => .ok (packint 0)
  | .lObjectT, .obj descr cont => do
      let body ← cullPackCont xdr flags (lDescrFields descr) cont
      .ok (packint 1 ++ (cullPackDescr descr ++ (cullPackElemHead OBJECT_ELEM descr ++ body)))
  | .lDoubleT, .db value => .ok (packdouble xdr value)
  | .lRefT, .ref _ => .ok []
  | .lIntT, _ => .error .format
  | .lFloatT, _ => .error .format
  | .lLongT, _ => .error .format
  | .lCharT, _ => .error .format
  | .lEndT, _ => .error .format
  | .unknown, _ => .error .format
  | _, _ => .error .badarg

/-- `cull_pack_cont`. -/
def cullPackCont (xdr : Xdr D) (flags : UInt32) :
    List LDescr → List (LMultiType D) → Except PackError (List UInt8)
  | [], _ => .ok []
  | _ :: _, [] => .error .badarg
  | field :: dp, value :: cont =>
      if isSelected flags field.mt then do
        let bytes ← cullPackSwitch xdr flags (mtGetType field.mt) value
        let rest ← cullPackCont xdr flags dp cont
        .ok (bytes ++ rest)
      else cullPackCont xdr flags dp cont

/-- The loop over the elements of a list. -/
def cullPackElems (xdr : Xdr D) (flags : UInt32) (descr : List LDescr) :
    List (List (LMultiType D)) → Except PackError (List UInt8)
  | [] => .ok []
  | cont :: elems => do
      let bytes ← cullPackCont xdr flags (lDescrFields descr) cont
      let rest ← cullPackElems xdr flags descr elems
      .ok (cullPackElemHead BOUND_ELEM descr ++ bytes ++ rest)

end

/-- `cull_pack_list_partial` for a list pointer. -/
def cullPackListPartial (xdr : Xdr D) (flags : UInt32) (list : LMultiType D) :
    Except PackError (List UInt8) :=
  cullPackSwitch xdr flags .lListT list

end GridEngine
