import GridEngine.CullPack
import GridEngine.PackState

/-!
# Packing lists into a buffer

The list functions over buffers with a state, with enumerations. Packing into a buffer that just
counts takes the same way and counts the same bytes. Without an enumeration the written bytes are
those of the functional model.
-/

namespace GridEngine

/-- A packing function: its return code, where `none` is `PACK_SUCCESS`, and the buffer after it. -/
abbrev PackOp := SgePackBuffer → Option PackError × SgePackBuffer

/-- A field of an `lEnumeration`: its position, its name, its type, and the enumeration for a
sublist. An enumeration is the list of the fields in front of its end mark. -/
inductive WhatField
  | mk (pos : ℤ) (nm mt : UInt32) (ep : Option (List WhatField))

def WHAT_ALL : ℤ := -1
def WHAT_NONE : ℤ := -2

/-- `what[0].pos`, which is zero for the end mark. -/
def whatPos : List WhatField → ℤ
  | [] => 0
  | .mk pos _ _ _ :: _ => pos

def lCountWhat (what : List WhatField) (descr : List LDescr) : ℕ :=
  if whatPos what = WHAT_NONE then 0
  else if whatPos what = WHAT_ALL then lCountDescr descr
  else what.length

namespace PackOp

def success : PackOp := fun pb => (none, pb)

def fail (e : PackError) : PackOp := fun pb => (some e, pb)

/-- A packing function that always succeeds. -/
def lift (f : SgePackBuffer → SgePackBuffer) : PackOp := fun pb => (none, f pb)

/-- The second function is called when the first one returns `PACK_SUCCESS`. -/
def andThen (p q : PackOp) : PackOp := fun pb =>
  match p pb with
  | (none, pb) => q pb
  | (some e, pb) => (some e, pb)

def forEach {α : Type} (body : α → PackOp) : List α → PackOp
  | [] => success
  | a :: l => (body a).andThen (forEach body l)

section Heads

def packint (i : UInt32) : PackOp := lift fun pb => pb.packint i

/-- The name and the type of a field. -/
def packField (nm mt : UInt32) : PackOp := (packint nm).andThen (packint mt)

/-- `cull_pack_descr`. -/
def cullPackDescr (dp : List LDescr) : PackOp :=
  (packint (UInt32.ofNat (lCountDescr dp))).andThen
    (forEach (fun field => packField field.nm field.mt) (lDescrFields dp))

/-- `cull_pack_enum_as_descr`. -/
def cullPackEnumAsDescr (what : List WhatField) (descr : List LDescr) : PackOp :=
  (packint (UInt32.ofNat (lCountWhat what descr))).andThen
    (if whatPos what = WHAT_ALL then
      forEach (fun field => packField field.nm field.mt) (descr.takeWhile fun field => field.nm ≠ NoName)
    else if whatPos what = WHAT_NONE then success
    else forEach (fun field => match field with | .mk _ nm mt _ => packField nm mt) what)

/-- The descriptor as the enumeration selects it. -/
def packSelectedDescr (what : Option (List WhatField)) (descr : List LDescr) : PackOp :=
  match what with
  | none => cullPackDescr descr
  | some what => cullPackEnumAsDescr what descr

/-- `cull_pack_elem_partial` in front of the contents. -/
def cullPackElemHead (what : Option (List WhatField)) (status : UInt32) (descr : List LDescr) : PackOp :=
  (packint status).andThen
    ((if status = FREE_ELEM then packSelectedDescr what descr else success).andThen
      (lift fun pb => pb.packbitfield (sgeBitfieldInit
        (match what with
        | none => lCountDescr descr
        | some what => lCountWhat what descr))))

/-- `cull_pack_list_partial` in front of the elements. -/
def cullPackListHead (what : Option (List WhatField)) (nelem : ℕ) (listname : Option CString)
    (changed : Bool) (descr : List LDescr) : PackOp :=
  (packint 1).andThen ((packint (UInt32.ofNat nelem)).andThen
    ((lift fun pb => pb.packstr listname).andThen
      ((packint (if changed then 1 else 0)).andThen (packSelectedDescr what descr))))

end Heads

section Values
variable {D : Type} (xdr : Xdr D) (flags : UInt32)

mutual

/-- `cull_pack_switch` without an enumeration. -/
def cullPackSwitch : LType → LMultiType D → PackOp
  | .lBoolT, .b value => packint (charToUlong value)
  | .lUlongT, .ul value => packint value
  | .lUlong64T, .ul64 value => lift fun pb => pb.packint64 value
  | .lStringT, .str value => lift fun pb => pb.packstr value
  | .lHostT, .host value => lift fun pb => pb.packstr value
  | .lListT, .nullList => packint 0
  | .lListT, .glp listname changed descr elems =>
      (cullPackListHead none elems.length listname changed descr).andThen (cullPackElems descr elems)
  | .lObjectT, .nullObject => packint 0
  | .lObjectT, .obj descr cont =>
      (packint 1).andThen ((cullPackDescr descr).andThen
        ((cullPackElemHead none OBJECT_ELEM descr).andThen (cullPackCont (lDescrFields descr) cont)))
  | .lDoubleT, .db value => lift fun pb => pb.packdouble xdr value
  | .lRefT, .ref _ => success
  | .lIntT, _ => fail .format
  | .lFloatT, _ => fail .format
  | .lLongT, _ => fail .format
  | .lCharT, _ => fail .format
  | .lEndT, _ => fail .format
  | .unknown, _ => fail .format
  | _, _ => fail .badarg

/-- `cull_pack_cont` without an enumeration. -/
def cullPackCont : List LDescr → List (LMultiType D) → PackOp
  | [], _ => success
  | _ :: _, [] => fail .badarg
  | field :: dp, value :: cont =>
      if isSelected flags field.mt then
        (cullPackSwitch (mtGetType field.mt) value).andThen (cullPackCont dp cont)
      else cullPackCont dp cont

/-- The loop over the elements of a list without an enumeration. -/
def cullPackElems (descr : List LDescr) : List (List (LMultiType D)) → PackOp
  | [] => success
  | cont :: elems =>
      ((cullPackElemHead none BOUND_ELEM descr).andThen (cullPackCont (lDescrFields descr) cont)).andThen
        (cullPackElems descr elems)

end

/-- `cull_pack_switch` with a function for lists. The value at a position outside of the contents
is undefined, and only read where the type has one. -/
def cullPackSwitchWith (packList : LMultiType D → PackOp) : LType → Option (LMultiType D) → PackOp
  | .lIntT, _ => fail .format
  | .lFloatT, _ => fail .format
  | .lLongT, _ => fail .format
  | .lCharT, _ => fail .format
  | .lEndT, _ => fail .format
  | .unknown, _ => fail .format
  | .lRefT, _ => success
  | .lListT, some list => packList list
  | type, some value => cullPackSwitch xdr flags type value
  | _, none => fail .badarg

/-- `cp[pos]`. -/
def contAt (cont : List (LMultiType D)) (pos : ℤ) : Option (LMultiType D) :=
  if 0 ≤ pos then cont[pos.toNat]? else none

/-- `cull_pack_list_partial` with an enumeration, over the loop of `cull_pack_cont`. -/
def cullPackListWith (what : List WhatField) (packCont : List (LMultiType D) → PackOp) :
    LMultiType D → PackOp
  | .nullList => packint 0
  | .glp listname changed descr elems =>
      (cullPackListHead (some what) elems.length listname changed descr).andThen
        (forEach (fun cont => (cullPackElemHead (some what) BOUND_ELEM descr).andThen (packCont cont))
          elems)
  | _ => fail .badarg

mutual

/-- The body of the loop of `cull_pack_cont` over an enumeration. -/
def cullPackWhatField : WhatField → List (LMultiType D) → PackOp
  | .mk pos _ mt none, cont =>
      if isSelected flags mt then
        cullPackSwitchWith xdr flags (cullPackSwitch xdr flags .lListT) (mtGetType mt) (contAt cont pos)
      else success
  | .mk pos _ mt (some what), cont =>
      if isSelected flags mt then
        cullPackSwitchWith xdr flags (cullPackListWith what (fun cont => cullPackWhat what cont))
          (mtGetType mt) (contAt cont pos)
      else success

/-- The loop of `cull_pack_cont` over an enumeration. -/
def cullPackWhat : List WhatField → List (LMultiType D) → PackOp
  | [], _ => success
  | field :: what, cont => (cullPackWhatField field cont).andThen (cullPackWhat what cont)

end

/-- `cull_pack_list_partial`. -/
def cullPackListPartial (what : Option (List WhatField)) (list : LMultiType D) : PackOp :=
  match what with
  | none => cullPackSwitch xdr flags .lListT list
  | some what => cullPackListWith what (cullPackWhat xdr flags what) list

end Values

section Uniform
variable {p q : PackOp} {ret : Option PackError} {bytes bytes' : List UInt8}

/-- The function returns `ret` and packs `bytes`, whatever the buffer is. -/
def Writes (p : PackOp) (ret : Option PackError) (bytes : List UInt8) : Prop :=
  ∀ pb, (p pb).1 = ret ∧ SgePackBuffer.Adds pb (p pb).2 bytes

/-- What the function returns and packs does not depend on the buffer. -/
def Uniform (p : PackOp) : Prop := ∃ ret bytes, Writes p ret bytes

theorem Writes.success : Writes success none [] := fun pb => ⟨rfl, SgePackBuffer.Adds.refl pb⟩

theorem Writes.fail (e : PackError) : Writes (fail e) (some e) [] :=
  fun pb => ⟨rfl, SgePackBuffer.Adds.refl pb⟩

theorem Writes.andThen (hp : Writes p none bytes) (hq : Writes q ret bytes') :
    Writes (p.andThen q) ret (bytes ++ bytes') := by
  intro pb
  obtain ⟨hret, hadds⟩ := hp pb
  have hstep : p.andThen q pb = q (p pb).2 := by
    rw [PackOp.andThen, ← Prod.mk.eta (p := p pb), hret]
  obtain ⟨hret', hadds'⟩ := hq (p pb).2
  rw [hstep]
  exact ⟨hret', hadds.trans hadds'⟩

theorem Writes.andThen_error {e : PackError} (hp : Writes p (some e) bytes) :
    Writes (p.andThen q) (some e) bytes := by
  intro pb
  obtain ⟨hret, hadds⟩ := hp pb
  have hstep : p.andThen q pb = (some e, (p pb).2) := by
    rw [PackOp.andThen, ← Prod.mk.eta (p := p pb), hret]
  rw [hstep]
  exact ⟨rfl, hadds⟩

theorem Writes.packint (i : UInt32) : Writes (packint i) none (GridEngine.packint i) :=
  fun _ => ⟨rfl, SgePackBuffer.adds_packint i⟩

theorem Uniform.andThen (hp : Uniform p) (hq : Uniform q) : Uniform (p.andThen q) := by
  obtain ⟨ret, bytes, hp⟩ := hp
  obtain ⟨ret', bytes', hq⟩ := hq
  cases ret with
  | none => exact ⟨_, _, hp.andThen hq⟩
  | some e => exact ⟨_, _, hp.andThen_error⟩

theorem Uniform.forEach {α : Type} {body : α → PackOp} {l : List α} (h : ∀ a ∈ l, Uniform (body a)) :
    Uniform (forEach body l) := by
  induction l with
  | nil => exact ⟨_, _, Writes.success⟩
  | cons a l ih =>
      have hrest := ih fun b hb => h b (List.mem_cons_of_mem a hb)
      exact (h a List.mem_cons_self).andThen hrest

end Uniform

section Refinement
variable {D : Type} {xdr : Xdr D} {flags : UInt32} {p q : PackOp} {bytes : List UInt8}
  {r r' : Except PackError (List UInt8)}

/-- The function packs the bytes of the functional model, or fails with its error. -/
def Implements (p : PackOp) : Except PackError (List UInt8) → Prop
  | .ok bytes => Writes p none bytes
  | .error e => ∃ bytes, Writes p (some e) bytes

theorem Implements.uniform (h : Implements p r) : Uniform p := by
  cases r with
  | ok bytes => exact ⟨_, _, h⟩
  | error e =>
      obtain ⟨bytes, h⟩ := h
      exact ⟨_, _, h⟩

theorem Implements.fail (e : PackError) : Implements (fail e) (.error e) := ⟨[], Writes.fail e⟩

theorem Implements.andThen (hp : Implements p r) (hq : Implements q r') :
    Implements (p.andThen q) (do
      let bytes ← r
      let rest ← r'
      .ok (bytes ++ rest)) := by
  cases r with
  | error e =>
      obtain ⟨bytes, hp⟩ := hp
      exact ⟨bytes, hp.andThen_error⟩
  | ok bytes =>
      cases r' with
      | error e =>
          obtain ⟨rest, hq⟩ := hq
          exact ⟨bytes ++ rest, Writes.andThen hp hq⟩
      | ok rest => exact Writes.andThen hp hq

theorem Writes.forEach {α : Type} {body : α → PackOp} {f : α → List UInt8} (l : List α)
    (h : ∀ a, Writes (body a) none (f a)) : Writes (forEach body l) none (l.flatMap f) := by
  induction l with
  | nil => exact Writes.success
  | cons a l ih =>
      rw [List.flatMap_cons]
      exact (h a).andThen ih

theorem writes_packField (nm mt : UInt32) :
    Writes (packField nm mt) none (GridEngine.packint nm ++ GridEngine.packint mt) :=
  (Writes.packint nm).andThen (Writes.packint mt)

theorem writes_cullPackDescr (dp : List LDescr) :
    Writes (cullPackDescr dp) none (GridEngine.cullPackDescr dp) :=
  (Writes.packint _).andThen (Writes.forEach _ fun field => writes_packField field.nm field.mt)

theorem writes_cullPackElemHead {status : UInt32} (hstatus : status ≠ FREE_ELEM)
    (descr : List LDescr) :
    Writes (cullPackElemHead none status descr) none (GridEngine.cullPackElemHead status descr) := by
  have hbits : Writes (lift fun pb => pb.packbitfield (sgeBitfieldInit (lCountDescr descr))) none
      (packbitfield (sgeBitfieldInit (lCountDescr descr))) :=
    fun _ => ⟨rfl, SgePackBuffer.adds_packbitfield _⟩
  unfold cullPackElemHead
  rw [if_neg hstatus]
  exact (Writes.packint status).andThen (Writes.success.andThen hbits)

theorem object_ne_free : OBJECT_ELEM ≠ FREE_ELEM := by decide

theorem bound_ne_free : BOUND_ELEM ≠ FREE_ELEM := by decide

theorem writes_cullPackListHead (nelem : ℕ) (listname : Option CString) (changed : Bool)
    (descr : List LDescr) : Writes (cullPackListHead none nelem listname changed descr) none
      (GridEngine.cullPackListHead nelem listname changed descr) := by
  have hname : Writes (lift fun pb => pb.packstr listname) none (packstr listname) :=
    fun _ => ⟨rfl, SgePackBuffer.adds_packstr listname⟩
  exact (Writes.packint 1).andThen ((Writes.packint _).andThen
    (hname.andThen ((Writes.packint _).andThen (writes_cullPackDescr descr))))

theorem implements_lowLevel (type : LType) {value : LMultiType D}
    (hglp : ∀ listname changed descr elems, value ≠ .glp listname changed descr elems)
    (hobj : ∀ descr cont, value ≠ .obj descr cont) :
    Implements (cullPackSwitch xdr flags type value)
      (GridEngine.cullPackSwitch xdr flags type value) := by
  have hint : ∀ i, Implements (packint i) (.ok (GridEngine.packint i)) := Writes.packint
  have hstr : ∀ str, Implements (lift fun pb => pb.packstr str) (.ok (packstr str)) :=
    fun str _ => ⟨rfl, SgePackBuffer.adds_packstr str⟩
  cases value with
  | glp listname changed descr elems => exact absurd rfl (hglp listname changed descr elems)
  | obj descr cont => exact absurd rfl (hobj descr cont)
  | ul64 value =>
      have hint64 : Implements (lift fun pb => pb.packint64 value) (.ok (packint64 value)) :=
        fun _ => ⟨rfl, SgePackBuffer.adds_packint64 value⟩
      cases type <;> simp only [cullPackSwitch, GridEngine.cullPackSwitch] <;>
        first | exact Implements.fail _ | exact hint64
  | db value =>
      have hdouble : Implements (lift fun pb => pb.packdouble xdr value)
          (.ok (packdouble xdr value)) := fun _ => ⟨rfl, SgePackBuffer.adds_packdouble value⟩
      cases type <;> simp only [cullPackSwitch, GridEngine.cullPackSwitch] <;>
        first | exact Implements.fail _ | exact hdouble
  | str value | host value =>
      cases type <;> simp only [cullPackSwitch, GridEngine.cullPackSwitch] <;>
        first | exact Implements.fail _ | exact hstr value
  | ref _ =>
      cases type <;> simp only [cullPackSwitch, GridEngine.cullPackSwitch] <;>
        first | exact Implements.fail _ | exact Writes.success
  | b value | ul value | nullList | nullObject =>
      cases type <;> simp only [cullPackSwitch, GridEngine.cullPackSwitch] <;>
        first | exact Implements.fail _ | exact hint _

mutual

theorem implements_cullPackSwitch : ∀ (type : LType) (value : LMultiType D),
    Implements (cullPackSwitch xdr flags type value) (GridEngine.cullPackSwitch xdr flags type value)
  | type, .glp listname changed descr elems => by
      have helems := implements_cullPackElems descr elems
      have hhead : Implements _ (.ok _) :=
        writes_cullPackListHead elems.length listname changed descr
      cases type with
      | lListT =>
          simp only [cullPackSwitch, GridEngine.cullPackSwitch]
          exact hhead.andThen helems
      | _ =>
          simp only [cullPackSwitch, GridEngine.cullPackSwitch]
          exact Implements.fail _
  | type, .obj descr cont => by
      have hcont := implements_cullPackCont (lDescrFields descr) cont
      have hdescr := writes_cullPackDescr descr
      have hhead := writes_cullPackElemHead object_ne_free descr
      cases type with
      | lObjectT =>
          simp only [cullPackSwitch, GridEngine.cullPackSwitch]
          cases hr : GridEngine.cullPackCont xdr flags (lDescrFields descr) cont with
          | error e =>
              rw [hr] at hcont
              obtain ⟨body, hbody⟩ := hcont
              exact ⟨_, (Writes.packint 1).andThen (hdescr.andThen (hhead.andThen hbody))⟩
          | ok body =>
              rw [hr] at hcont
              exact (Writes.packint 1).andThen (hdescr.andThen (hhead.andThen hcont))
      | _ =>
          simp only [cullPackSwitch, GridEngine.cullPackSwitch]
          exact Implements.fail _
  | type, .b _ | type, .ul _ | type, .ul64 _ | type, .db _ | type, .str _ | type, .host _
  | type, .nullList | type, .nullObject | type, .ref _ =>
      implements_lowLevel type (by simp) (by simp)

theorem implements_cullPackCont : ∀ (dp : List LDescr) (cont : List (LMultiType D)),
    Implements (cullPackCont xdr flags dp cont) (GridEngine.cullPackCont xdr flags dp cont)
  | [], _ => by
      simp only [cullPackCont, GridEngine.cullPackCont]
      exact Writes.success
  | _ :: _, [] => by
      simp only [cullPackCont, GridEngine.cullPackCont]
      exact Implements.fail _
  | field :: dp, value :: cont => by
      have hvalue := implements_cullPackSwitch (mtGetType field.mt) value
      have hcont := implements_cullPackCont dp cont
      simp only [cullPackCont, GridEngine.cullPackCont]
      split_ifs
      · exact hvalue.andThen hcont
      · exact hcont

theorem implements_cullPackElems : ∀ (descr : List LDescr) (elems : List (List (LMultiType D))),
    Implements (cullPackElems xdr flags descr elems) (GridEngine.cullPackElems xdr flags descr elems)
  | _, [] => by
      simp only [cullPackElems, GridEngine.cullPackElems]
      exact Writes.success
  | descr, cont :: elems => by
      have hcont := implements_cullPackCont (lDescrFields descr) cont
      have helems := implements_cullPackElems descr elems
      have hhead : Implements _ (.ok _) := writes_cullPackElemHead bound_ne_free descr
      have hall := (hhead.andThen hcont).andThen helems
      simp only [cullPackElems, GridEngine.cullPackElems]
      cases hr : GridEngine.cullPackCont xdr flags (lDescrFields descr) cont with
      | error e =>
          rw [hr] at hall
          exact hall
      | ok body =>
          rw [hr] at hall
          exact hall

end

end Refinement

section Counting
variable {D : Type} {xdr : Xdr D} {flags : UInt32}

theorem uniform_success : Uniform success := ⟨_, _, Writes.success⟩

theorem uniform_fail (e : PackError) : Uniform (fail e) := ⟨_, _, Writes.fail e⟩

theorem uniform_packint (i : UInt32) : Uniform (packint i) := ⟨_, _, Writes.packint i⟩

theorem uniform_packField (nm mt : UInt32) : Uniform (packField nm mt) :=
  ⟨_, _, writes_packField nm mt⟩

theorem uniform_packSelectedDescr (what : Option (List WhatField)) (descr : List LDescr) :
    Uniform (packSelectedDescr what descr) := by
  cases what with
  | none => exact ⟨_, _, writes_cullPackDescr descr⟩
  | some what =>
      rw [packSelectedDescr, cullPackEnumAsDescr]
      apply (uniform_packint _).andThen
      split_ifs
      · exact Uniform.forEach fun field _ => uniform_packField field.nm field.mt
      · exact uniform_success
      · exact Uniform.forEach fun ⟨_, nm, mt, _⟩ _ => uniform_packField nm mt

theorem uniform_cullPackElemHead (what : Option (List WhatField)) (status : UInt32)
    (descr : List LDescr) : Uniform (cullPackElemHead what status descr) := by
  have hbits : ∀ n, Uniform (lift fun pb => pb.packbitfield (sgeBitfieldInit n)) :=
    fun n => ⟨none, _, fun _ => ⟨rfl, SgePackBuffer.adds_packbitfield _⟩⟩
  apply (uniform_packint status).andThen
  split_ifs
  · exact (uniform_packSelectedDescr what descr).andThen (hbits _)
  · exact uniform_success.andThen (hbits _)

theorem uniform_cullPackListHead (what : Option (List WhatField)) (nelem : ℕ)
    (listname : Option CString) (changed : Bool) (descr : List LDescr) :
    Uniform (cullPackListHead what nelem listname changed descr) := by
  have hname : Uniform (lift fun pb => pb.packstr listname) :=
    ⟨none, _, fun _ => ⟨rfl, SgePackBuffer.adds_packstr listname⟩⟩
  exact (uniform_packint 1).andThen ((uniform_packint _).andThen
    (hname.andThen ((uniform_packint _).andThen (uniform_packSelectedDescr what descr))))

theorem uniform_cullPackSwitchWith {packList : LMultiType D → PackOp}
    (hlist : ∀ list, Uniform (packList list)) (type : LType) (value : Option (LMultiType D)) :
    Uniform (cullPackSwitchWith xdr flags packList type value) := by
  unfold cullPackSwitchWith
  split
  case h_7 => exact uniform_success
  case h_8 list => exact hlist list
  case h_9 value _ _ _ _ _ _ _ _ => exact (implements_cullPackSwitch type value).uniform
  all_goals exact uniform_fail _

theorem uniform_cullPackListWith {what : List WhatField} {packCont : List (LMultiType D) → PackOp}
    (hcont : ∀ cont, Uniform (packCont cont)) (list : LMultiType D) :
    Uniform (cullPackListWith what packCont list) := by
  cases list with
  | nullList => exact uniform_packint 0
  | glp listname changed descr elems =>
      apply (uniform_cullPackListHead _ _ _ _ _).andThen
      apply Uniform.forEach
      intro cont _
      exact (uniform_cullPackElemHead _ _ _).andThen (hcont cont)
  | _ => exact uniform_fail _

mutual

theorem uniform_cullPackWhatField : ∀ (field : WhatField) (cont : List (LMultiType D)),
    Uniform (cullPackWhatField xdr flags field cont)
  | .mk _ _ _ none, _ => by
      rw [cullPackWhatField]
      split_ifs
      · apply uniform_cullPackSwitchWith
        intro list
        exact (implements_cullPackSwitch .lListT list).uniform
      · exact uniform_success
  | .mk _ _ _ (some what), _ => by
      have hwhat := uniform_cullPackWhat what
      rw [cullPackWhatField]
      split_ifs
      · exact uniform_cullPackSwitchWith (uniform_cullPackListWith hwhat) _ _
      · exact uniform_success

theorem uniform_cullPackWhat : ∀ (what : List WhatField) (cont : List (LMultiType D)),
    Uniform (cullPackWhat xdr flags what cont)
  | [], _ => by
      rw [cullPackWhat]
      exact uniform_success
  | field :: what, cont => by
      have hfield := uniform_cullPackWhatField field cont
      have hwhat := uniform_cullPackWhat what cont
      rw [cullPackWhat]
      exact hfield.andThen hwhat

end

theorem uniform_cullPackListPartial (what : Option (List WhatField)) (list : LMultiType D) :
    Uniform (cullPackListPartial xdr flags what list) := by
  cases what with
  | none => exact (implements_cullPackSwitch .lListT list).uniform
  | some what => exact uniform_cullPackListWith (uniform_cullPackWhat what) list

/-- Without an enumeration a real buffer gets the bytes of the functional model. -/
theorem cullPackListPartial_writes {list : LMultiType D} {bytes : List UInt8}
    (h : GridEngine.cullPackListPartial xdr flags list = .ok bytes) :
    Writes (cullPackListPartial xdr flags none list) none bytes := by
  have himplements := @implements_cullPackSwitch D xdr flags .lListT list
  rw [GridEngine.cullPackListPartial] at h
  rwa [h] at himplements

/-- Counting and packing return the same code, and only the version in front of the packed bytes
is not counted. -/
theorem cullPackListPartial_counts (xdr : Xdr D) (flags : UInt32) (what : Option (List WhatField))
    (list : LMultiType D) (initialSize initialSize' : ℕ) :
    let packed := cullPackListPartial xdr flags what list
      (SgePackBuffer.initPackbuffer initialSize false)
    let counted := cullPackListPartial xdr flags what list
      (SgePackBuffer.initPackbuffer initialSize' true)
    packed.1 = counted.1 ∧ packed.2.bytesUsed = counted.2.bytesUsed + 2 * INTSIZE := by
  obtain ⟨ret, bytes, hwrites⟩ := @uniform_cullPackListPartial D xdr flags what list
  obtain ⟨hret, hadds⟩ := hwrites (SgePackBuffer.initPackbuffer initialSize false)
  obtain ⟨hret', hadds'⟩ := hwrites (SgePackBuffer.initPackbuffer initialSize' true)
  have hused : (SgePackBuffer.initPackbuffer initialSize false).bytesUsed = 2 * INTSIZE :=
    (SgePackBuffer.initPackbuffer_adds initialSize).bytesUsed
  have hnone : (SgePackBuffer.initPackbuffer initialSize' true).bytesUsed = 0 := rfl
  refine ⟨hret.trans hret'.symm, ?_⟩
  rw [hadds.bytesUsed, hadds'.bytesUsed, hused, hnone]
  omega

end Counting

end PackOp

end GridEngine
