import GridEngine.CullPack

/-!
# Unpacking lists, enumerations and conditions

The functions call each other through lists and objects. A function that may call itself again is
defined over the function for the inner level, and the fuel counts the levels.
-/

namespace GridEngine
open ByteReader.Reader

section Descr

def cullUnpackField : Unpack LDescr := do
  let nm ← unpackint
  let mt ← unpackint
  pure ⟨nm, mt⟩

def cullUnpackDescr (ns : Option (List LNameSpace)) : Unpack (List LDescr) := do
  let n ← unpackint
  if MAX_DESCR_SIZE - 1 < n.toNat then fail .enomem
  else do
    let dp ← many cullUnpackField n.toNat
    pure (markReduced ns dp)

end Descr

section Cont
variable {D : Type}

/-- A field of cleared memory. -/
def clearedField (xdr : Xdr D) : LType → LMultiType D
  | .lBoolT => .b 0
  | .lUlong64T => .ul64 0
  | .lDoubleT => .db xdr.zero
  | .lStringT => .str none
  | .lHostT => .host none
  | .lListT => .nullList
  | .lObjectT => .nullObject
  | .lRefT => .ref 0
  | _ => .ul 0

/-- The local variables of `cull_unpack_cont`. -/
structure ContState where
  onlyAtBufferend : Bool
  formatError : Bool
  lastError : Option PackError

/-- The loop of `cull_unpack_cont`. Format errors are remembered, other errors end the loop. -/
def cullUnpackContLoop (xdr : Xdr D) (unpackSwitch : LType → Unpack (LMultiType D))
    (flags : UInt32) : List LDescr → ContState → Unpack (List (LMultiType D) × ContState)
  | [], state => pure ([], state)
  | field :: dp, state =>
      let cleared := clearedField xdr (mtGetType field.mt)
      if isSelected flags field.mt then do
        let result ← attempt (unpackSwitch (mtGetType field.mt))
        match result with
        | .ok value => do
            let (cont, state) ← cullUnpackContLoop xdr unpackSwitch flags dp
              { state with lastError := none }
            pure (value :: cont, state)
        | .error .format => do
            let (cont, state) ← cullUnpackContLoop xdr unpackSwitch flags dp
              { state with formatError := true, lastError := some .format }
            pure (cleared :: cont, state)
        | .error e =>
            pure (cleared :: dp.map (fun field => clearedField xdr (mtGetType field.mt)),
              { state with onlyAtBufferend := false, lastError := some e })
      else do
        let (cont, state) ← cullUnpackContLoop xdr unpackSwitch flags dp state
        pure (cleared :: cont, state)

/-- `cull_unpack_cont`. -/
def cullUnpackCont (xdr : Xdr D) (unpackSwitch : LType → Unpack (LMultiType D)) (flags : UInt32)
    (dp : List LDescr) : Unpack (List (LMultiType D)) := do
  let (cont, state) ← cullUnpackContLoop xdr unpackSwitch flags (lDescrFields dp)
    ⟨true, false, none⟩
  if state.formatError && state.onlyAtBufferend then pure cont
  else
    match state.lastError with
    | some e => fail e
    | none => if state.onlyAtBufferend then pure cont else fail .format

end Cont

section List
variable {D : Type}

/-- The descriptor of an element: its own when it is free, else the one from outside. 50 is
`JB_job_number`: jobs keep the descriptor from outside. -/
def cullUnpackElemDescr (ns : Option (List LNameSpace)) (status : UInt32)
    (dp : Option (List LDescr)) : Unpack (List LDescr) :=
  if status = FREE_ELEM then do
    let descr ← cullUnpackDescr ns
    match dp with
    | some dp => if lDescrName dp 0 = 50 then pure dp else pure descr
    | none => pure descr
  else
    match dp with
    | some dp => pure dp
    | none => fail .badarg

/-- `cull_unpack_elem_partial`. -/
def cullUnpackElemWith (xdr : Xdr D) (ns : Option (List LNameSpace))
    (unpackSwitch : LType → Unpack (LMultiType D)) (flags : UInt32) (dp : Option (List LDescr)) :
    Unpack (LListElem D) := do
  let status ← unpackint
  let descr ← cullUnpackElemDescr ns status dp
  let _ ← unpackbitfield (lCountDescr descr)
  let cont ← cullUnpackCont xdr unpackSwitch flags descr
  pure ⟨if status = BOUND_ELEM ∨ status = OBJECT_ELEM then TRANS_BOUND_ELEM else status, descr,
    cont⟩

/-- `cull_unpack_object`. -/
def cullUnpackObjectWith (xdr : Xdr D) (ns : Option (List LNameSpace))
    (unpackSwitch : LType → Unpack (LMultiType D)) (flags : UInt32) : Unpack (LMultiType D) := do
  let i ← unpackint
  if i = 0 then pure .nullObject
  else do
    let descr ← cullUnpackDescr ns
    let ep ← cullUnpackElemWith xdr ns unpackSwitch flags (some descr)
    pure (.obj ep.descr ep.cont)

/-- `cull_unpack_list_partial`. `lAppendElem` binds the elements and marks the list as changed. -/
def cullUnpackListWith (xdr : Xdr D) (ns : Option (List LNameSpace))
    (unpackSwitch : LType → Unpack (LMultiType D)) (flags : UInt32) : Unpack (LMultiType D) := do
  let i ← unpackint
  if i = 0 then pure .nullList
  else do
    let n ← unpackint
    let listname ← unpackstr
    let changed ← unpackint
    let descr ← cullUnpackDescr ns
    let elems ← many (cullUnpackElemWith xdr ns unpackSwitch flags (some descr)) n.toNat
    pure (.glp listname (changed ≠ 0 || !elems.isEmpty) descr (elems.map LListElem.cont))

/-- `cull_unpack_switch`, over the functions for lists and objects. -/
def cullUnpackSwitchWith (xdr : Xdr D) (unpackList unpackObject : Unpack (LMultiType D)) :
    LType → Unpack (LMultiType D)
  | .lBoolT => do
      let i ← unpackint
      pure (.b i.toUInt8)
  | .lUlongT => do
      let i ← unpackint
      pure (.ul i)
  | .lUlong64T => do
      let i ← unpackint64
      pure (.ul64 i)
  | .lStringT => do
      let str ← unpackstr
      pure (.str str)
  | .lHostT => do
      let host ← unpackstr
      pure (.host host)
  | .lListT => unpackList
  | .lObjectT => unpackObject
  | .lDoubleT => do
      let d ← unpackdouble xdr
      pure (.db d)
  | .lRefT => pure (.ref 0)
  | _ => fail .format

def cullUnpackSwitch (xdr : Xdr D) (ns : Option (List LNameSpace)) (flags : UInt32) :
    ℕ → LType → Unpack (LMultiType D)
  | 0 => cullUnpackSwitchWith xdr outOfFuel outOfFuel
  | fuel + 1 =>
      let unpackSwitch := cullUnpackSwitch xdr ns flags fuel
      cullUnpackSwitchWith xdr (cullUnpackListWith xdr ns unpackSwitch flags)
        (cullUnpackObjectWith xdr ns unpackSwitch flags)

def cullUnpackListPartial (xdr : Xdr D) (ns : Option (List LNameSpace)) (fuel : ℕ)
    (flags : UInt32) : Unpack (LMultiType D) :=
  cullUnpackListWith xdr ns (cullUnpackSwitch xdr ns flags fuel) flags

def cullUnpackElemPartial (xdr : Xdr D) (ns : Option (List LNameSpace)) (fuel : ℕ)
    (flags : UInt32) (dp : Option (List LDescr)) : Unpack (LListElem D) :=
  cullUnpackElemWith xdr ns (cullUnpackSwitch xdr ns flags fuel) flags dp

end List

section Enumeration

/-- An `lEnumeration`. Flags that are none of `PackWhatAll`, `PackWhatNone` and `PackWhatArray`
leave the position unset. -/
inductive LEnumeration
  | null
  | all
  | none
  | unset
  | array (fields : List (UInt32 × UInt32 × UInt32 × LEnumeration))

def PackWhatAll : UInt32 := 0
def PackWhatNone : UInt32 := 1
def PackWhatArray : UInt32 := 2

/-- A field of an enumeration: `pos`, `mt`, `nm` and the enumeration of the sublist. -/
def cullUnpackEnumField (unpackEnum : Unpack LEnumeration) :
    Unpack (UInt32 × UInt32 × UInt32 × LEnumeration) := do
  let pos ← unpackint
  let mt ← unpackint
  let nm ← unpackint
  let temp ← unpackint
  let ep ← if temp = 1 then unpackEnum else pure .null
  pure (pos, mt, nm, ep)

def cullUnpackEnumWith (unpackEnum : Unpack LEnumeration) : Unpack LEnumeration := do
  let i ← unpackint
  if i = 0 then pure .null
  else do
    let flag ← unpackint
    if flag ≠ PackWhatArray then
      if flag = PackWhatAll then pure .all
      else if flag = PackWhatNone then pure .none
      else pure .unset
    else do
      let n ← unpackint
      if MAX_DESCR_SIZE < (n + 1).toNat then fail .enomem
      else do
        let fields ← many (cullUnpackEnumField unpackEnum) n.toNat
        pure (.array fields)

/-- `cull_unpack_enum`. -/
def cullUnpackEnum : ℕ → Unpack LEnumeration
  | 0 => outOfFuel
  | fuel + 1 => cullUnpackEnumWith (cullUnpackEnum fuel)

end Enumeration

section Condition
variable {D : Type}

/-- An `lCondition`. The operand of a comparison on a list field is a condition. -/
inductive LCondition (D : Type)
  | null
  | cmp (op pos mt nm : UInt32) (val : LMultiType D)
  | sub (op pos mt nm : UInt32) (cp : LCondition D)
  | neg (first : LCondition D)
  | log (op : UInt32) (first second : LCondition D)

/-- `SUBSCOPE`, `EQUAL`, `NOT_EQUAL`, `LOWER_EQUAL`, `LOWER`, `GREATER_EQUAL`, `GREATER`,
`BITMASK`, `STRCASECMP`, `PATTERNCMP` and `HOSTNAMECMP`. -/
def isComparison (op : UInt32) : Bool := op = 3 || 19 ≤ op && op ≤ 28

def AND_OP : UInt32 := 29
def OR_OP : UInt32 := 30
def NEG_OP : UInt32 := 31

def cullUnpackCondWith (unpackSwitch : LType → Unpack (LMultiType D))
    (unpackCond : Unpack (LCondition D)) : Unpack (LCondition D) := do
  let i ← unpackint
  if i = 0 then pure .null
  else do
    let op ← unpackint
    if isComparison op then do
      let pos ← unpackint
      let mt ← unpackint
      let nm ← unpackint
      if mtGetType mt ≠ .lListT then do
        let val ← unpackSwitch (mtGetType mt)
        pure (.cmp op pos mt nm val)
      else do
        let cp ← unpackCond
        pure (.sub op pos mt nm cp)
    else if op = NEG_OP then do
      let first ← unpackCond
      pure (.neg first)
    else if op = AND_OP ∨ op = OR_OP then do
      let first ← unpackCond
      let second ← unpackCond
      pure (.log op first second)
    else fail .format

/-- `cull_unpack_cond`. -/
def cullUnpackCond (xdr : Xdr D) (ns : Option (List LNameSpace)) : ℕ → Unpack (LCondition D)
  | 0 => outOfFuel
  | fuel + 1 => cullUnpackCondWith (cullUnpackSwitch xdr ns 0 fuel) (cullUnpackCond xdr ns fuel)

end Condition

end GridEngine
