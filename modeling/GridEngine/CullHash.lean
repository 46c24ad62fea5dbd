import GridEngine.HashTable
import GridEngine.LinkedNodes
import Mathlib.Data.List.Perm.Basic
import Mathlib.Data.Nat.Size

/-!
# Hashed list fields

`cull_hash`: the table of one hashed field of a list. For unique keys it maps a key to its element.
Otherwise it maps a key to the ends of a chain of nodes, and a second table maps an element to its
node. An access through a `NULL` or freed pointer has no result.
-/

namespace GridEngine
open LinkedNodes

/-- The address of an `lListElem`. -/
abbrev ElemPtr := ℕ

def hashFuncULong32 (key : UInt32) : ℤ := key.toBitVec.toInt

def hashFuncPointer (key : Ptr) : ℤ := (BitVec.ofNat 32 (key >>> 7)).toInt

/-- `hash_func_string`; the loop takes the terminating zero as well. -/
def hashFuncString (key : String) : ℤ :=
  ((key.toUTF8.toList ++ [0]).foldl (fun (hash : BitVec 32) (c : UInt8) =>
    hash + ((hash <<< 3) + c.toBitVec.signExtend 32)) 0).toInt

instance : HashFunc UInt32 := ⟨hashFuncULong32⟩
instance : HashFunc String := ⟨hashFuncString⟩
instance : HashFunc ℕ := ⟨hashFuncPointer⟩

structure NonUniqueHeader where
  first : Option Ptr
  last : Option Ptr
deriving DecidableEq, Repr

/-- `cull_htable` for keys that need not be unique, with the memory of its nodes. -/
structure NonUniqueHtable (κ : Type) [HashFunc κ] where
  ht : Htable κ NonUniqueHeader
  nuht : Htable ElemPtr Ptr
  heap : Heap ElemPtr
  brk : Ptr

/-- `cull_htable`. -/
inductive CullHtable (κ : Type) [HashFunc κ]
  | unique (ht : Htable κ ElemPtr)
  | nonUnique (t : NonUniqueHtable κ)

def CullHtable.IsUnique {κ : Type} [HashFunc κ] : CullHtable κ → Prop
  | .unique _ => True
  | .nonUnique _ => False

/-- What the loops over the elements with a key remember. -/
inductive HashIterator
  | null
  | node (nuh : Ptr)
  | elem (ep : ElemPtr)
deriving DecidableEq, Repr

variable {κ : Type} [HashFunc κ]

def hashComputeSize (numberOfElem : ℕ) : ℕ := numberOfElem.size

def cullHashCreate (unique : Bool) (size : ℕ) : CullHtable κ :=
  let size := if size = 0 then 4 else size
  if unique then .unique (.sgeHtableCreate size)
  else .nonUnique ⟨.sgeHtableCreate size, .sgeHtableCreate size, fun _ => none, 0⟩

theorem isUnique_create {unique : Bool} {size : ℕ} :
    (cullHashCreate unique size : CullHtable κ).IsUnique ↔ unique = true := by
  cases unique <;> simp [cullHashCreate, CullHtable.IsUnique]

variable [DecidableEq κ]

namespace NonUniqueHtable

/-- `cull_hash_insert` for keys that need not be unique. -/
def cullHashInsert (t : NonUniqueHtable κ) (ep : ElemPtr) (key : κ) : Option (NonUniqueHtable κ) :=
  match t.ht.sgeHtableLookup key with
  | some head =>
      match t.nuht.sgeHtableLookup ep with
      | none => do
          let last ← head.last
          let heap ← setNext (Function.update t.heap t.brk (some ⟨some last, none, ep⟩)) last
            (some t.brk)
          return ⟨t.ht.sgeHtableStore key { head with last := some t.brk },
            t.nuht.sgeHtableStore ep t.brk, heap, t.brk + 1⟩
      | some _ => some t
  | none => some ⟨t.ht.sgeHtableStore key ⟨some t.brk, some t.brk⟩,
      t.nuht.sgeHtableStore ep t.brk,
      Function.update t.heap t.brk (some ⟨none, none, ep⟩), t.brk + 1⟩

/-- Takes a node out of its chain. -/
def unlinkNode (heap : Heap ElemPtr) (head : NonUniqueHeader) (nuh : Ptr) :
    Option (NonUniqueHeader × Heap ElemPtr) := do
  let node ← heap nuh
  if head.first = some nuh then
    if head.last = some nuh then return (⟨node.next, none⟩, heap)
    else
      let first ← node.next
      let heap ← setPrev heap first none
      return (⟨some first, head.last⟩, heap)
  else if head.last = some nuh then
    let last ← node.prev
    let heap ← setNext heap last none
    return (⟨head.first, some last⟩, heap)
  else
    let prev ← node.prev
    let next ← node.next
    let heap ← setNext heap prev (some next)
    let heap ← setPrev heap next (some prev)
    return (head, heap)

/-- `cull_hash_remove` for keys that need not be unique. -/
def cullHashRemove (t : NonUniqueHtable κ) (ep : ElemPtr) (key : κ) : Option (NonUniqueHtable κ) :=
  match t.ht.sgeHtableLookup key with
  | none => some t
  | some head =>
      match t.nuht.sgeHtableLookup ep with
      | some nuh => do
          let (head, heap) ← unlinkNode t.heap head nuh
          let ht := t.ht.sgeHtableStore key head
          let ht := if head.first = none ∧ head.last = none then ht.sgeHtableDelete key else ht
          return ⟨ht, t.nuht.sgeHtableDelete ep, Function.update heap nuh none, t.brk⟩
      | none =>
          if head.first = none ∧ head.last = none then
            some { t with ht := t.ht.sgeHtableDelete key }
          else some t

end NonUniqueHtable

/-- `cull_hash_insert`; a missing key is not hashed. -/
def cullHashInsert (ep : ElemPtr) (key : Option κ) : CullHtable κ → Option (CullHtable κ)
  | .unique ht => some (.unique (key.elim ht fun key => ht.sgeHtableStore key ep))
  | .nonUnique t => (key.elim (some t) (t.cullHashInsert ep)).map .nonUnique

/-- `cull_hash_remove`. -/
def cullHashRemove (ep : ElemPtr) (key : Option κ) : CullHtable κ → Option (CullHtable κ)
  | .unique ht => some (.unique (key.elim ht ht.sgeHtableDelete))
  | .nonUnique t => (key.elim (some t) (t.cullHashRemove ep)).map .nonUnique

/-- `cull_hash_first`. -/
def cullHashFirst (key : κ) : CullHtable κ → Option (Option ElemPtr × HashIterator)
  | .unique ht => some (ht.sgeHtableLookup key, .null)
  | .nonUnique t =>
      match t.ht.sgeHtableLookup key with
      | none => some (none, .null)
      | some head => do
          let nuh ← head.first
          let node ← t.heap nuh
          return (some node.data, .node nuh)

/-- `cull_hash_next`. -/
def cullHashNext (iterator : HashIterator) : CullHtable κ → Option (Option ElemPtr × HashIterator)
  | .unique _ => none
  | .nonUnique t =>
      match iterator with
      | .node nuh => do
          let node ← t.heap nuh
          match node.next with
          | none => return (none, .null)
          | some nuh =>
              let node ← t.heap nuh
              return (some node.data, .node nuh)
      | _ => none

end GridEngine

/-!
## Lists with a hashed field

The list operations of `cull_list`, the setters and the loops over the elements with a key, for
one field of the elements. A list descriptor says whether the field is to be hashed and whether its
values are unique; the table may be missing all the same. Where the source aborts, or is handed an
element of another list to insert after, there is no result.
-/

namespace GridEngine

/-- `lList` and the entry of the field in its descriptor. -/
structure HashedList (κ : Type) [HashFunc κ] where
  hashing : Bool
  unique : Bool
  ht : Option (CullHtable κ)
  elems : List ElemPtr

/-- `FREE_ELEM`, `BOUND_ELEM` with the list of the descriptor, and elements that are no more. -/
inductive ElemStatus
  | free
  | bound (list : ℕ)
  | freed
deriving DecidableEq, Repr

structure CullLists (κ : Type) [HashFunc κ] where
  lists : ℕ → Option (HashedList κ)
  field : ElemPtr → Option κ
  status : ElemPtr → ElemStatus

inductive CullListOp (κ : Type)
  | createList (list : ℕ) (hashing unique hash : Bool)
  | insertElem (list : ℕ) (ep : Option ElemPtr) (new : ElemPtr)
  | appendElem (list : ℕ) (ep : ElemPtr)
  | removeElem (list : ℕ) (ep : ElemPtr)
  | dechainElem (list : ℕ) (ep : ElemPtr)
  | dechainList (source target : ℕ) (ep : ElemPtr)
  | sortList (list : ℕ) (pointer : List ElemPtr)
  | setPos (ep : ElemPtr) (value : Option κ)

variable {κ : Type} [HashFunc κ] [DecidableEq κ]

/-- `cull_hash_elem`. -/
def cullHashElem (field : ElemPtr → Option κ) (ep : ElemPtr) :
    Option (CullHtable κ) → Option (Option (CullHtable κ))
  | none => some none
  | some ht => (cullHashInsert ep (field ep) ht).map some

/-- The loop over the fields that takes an element out of the tables. -/
def cullUnhashElem (field : ElemPtr → Option κ) (ep : ElemPtr) :
    Option (CullHtable κ) → Option (Option (CullHtable κ))
  | none => some none
  | some ht => (cullHashRemove ep (field ep) ht).map some

/-- `cull_hash_create_hashtables`. -/
def cullHashCreateHashtables (field : ElemPtr → Option κ) (lp : HashedList κ) :
    Option (HashedList κ) :=
  let ht := match lp.ht with
    | none =>
        if lp.hashing then some (cullHashCreate lp.unique (hashComputeSize lp.elems.length))
        else none
    | some ht => some ht
  (lp.elems.foldlM (fun ht ep => cullHashElem field ep ht) ht).map fun ht => { lp with ht := ht }

/-- `cull_hash_recreate_after_sort`. -/
def cullHashRecreateAfterSort (field : ElemPtr → Option κ) (lp : HashedList κ) :
    Option (HashedList κ) :=
  if lp.ht.isSome ∧ lp.unique = false then
    (lp.elems.foldlM (fun ht ep => cullHashElem field ep ht)
      (some (cullHashCreate false (hashComputeSize lp.elems.length)))).map
        fun ht => { lp with ht := ht }
  else some lp

/-- Links `new` in after `ep`. -/
def insertAfter (ep new : ElemPtr) : List ElemPtr → Option (List ElemPtr)
  | [] => none
  | e :: l => if e = ep then some (e :: new :: l) else (insertAfter ep new l).map (e :: ·)

namespace CullLists

def setList (s : CullLists κ) (list : ℕ) (lp : HashedList κ) : CullLists κ :=
  { s with lists := Function.update s.lists list (some lp) }

/-- `lCreateListHash`. -/
def lCreateListHash (s : CullLists κ) (list : ℕ) (hashing unique hash : Bool) :
    Option (CullLists κ) :=
  match s.lists list with
  | some _ => none
  | none => some (s.setList list ⟨hashing, unique,
      if hash && hashing then some (cullHashCreate unique 0) else none, []⟩)

/-- The common part of `lInsertElem` and `lAppendElem`. -/
def bindElem (s : CullLists κ) (list : ℕ) (lp : HashedList κ) (elems : List ElemPtr)
    (new : ElemPtr) : Option (CullLists κ) :=
  if s.status new = .free then
    (cullHashElem s.field new lp.ht).map fun ht =>
      { s.setList list { lp with ht := ht, elems := elems } with
        status := Function.update s.status new (.bound list) }
  else none

def lInsertElem (s : CullLists κ) (list : ℕ) (ep : Option ElemPtr) (new : ElemPtr) :
    Option (CullLists κ) := do
  let lp ← s.lists list
  let elems ← match ep with
    | none => some (new :: lp.elems)
    | some ep => insertAfter ep new lp.elems
  s.bindElem list lp elems new

def lAppendElem (s : CullLists κ) (list : ℕ) (ep : ElemPtr) : Option (CullLists κ) := do
  let lp ← s.lists list
  s.bindElem list lp (lp.elems ++ [ep]) ep

/-- The common part of `lDechainElem` and `lRemoveElem`. -/
def unbindElem (s : CullLists κ) (list : ℕ) (ep : ElemPtr) (status : ElemStatus) :
    Option (CullLists κ) := do
  let lp ← s.lists list
  if s.status ep = .bound list then
    (cullUnhashElem s.field ep lp.ht).map fun ht =>
      { s.setList list { lp with ht := ht, elems := lp.elems.erase ep } with
        status := Function.update s.status ep status }
  else none

def lDechainElem (s : CullLists κ) (list : ℕ) (ep : ElemPtr) : Option (CullLists κ) :=
  s.unbindElem list ep .free

def lRemoveElem (s : CullLists κ) (list : ℕ) (ep : ElemPtr) : Option (CullLists κ) :=
  s.unbindElem list ep .freed

def createHashtables (s : CullLists κ) (list : ℕ) : Option (CullLists κ) := do
  let lp ← s.lists list
  let lp ← cullHashCreateHashtables s.field lp
  return s.setList list lp

/-- `lDechainList`; a missing target list is created with the descriptor of the source list. -/
def lDechainList (s : CullLists κ) (source target : ℕ) (ep : ElemPtr) :
    Option (CullLists κ) := do
  let lp ← s.lists source
  if s.status ep = .bound source then
    let moved := lp.elems.dropWhile (· ≠ ep)
    let rest : HashedList κ := { lp with ht := none, elems := lp.elems.takeWhile (· ≠ ep) }
    let s := s.setList source rest
    let tgt := (s.lists target).getD { lp with elems := [] }
    let s := s.setList target { tgt with ht := none, elems := tgt.elems ++ moved }
    let s := { s with status := fun e => if e ∈ moved then .bound target else s.status e }
    let s ← s.createHashtables source
    s.createHashtables target
  else none

/-- `lSortList` with the order in which `qsort` leaves the pointers. -/
def lSortList (s : CullLists κ) (list : ℕ) (pointer : List ElemPtr) : Option (CullLists κ) := do
  let lp ← s.lists list
  if pointer.isPerm lp.elems then
    if lp.elems.length < 2 then return s
    else
      let lp ← cullHashRecreateAfterSort s.field { lp with elems := pointer }
      return s.setList list lp
  else none

/-- `lSetPosString` and `lSetPosUlong`. -/
def lSetPos (s : CullLists κ) (ep : ElemPtr) (value : Option κ) : Option (CullLists κ) :=
  let field := Function.update s.field ep value
  match s.status ep with
  | .freed => none
  | .free => some { s with field := field }
  | .bound list =>
      if value = s.field ep then some s
      else do
        let lp ← s.lists list
        let ht ← cullUnhashElem s.field ep lp.ht
        let ht ← cullHashElem field ep ht
        return { s.setList list { lp with ht := ht } with field := field }

def step (s : CullLists κ) : CullListOp κ → Option (CullLists κ)
  | .createList list hashing unique hash => s.lCreateListHash list hashing unique hash
  | .insertElem list ep new => s.lInsertElem list ep new
  | .appendElem list ep => s.lAppendElem list ep
  | .removeElem list ep => s.lRemoveElem list ep
  | .dechainElem list ep => s.lDechainElem list ep
  | .dechainList source target ep => s.lDechainList source target ep
  | .sortList list pointer => s.lSortList list pointer
  | .setPos ep value => s.lSetPos ep value

end CullLists

section Search
variable (field : ElemPtr → Option κ) (lp : HashedList κ) (key : κ)

/-- The loop that looks for the next element with the key. -/
def seekElem (elems : List ElemPtr) : Option ElemPtr × HashIterator :=
  match elems.find? fun ep => field ep = some key with
  | none => (none, .null)
  | some ep => (some ep, .elem ep)

/-- `lGetElemStrFirst` and `lGetElemUlongFirst`. -/
def lGetElemFirst : Option (Option ElemPtr × HashIterator) :=
  match lp.ht with
  | some ht => cullHashFirst key ht
  | none => some (seekElem field key lp.elems)

/-- `lGetElemStrNext` and `lGetElemUlongNext`. -/
def lGetElemNext (iterator : HashIterator) : Option (Option ElemPtr × HashIterator) :=
  if iterator = .null then some (none, .null)
  else
    match lp.ht with
    | some ht => cullHashNext iterator ht
    | none =>
        match iterator with
        | .elem ep => some (seekElem field key (lp.elems.dropWhile (· ≠ ep)).tail)
        | _ => none

/-- The elements a loop visits after a call gave `found`. -/
def visitedFrom : ℕ → Option ElemPtr × HashIterator → Option (List ElemPtr)
  | _, (none, _) => some []
  | 0, (some _, _) => none
  | fuel + 1, (some ep, iterator) => do
      let found ← lGetElemNext field lp key iterator
      let visited ← visitedFrom fuel found
      return ep :: visited

/-- The elements a loop from `lGetElem…First` over `lGetElem…Next` visits. -/
def visitedElems (fuel : ℕ) : Option (List ElemPtr) := do
  let found ← lGetElemFirst field lp key
  visitedFrom field lp key fuel found

end Search

end GridEngine
