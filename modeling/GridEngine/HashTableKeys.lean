import GridEngine.HashTable

/-!
# Compare functions of hash tables

`sge_htable` with its hash and compare functions. A table works on the classes of keys that the
compare function does not tell apart.
-/

namespace GridEngine

/-- The functions a table is created with. -/
class KeyFuncs (κ : Type*) extends HashFunc κ where
  compareFunc : κ → κ → ℤ

namespace HtableKeys

section Operations
variable {κ ν : Type*} [KeyFuncs κ]

def storeInChain (key : κ) (data : ν) : List (κ × ν) → Option (List (κ × ν))
  | [] => none
  | (k, d) :: rest =>
      if KeyFuncs.compareFunc k key = 0 then some ((k, data) :: rest)
      else (storeInChain key data rest).map ((k, d) :: ·)

def lookupInChain (key : κ) : List (κ × ν) → Option ν
  | [] => none
  | (k, d) :: rest =>
      if KeyFuncs.compareFunc k key = 0 then some d else lookupInChain key rest

def deleteFromChain (key : κ) : List (κ × ν) → Option (List (κ × ν))
  | [] => none
  | (k, d) :: rest =>
      if KeyFuncs.compareFunc k key = 0 then some rest
      else (deleteFromChain key rest).map ((k, d) :: ·)

def sgeHtableStore (t : HtableRec κ ν) (key : κ) (data : ν) : HtableRec κ ν :=
  match storeInChain key data (t.bucket key) with
  | some b => t.setBucket key b t.numentries
  | none =>
      let t := t.setBucket key ((key, data) :: t.bucket key) (t.numentries + 1)
      if t.numentries > 2 ^ t.size - 1 then t.sgeHtableResize true else t

def sgeHtableLookup (t : HtableRec κ ν) (key : κ) : Option ν := lookupInChain key (t.bucket key)

def sgeHtableDelete (t : HtableRec κ ν) (key : κ) : HtableRec κ ν :=
  match deleteFromChain key (t.bucket key) with
  | some b =>
      let t := t.setBucket key b (t.numentries - 1)
      if t.numentries < (2 ^ t.size - 1) / 2 then t.sgeHtableResize false else t
  | none => t

end Operations

/-- The compare function tells classes of keys apart, and a class has one hash. -/
class LawfulKeyFuncs (κ : Type*) [KeyFuncs κ] : Prop where
  equivalence : Equivalence fun a b : κ => KeyFuncs.compareFunc a b = 0
  hashFunc_eq (a b : κ) : KeyFuncs.compareFunc a b = 0 →
    HashFunc.hashFunc a = HashFunc.hashFunc b

section Classes
variable (κ : Type*) [KeyFuncs κ] [LawfulKeyFuncs κ]

def keySetoid : Setoid κ := ⟨fun a b => KeyFuncs.compareFunc a b = 0, LawfulKeyFuncs.equivalence⟩

/-- The keys as the compare function sees them. -/
def KeyClass := Quotient (keySetoid κ)

instance : HashFunc (KeyClass κ) :=
  ⟨Quotient.lift (fun k : κ => HashFunc.hashFunc k) LawfulKeyFuncs.hashFunc_eq⟩

instance : DecidableEq (KeyClass κ) :=
  @Quotient.decidableEq κ (keySetoid κ) fun a b =>
    inferInstanceAs (Decidable (KeyFuncs.compareFunc a b = 0))

variable {κ}

def keyClass (k : κ) : KeyClass κ := Quotient.mk (keySetoid κ) k

variable {k key : κ}

theorem keyClass_eq_iff : keyClass k = keyClass key ↔ KeyFuncs.compareFunc k key = 0 :=
  @Quotient.eq κ (keySetoid κ) k key

variable {ν : Type*} {data : ν} {t : HtableRec κ ν} {b : List (κ × ν)}

def classEntry (e : κ × ν) : KeyClass κ × ν := (keyClass e.1, e.2)

/-- A table with the classes of its keys in place of the keys. -/
def classes (t : HtableRec κ ν) : HtableRec (KeyClass κ) ν :=
  ⟨t.table.map (List.map classEntry), t.size, t.numentries⟩

theorem storeInChain_classes : (storeInChain key data b).map (List.map classEntry) =
    storeInBucket (keyClass key) data (b.map classEntry) := by
  induction b with
  | nil => rfl
  | cons e b ih =>
      rw [List.map_cons, classEntry, storeInBucket, ← ih, storeInChain]
      simp only [keyClass_eq_iff]
      split_ifs
      · rfl
      · rw [Option.map_map, Option.map_map]
        rfl

theorem deleteFromChain_classes : (deleteFromChain key b).map (List.map classEntry) =
    deleteFromBucket (keyClass key) (b.map classEntry) := by
  induction b with
  | nil => rfl
  | cons e b ih =>
      rw [List.map_cons, classEntry, deleteFromBucket, ← ih, deleteFromChain]
      simp only [keyClass_eq_iff]
      split_ifs
      · rfl
      · rw [Option.map_map, Option.map_map]
        rfl

theorem lookupInChain_classes : lookupInChain key b = (b.map classEntry).lookup (keyClass key) := by
  induction b with
  | nil => rfl
  | cons e b ih =>
      rw [List.map_cons, classEntry, List.lookup_cons, ← ih, lookupInChain]
      by_cases hkey : KeyFuncs.compareFunc e.1 key = 0
      · rw [if_pos hkey, keyClass_eq_iff.mpr hkey, beq_self_eq_true]
      · have hne : keyClass key ≠ keyClass e.1 := fun heq => hkey (keyClass_eq_iff.mp heq.symm)
        rw [if_neg hkey, beq_eq_false_iff_ne.mpr hne]

theorem bucket_classes (key : κ) :
    (classes t).bucket (keyClass key) = (t.bucket key).map classEntry := by
  change (t.table.map (List.map classEntry)).getD _ [] = _
  rw [HtableRec.bucket, ← List.map_nil (f := classEntry), List.getD_map]
  rfl

theorem setBucket_classes (key : κ) (b : List (κ × ν)) (numentries : ℕ) :
    classes (t.setBucket key b numentries) =
      (classes t).setBucket (keyClass key) (b.map classEntry) numentries := by
  rw [HtableRec.setBucket, classes, List.map_set]
  rfl

theorem rehash_classes (size : ℕ) : classes (t.rehash size) = (classes t).rehash size := by
  have hempty : classes (⟨List.replicate (2 ^ size) [], size, t.numentries⟩ : HtableRec κ ν) =
      ⟨List.replicate (2 ^ size) [], size, t.numentries⟩ := by
    rw [classes, List.map_replicate, List.map_nil]
  have hpush : ∀ (t : HtableRec κ ν) (e : κ × ν),
      classes (t.setBucket e.1 (e :: t.bucket e.1) t.numentries) =
        (classes t).setBucket (keyClass e.1) (classEntry e :: (classes t).bucket (keyClass e.1))
          (classes t).numentries := by
    intro t e
    rw [setBucket_classes, List.map_cons, bucket_classes]
    rfl
  have hflatten : (classes t).table.flatten = t.table.flatten.map classEntry :=
    (List.map_flatten ..).symm
  rw [HtableRec.rehash, HtableRec.rehash, hflatten, List.foldl_map]
  change _ = List.foldl _
    (⟨List.replicate (2 ^ size) [], size, t.numentries⟩ : HtableRec (KeyClass κ) ν) _
  rw [← hempty]
  exact (List.foldl_hom classes fun t e => (hpush t e).symm).symm

theorem resize_classes (grow : Bool) :
    classes (t.sgeHtableResize grow) = (classes t).sgeHtableResize grow := by
  rw [HtableRec.sgeHtableResize, apply_ite classes, apply_ite classes, rehash_classes,
    rehash_classes]
  rfl

theorem store_classes (key : κ) (data : ν) :
    classes (sgeHtableStore t key data) = (classes t).sgeHtableStore (keyClass key) data := by
  rw [sgeHtableStore, HtableRec.sgeHtableStore, bucket_classes, ← storeInChain_classes]
  cases storeInChain key data (t.bucket key) with
  | some b => exact setBucket_classes key b t.numentries
  | none =>
      have hset : classes (t.setBucket key ((key, data) :: t.bucket key) (t.numentries + 1)) =
          (classes t).setBucket (keyClass key)
            ((keyClass key, data) :: (t.bucket key).map classEntry)
            ((classes t).numentries + 1) := setBucket_classes ..
      rw [Option.map_none]
      dsimp only
      rw [← hset, apply_ite classes, resize_classes]
      rfl

theorem delete_classes (key : κ) :
    classes (sgeHtableDelete t key) = (classes t).sgeHtableDelete (keyClass key) := by
  rw [sgeHtableDelete, HtableRec.sgeHtableDelete, bucket_classes, ← deleteFromChain_classes]
  cases deleteFromChain key (t.bucket key) with
  | some b =>
      have hset : classes (t.setBucket key b (t.numentries - 1)) =
          (classes t).setBucket (keyClass key) (b.map classEntry)
            ((classes t).numentries - 1) := setBucket_classes ..
      rw [Option.map_some]
      dsimp only
      rw [← hset, apply_ite classes, resize_classes]
      rfl
  | none => rfl

theorem lookup_classes (key : κ) :
    sgeHtableLookup t key = (classes t).sgeHtableLookup (keyClass key) := by
  rw [sgeHtableLookup, lookupInChain_classes, HtableRec.sgeHtableLookup, bucket_classes]

end Classes

end HtableKeys

end GridEngine
