import GridEngine.HashTableRuns
import Mathlib.Data.BitVec

/-!
# Key types of hash tables

The hash and compare functions of `sge_htable`. The compare function of a key of 64 bits returns
the difference of the keys as an `int`, so keys that differ by a multiple of `2 ^ 32` are one key.
-/

namespace GridEngine
namespace HtableKeys

/-- The types of keys with hash and compare functions of their own. -/
inductive KeyType
  | uLong32
  | uLong64
  | long
  | pointer
  | string

/-- The bytes of a string without the terminating zero. -/
def CString := {s : List (BitVec 8) // 0 ∉ s}

/-- The keys of a type; the addresses of the platform have 64 bits. -/
def KeyType.Key : KeyType → Type
  | .uLong32 => BitVec 32
  | .uLong64 => BitVec 64
  | .long => BitVec 64
  | .pointer => BitVec 64
  | .string => CString

instance (type : KeyType) : DecidableEq type.Key :=
  match type with
  | .uLong32 => inferInstanceAs (DecidableEq (BitVec 32))
  | .uLong64 => inferInstanceAs (DecidableEq (BitVec 64))
  | .long => inferInstanceAs (DecidableEq (BitVec 64))
  | .pointer => inferInstanceAs (DecidableEq (BitVec 64))
  | .string => inferInstanceAs (DecidableEq {s : List (BitVec 8) // 0 ∉ s})

def hashFuncULong32 (key : BitVec 32) : ℤ := key.toInt

def hashFuncULong64 (key : BitVec 64) : ℤ := (key.setWidth 32).toInt

def hashFuncLong (key : BitVec 64) : ℤ := (key.setWidth 32).toInt

def hashFuncPointer (key : BitVec 64) : ℤ := ((key.sshiftRight 7).setWidth 32).toInt

/-- `hash_func_string`; the loop takes the terminating zero as well. -/
def hashFuncString (key : CString) : ℤ :=
  ((key.1 ++ [0]).foldl (fun (hash : BitVec 32) (c : BitVec 8) => hash + ((hash <<< 3) + c.signExtend 32))
    0).toInt

def hashCompareULong32 (a b : BitVec 32) : ℤ := (a - b).toInt

/-- The difference of 64 bits is returned as an `int`. -/
def hashCompareULong64 (a b : BitVec 64) : ℤ := ((a - b).setWidth 32).toInt

def hashCompareLong (a b : BitVec 64) : ℤ := ((a - b).setWidth 32).toInt

def hashComparePointer (a b : BitVec 64) : ℤ := if a ≠ b then 1 else 0

def strcmp : List (BitVec 8) → List (BitVec 8) → ℤ
  | [], [] => 0
  | [], d :: _ => 0 - d.toNat
  | c :: _, [] => c.toNat
  | c :: cs, d :: ds => if c = d then strcmp cs ds else c.toNat - d.toNat

def hashCompareString (a b : CString) : ℤ := strcmp a.1 b.1

instance (type : KeyType) : KeyFuncs type.Key :=
  match type with
  | .uLong32 => @KeyFuncs.mk (BitVec 32) ⟨hashFuncULong32⟩ hashCompareULong32
  | .uLong64 => @KeyFuncs.mk (BitVec 64) ⟨hashFuncULong64⟩ hashCompareULong64
  | .long => @KeyFuncs.mk (BitVec 64) ⟨hashFuncLong⟩ hashCompareLong
  | .pointer => @KeyFuncs.mk (BitVec 64) ⟨hashFuncPointer⟩ hashComparePointer
  | .string => @KeyFuncs.mk CString ⟨hashFuncString⟩ hashCompareString

theorem toInt_eq_zero {w : ℕ} {a : BitVec w} : a.toInt = 0 ↔ a = 0#w := by
  rw [← BitVec.toInt_zero, BitVec.toInt_inj]

theorem hashCompareULong32_eq_zero {a b : BitVec 32} : hashCompareULong32 a b = 0 ↔ a = b := by
  rw [hashCompareULong32, toInt_eq_zero]
  bv_omega

theorem hashCompareULong64_eq_zero {a b : BitVec 64} :
    hashCompareULong64 a b = 0 ↔ a.setWidth 32 = b.setWidth 32 := by
  rw [hashCompareULong64, toInt_eq_zero]
  bv_omega

theorem hashComparePointer_eq_zero {a b : BitVec 64} : hashComparePointer a b = 0 ↔ a = b := by
  rw [hashComparePointer]
  split_ifs with hne
  · exact iff_of_false one_ne_zero hne
  · exact iff_of_true rfl (not_not.mp hne)

theorem strcmp_eq_zero {s t : List (BitVec 8)} (hs : 0 ∉ s) (ht : 0 ∉ t) :
    strcmp s t = 0 ↔ s = t := by
  induction s generalizing t with
  | nil =>
      cases t with
      | nil => exact iff_of_true rfl rfl
      | cons d ds =>
          have hd : d ≠ 0 := fun heq => ht (heq ▸ List.mem_cons_self)
          have : d.toNat ≠ 0 := fun heq => hd (BitVec.eq_of_toNat_eq heq)
          rw [strcmp]
          refine iff_of_false (by omega) (by simp)
  | cons c cs ih =>
      cases t with
      | nil =>
          have hc : c ≠ 0 := fun heq => hs (heq ▸ List.mem_cons_self)
          have : c.toNat ≠ 0 := fun heq => hc (BitVec.eq_of_toNat_eq heq)
          rw [strcmp]
          refine iff_of_false (by omega) (by simp)
      | cons d ds =>
          rw [strcmp]
          split_ifs with heq
          · rw [ih (fun h => hs (List.mem_cons_of_mem c h)) fun h => ht (List.mem_cons_of_mem d h),
              heq, List.cons.injEq, eq_self, true_and]
          · have : c.toNat ≠ d.toNat := fun h => heq (BitVec.eq_of_toNat_eq h)
            refine iff_of_false (by omega) ?_
            simp [heq]

/-- The compare function of a key type tells two keys apart only as far as an `int` does. -/
def KeyType.Confuses : (type : KeyType) → type.Key → type.Key → Prop
  | .uLong64, (a : BitVec 64), (b : BitVec 64) => a ≠ b ∧ a.toNat % 2 ^ 32 = b.toNat % 2 ^ 32
  | .long, (a : BitVec 64), (b : BitVec 64) => a ≠ b ∧ a.toNat % 2 ^ 32 = b.toNat % 2 ^ 32
  | _, _, _ => False

theorem setWidth_eq_iff {a b : BitVec 64} :
    a.setWidth 32 = b.setWidth 32 ↔ a.toNat % 2 ^ 32 = b.toNat % 2 ^ 32 := by
  rw [← BitVec.toNat_inj, BitVec.toNat_setWidth, BitVec.toNat_setWidth]

/-- Keys of one class are equal or confused. -/
theorem KeyType.compareFunc_eq_zero (type : KeyType) (a b : type.Key) :
    KeyFuncs.compareFunc a b = 0 ↔ a = b ∨ type.Confuses a b := by
  have hwide : ∀ a b : BitVec 64, a.setWidth 32 = b.setWidth 32 ↔
      a = b ∨ a ≠ b ∧ a.toNat % 2 ^ 32 = b.toNat % 2 ^ 32 := by
    intro a b
    rw [setWidth_eq_iff]
    by_cases heq : a = b
    · simp only [heq, true_or]
    · simp only [heq, ne_eq, not_false_eq_true, true_and, false_or]
  cases type with
  | uLong32 => exact hashCompareULong32_eq_zero.trans (or_false _).symm.to_iff
  | uLong64 => exact hashCompareULong64_eq_zero.trans (hwide a b)
  | long => exact hashCompareULong64_eq_zero.trans (hwide a b)
  | pointer => exact hashComparePointer_eq_zero.trans (or_false _).symm.to_iff
  | string =>
      exact ((strcmp_eq_zero a.2 b.2).trans Subtype.ext_iff.symm).trans (or_false _).symm.to_iff

theorem KeyType.Confuses.ne {type : KeyType} {a b : type.Key} (h : type.Confuses a b) : a ≠ b := by
  cases type with
  | uLong64 => exact h.1
  | long => exact h.1
  | uLong32 => exact h.elim
  | pointer => exact h.elim
  | string => exact h.elim

/-- A compare function that compares images is lawful when the hash is taken of the image. -/
theorem lawfulKeyFuncs_of {κ γ : Type*} [KeyFuncs κ] (f : κ → γ)
    (hcompare : ∀ a b : κ, KeyFuncs.compareFunc a b = 0 ↔ f a = f b)
    (hhash : ∀ a b : κ, f a = f b → HashFunc.hashFunc a = HashFunc.hashFunc b) :
    LawfulKeyFuncs κ where
  equivalence := by
    simp only [hcompare]
    exact ⟨fun a => rfl, Eq.symm, Eq.trans⟩
  hashFunc_eq a b hsame := hhash a b ((hcompare a b).mp hsame)

instance (type : KeyType) : LawfulKeyFuncs type.Key :=
  match type with
  | .uLong32 => lawfulKeyFuncs_of id (fun _ _ => hashCompareULong32_eq_zero)
      fun _ _ => congrArg hashFuncULong32
  | .uLong64 => lawfulKeyFuncs_of (BitVec.setWidth 32) (fun _ _ => hashCompareULong64_eq_zero)
      fun _ _ => congrArg BitVec.toInt
  | .long => lawfulKeyFuncs_of (BitVec.setWidth 32) (fun _ _ => hashCompareULong64_eq_zero)
      fun _ _ => congrArg BitVec.toInt
  | .pointer => lawfulKeyFuncs_of id (fun _ _ => hashComparePointer_eq_zero)
      fun _ _ => congrArg hashFuncPointer
  | .string => lawfulKeyFuncs_of id
      (fun a b => (strcmp_eq_zero a.2 b.2).trans Subtype.ext_iff.symm)
      fun _ _ => congrArg hashFuncString

end HtableKeys

end GridEngine
